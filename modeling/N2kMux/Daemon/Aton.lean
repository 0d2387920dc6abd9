import N2kMux.Lib.Quoted
import N2kMux.Lib.Values

/-!
# Aids to navigation on their way to n2kd (daemon.c)

`run_ais_json` rewrites the text of a 129041 line: `aton_force_vdm` sets a digit to 0,
`aton_upcase_name` raises letters.  `message` is the value that the rewritten line is
meant to have, and `Kept` says of a line, token by token, that the searches of the two
functions lead to the right places and that what they overwrite may be overwritten.
-/

namespace N2kMux
namespace Aton

open Json (Token Sym Tree codeUnits endsIn)

/-! ### The rewriting -/

def transceiverKey : Text := "AIS Transceiver information".toList

def nameKey : Text := "AtoN Name".toList

def valueKey : Text := "value".toList

/-- The digits that n2kd takes for "own information". -/
def isOwnDigit (c : Char) : Bool := c = '2' || c = '3' || c = '4'

/-- The end of `aton_force_vdm`, behind `"value":`. -/
def clearDigit (v : Text) : Text :=
  v.takeWhile (· = ' ') ++
    match v.dropWhile (· = ' ') with
    | [] => []
    | c :: t => if isOwnDigit c then '0' :: t else c :: t

/-- `aton_force_vdm` -/
def atonForceVdm (line : Text) : Text :=
  match CText.strstr line (Json.quoted transceiverKey) with
  | none => line
  | some (a, f) =>
      match CText.strstr f (Json.quoted valueKey ++ [':']) with
      | none => line
      | some (b, v) => a ++ (b ++ (v.take 8 ++ clearDigit (v.drop 8)))

def upcase (c : Char) : Char :=
  if 'a' ≤ c ∧ c ≤ 'z' then Char.ofNat (c.toNat - 32) else c

/-- The loop of `aton_upcase_name`: up to the first quote. -/
def upcaseName : Text → Text
  | [] => []
  | c :: t => if c = '"' then c :: t else upcase c :: upcaseName t

/-- `aton_upcase_name` -/
def atonUpcaseName (line : Text) : Text :=
  match CText.strstr line (Json.quoted nameKey ++ [':', '"']) with
  | none => line
  | some (a, f) => a ++ (f.take 13 ++ upcaseName (f.drop 13))

/-- The line that `run_ais_json` forwards. -/
def sent (pgn : Int) (line : Text) : Text :=
  if pgn = 129041 then atonUpcaseName (atonForceVdm line) else line

/-! ### The message that is meant -/

/-- The fields that change. -/
inductive Part
  | transceiver
  | name
  | other
deriving DecidableEq

def Part.of (key : List ℕ) : Part :=
  if key = codeUnits transceiverKey then .transceiver
  else if key = codeUnits nameKey then .name
  else .other

/-- "Own information". -/
def Own (q : ℚ) : Prop := q = 2 ∨ q = 3 ∨ q = 4

instance (q : ℚ) : Decidable (Own q) := inferInstanceAs (Decidable (_ ∨ _))

def IsLower (n : ℕ) : Prop := 97 ≤ n ∧ n ≤ 122

instance (n : ℕ) : Decidable (IsLower n) := inferInstanceAs (Decidable (_ ∧ _))

def upcaseUnit (n : ℕ) : ℕ := if IsLower n then n - 32 else n

/-- What a field becomes. -/
def Part.amend : Part → Tree → Tree
  | .transceiver, .num q => .num (if Own q then 0 else q)
  | .name, .str u => .str (u.map upcaseUnit)
  | _, v => v

/-- A field is a value or an object that has it under `"value"`. -/
def Part.amendValue (p : Part) : Tree → Tree
  | .obj l => .obj (l.map fun m =>
      (m.1, if m.1 = codeUnits valueKey then p.amend m.2 else m.2))
  | v => p.amend v

def amendFields : Tree → Tree
  | .obj l => .obj (l.map fun m => (m.1, (Part.of m.1).amendValue m.2))
  | v => v

/-- The message with its transceiver information and its name amended. -/
def message : Tree → Tree
  | .obj l => .obj (l.map fun m =>
      (m.1, if m.1 = codeUnits "fields".toList then amendFields m.2 else m.2))
  | v => v

/-! ### Which field a symbol belongs to -/

/-- Symbols that stay. -/
def plain (v : Tree) : List (Part × Sym) := v.syms.map fun s => (.other, s)

def Part.leaf (p : Part) : Tree → List (Part × Sym)
  | .num q => [(p, .num q)]
  | .str u => [(p, .str u)]
  | v => plain v

/-- The symbols of an object, from those of its members. -/
def objectMarks (f : List ℕ → Tree → List (Part × Sym)) (l : List (List ℕ × Tree)) :
    List (Part × Sym) :=
  (.other, .punct '\x7b') ::
    ((l.flatMap fun m =>
        (.other, .punct ',') :: (.other, .str m.1) :: (.other, .punct ':') ::
          f m.1 m.2).tail ++
      [(.other, .punct '\x7d')])

def Part.valueMarks (p : Part) : Tree → List (Part × Sym)
  | .obj l => objectMarks (fun k v =>
      if k = codeUnits valueKey then p.leaf v else plain v) l
  | v => p.leaf v

def fieldsMarks : Tree → List (Part × Sym)
  | .obj l => objectMarks (fun k v => (Part.of k).valueMarks v) l
  | v => plain v

/-- The symbols of a message, each with the field whose value it is. -/
def marks : Tree → List (Part × Sym)
  | .obj l => objectMarks (fun k v =>
      if k = codeUnits "fields".toList then fieldsMarks v else plain v) l
  | v => plain v

/-! ### Where the searches lead -/

def isStr : Token → Bool
  | .str _ => true
  | _ => false

/-- A number that begins with 2, 3 or 4. -/
def isOwnWord : Token → Bool
  | .word (c :: _) => isOwnDigit c
  | _ => false

/-- What `aton_force_vdm` looks for. -/
inductive VdmSeek
  | transceiver
  | value
  | colon
  | digit

/-- The tokens; the one that `aton_force_vdm` changes is marked. -/
def vdmReach : VdmSeek → List Token → List Bool
  | _, [] => []
  | .transceiver, t :: ts =>
      false :: vdmReach (if endsIn transceiverKey t then .value else .transceiver) ts
  | .value, t :: ts =>
      false :: vdmReach
        (if endsIn valueKey t ∧ ts.head? = some (.punct ':') then .colon else .value) ts
  | .colon, _ :: ts => false :: vdmReach .digit ts
  | .digit, t :: ts =>
      if t = .blank ' ' then false :: vdmReach .digit ts
      else isOwnWord t :: ts.map fun _ => false

/-- What `aton_upcase_name` looks for. -/
inductive NameSeek
  | name
  | colon
  | text

/-- The string that `aton_upcase_name` goes through is marked. -/
def nameReach : NameSeek → List Token → List Bool
  | _, [] => []
  | .name, t :: ts =>
      false :: nameReach
        (if endsIn nameKey t ∧ ts.head? = some (.punct ':') ∧ ts.tail.head?.any isStr
          then .colon else .name) ts
  | .colon, _ :: ts => false :: nameReach .text ts
  | .text, t :: ts => isStr t :: ts.map fun _ => false

/-- The tokens, with marks on those that are changed. -/
def reached (ts : List Token) : List (Token × Bool) :=
  ts.zip (List.zipWith or (vdmReach .transceiver ts) (nameReach .name ts))

/-! ### What may be overwritten -/

/-- Raised up to its first quote, a string says the same in capitals: no escape in front
of that quote has a letter, and no letter a to z follows the quote. -/
def Shouted : Text → Prop
  | [] => True
  | c :: t =>
      if c = '\\' then
        match t with
        | [] => False
        | e :: t =>
            if e = '"' then ∀ u, Json.Reads t u → ∀ n ∈ u, ¬ IsLower n
            else (e = '\\' ∨ e = '/') ∧ Shouted t
      else Shouted t

/-- No letter a to z stands in front of the first quote. -/
def Calm (raw : Text) : Prop := ∀ c ∈ raw.takeWhile (· ≠ '"'), ¬ IsLower c.toNat

/-- What is required of a token, from its symbol, its field and its mark. -/
def Fits (m : Part × Sym) (p : Token × Bool) : Prop :=
  match p.1, m with
  | .word w, (.transceiver, .num q) =>
      if Own q then p.2 = true ∧ Json.Round w.tail else p.2 = false
  | .word _, _ => p.2 = false
  | .str raw, (.name, .str u) =>
      if p.2 = true then Shouted raw else ∀ n ∈ u, ¬ IsLower n
  | .str raw, _ => p.2 = true → Calm raw
  | _, _ => True

/-- The searches lead to the transceiver information if that is 2, 3 or 4, written with
one digit, and to the name if that has letters to raise, none of them in or behind an
escape that is in the way; and to nothing else that they would change. -/
def Kept (line : Text) (v : Tree) : Prop :=
  ∀ ts, Json.lex .outside line = some ts →
    List.Forall₂ Fits (marks v) ((reached ts).filter fun p => p.1.isSolid)

end Aton
end N2kMux
