import N2kMux.Jsonl.Parser
import N2kMux.Lib.Printed

/-!
# Messages and their printed form

`Message` is what a line of the analyzer means, `Message.Renders` says which
lines print it, with any blanks between the tokens, any of the escapes, and the
members of the line in any order.  `Message.toMsg` is the `Msg` that stands for
the message, each part cut at its size.
-/

namespace N2kMux
namespace Jsonl

open Scan (Blanks Body)

variable {α : Type}

/-! ### JSON -/

/-- A digit and more. -/
def Digits (t : Text) : Prop := t ≠ [] ∧ ∀ c ∈ t, c.isDigit = true

/-- `frac` of the JSON grammar, or nothing. -/
def IsFrac (t : Text) : Prop := t = [] ∨ ∃ ds, Digits ds ∧ t = '.' :: ds

/-- `exp` of the JSON grammar, or nothing. -/
def IsExp (t : Text) : Prop :=
  t = [] ∨ ∃ e s ds, (e = 'e' ∨ e = 'E') ∧ (s = [] ∨ s = ['+'] ∨ s = ['-']) ∧
    Digits ds ∧ t = e :: (s ++ ds)

/-- The text of a number. -/
def IsNumber (t : Text) : Prop :=
  ∃ sign whole frac exp, (sign = [] ∨ sign = ['-']) ∧ Digits whole ∧
    IsFrac frac ∧ IsExp exp ∧ t = sign ++ (whole ++ (frac ++ exp))

/-- A number, by its text. -/
structure Number where
  text : Text
  wf : IsNumber text

/-- A JSON value. -/
inductive Json where
  | null
  | bool (b : Bool)
  | num (n : Number)
  | str (s : Text)
  | arr (l : List Json)
  | obj (l : List (Text × Json))

/-- The escapes, with what they stand for. -/
def escapes : List (Char × Char) :=
  [('n', '\n'), ('t', '\t'), ('r', '\r'), ('"', '"'), ('\\', '\\'), ('/', '/')]

/-- `t` prints the characters of `s`, each as it is or escaped. -/
inductive RendersChars : Text → Text → Prop
  | nil : RendersChars [] []
  | plain {c : Char} {s t : Text} (hquote : c ≠ '"') (hback : c ≠ '\\')
      (h : RendersChars s t) : RendersChars (c :: s) (c :: t)
  | escaped {e c : Char} {s t : Text} (he : (e, c) ∈ escapes)
      (h : RendersChars s t) : RendersChars (c :: s) ('\\' :: e :: t)

/-- `t` prints the string `s`. -/
def RendersStr (s t : Text) : Prop := ∃ u, RendersChars s u ∧ t = '"' :: (u ++ ['"'])

/-- The text of a boolean. -/
def boolText (b : Bool) : Text := if b then "true".toList else "false".toList

/-- `t` prints a key, a colon and a value. -/
inductive Keyed {β : Type} (R : β → Text → Prop) : Text × β → Text → Prop
  | mk {key k w w' t : Text} {x : β} (hk : RendersStr key k) (hw : Blanks isWs w)
      (hw' : Blanks isWs w') (hx : R x t) :
      Keyed R (key, x) (k ++ (w ++ ':' :: (w' ++ t)))

/-- `Keyed` for a member that has its key in itself. -/
def KeyedBy {β : Type} (key : β → Text) (R : β → Text → Prop) (x : β) :
    Text → Prop :=
  Keyed R (key x, x)

/-- The text of an array. -/
def bracketed (t : Text) : Text := '[' :: (t ++ [']'])

/-- The text of an object. -/
def braced (t : Text) : Text := '\x7b' :: (t ++ ['\x7d'])

/-- `t` prints a JSON value. -/
inductive Json.Renders : Json → Text → Prop
  | null : Renders .null "null".toList
  | bool (b : Bool) : Renders (.bool b) (boolText b)
  | num (n : Number) : Renders (.num n) n.text
  | str {s t : Text} (h : RendersStr s t) : Renders (.str s) t
  | arr {l : List Json} {t : Text} (h : Body isWs Renders l t) :
      Renders (.arr l) (bracketed t)
  | obj {l : List (Text × Json)} {t : Text} (h : Body isWs (Keyed Renders) l t) :
      Renders (.obj l) (braced t)

/-! ### Fields -/

/-- A key that is none of those with a meaning of their own. -/
def OtherKey (reserved : List Text) : Type := { k : Text // k ∉ reserved }

/-- A member of a `name/value` object. -/
inductive NvMember where
  | value (n : Number)
  | valueStr (s : Text)
  | name (s : Text)
  | other (k : OtherKey ["value".toList, "name".toList]) (j : Json)

namespace NvMember

def key : NvMember → Text
  | value _ | valueStr _ => "value".toList
  | name _ => "name".toList
  | other k _ => k.1

def RendersValue : NvMember → Text → Prop
  | value n, t => t = n.text
  | valueStr s, t | name s, t => RendersStr s t
  | other _ j, t => j.Renders t

/-- The string of a `"value"`. -/
def valueStr? : NvMember → Option Text
  | valueStr s => some s
  | _ => none

/-- The string of a `"name"`. -/
def name? : NvMember → Option Text
  | name s => some s
  | _ => none

/-- The number of a `"value"`; that of a string is read after the cut. -/
def num? (strtod : Text → Double α) : NvMember → Option (Double α)
  | value n => some (strtod n.text)
  | valueStr s => some (strtod (CBuf.ofText valLen s).text)
  | _ => none

end NvMember

/-- A `name/value` object, with its members in the order of the text. -/
structure NvObject where
  members : List NvMember
  distinct : (members.map NvMember.key).Nodup

namespace NvObject

/-- What one member says; there is one such member at most. -/
def the {β : Type} (f : NvMember → Option β) (o : NvObject) : Option β :=
  o.members.findSome? f

/-- The string of the object (jsonl.h): its name; without one, its value when
that is a string. -/
def named (o : NvObject) : Text :=
  (o.the NvMember.name?).getD ((o.the NvMember.valueStr?).getD [])

/-- The string value printed behind the name. -/
def behindName (o : NvObject) : Option Text :=
  (o.members.dropWhile fun m => m.name?.isNone).findSome? NvMember.valueStr?

/-- A string value behind the name is, up to the cut, the name again. -/
def NameKept (o : NvObject) : Prop :=
  ∀ s ∈ o.behindName, s.take (valLen - 1) = o.named.take (valLen - 1)

instance (o : NvObject) : Decidable o.NameKept :=
  inferInstanceAs (Decidable (∀ s ∈ o.behindName, _ = _))

/-- Whether the object has the structure `name/value`. -/
def isNv (o : NvObject) : Bool :=
  (o.members.any fun m => m.key = "value".toList) ||
    o.members.any fun m => m.key = "name".toList

end NvObject

/-- The value of a field. -/
inductive FieldVal where
  | num (n : Number)
  | str (s : Text)
  | bool (b : Bool)
  | null
  | arr (l : List Json)
  | nv (o : NvObject)

namespace FieldVal

inductive Renders : FieldVal → Text → Prop
  | num (n : Number) : Renders (.num n) n.text
  | str {s t : Text} (h : RendersStr s t) : Renders (.str s) t
  | bool (b : Bool) : Renders (.bool b) (boolText b)
  | null : Renders .null "null".toList
  | arr {l : List Json} {t : Text} (h : (Json.arr l).Renders t) : Renders (.arr l) t
  | nv {o : NvObject} {t : Text}
      (h : Body isWs (KeyedBy NvMember.key NvMember.RendersValue) o.members t) :
      Renders (.nv o) (braced t)

/-- The field of that key and value.  `strOf` is the string of a `name/value`
object. -/
def toField [Zero α] [One α] (strtod : Text → Double α) (strOf : NvObject → Text)
    (key : Text) (v : FieldVal) : MsgField α :=
  let f : MsgField α := { MsgField.zero with key := .ofText keyLen key }
  match v with
  | .num n => { f with type := .num, num := strtod n.text, str := .ofText _ n.text }
  | .str s => { f with type := .str, str := .ofText _ s }
  | .bool b =>
      { f with type := .num, num := if b then 1 else 0, str := .ofText _ (boolText b) }
  | .null | .arr _ => f
  | .nv o =>
      { f with
        type := if o.isNv then .nv else .null
        num := (o.the (NvMember.num? strtod)).getD 0
        str := .ofText _ (strOf o) }

end FieldVal

/-- A field, or a field of a list item: its key and its value. -/
abbrev Field := Text × FieldVal

def Field.Renders : Field → Text → Prop := Keyed FieldVal.Renders

/-- An item of the `"list"` array. -/
abbrev Item := List Field

def Item.Renders (it : Item) (t : Text) : Prop :=
  ∃ u, Body isWs Field.Renders it u ∧ t = braced u

/-- A member of `"fields"`; an array of the key `"list"` is not a field. -/
inductive FieldsMember where
  | field (f : Field) (hlist : ∀ l, f ≠ ("list".toList, .arr l))
  | list (items : List Item)

namespace FieldsMember

def key : FieldsMember → Text
  | field f _ => f.1
  | list _ => "list".toList

def RendersValue : FieldsMember → Text → Prop
  | field f _, t => f.2.Renders t
  | list items, t => ∃ u, Body isWs Item.Renders items u ∧ t = bracketed u

/-- The field. -/
def field? : FieldsMember → Option Field
  | field f _ => some f
  | list _ => none

/-- The items of the list. -/
def items : FieldsMember → List Item
  | field _ _ => []
  | list items => items

end FieldsMember

/-! ### Lines -/

/-- The keys of the line that have a meaning; `"version"` only sets a flag. -/
def lineKeys : List Text :=
  ["src".toList, "pgn".toList, "prio".toList, "dst".toList, "timestamp".toList,
    "description".toList, "fields".toList]

/-- An integer of type `int`. -/
abbrev CInt := { z : Int // CText.IsInt z }

/-- A member of the line. -/
inductive Member where
  | src (z : CInt)
  | pgn (z : CInt)
  | prio (z : CInt)
  | dst (z : CInt)
  | timestamp (s : Text)
  | description (s : Text)
  | fields (l : List FieldsMember)
  | other (k : OtherKey lineKeys) (j : Json)

namespace Member

def key : Member → Text
  | src _ => "src".toList
  | pgn _ => "pgn".toList
  | prio _ => "prio".toList
  | dst _ => "dst".toList
  | timestamp _ => "timestamp".toList
  | description _ => "description".toList
  | fields _ => "fields".toList
  | other k _ => k.1

def RendersValue : Member → Text → Prop
  | src z, t | pgn z, t | prio z, t | dst z, t => t = CText.decimalInt z.1
  | timestamp s, t | description s, t => RendersStr s t
  | fields l, t =>
      ∃ u, Body isWs (KeyedBy FieldsMember.key FieldsMember.RendersValue) l u ∧
        t = braced u
  | other _ j, t => j.Renders t

end Member

/-- A message of the analyzer. -/
structure Message where
  src : CInt
  pgn : CInt
  prio : CInt
  dst : CInt
  timestamp : Text
  description : Text
  fields : List FieldsMember
  others : List (OtherKey lineKeys × Json)

namespace Message

/-- Its members, in some order. -/
def members (m : Message) : List Member :=
  [.src m.src, .pgn m.pgn, .prio m.prio, .dst m.dst, .timestamp m.timestamp,
    .description m.description, .fields m.fields] ++
    m.others.map fun o => .other o.1 o.2

/-- `line` prints the message. -/
def Renders (m : Message) (line : Text) : Prop :=
  ∃ ms w t w', ms.Perm m.members ∧
    Body isWs (KeyedBy Member.key Member.RendersValue) ms t ∧
    Blanks isWs w ∧ Blanks isWs w' ∧ line = w ++ (braced t ++ w')

/-- Its fields. -/
def fieldList (m : Message) : List Field := m.fields.filterMap FieldsMember.field?

/-- The items of its list. -/
def items (m : Message) : List Item := m.fields.flatMap FieldsMember.items

/-- The values for which there is room. -/
def stored (m : Message) : List FieldVal :=
  (m.fieldList.take maxFields ++
    (m.items.take maxList).flatMap fun it => it.take listFields).map Prod.snd

/-- No stored `name/value` object has another string value behind its name. -/
def NamesKept (m : Message) : Prop := ∀ o, .nv o ∈ m.stored → o.NameKept

/-- The `Msg` of the message. -/
def toMsg [Zero α] [One α] (strtod : Text → Double α) (strOf : NvObject → Text)
    (m : Message) : Msg α :=
  let field := fun f : Field => f.2.toField strtod strOf f.1
  { hasSrc := true, hasPgn := true, hasPrio := true, hasDst := true
    src := m.src.1, pgn := m.pgn.1, prio := m.prio.1, dst := m.dst.1
    timestamp := .ofText tsLen m.timestamp
    description := .ofText descLen m.description
    fields := .ofList maxFields (m.fieldList.map field)
    list := .ofList maxList (m.items.map fun it => .ofList listFields (it.map field))
    isHeader := m.others.any fun o => o.1.1 = "version".toList }

end Message

end Jsonl
end N2kMux
