import N2kMux.Jsonl.Message
import N2kMux.Lib.Scan

/-!
# The line parser (jsonl.c)

The C parser moves a pointer over the line; here each reader takes the rest of
the line and returns what is behind it.  `none` and `Outcome.malformed` are the
returned `NULL`.  The five member loops are `Scan.loop` with the entry of each;
the fuel is not part of the C code, it makes the definitions total whatever the
line is.

`strtod` is a parameter: numbers are what the C library reads at that place.
-/

namespace N2kMux
namespace Jsonl

variable {α : Type}

/-- White space of `skip_ws`. -/
def isWs (c : Char) : Bool :=
  c = ' ' || c = '\t' || c = '\r' || c = '\n'

/-- `skip_ws` -/
def skipWs (p : Text) : Text := p.dropWhile isWs

/-- The character after a backslash, other than `u`. -/
def unescape (c : Char) : Char :=
  if c = 'n' then '\n'
  else if c = 't' then '\t'
  else if c = 'r' then '\r'
  else c

/-- The copying loop of `parse_string`, behind the opening quote; `hex` counts
the digits of a `\\uXXXX` still to be stepped over. -/
def parseStringLoop {dstsz : Nat} :
    Text → Nat → CBuf dstsz → Option (Text × CBuf dstsz)
  | [], _, _ => none
  | _ :: p, hex + 1, dst => parseStringLoop p hex dst
  | c :: p, 0, dst =>
      if c = '"' then some (p, dst)
      else if c = '\\' then
        match p with
        | [] => none
        | e :: q =>
            if e = 'u' then
              parseStringLoop q (if 4 ≤ q.length then 4 else 0) (dst.push '?')
            else parseStringLoop q 0 (dst.push (unescape e))
      else parseStringLoop p 0 (dst.push c)

/-- `parse_string` -/
def parseString (p : Text) (dstsz : Nat) : Option (Text × CBuf dstsz) :=
  match p with
  | [] => none
  | c :: q => if c = '"' then parseStringLoop q 0 .empty else none

/-- The string branch of `skip_value`, behind the opening quote. -/
def skipString : Text → Option Text
  | [] => none
  | c :: p =>
      if c = '"' then some p
      else if c = '\\' then
        match p with
        | [] => none
        | _ :: q => skipString q
      else skipString p

/-- The bracket loop of `skip_value`. -/
def skipNested (opn cls : Char) : Text → Nat → Bool → Option Text
  | [], _, _ => none
  | c :: p, depth, true =>
      if c = '\\' then
        match p with
        | [] => none
        | _ :: q => skipNested opn cls q depth true
      else skipNested opn cls p depth (c ≠ '"')
  | c :: p, depth, false =>
      if c = '"' then skipNested opn cls p depth true
      else if c = opn then skipNested opn cls p (depth + 1) false
      else if c = cls then
        if depth = 1 then some p else skipNested opn cls p (depth - 1) false
      else skipNested opn cls p depth false

/-- What ends a number, `true`, `false` or `null` in `skip_value`. -/
def isDelim (c : Char) : Bool := c = ',' || c = '}' || c = ']'

/-- `skip_value` -/
def skipValue (p : Text) : Option Text :=
  match skipWs p with
  | [] => some []
  | c :: q =>
      if c = '"' then skipString q
      else if c = '{' then skipNested '{' '}' (c :: q) 0 false
      else if c = '[' then skipNested '[' ']' (c :: q) 0 false
      else some ((c :: q).dropWhile (fun d => !isDelim d))

/-- `skip_ws`, a colon. -/
def skipColon (p : Text) : Option Text :=
  match skipWs p with
  | ':' :: q => some q
  | _ => none

/-- A key of a buffer of `n` characters and its colon. -/
def parseKey (p : Text) (n : Nat) : Option (Text × CBuf n) :=
  (parseString p n).bind fun r => (skipColon r.1).map fun q => (q, r.2)

/-- `parseKey` as a reading. -/
def readKey (p : Text) (n : Nat) : Outcome (CBuf n) :=
  .ofRead (parseKey p n) id

/-- The variables of the `name/value` loop of `parse_field_value`. -/
structure NvState (α : Type) where
  num : Double α
  str : CBuf valLen
  gotValue : Bool
  gotName : Bool

/-- One turn of the `name/value` loop, at something other than `}` and `,`. -/
def nvEntry (strtod : Text → Double α) (_fuel : Nat) (q : Text)
    (st : NvState α) : Outcome (NvState α) :=
  if q.head? ≠ some '"' then .ofOption (skipValue q) st
  else
    (readKey q 24).andThen fun q k =>
      let q := skipWs q
      if k.text = "value".toList then
        if q.head? = some '"' then
          .ofRead (parseString q valLen) fun s =>
            { st with str := s, num := strtod s.text, gotValue := true }
        else
          .ofOption (skipValue q) { st with num := strtod q, gotValue := true }
      else if k.text = "name".toList then
        .ofRead (parseString q valLen) fun s =>
          { st with str := s, gotName := true }
      else .ofOption (skipValue q) st

/-- The `name/value` loop, behind the opening brace. -/
def nvLoop (strtod : Text → Double α) :
    Nat → Text → NvState α → Outcome (NvState α) :=
  Scan.loop isWs '}' (nvEntry strtod)

/-- A character that ends a scalar in `parse_field_value`. -/
def isScalarEnd (c : Char) : Bool := isDelim c || isWs c

/-- The last branch of `parse_field_value`: number, `true`, `false`, `null`. -/
def parseScalar [Zero α] [One α] (strtod : Text → Double α) (start : Text)
    (f : MsgField α) : Text × MsgField α :=
  let tok := start.takeWhile (fun c => !isScalarEnd c)
  let rest := start.dropWhile (fun c => !isScalarEnd c)
  if tok = [] then (rest, { f with type := .null })
  else if tok = "null".toList then (rest, { f with type := .null })
  else if tok = "true".toList then
    (rest, { f with type := .num, num := 1, str := .ofText _ "true".toList })
  else if tok = "false".toList then
    (rest, { f with type := .num, num := 0, str := .ofText _ "false".toList })
  else
    (rest, { f with type := .num, num := strtod start, str := .ofText _ tok })

/-- `parse_field_value` -/
def parseFieldValue [Zero α] [One α] (strtod : Text → Double α) (fuel : Nat)
    (p : Text) (f : MsgField α) : Outcome (MsgField α) :=
  let p := skipWs p
  if p.head? = some '"' then
    .ofRead (parseString p valLen) fun s => { f with type := .str, str := s }
  else if p.head? = some '{' then
    (nvLoop strtod fuel p.tail
        { num := 0, str := .empty, gotValue := false, gotName := false }).andThen
      fun q st => .ok q
        { f with
          type := if !st.gotValue && !st.gotName then .null else .nv
          num := st.num
          str := st.str }
  else if p.head? = some '[' then
    .ofOption (skipValue p) { f with type := .null }
  else
    let r := parseScalar strtod p f
    .ok r.1 r.2

/-- One turn of the loop of `parse_list_item`. -/
def listItemEntry [Zero α] [One α] (strtod : Text → Double α) (fuel : Nat)
    (p : Text) (it : ListItem α) : Outcome (ListItem α) :=
  if p.head? ≠ some '"' then .ofOption (skipValue p) it
  else
    (readKey p keyLen).andThen fun q k =>
      (parseFieldValue strtod fuel q { MsgField.zero with key := k }).andThen
        fun r f => .ok r (it.pushOrDrop f)

/-- `parse_list_item`, behind the opening brace. -/
def parseListItem [Zero α] [One α] (strtod : Text → Double α) :
    Nat → Text → ListItem α → Outcome (ListItem α) :=
  Scan.loop isWs '}' (listItemEntry strtod)

/-- One turn of the loop of `parse_list`. -/
def listEntry [Zero α] [One α] (strtod : Text → Double α) (fuel : Nat)
    (p : Text) (out : Msg α) : Outcome (Msg α) :=
  if p.head? = some '{' ∧ out.list.items.length < maxList then
    (parseListItem strtod fuel p.tail .empty).andThen
      fun q it => .ok q { out with list := out.list.pushOrDrop it }
  else .ofOption (skipValue p) out

/-- `parse_list`, behind the opening bracket. -/
def parseList [Zero α] [One α] (strtod : Text → Double α) :
    Nat → Text → Msg α → Outcome (Msg α) :=
  Scan.loop isWs ']' (listEntry strtod)

/-- One turn of the loop of `parse_fields`. -/
def fieldsEntry [Zero α] [One α] (strtod : Text → Double α) (fuel : Nat)
    (p : Text) (out : Msg α) : Outcome (Msg α) :=
  if p.head? ≠ some '"' then .ofOption (skipValue p) out
  else
    (readKey p keyLen).andThen fun q k =>
      if k.text = "list".toList ∧ (skipWs q).head? = some '[' then
        parseList strtod fuel (skipWs q).tail out
      else
        (parseFieldValue strtod fuel q { MsgField.zero with key := k }).andThen
          fun r f => .ok r { out with fields := out.fields.pushOrDrop f }

/-- `parse_fields` -/
def parseFields [Zero α] [One α] (strtod : Text → Double α) (fuel : Nat)
    (p : Text) (out : Msg α) : Outcome (Msg α) :=
  if p.head? = some '{' then
    Scan.loop isWs '}' (fieldsEntry strtod) fuel p.tail out
  else .malformed

/-- `(int)strtol(p, NULL, 10)` -/
def readInt (p : Text) : Int := CText.castInt (CText.strtol p)

/-- One turn of the loop of `jsonl_parse`. -/
def lineEntry [Zero α] [One α] (strtod : Text → Double α) (fuel : Nat)
    (p : Text) (out : Msg α) : Outcome (Msg α) :=
  if p.head? ≠ some '"' then .ofOption (skipValue p) out
  else
    (readKey p keyLen).andThen fun q key =>
      let q := skipWs q
      if key.text = "src".toList then
        .ofOption (skipValue q) { out with src := readInt q, hasSrc := true }
      else if key.text = "pgn".toList then
        .ofOption (skipValue q) { out with pgn := readInt q, hasPgn := true }
      else if key.text = "prio".toList then
        .ofOption (skipValue q) { out with prio := readInt q, hasPrio := true }
      else if key.text = "dst".toList then
        .ofOption (skipValue q) { out with dst := readInt q, hasDst := true }
      else if key.text = "timestamp".toList then
        .ofRead (parseString q tsLen) fun s => { out with timestamp := s }
      else if key.text = "description".toList then
        .ofRead (parseString q descLen) fun s => { out with description := s }
      else if key.text = "fields".toList then
        parseFields strtod fuel q out
      else if key.text = "version".toList then
        .ofOption (skipValue q) { out with isHeader := true }
      else .ofOption (skipValue q) out

/-- `jsonl_parse` with bounded loops.  `malformed` is the returned `false`; the
contents of `out` are then not used by any caller. -/
def jsonlParseFuel [Zero α] [One α] (strtod : Text → Double α) (fuel : Nat)
    (line : Text) : Outcome (Msg α) :=
  let p := skipWs line
  if p.head? = some '{' then
    (Scan.loop isWs '}' (lineEntry strtod) fuel p.tail Msg.init).andThen
      fun q out => if out.isHeader || out.hasPgn then .ok q out else .malformed
  else .malformed

/-- `jsonl_parse`: with one turn more than there are characters, the loops end
whenever they end at all (`jsonlParseFuel_ends_iff`). -/
def jsonlParse [Zero α] [One α] (strtod : Text → Double α) (line : Text) :
    Option (Msg α) :=
  match jsonlParseFuel strtod (line.length + 1) line with
  | .ok _ out => some out
  | _ => none

end Jsonl
end N2kMux
