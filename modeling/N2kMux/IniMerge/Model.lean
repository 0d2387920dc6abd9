import N2kMux.Lib.Lines
import N2kMux.Lib.Table

/-!
# Merging an INI file (inimerge.h, inimerge.c)

The new text is indexed, then the old one is copied line by line, with the
values replaced.  The output is the list of the strings emitted, in order; they
are written to the buffer at the end.
-/

namespace N2kMux
namespace IniMerge

/-- `INIM_MAX_ENTRIES` -/
def maxEntries : Nat := 256
/-- `INIM_MAX_SECTIONS` -/
def maxSections : Nat := 24
/-- `INIM_SEC_LEN` -/
def secLen : Nat := 32
/-- `INIM_KEY_LEN` -/
def keyLen : Nat := 64
/-- `INIM_VAL_LEN` -/
def valLen : Nat := 256

/-- `entry_t` -/
structure Entry where
  sec : CBuf secLen
  key : CBuf keyLen
  val : CBuf valLen
  done : Bool
deriving DecidableEq

/-- The blanks that `cpy_trim` removes in front. -/
def isTab (c : Char) : Bool := c = ' ' || c = '\t'

/-- The blanks that `cpy_trim` removes at the end. -/
def isTail (c : Char) : Bool := c = ' ' || c = '\t' || c = '\r'

/-- `cpy_trim` -/
def cpyTrim (n : Nat) (s : Text) : CBuf n := .ofText n (CText.strip isTab isTail s)

/-- `canon_section` -/
def canonSection (s : CBuf secLen) : CBuf secLen :=
  let low := CText.lower s.text
  if low = "priorities".toList ∨ low = "priorites".toList then
    .ofText secLen "priority".toList
  else if low = "rates".toList then .ofText secLen "rate".toList
  else if low = "talkers".toList then .ofText secLen "talker".toList
  else if low = "sentences".toList then .ofText secLen "sentence".toList
  else .ofText secLen low

/-- What precedes the comment of a line. -/
def beforeComment (line : Text) : Text :=
  line.takeWhile (fun c => c ≠ ';' && c ≠ '#')

/-- The comment of a line (`comment_at`); empty when there is none. -/
def comment (line : Text) : Text :=
  line.dropWhile (fun c => c ≠ ';' && c ≠ '#')

/-- `parse_section` -/
def parseSection (line : Text) : Option (CBuf secLen) :=
  match line.dropWhile isTab with
  | '[' :: s => (CText.strchr ']' s).map fun r => canonSection (cpyTrim secLen r.1)
  | _ => none

/-- `parse_kv`: the key, and what stands on each side of the `=`. -/
def parseKv (line : Text) : Option (CBuf keyLen × Text × Text) :=
  (CText.strchr '=' (beforeComment line)).bind fun r =>
    let key : CBuf keyLen := cpyTrim keyLen r.1
    if key.text = [] then none else some (key, r.1, r.2)

/-! ### Indexing the new text -/

/-- The variables of `index_new`. -/
structure Index where
  cur : CBuf secLen
  ents : Table maxEntries Entry
  secs : Table maxSections (CBuf secLen)

/-- One line of `index_new`. -/
def indexLine (ix : Index) (line : Text) : Option Index :=
  match parseSection line with
  | some sec =>
      if sec ∈ ix.secs.items then some { ix with cur := sec }
      else (ix.secs.push? sec).map fun t => { ix with cur := sec, secs := t }
  | none =>
      match parseKv line with
      | some (key, _, val) =>
          let e : Entry :=
            { sec := ix.cur, key := key, val := cpyTrim valLen val, done := false }
          (ix.ents.push? e).map fun t => { ix with ents := t }
      | none => some ix

/-- `index_new` -/
def indexNew (text : Text) : Option Index :=
  (CText.lines text).foldlM indexLine
    { cur := .empty, ents := .empty, secs := .empty }

/-! ### Merging -/

/-- The test of `flush_section`. -/
def pending (sec : CBuf secLen) (e : Entry) : Bool :=
  !e.done && decide (e.sec = sec)

/-- `flush_section`: what it emits, and the entries after it. -/
def flushSection (ents : List Entry) (sec : CBuf secLen) :
    List Text × List Entry :=
  ((ents.filter (pending sec)).flatMap fun e =>
      [e.key.text, " = ".toList, e.val.text, ['\n']],
    ents.map fun e => if pending sec e then { e with done := true } else e)

/-- The variables of the loop of `ini_merge`. -/
structure Merge where
  cur : CBuf secLen
  ents : List Entry
  seen : Nat → Bool

/-- The entry that an old line takes its value from. -/
def found (ents : List Entry) (cur : CBuf secLen) (key : CBuf keyLen) :
    Option Nat :=
  ents.findIdx? (fun e => !e.done && decide (e.sec = cur ∧ e.key = key))

/-- The line that replaces an old one: what precedes the value, the value, the
comment in its column. -/
def replaced (line before after : Text) (val : CBuf valLen) : List Text :=
  [before ++ ['='], [' '], val.text] ++
    (if comment line = [] then []
      else
        let oldw := after.length
        let neww := 1 + val.text.length
        List.replicate (if neww < oldw then oldw - neww else 2) [' '] ++
          [comment line]) ++
    [['\n']]

/-- One old line of `ini_merge`: what it emits, and the variables after it. -/
def mergeLine (secs : List (CBuf secLen)) (st : Merge) (line : Text) :
    List Text × Merge :=
  match parseSection line with
  | some sec =>
      let (out, ents) :=
        if st.cur.text ≠ [] then flushSection st.ents st.cur else ([], st.ents)
      (out ++ [line, ['\n']],
        { cur := sec, ents := ents
          seen := fun i => decide (secs[i]? = some sec) || st.seen i })
  | none =>
      match parseKv line with
      | some (key, before, after) =>
          match found st.ents st.cur key with
          | some i =>
              match st.ents[i]? with
              | some e =>
                  (replaced line before after e.val,
                    { st with ents := st.ents.modify i fun e =>
                        { e with done := true } })
              | none => ([], st)
          | none => ([], st)
      | none => ([line, ['\n']], st)

/-- The loop of `ini_merge` on the old lines. -/
def mergeLines (secs : List (CBuf secLen)) (st : Merge) :
    List Text → List Text × Merge
  | [] => ([], st)
  | line :: rest =>
      let (out, st) := mergeLine secs st line
      let (out', st) := mergeLines secs st rest
      (out ++ out', st)

/-- The sections of the new text that the old one does not have, from the
section `i` on. -/
def newSections (seen : Nat → Bool) (ents : List Entry) :
    Nat → List (CBuf secLen) → List Text
  | _, [] => []
  | i, sec :: rest =>
      if seen i || !ents.any (pending sec) then newSections seen ents (i + 1) rest
      else
        let (out, ents') := flushSection ents sec
        [['\n', '['], sec.text, [']', '\n']] ++ out ++
          newSections seen ents' (i + 1) rest

/-- The strings that `ini_merge` emits. -/
def emitted (ix : Index) (old : Text) : List Text :=
  let (out, st) := mergeLines ix.secs.items
    { cur := .empty, ents := ix.ents.items, seen := fun _ => false }
    (CText.lines old)
  let (out', ents) :=
    if st.cur.text ≠ [] then flushSection st.ents st.cur else ([], st.ents)
  out ++ out' ++ newSections st.seen ents 0 ix.secs.items

/-- `out_t`: what was written, and whether all of it fitted. -/
structure Out where
  buf : Text
  ok : Bool

/-- `emit`, for a buffer of `cap` characters. -/
def emit (cap : Nat) (o : Out) (s : Text) : Out :=
  if !o.ok then o
  else if cap < o.buf.length + s.length + 1 then { o with ok := false }
  else { o with buf := o.buf ++ s }

/-- `ini_merge`, into a buffer of `outsz` characters: the merged text. -/
def iniMerge (old new : Text) (outsz : Nat) : Option Text :=
  if outsz = 0 then none
  else
    (indexNew new).bind fun ix =>
      let o := (emitted ix old).foldl (emit outsz) { buf := [], ok := true }
      if o.ok then some o.buf else none

end IniMerge
end N2kMux
