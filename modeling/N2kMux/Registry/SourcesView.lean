import N2kMux.Lib.Documents
import N2kMux.Lib.Lines
import N2kMux.Lib.Quoted
import N2kMux.Registry.Sources

/-!
# The published sources, read back (sources.c)

`sources_load` reads the file that `sources_write` publishes, line by line, and looks
for each key in the text of the line.  `sources_read_back` says that the document has
the same devices for this reader and for a JSON reader.
-/

namespace N2kMux
namespace Registry

open CText
open Json (quoted member separated codeUnits Tree)

/-! ### The reader -/

/-- The size of the line buffer of `sources_load`. -/
def sourcesLineLen : Nat := 4096

/-- The size of the pattern buffers. -/
def patLen : Nat := 48

/-- `src_entry_t` -/
structure SrcEntry where
  src : Int
  ident : CBuf identLen
  mfg : CBuf mfgLen
  model : CBuf modelLen
  serial : CBuf serialLen
  seen : UInt64
  pgns : Table maxPgns PgnCount
deriving DecidableEq

/-- The loop of `jget_str`, with room for so many characters. -/
def copyString : Nat → Text → Text
  | 0, _ => []
  | _ + 1, [] => []
  | n + 1, c :: t =>
      if c = '"' then []
      else if c = '\\' ∧ t ≠ [] then t.headD c :: copyString n t.tail
      else c :: copyString n t

/-- What follows the first `pat` of the line; the pattern is cut by its buffer. -/
def behindPat (line pat : Text) : Option Text :=
  Json.behind line (pat.take (patLen - 1))

/-- `jget_str`; a string that is not found leaves the zeroed buffer. -/
def jgetStr (sz : Nat) (line key : Text) : CBuf sz :=
  match behindPat line ('"' :: (key ++ "\":\"".toList)) with
  | none => .empty
  | some p => .ofText sz (copyString (sz - 1) p)

/-- `jget_num` -/
def jgetNum (line key : Text) : Option Int :=
  (behindPat line ('"' :: (key ++ "\":".toList))).map strtol

/-- The cast `(unsigned long)x`. -/
def castULong (x : Int) : UInt64 := UInt64.ofNat (x % 2 ^ 64).toNat

/-- The entry at a brace. -/
def pgnAt (o : Text) : PgnCount :=
  { pgn := castInt ((jgetNum o "pgn".toList).getD 0)
    count := castULong ((jgetNum o "count".toList).getD 0) }

/-- The loop over the PGNs, with room for so many. -/
def pgnLoop : Nat → Text → List PgnCount
  | 0, _ => []
  | n + 1, p =>
      if p = [] ∨ p.head? = some ']' then []
      else
        match strchr '\x7b' p with
        | none => []
        | some (a, rest) =>
            if ']' ∈ a then []
            else
              pgnAt ('\x7b' :: rest) ::
                match strchr '\x7d' ('\x7b' :: rest) with
                | none => []
                | some (_, p) => pgnLoop n p

theorem length_pgnLoop (n : Nat) (p : Text) : (pgnLoop n p).length ≤ n := by
  induction n generalizing p with
  | zero => exact Nat.le_refl 0
  | succ n ih =>
      rw [pgnLoop]
      split_ifs
      · exact Nat.zero_le _
      · split
        · exact Nat.zero_le _
        · split_ifs
          · exact Nat.zero_le _
          · rw [List.length_cons]
            split
            · exact Nat.succ_le_succ (Nat.zero_le _)
            · exact Nat.succ_le_succ (ih _)

/-- The entry of a line with the number `src`. -/
def entryOf (line : Text) (src : Int) : SrcEntry :=
  { src := castInt src
    ident := jgetStr _ line "ident".toList
    mfg := jgetStr _ line "mfg".toList
    model := jgetStr _ line "model".toList
    serial := jgetStr _ line "serial".toList
    seen := castULong ((jgetNum line "seen".toList).getD 0)
    pgns :=
      match Json.behind line "\"pgns\":[".toList with
      | none => .empty
      | some p => ⟨pgnLoop maxPgns p, length_pgnLoop _ p⟩ }

/-- One turn of the loop of `sources_load`; it stops when the table is full. -/
def loadLine (v : Table maxDevices SrcEntry) (line : Text) : Table maxDevices SrcEntry :=
  match jgetNum line "src".toList with
  | none => v
  | some src => v.pushOrDrop (entryOf line src)

/-- `sources_load`, on the contents of the file. -/
def sourcesLoad (file : Text) : Table maxDevices SrcEntry :=
  (fgets (sourcesLineLen - 1) file).foldl loadLine .empty

/-- A device as the readers see it. -/
def Device.view (d : Device) : SrcEntry :=
  { src := d.src, ident := d.ident, mfg := d.mfg, model := d.model, serial := d.serial
    seen := d.seen, pgns := d.pgns }

/-! ### The texts that are copied -/

theorem copyString_escapeQuotes {n : Nat} {s : Text}
    (h : s.length ≤ n) (t : Text) :
    copyString n (Json.escapeQuotes s ++ '"' :: t) = s := by
  induction s generalizing n with
  | nil =>
      cases n with
      | zero => rfl
      | succ n =>
          rw [Json.escapeQuotes, List.flatMap_nil, List.nil_append, copyString, if_pos rfl]
  | cons c s ih =>
      cases n with
      | zero => simp at h
      | succ n =>
          have ih := ih (n := n) (by simpa using h)
          rw [Json.escapeQuotes_cons]
          split_ifs with hc
          · have hback : ('\\' : Char) ≠ '"' := by decide
            rw [List.append_assoc, List.cons_append, copyString, if_neg hback,
              if_pos ⟨rfl, List.cons_ne_nil _ _⟩]
            exact congrArg (List.cons c) ih
          · rw [not_or] at hc
            rw [List.append_assoc, List.singleton_append, copyString, if_neg hc.1,
              if_neg fun hboth => hc.2 hboth.1, ih]

/-- A number below 2 to the 63 is read back, whatever its sign would be as an
`int`. -/
theorem strtol_decimal_append {n : Nat} {rest : Text}
    (hn : n < 2 ^ 63)
    (hrest : ∀ c ∈ rest.head?, c.isDigit = false) :
    strtol (decimal n ++ rest) = n := by
  obtain ⟨c, r, hcr⟩ := List.exists_cons_of_ne_nil (decimal_ne_nil n)
  have hc : c.isDigit = true := isDigit_of_mem_decimal (n := n) (by simp [hcr])
  rw [strtol_digits ⟨c, r ++ rest, by simp [hcr], hc⟩, digitsValue_decimal_append n hrest,
    clampLong]
  omega

theorem castULong_of_lt {x : UInt64}
    (h : x.toNat < 2 ^ 63) :
    castULong (x.toNat : Int) = x := by
  have hmod : ((x.toNat : Int) % 2 ^ 64).toNat = x.toNat := by omega
  rw [castULong, hmod]
  exact UInt64.ofNat_toNat

/-! ### The members of a line -/

/-- The keys that are searched for. -/
structure Key (w : Text) : Prop extends Json.Sought w where
  head : ∀ c ∈ w.head?, c ≠ ':' ∧ c ≠ ','
  fits : w.length + 5 ≤ patLen

instance (w : Text) : Decidable (Key w) :=
  decidable_of_iff (('"' ∉ w ∧ '\\' ∉ w ∧ w ≠ []) ∧
      (w.head? ≠ some ':' ∧ w.head? ≠ some ',') ∧ w.length + 5 ≤ patLen)
    ⟨fun h => ⟨⟨h.1.1, h.1.2.1, h.1.2.2⟩,
        fun _ hc => ⟨fun heq => h.2.1.1 (heq ▸ hc), fun heq => h.2.1.2 (heq ▸ hc)⟩, h.2.2⟩,
      fun h => ⟨⟨h.quote, h.back, h.ne⟩,
        ⟨fun hc => (h.head _ hc).1 rfl, fun hc => (h.head _ hc).2 rfl⟩, h.fits⟩⟩

theorem raw_escapeQuotes (s : Text) : Json.Raw (Json.escapeQuotes s) := by
  induction s with
  | nil => exact .nil
  | cons c s ih =>
      rw [Json.escapeQuotes_cons]
      split_ifs with hc
      · exact .escape c ih
      · rw [not_or] at hc
        exact .char hc.1 hc.2 ih

theorem quote_not_mem_decimalInt (x : Int) : '"' ∉ decimalInt x := by
  intro hmem
  rcases mem_decimalInt hmem with h | h
  · cases h
  · cases h

/-- The text of an object with these members. -/
def recordText (fields : List (Text × Text)) (t : Text) : Text :=
  '\x7b' :: (separated (fields.map fun f => member (quoted f.1) f.2) ++ t)

section Record

variable {w y t : Text} {l k : List (Text × Text)}

theorem behindPat_record {r u v : Text}
    (hw : Key w)
    (hr : r.length ≤ 1)
    (hpre : '"' ∉ y)
    (h : ∀ f ∈ l, Json.Passed w f)
    (hv : v ++ ((k.flatMap fun f => ',' :: member (quoted f.1) f.2) ++ t) = r ++ u) :
    behindPat (y ++ recordText (l ++ (w, v) :: k) t) (quoted w ++ ':' :: r) =
      some u := by
  have hfits : (quoted w ++ ':' :: r).length ≤ patLen - 1 := by
    have := hw.fits
    simp only [quoted, List.length_append, List.length_cons, List.length_nil]
    omega
  rw [behindPat, List.take_of_length_le hfits, Json.behind_skip hpre, recordText]
  exact (Json.behind_skip (y := ['\x7b']) (by simp) _ _).trans
    (Json.behind_record hw.toSought hw.head h hv)

/-- The number of a member. -/
theorem jgetNum_record {x : Int} {v : Text}
    (hw : Key w)
    (hpre : '"' ∉ y)
    (h : ∀ f ∈ l, Json.Passed w f)
    (hx : ∀ rest : Text, (∀ c ∈ rest.head?, c.isDigit = false) → strtol (v ++ rest) = x)
    (ht : ∀ c ∈ t.head?, c.isDigit = false) :
    jgetNum (y ++ recordText (l ++ (w, v) :: k) t) w = some x := by
  have hpat : '"' :: (w ++ "\":".toList) = quoted w ++ ':' :: [] := by simp [quoted]
  have hfound := behindPat_record (r := []) (v := v) (k := k) (t := t) hw
    (Nat.zero_le 1) hpre h (List.nil_append _).symm
  rw [jgetNum, hpat, hfound, Option.map_some, hx]
  cases k with
  | nil => exact ht
  | cons f k =>
      rintro c hc
      obtain rfl := Option.some.inj hc
      rfl

/-- The string of a member. -/
theorem jgetStr_record {sz : Nat} {s : CBuf sz}
    (hw : Key w)
    (hpre : '"' ∉ y)
    (h : ∀ f ∈ l, Json.Passed w f) :
    jgetStr sz (y ++ recordText
      (l ++ (w, quoted (Json.escapeQuotes s.text)) :: k) t) w = s := by
  have hpat : '"' :: (w ++ "\":\"".toList) = quoted w ++ ':' :: ['"'] := by simp [quoted]
  have hfound := behindPat_record (r := ['"']) (k := k) (t := t)
    (v := quoted (Json.escapeQuotes s.text))
    (u := Json.escapeQuotes s.text ++
      '"' :: ((k.flatMap fun f => ',' :: member (quoted f.1) f.2) ++ t))
    hw (Nat.le_refl 1) hpre h (by simp [quoted])
  rw [jgetStr, hpat, hfound]
  simp only
  rw [copyString_escapeQuotes s.fits, CBuf.ofText_text]

end Record

/-! ### The PGNs of a device -/

theorem PgnCount.text_append (p : PgnCount) (t : Text) :
    p.text ++ t = recordText
      [("pgn".toList, decimalInt p.pgn), ("count".toList, decimal p.count.toNat)]
      ('\x7d' :: t) := by
  rw [PgnCount.text_eq, recordText]
  simp

/-- The numbers are those of the C types, and the counts have not reached half of what
they may. -/
structure PgnCount.Small (p : PgnCount) : Prop where
  pgn : IsInt p.pgn
  count : p.count.toNat < 2 ^ 63

theorem passed_number {w k : Text} {x : Text}
    (hkey : '"' ∉ k ∧ '\\' ∉ k ∧ Json.endsIn w (.str k) = false)
    (hx : '"' ∉ x) :
    Json.Passed w (k, x) :=
  ⟨Json.raw_of_not_mem hkey.1 hkey.2.1, hkey.2.2, .inl hx⟩

theorem pgnAt_text {p : PgnCount} (hp : p.Small) (t : Text) :
    pgnAt (p.text ++ t) = p := by
  have hclose : ∀ c ∈ ('\x7d' :: t).head?, c.isDigit = false := by
    rintro c hc
    obtain rfl := Option.some.inj hc
    rfl
  have hpgn : jgetNum (p.text ++ t) "pgn".toList = some p.pgn := by
    rw [PgnCount.text_append]
    exact jgetNum_record (y := []) (l := []) (by decide) (by simp) (by simp)
      (fun _ hrest => strtol_decimalInt_append hp.pgn hrest) hclose
  have hcount : jgetNum (p.text ++ t) "count".toList = some (p.count.toNat : Int) := by
    rw [PgnCount.text_append]
    refine jgetNum_record (y := []) (l := [_]) (k := []) (by decide) (by simp)
      (fun f hf => ?_) (fun _ hrest => strtol_decimal_append hp.count hrest) hclose
    rw [List.mem_singleton.mp hf]
    exact passed_number (by decide) (quote_not_mem_decimalInt _)
  rw [pgnAt, hpgn, hcount, Option.getD_some, Option.getD_some, castInt_of_isInt hp.pgn,
    castULong_of_lt hp.count]

/-- Where the object of a PGN ends. -/
theorem strchr_text (p : PgnCount) (t : Text) :
    ∃ a, strchr '\x7d' (p.text ++ t) = some (a, t) := by
  have hdigits : ∀ x : Int, '\x7d' ∉ decimalInt x := by
    intro x hmem
    rcases mem_decimalInt hmem with h | h
    · cases h
    · cases h
  have hcount : '\x7d' ∉ decimal p.count.toNat := hdigits (p.count.toNat : Int)
  have hlayout : ∀ x y : Text, "\x7b\"pgn\":".toList ++ x ++ ",\"count\":".toList ++ y ++
      "\x7d".toList ++ t =
      "\x7b\"pgn\":".toList ++ x ++ ",\"count\":".toList ++ y ++ '\x7d' :: t := fun x y => by
    simp
  refine ⟨"\x7b\"pgn\":".toList ++ decimalInt p.pgn ++ ",\"count\":".toList ++
    decimal p.count.toNat, strchr_eq_some_iff.mpr ⟨?_, ?_⟩⟩
  · exact hlayout _ _
  · simp [hdigits, hcount]

theorem pgnLoop_text {n : Nat} {p : PgnCount} (hp : p.Small) {pre : Text}
    (hpre : pre = [] ∨ pre = [',']) (t : Text) :
    pgnLoop (n + 1) (pre ++ (p.text ++ t)) = p :: pgnLoop n t := by
  obtain ⟨r, hr⟩ : ∃ r, p.text ++ t = '\x7b' :: r := ⟨_, by rw [PgnCount.text_append]; rfl⟩
  obtain ⟨a, ha⟩ := strchr_text p t
  have hat := pgnAt_text hp t
  rw [hr] at ha hat ⊢
  have hopen : strchr '\x7b' (pre ++ '\x7b' :: r) = some (pre, r) := by
    refine strchr_eq_some_iff.mpr ⟨rfl, ?_⟩
    rcases hpre with rfl | rfl
    all_goals simp
  have hstop : ¬ (pre ++ '\x7b' :: r = [] ∨ (pre ++ '\x7b' :: r).head? = some ']') := by
    rcases hpre with rfl | rfl
    all_goals simp
  have hclose : ']' ∉ pre := by
    rcases hpre with rfl | rfl
    all_goals simp
  rw [pgnLoop, if_neg hstop, hopen]
  simp only
  rw [if_neg hclose, hat, ha]

/-- The loop reads what was printed. -/
theorem pgnLoop_separated {n : Nat} {ps : List PgnCount}
    (hn : ps.length ≤ n)
    (h : ∀ p ∈ ps, p.Small) (t : Text) :
    pgnLoop n (separated (ps.map PgnCount.text) ++ ']' :: t) = ps := by
  have hend : ∀ n, pgnLoop n (']' :: t) = [] := by
    intro n
    cases n with
    | zero => rfl
    | succ n => rw [pgnLoop, if_pos (.inr rfl)]
  have hrest : ∀ {n : Nat} {ps : List PgnCount}, ps.length ≤ n → (∀ p ∈ ps, p.Small) →
      pgnLoop n ((ps.flatMap fun p => ',' :: p.text) ++ ']' :: t) = ps := by
    intro n ps
    induction ps generalizing n with
    | nil => exact fun _ _ => hend n
    | cons p ps ih =>
        intro hn h
        obtain ⟨n, rfl⟩ : ∃ m, n = m + 1 := ⟨n - 1, by simp at hn; omega⟩
        have htext : ((p :: ps).flatMap fun p => ',' :: p.text) ++ ']' :: t =
            [','] ++ (p.text ++ ((ps.flatMap fun p => ',' :: p.text) ++ ']' :: t)) := by
          simp
        rw [htext, pgnLoop_text (h p List.mem_cons_self) (.inr rfl),
          ih (by simpa using hn) fun q hq => h q (List.mem_cons_of_mem p hq)]
  cases ps with
  | nil => exact hend n
  | cons p ps =>
      obtain ⟨n, rfl⟩ : ∃ m, n = m + 1 := ⟨n - 1, by simp at hn; omega⟩
      have htext : separated ((p :: ps).map PgnCount.text) ++ ']' :: t =
          [] ++ (p.text ++ ((ps.flatMap fun p => ',' :: p.text) ++ ']' :: t)) := by
        simp [separated, List.flatMap_map]
      rw [htext, pgnLoop_text (h p List.mem_cons_self) (.inl rfl),
        hrest (by simpa using hn) fun q hq => h q (List.mem_cons_of_mem p hq)]

/-! ### The line of a device -/

/-- The numbers of a record are those of the C types, and its counts have not reached
half of what they may. -/
structure Device.Small (d : Device) : Prop where
  src : IsInt d.src
  seen : d.seen.toNat < 2 ^ 63
  pgns : ∀ p ∈ d.pgns.items, p.Small

theorem Device.text_eq_record (d : Device) :
    d.text = recordText d.fields ['\x7d', '\n'] := by
  rw [Device.text_eq, recordText]
  simp

/-- The keys of the numbers and strings of a device. -/
def Device.keys : List Text :=
  ["src".toList, "ident".toList, "mfg".toList, "model".toList, "serial".toList,
    "seen".toList]

theorem Device.passed (d : Device) {w : Text} {i : Nat}
    (hw : ∀ k ∈ Device.keys.take i, Json.endsIn w (.str k) = false) :
    ∀ f ∈ (d.fields.take 6).take i, Json.Passed w f := by
  intro f hf
  have hkey : f.1 ∈ Device.keys.take i := by
    have hmem := List.mem_map_of_mem (f := Prod.fst) hf
    rwa [List.map_take] at hmem
  have hother := hw _ hkey
  have hplain : ∀ k ∈ Device.keys, '"' ∉ k ∧ '\\' ∉ k := by decide
  have hkey := hplain _ (List.mem_of_mem_take hkey)
  have hvalue : (∃ x : Int, f.2 = decimalInt x) ∨
      ∃ s, f.2 = quoted (Json.escapeQuotes s) := by
    have hf := List.mem_of_mem_take hf
    simp only [Device.fields, List.take_succ_cons, List.take_zero, List.mem_cons,
      List.not_mem_nil, or_false] at hf
    rcases hf with rfl | rfl | rfl | rfl | rfl | rfl
    · exact .inl ⟨_, rfl⟩
    · exact .inr ⟨_, rfl⟩
    · exact .inr ⟨_, rfl⟩
    · exact .inr ⟨_, rfl⟩
    · exact .inr ⟨_, rfl⟩
    · exact .inl ⟨(d.seen.toNat : Int), rfl⟩
  refine ⟨Json.raw_of_not_mem hkey.1 hkey.2, hother, ?_⟩
  rcases hvalue with ⟨x, hx⟩ | ⟨s, hs⟩
  · exact .inl (hx ▸ quote_not_mem_decimalInt x)
  · exact .inr ⟨_, hs, raw_escapeQuotes s⟩

section Line

variable {d : Device} {pre : Text}

theorem jgetNum_line {i : Nat} {w v : Text} {x : Int} {after : List (Text × Text)}
    (hfields : d.fields = (d.fields.take 6).take i ++ (w, v) :: after)
    (hw : Key w)
    (hkeys : ∀ k ∈ Device.keys.take i, Json.endsIn w (.str k) = false)
    (hpre : '"' ∉ pre)
    (hx : ∀ rest : Text, (∀ c ∈ rest.head?, c.isDigit = false) → strtol (v ++ rest) = x) :
    jgetNum (pre ++ d.text) w = some x := by
  rw [Device.text_eq_record, hfields]
  refine jgetNum_record hw hpre (d.passed hkeys) hx ?_
  rintro c hc
  obtain rfl := Option.some.inj hc
  rfl

theorem jgetStr_line {i sz : Nat} {w : Text} {s : CBuf sz} {after : List (Text × Text)}
    (hfields : d.fields =
      (d.fields.take 6).take i ++ (w, quoted (Json.escapeQuotes s.text)) :: after)
    (hw : Key w)
    (hkeys : ∀ k ∈ Device.keys.take i, Json.endsIn w (.str k) = false)
    (hpre : '"' ∉ pre) :
    jgetStr sz (pre ++ d.text) w = s := by
  rw [Device.text_eq_record, hfields]
  exact jgetStr_record hw hpre (d.passed hkeys)

theorem behind_pgns (hpre : '"' ∉ pre) :
    Json.behind (pre ++ d.text) "\"pgns\":[".toList =
      some (separated (d.pgns.items.map PgnCount.text) ++ ']' :: ['\x7d', '\n']) := by
  have hpat : "\"pgns\":[".toList = quoted "pgns".toList ++ ':' :: ['['] := by decide
  have hkey : Key "pgns".toList := by decide
  rw [Device.text_eq_record, hpat, Json.behind_skip hpre]
  refine (Json.behind_skip (y := ['\x7b']) (by simp) _ _).trans ?_
  exact Json.behind_record (l := (d.fields.take 6).take 6) (k := [])
    hkey.toSought hkey.head (d.passed (by decide)) (by simp)

/-- The line of a device is read back. -/
theorem loadLine_text (h : d.Small) (hpre : '"' ∉ pre) (v : Table maxDevices SrcEntry) :
    loadLine v (pre ++ d.text) = v.pushOrDrop d.view := by
  have hsrc : jgetNum (pre ++ d.text) "src".toList = some d.src :=
    jgetNum_line (i := 0) rfl (by decide) (by decide) hpre fun _ hrest =>
      strtol_decimalInt_append h.src hrest
  have hident : jgetStr identLen (pre ++ d.text) "ident".toList = d.ident :=
    jgetStr_line (i := 1) rfl (by decide) (by decide) hpre
  have hmfg : jgetStr mfgLen (pre ++ d.text) "mfg".toList = d.mfg :=
    jgetStr_line (i := 2) rfl (by decide) (by decide) hpre
  have hmodel : jgetStr modelLen (pre ++ d.text) "model".toList = d.model :=
    jgetStr_line (i := 3) rfl (by decide) (by decide) hpre
  have hserial : jgetStr serialLen (pre ++ d.text) "serial".toList = d.serial :=
    jgetStr_line (i := 4) rfl (by decide) (by decide) hpre
  have hseen : jgetNum (pre ++ d.text) "seen".toList = some (d.seen.toNat : Int) :=
    jgetNum_line (i := 5) rfl (by decide) (by decide) hpre fun _ hrest =>
      strtol_decimal_append h.seen hrest
  have hpgns : pgnLoop maxPgns (separated (d.pgns.items.map PgnCount.text) ++
      ']' :: ['\x7d', '\n']) = d.pgns.items :=
    pgnLoop_separated d.pgns.fits h.pgns _
  have hentry : entryOf (pre ++ d.text) d.src = d.view := by
    rw [entryOf, hident, hmfg, hmodel, hserial, hseen, behind_pgns hpre, castInt_of_isInt h.src,
      Option.getD_some, castULong_of_lt h.seen, Device.view]
    congr 1
    exact Table.ext hpgns
  rw [loadLine, hsrc]
  exact congrArg v.pushOrDrop hentry

end Line

/-! ### The document -/

theorem length_escapeQuotes_le (s : Text) :
    (Json.escapeQuotes s).length ≤ 2 * s.length := by
  induction s with
  | nil => exact Nat.le_refl 0
  | cons c s ih =>
      rw [Json.escapeQuotes_cons, List.length_append, List.length_cons]
      split_ifs
      · rw [List.length_cons, List.length_singleton]
        omega
      · rw [List.length_singleton]
        omega

theorem length_separated_le {b : Nat} {l : List Text}
    (h : ∀ t ∈ l, t.length ≤ b) :
    (separated l).length ≤ l.length * (b + 1) := by
  have hrest : ∀ ts : List Text, (∀ t ∈ ts, t.length ≤ b) →
      (ts.flatMap fun u => ',' :: u).length ≤ ts.length * (b + 1) := by
    intro ts
    induction ts with
    | nil => simp
    | cons t ts ih =>
        intro hts
        have ih := ih fun u hu => hts u (List.mem_cons_of_mem t hu)
        have ht := hts t List.mem_cons_self
        rw [List.flatMap_cons, List.length_append, List.length_cons, List.length_cons,
          Nat.succ_mul]
        omega
  cases l with
  | nil => simp [separated]
  | cons t ts =>
      have hts := hrest ts fun u hu => h u (List.mem_cons_of_mem t hu)
      have ht := h t List.mem_cons_self
      rw [separated, List.length_append, List.length_cons, Nat.succ_mul]
      omega

theorem length_decimal_le {n k : Nat} (hk : 0 < k) (h : n < 10 ^ k) :
    (decimal n).length ≤ k :=
  (Nat.length_toDigits_le_iff (by omega) hk).mpr h

theorem length_counter_le (x : UInt64) : (decimal x.toNat).length ≤ 20 :=
  length_decimal_le (by omega) (x.toNat_lt.trans (by norm_num))

theorem PgnCount.Small.length_le {p : PgnCount} (h : p.Small) : p.text.length ≤ 49 := by
  have hlayout : ∀ x y : Text, x.length ≤ 11 → y.length ≤ 20 →
      ("\x7b\"pgn\":".toList ++ x ++ ",\"count\":".toList ++ y ++ "\x7d".toList).length ≤
        49 := by
    intro x y hx hy
    simp
    omega
  exact hlayout _ _ (length_decimalInt_le h.pgn) (length_counter_le p.count)

/-- A line fits the buffer of the reader. -/
theorem Device.Small.length_le {d : Device} (h : d.Small) : d.text.length < 4000 := by
  have hlayout : ∀ src ident mfg model serial seen pgns : Text, src.length ≤ 11 →
      ident.length ≤ 2 * 63 → mfg.length ≤ 2 * 47 → model.length ≤ 2 * 47 →
      serial.length ≤ 2 * 47 → seen.length ≤ 20 → pgns.length ≤ 40 * 50 →
      (("\x7b\"src\":".toList ++ src ++ ",\"ident\":\"".toList ++ ident ++
        "\",\"mfg\":\"".toList ++ mfg ++ "\",\"model\":\"".toList ++ model ++
        "\",\"serial\":\"".toList ++ serial ++ "\",\"seen\":".toList ++ seen ++
        ",\"pgns\":[".toList) ++ (pgns ++ "]\x7d\n".toList)).length < 4000 := by
    intros
    simp
    omega
  have hescaped : ∀ {n : Nat} (b : CBuf (n + 1)),
      (jsonEscape ((n + 1) * 2) b.text).length ≤ 2 * n := by
    intro n b
    rw [jsonEscape_eq (Nat.succ_pos n)]
    have := length_escapeQuotes_le b.text
    have := b.fits
    omega
  have hpgns : (separated (d.pgns.items.map PgnCount.text)).length ≤ 40 * 50 := by
    have hbound := length_separated_le (b := 49) (l := d.pgns.items.map PgnCount.text)
      fun t ht => by
        obtain ⟨p, hp, rfl⟩ := List.mem_map.mp ht
        exact (h.pgns p hp).length_le
    rw [List.length_map] at hbound
    exact hbound.trans (Nat.mul_le_mul_right 50 d.pgns.fits)
  exact hlayout _ _ _ _ _ _ _ (length_decimalInt_le h.src) (hescaped d.ident)
    (hescaped d.mfg) (hescaped d.model) (hescaped d.serial) (length_counter_le d.seen) hpgns

/-- No string of the record goes on in another line. -/
structure Device.OneLine (d : Device) : Prop where
  ident : IsLine d.ident.text
  mfg : IsLine d.mfg.text
  model : IsLine d.model.text
  serial : IsLine d.serial.text

/-- The text of a device without the newline at its end. -/
def Device.line (d : Device) : Text := recordText d.fields ['\x7d']

theorem Device.text_eq_line (d : Device) : d.text = d.line ++ ['\n'] := by
  rw [Device.text_eq_record, Device.line, recordText, recordText]
  simp

theorem isLine_escapeQuotes {s : Text} (h : IsLine s) : IsLine (Json.escapeQuotes s) := by
  intro hmem
  obtain ⟨c, hc, hin⟩ := List.mem_flatMap.mp hmem
  have hne : '\n' ≠ c := fun heq => h (heq ▸ hc)
  split_ifs at hin
  · simp [hne] at hin
  · simp [hne] at hin

theorem isLine_decimalInt (x : Int) : IsLine (decimalInt x) := by
  intro hmem
  rcases mem_decimalInt hmem with h | h
  · cases h
  · cases h

theorem isLine_separated {items : List Text} (h : ∀ t ∈ items, IsLine t) :
    IsLine (separated items) := by
  cases items with
  | nil => simp [IsLine, separated]
  | cons t ts =>
      intro hmem
      rcases List.mem_append.mp hmem with hmem | hmem
      · exact h t List.mem_cons_self hmem
      · obtain ⟨u, hu, hin⟩ := List.mem_flatMap.mp hmem
        rcases List.mem_cons.mp hin with heq | hin
        · cases heq
        · exact h u (List.mem_cons_of_mem t hu) hin

theorem isLine_record {fields : List (Text × Text)}
    (h : ∀ f ∈ fields, IsLine f.1 ∧ IsLine f.2) {t : Text} (ht : IsLine t) :
    IsLine (recordText fields t) := by
  have hsep : IsLine (separated (fields.map fun f => member (quoted f.1) f.2)) := by
    refine isLine_separated fun u hu => ?_
    obtain ⟨f, hf, rfl⟩ := List.mem_map.mp hu
    have hboth := h f hf
    simp only [IsLine] at hboth ⊢
    simp [member, quoted, hboth.1, hboth.2]
  simp only [IsLine] at hsep ht ⊢
  simp [recordText, hsep, ht]

theorem isLine_pgn (p : PgnCount) : IsLine p.text := by
  have htext := p.text_append []
  rw [List.append_nil] at htext
  rw [htext]
  refine isLine_record (fun f hf => ?_) (by simp [IsLine])
  simp only [List.mem_cons, List.not_mem_nil, or_false] at hf
  rcases hf with rfl | rfl
  · exact ⟨by simp [IsLine], isLine_decimalInt _⟩
  · exact ⟨by simp [IsLine], isLine_decimalInt (p.count.toNat : Int)⟩

theorem Device.OneLine.line {d : Device} (h : d.OneLine) : IsLine d.line := by
  have hstring : ∀ {s : Text}, IsLine s → IsLine (quoted (Json.escapeQuotes s)) := by
    intro s hs
    have := isLine_escapeQuotes hs
    simp only [IsLine] at this ⊢
    simp [quoted, this]
  have hpgns : IsLine ('[' :: (separated (d.pgns.items.map PgnCount.text) ++ [']'])) := by
    have hsep : IsLine (separated (d.pgns.items.map PgnCount.text)) := by
      refine isLine_separated fun u hu => ?_
      obtain ⟨p, -, rfl⟩ := List.mem_map.mp hu
      exact isLine_pgn p
    simp only [IsLine] at hsep ⊢
    simp [hsep]
  refine isLine_record (fun f hf => ?_) (by simp [IsLine])
  simp only [Device.fields, List.mem_cons, List.not_mem_nil, or_false] at hf
  rcases hf with rfl | rfl | rfl | rfl | rfl | rfl | rfl
  · exact ⟨by simp [IsLine], isLine_decimalInt _⟩
  · exact ⟨by simp [IsLine], hstring h.ident⟩
  · exact ⟨by simp [IsLine], hstring h.mfg⟩
  · exact ⟨by simp [IsLine], hstring h.model⟩
  · exact ⟨by simp [IsLine], hstring h.serial⟩
  · exact ⟨by simp [IsLine], isLine_decimalInt (d.seen.toNat : Int)⟩
  · exact ⟨by simp [IsLine], hpgns⟩

/-- The lines of the document between the brackets. -/
def deviceLines : List Device → List Text
  | [] => []
  | d :: ds => d.line :: ds.map fun e => ',' :: e.line

theorem separated_devices (ds : List Device) :
    separated (ds.map Device.text) = unlines (deviceLines ds) := by
  cases ds with
  | nil => rfl
  | cons d ds =>
      simp [separated, deviceLines, unlines, List.flatMap_map, Device.text_eq_line]

/-- The document, line by line. -/
theorem sourcesToJson_lines {r : Registry} {sz : Nat} {doc : Text}
    (h : r.sourcesToJson sz = some doc) :
    doc = unlines (['['] :: (deviceLines r.dev.items ++ [[']']])) := by
  rw [sourcesToJson_eq_some h, separated_devices]
  simp [unlines]

theorem loadLine_bracket (v : Table maxDevices SrcEntry) {line : Text} (h : '"' ∉ line) :
    loadLine v line = v := by
  have hnone : jgetNum line "src".toList = none := by
    have hpat : ('"' :: ("src".toList ++ "\":".toList)).take (patLen - 1) =
        quoted "src".toList ++ [':'] := by decide
    have hskip := Json.behind_skip (w := "src".toList) h [':'] []
    rw [List.append_nil] at hskip
    rw [jgetNum, behindPat, hpat, hskip]
    rfl
  rw [loadLine, hnone]

/-- What is read of the lines of devices, behind what was read before. -/
theorem foldl_loadLine {ds : List Device} (h : ∀ d ∈ ds, d.Small) (l : List SrcEntry) :
    ((deviceLines ds).map fun t => t ++ ['\n']).foldl loadLine (.ofList _ l) =
      .ofList _ (l ++ ds.map Device.view) := by
  have hrest : ∀ (ds : List Device) (l : List SrcEntry), (∀ d ∈ ds, d.Small) →
      ((ds.map fun e => ',' :: e.line).map fun t => t ++ ['\n']).foldl loadLine
        (.ofList _ l) = .ofList _ (l ++ ds.map Device.view) := by
    intro ds
    induction ds with
    | nil => simp
    | cons d ds ih =>
        intro l h
        have hline : (',' :: d.line) ++ ['\n'] = [','] ++ d.text := by
          rw [Device.text_eq_line]
          rfl
        rw [List.map_cons, List.map_cons, List.foldl_cons, hline,
          loadLine_text (h d List.mem_cons_self) (by simp), Table.pushOrDrop_ofList,
          ih _ fun e he => h e (List.mem_cons_of_mem d he)]
        simp
  cases ds with
  | nil => simp [deviceLines]
  | cons d ds =>
      have hline : d.line ++ ['\n'] = [] ++ d.text := by
        rw [Device.text_eq_line, List.nil_append]
      rw [deviceLines, List.map_cons, List.foldl_cons, hline,
        loadLine_text (h d List.mem_cons_self) (by simp), Table.pushOrDrop_ofList,
        hrest ds _ fun e he => h e (List.mem_cons_of_mem d he)]
      simp

/-- `sources_load` reads the devices back. -/
theorem sourcesLoad_sourcesToJson {r : Registry} {sz : Nat} {doc : Text}
    (h : r.sourcesToJson sz = some doc)
    (hsmall : ∀ d ∈ r.dev.items, d.Small)
    (hline : ∀ d ∈ r.dev.items, d.OneLine) :
    (sourcesLoad doc).items = r.dev.items.map Device.view := by
  have hdevice : ∀ d ∈ r.dev.items, IsLine d.line ∧ d.line.length + 1 < 4000 := by
    intro d hd
    have := (hsmall d hd).length_le
    rw [Device.text_eq_line, List.length_append, List.length_singleton] at this
    exact ⟨(hline d hd).line, this⟩
  have hlines : ∀ t ∈ ['['] :: (deviceLines r.dev.items ++ [[']']]),
      IsLine t ∧ t.length < sourcesLineLen - 1 := by
    have hdevices : ∀ ds : List Device, (∀ d ∈ ds, d ∈ r.dev.items) →
        ∀ t ∈ deviceLines ds, IsLine t ∧ t.length < sourcesLineLen - 1 := by
      intro ds hds t ht
      cases ds with
      | nil => cases ht
      | cons d ds =>
          rcases List.mem_cons.mp ht with rfl | ht
          · have := hdevice d (hds d List.mem_cons_self)
            exact ⟨this.1, by rw [sourcesLineLen]; omega⟩
          · obtain ⟨e, he, rfl⟩ := List.mem_map.mp ht
            have := hdevice e (hds e (List.mem_cons_of_mem d he))
            refine ⟨?_, by rw [sourcesLineLen, List.length_cons]; omega⟩
            intro hmem
            rcases List.mem_cons.mp hmem with heq | hmem
            · cases heq
            · exact this.1 hmem
    intro t ht
    rcases List.mem_cons.mp ht with rfl | ht
    · exact ⟨by simp [IsLine], by decide⟩
    · rcases List.mem_append.mp ht with ht | ht
      · exact hdevices _ (fun d hd => hd) t ht
      · rw [List.mem_singleton.mp ht]
        exact ⟨by simp [IsLine], by decide⟩
  rw [sourcesLoad, sourcesToJson_lines h, fgets_unlines hlines, List.map_cons,
    List.foldl_cons, loadLine_bracket _ (by simp), List.map_append, List.foldl_append,
    ← Table.ofList_nil, foldl_loadLine hsmall]
  rw [List.nil_append, List.map_cons, List.map_nil, List.foldl_cons, List.foldl_nil,
    loadLine_bracket _ (by simp), Table.items_ofList, List.take_of_length_le]
  rw [List.length_map]
  exact r.dev.fits

/-! ### The document as a JSON value -/

def PgnCount.printed (p : PgnCount) : List Json.Field :=
  [⟨"pgn".toList, decimalInt p.pgn, .num p.pgn⟩,
    ⟨"count".toList, decimal p.count.toNat, .num p.count.toNat⟩]

/-- The value of a PGN and its count. -/
def PgnCount.tree (p : PgnCount) : Tree := .obj (p.printed.map Json.Field.member)

def Device.printed (d : Device) : List Json.Field :=
  [⟨"src".toList, decimalInt d.src, .num d.src⟩,
    ⟨"ident".toList, quoted (Json.escapeQuotes d.ident.text),
      .str (codeUnits d.ident.text)⟩,
    ⟨"mfg".toList, quoted (Json.escapeQuotes d.mfg.text), .str (codeUnits d.mfg.text)⟩,
    ⟨"model".toList, quoted (Json.escapeQuotes d.model.text),
      .str (codeUnits d.model.text)⟩,
    ⟨"serial".toList, quoted (Json.escapeQuotes d.serial.text),
      .str (codeUnits d.serial.text)⟩,
    ⟨"seen".toList, decimal d.seen.toNat, .num d.seen.toNat⟩,
    ⟨"pgns".toList, '[' :: (separated (d.pgns.items.map PgnCount.text) ++ [']']),
      .arr (d.pgns.items.map PgnCount.tree)⟩]

/-- The value of a device. -/
def Device.tree (d : Device) : Tree := .obj (d.printed.map Json.Field.member)

theorem spells_pgn (p : PgnCount) : Json.Spells p.text p.tree := by
  rw [PgnCount.text_eq]
  refine Json.spells_record (l := p.printed) fun f hf => ?_
  simp only [PgnCount.printed, List.mem_cons, List.not_mem_nil, or_false] at hf
  rcases hf with rfl | rfl
  · exact ⟨Json.reads_of_isPlain rfl, Json.spells_decimalInt _⟩
  · exact ⟨Json.reads_of_isPlain rfl, Json.spells_decimal _⟩

theorem Device.Printable.spells {d : Device} (h : d.Printable) :
    Json.Spells d.text d.tree := by
  have hpgns : Json.Spells ('[' :: (separated (d.pgns.items.map PgnCount.text) ++ [']']))
      (.arr (d.pgns.items.map PgnCount.tree)) := by
    have harray := Json.spells_array (a := []) (b := [])
      (l := d.pgns.items.map fun p => (p.text, p.tree)) (fun q hq => by
        obtain ⟨p, -, rfl⟩ := List.mem_map.mp hq
        exact spells_pgn p) (by simp [Json.Blank]) (by simp [Json.Blank])
    simpa [Function.comp_def] using harray
  rw [Device.text_eq]
  refine (Json.spells_record (l := d.printed) fun f hf => ?_).before
    (by simp [Json.Blank, Json.isBlank])
  simp only [Device.printed, List.mem_cons, List.not_mem_nil, or_false] at hf
  rcases hf with rfl | rfl | rfl | rfl | rfl | rfl | rfl
  · exact ⟨Json.reads_of_isPlain rfl, Json.spells_decimalInt _⟩
  · exact ⟨Json.reads_of_isPlain rfl, Json.spells_escaped h.ident⟩
  · exact ⟨Json.reads_of_isPlain rfl, Json.spells_escaped h.mfg⟩
  · exact ⟨Json.reads_of_isPlain rfl, Json.spells_escaped h.model⟩
  · exact ⟨Json.reads_of_isPlain rfl, Json.spells_escaped h.serial⟩
  · exact ⟨Json.reads_of_isPlain rfl, Json.spells_decimal _⟩
  · exact ⟨Json.reads_of_isPlain rfl, hpgns⟩

/-- The document spells the devices. -/
theorem spells_sources {r : Registry} {sz : Nat} {doc : Text}
    (h : r.sourcesToJson sz = some doc)
    (hprintable : ∀ d ∈ r.dev.items, d.Printable) :
    Json.Spells doc (.arr (r.dev.items.map Device.tree)) := by
  have harray := Json.spells_array (a := "\n".toList) (b := [])
    (l := r.dev.items.map fun d => (d.text, d.tree)) (fun q hq => by
      obtain ⟨d, hd, rfl⟩ := List.mem_map.mp hq
      exact (hprintable d hd).spells) (by simp [Json.Blank, Json.isBlank])
    (by simp [Json.Blank])
  have hdoc := harray.before (w := "\n".toList) (by simp [Json.Blank, Json.isBlank])
  rw [sourcesToJson_eq_some h]
  simpa [Function.comp_def] using hdoc

end Registry
end N2kMux
