import Mathlib
import N2kMux.Lib.Documents
import N2kMux.Lib.ExactLibm
import N2kMux.Stats.Counts

/-!
# The published statistics as a JSON value (stats.c)

Whatever was observed, the document of `stats_write` spells `Stats.tree`: the rates as
`printf` prints them, and an object for each PGN and each sentence type.
-/

namespace N2kMux
namespace Stats

open Json (Tree Blank codeUnits isBlank quoted separated)

variable {α : Type}

/-- `%.1f` and `%.2f` write a JSON number. -/
def Prints (lm : Libm α) : Prop :=
  ∀ decimals x, (Json.number (lm.fixed decimals x)).isSome = true ∧
    ∀ c ∈ lm.fixed decimals x, Json.isWordChar c = true

/-- The number that is printed. -/
def printed (lm : Libm α) (decimals : Nat) (x : α) : ℚ :=
  (Json.number (lm.fixed decimals x)).getD 0

theorem spells_fixed {lm : Libm α} (h : Prints lm) (decimals : Nat) (x : α) :
    Json.Spells (lm.fixed decimals x) (.num (printed lm decimals x)) := by
  obtain ⟨hsome, hword⟩ := h decimals x
  obtain ⟨q, hq⟩ := Option.isSome_iff_exists.mp hsome
  rw [printed, hq]
  exact Json.spells_number hword hq

/-! ### Exact printing -/

/-- Digits, a point, digits are a number. -/
theorem isSome_unsigned {n : Nat} {rest : Text}
    (h : rest = [] ∨ ∃ ds, rest = '.' :: ds ∧ ds ≠ [] ∧ ∀ c ∈ ds, c.isDigit = true) :
    (Json.unsigned (CText.decimal n ++ rest)).isSome = true := by
  have hrest : ∀ c ∈ rest.head?, c.isDigit = false := by
    rcases h with rfl | ⟨ds, rfl, -, -⟩
    · simp
    · simp
  have hspan := CText.span_decimal_append n hrest
  rw [Json.unsigned]
  simp only [hspan.1, hspan.2]
  rw [if_neg]
  · rcases h with rfl | ⟨ds, rfl, hne, hall⟩
    · rfl
    · rw [Json.scaled, Json.fraction, if_pos rfl, List.takeWhile_eq_self_iff.mpr hall,
        if_neg hne, List.dropWhile_eq_nil_iff.mpr hall]
      rfl
  · rintro (hnil | ⟨hzero, hne⟩)
    · exact CText.decimal_ne_nil n hnil
    · rcases Nat.eq_zero_or_pos n with rfl | hpos
      · exact hne rfl
      · exact Json.head?_decimal hpos hzero

theorem prints_exactLibm : Prints exactLibm := by
  intro decimals x
  -- the digits behind the point, if there is one
  obtain ⟨n, rest, hfixed, hrest⟩ : ∃ n rest,
      exactLibm.fixed decimals x =
        (if x < 0 then ['-'] else []) ++ CText.decimal n ++ rest ∧
      (rest = [] ∨ ∃ ds, rest = '.' :: ds ∧ ds ≠ [] ∧ ∀ c ∈ ds, c.isDigit = true) := by
    refine ⟨_, _, rfl, ?_⟩
    by_cases hzero : decimals = 0
    · exact .inl (if_pos hzero)
    · refine .inr ⟨_, if_neg hzero, by simp [CText.decimal_ne_nil], fun c hc => ?_⟩
      rcases List.mem_append.mp hc with hc | hc
      · rw [List.eq_of_mem_replicate hc]
        rfl
      · exact CText.isDigit_of_mem_decimal hc
  have hword : ∀ c ∈ CText.decimal n ++ rest, Json.isWordChar c = true := by
    intro c hc
    rcases List.mem_append.mp hc with hc | hc
    · exact Json.isWordChar_of_isDigit (CText.isDigit_of_mem_decimal hc)
    · rcases hrest with rfl | ⟨ds, rfl, -, hall⟩
      · cases hc
      · rcases List.mem_cons.mp hc with rfl | hc
        · rfl
        · exact Json.isWordChar_of_isDigit (hall c hc)
  rw [hfixed]
  split_ifs with hneg
  · refine ⟨?_, fun c hc => ?_⟩
    · have hnumber : Json.number (['-'] ++ CText.decimal n ++ rest) =
          (Json.unsigned (CText.decimal n ++ rest)).map Neg.neg := rfl
      rw [hnumber, Option.isSome_map]
      exact isSome_unsigned hrest
    · rcases List.mem_cons.mp hc with rfl | hc
      · rfl
      · exact hword c hc
  · refine ⟨?_, fun c hc => hword c hc⟩
    have hsign : (CText.decimal n ++ rest).head? ≠ some '-' := by
      obtain ⟨d, ds, hd⟩ := List.exists_cons_of_ne_nil (CText.decimal_ne_nil n)
      have hdigit := CText.isDigit_of_mem_decimal (n := n) (c := d) (by simp [hd])
      rw [hd]
      rintro hhead
      obtain rfl := Option.some.inj hhead
      cases hdigit
    rw [List.nil_append, Json.number, if_neg hsign]
    exact isSome_unsigned hrest

/-! ### The value -/

variable [Field α] [LinearOrder α]

def PgnStat.fields (lm : Libm α) (dt : α) (p : PgnStat) : List Json.Field :=
  [⟨"pgn".toList, CText.decimalInt p.pgn, .num p.pgn⟩,
    ⟨"hz".toList, lm.fixed 2 (perSecond p.count dt), .num (printed lm 2 (perSecond p.count dt))⟩,
    ⟨"total".toList, CText.decimal p.total.toNat, .num p.total.toNat⟩]

/-- The value of a PGN. -/
def PgnStat.tree (lm : Libm α) (dt : α) (p : PgnStat) : Tree :=
  .obj ((p.fields lm dt).map Json.Field.member)

def TypeStat.fields (lm : Libm α) (dt : α) (t : TypeStat) : List Json.Field :=
  [⟨"type".toList, quoted t.type.text, .str (codeUnits t.type.text)⟩,
    ⟨"hz".toList, lm.fixed 2 (perSecond t.count dt), .num (printed lm 2 (perSecond t.count dt))⟩,
    ⟨"total".toList, CText.decimal t.total.toNat, .num t.total.toNat⟩]

/-- The value of a sentence type. -/
def TypeStat.tree (lm : Libm α) (dt : α) (t : TypeStat) : Tree :=
  .obj ((t.fields lm dt).map Json.Field.member)

/-- The members of the document: a rate each, then the tables. -/
def fields (lm : Libm α) (s : Stats) (now : UInt64) : List Json.Field :=
  let dt : α := seconds s.windowStart now
  let rate : String → α → Json.Field := fun key x =>
    ⟨key.toList, lm.fixed 1 x, .num (printed lm 1 x)⟩
  [rate "window_s" dt, rate "msg_per_s" (s.summary now).1,
    rate "frames_per_s" (s.summary now).2.1, rate "bus_load_pct" (s.summary now).2.2,
    ⟨"measured".toList, if 0 < s.measFrames then "true".toList else "false".toList,
      .bool (0 < s.measFrames)⟩,
    rate "last_msg_age_s" (s.lastMsgAge now), rate "out_sent_per_s" (s.summaryOut now).1,
    rate "out_bytes_per_s" (s.summaryOut now).2.1, rate "out_load_pct" (s.summaryOut now).2.2,
    ⟨"pgns".toList,
      '[' :: ("\n".toList ++ (separated (s.pgns.items.map fun p => p.text lm dt) ++ [']'])),
      .arr (s.pgns.items.map fun p => p.tree lm dt)⟩,
    ⟨"out_types".toList,
      '[' :: ("\n".toList ++ (separated (s.types.items.map fun t => t.text lm dt) ++ [']'])),
      .arr (s.types.items.map fun t => t.tree lm dt)⟩]

/-- The value of the statistics. -/
def tree (lm : Libm α) (s : Stats) (now : UInt64) : Tree :=
  .obj ((s.fields lm now).map Json.Field.member)

/-! ### The text -/

theorem flatten_objects (texts : List Text) :
    (objects texts).flatten = separated texts := by
  cases texts with
  | nil => rfl
  | cons t ts => simp [objects, separated, List.flatMap]

theorem PgnStat.text_eq (lm : Libm α) (dt : α) (p : PgnStat) :
    p.text lm dt =
      '\x7b' :: (separated ((p.fields lm dt).map Json.Field.text) ++ ['\x7d']) ++
        "\n".toList := by
  have hlayout : ∀ x y z : Text,
      "\x7b\"pgn\":".toList ++ x ++ ",\"hz\":".toList ++ y ++ ",\"total\":".toList ++ z ++
        "\x7d\n".toList =
      '\x7b' :: (separated [Json.member (quoted "pgn".toList) x,
        Json.member (quoted "hz".toList) y, Json.member (quoted "total".toList) z] ++
          ['\x7d']) ++ "\n".toList := by
    intro x y z
    simp [separated, Json.member, quoted]
  exact hlayout _ _ _

theorem TypeStat.text_eq (lm : Libm α) (dt : α) (t : TypeStat) :
    t.text lm dt =
      '\x7b' :: (separated ((t.fields lm dt).map Json.Field.text) ++ ['\x7d']) ++
        "\n".toList := by
  have hlayout : ∀ x y z : Text,
      "\x7b\"type\":\"".toList ++ x ++ "\",\"hz\":".toList ++ y ++
        ",\"total\":".toList ++ z ++ "\x7d\n".toList =
      '\x7b' :: (separated [Json.member (quoted "type".toList) (quoted x),
        Json.member (quoted "hz".toList) y, Json.member (quoted "total".toList) z] ++
          ['\x7d']) ++ "\n".toList := by
    intro x y z
    simp [separated, Json.member, quoted]
  exact hlayout _ _ _

/-- The text up to the loads, as members. -/
theorem layout_input (a b c d e : Text) :
    "\x7b\"window_s\":".toList ++ a ++ ",\"msg_per_s\":".toList ++ b ++
      ",\"frames_per_s\":".toList ++ c ++ ",\"bus_load_pct\":".toList ++ d ++
      ",\"measured\":".toList ++ e =
    '\x7b' :: separated [Json.member (quoted "window_s".toList) a,
      Json.member (quoted "msg_per_s".toList) b,
      Json.member (quoted "frames_per_s".toList) c,
      Json.member (quoted "bus_load_pct".toList) d,
      Json.member (quoted "measured".toList) e] := by
  simp [separated, Json.member, quoted]

/-- The text of the age and of the output, as members. -/
theorem layout_output (a b c d : Text) :
    ",\"last_msg_age_s\":".toList ++ a ++ ",\"out_sent_per_s\":".toList ++ b ++
      ",\"out_bytes_per_s\":".toList ++ c ++ ",\"out_load_pct\":".toList ++ d =
    ',' :: separated [Json.member (quoted "last_msg_age_s".toList) a,
      Json.member (quoted "out_sent_per_s".toList) b,
      Json.member (quoted "out_bytes_per_s".toList) c,
      Json.member (quoted "out_load_pct".toList) d] := by
  simp [separated, Json.member, quoted]

/-- The text of the two tables, as members. -/
theorem layout_tables (p t : Text) :
    ",\"pgns\":[\n".toList ++ (p ++ ("],\"out_types\":[\n".toList ++
      (t ++ "]\x7d\n".toList))) =
    ',' :: (separated [
      Json.member (quoted "pgns".toList) ('[' :: ("\n".toList ++ (p ++ [']']))),
      Json.member (quoted "out_types".toList) ('[' :: ("\n".toList ++ (t ++ [']'])))] ++
        ['\x7d']) ++ "\n".toList := by
  simp [separated, Json.member, quoted]

theorem separated_append {l k : List Text} (hl : l ≠ []) (hk : k ≠ []) :
    separated (l ++ k) = separated l ++ ',' :: separated k := by
  obtain ⟨x, l, rfl⟩ := List.exists_cons_of_ne_nil hl
  obtain ⟨y, k, rfl⟩ := List.exists_cons_of_ne_nil hk
  simp [separated]

/-- What `stats_to_json` writes when it succeeds. -/
theorem toJson_eq_some {lm : Libm α} {s : Stats} {sz : Nat} {now : UInt64} {doc : Text}
    (h : s.toJson lm sz now = some doc) :
    doc = '\x7b' :: (separated ((s.fields lm now).map Json.Field.text) ++ ['\x7d']) ++
      "\n".toList := by
  have hlayout : ∀ a b c d e f g i j p t : Text,
      ("\x7b\"window_s\":".toList ++ a ++ ",\"msg_per_s\":".toList ++ b ++
        ",\"frames_per_s\":".toList ++ c ++ ",\"bus_load_pct\":".toList ++ d ++
        ",\"measured\":".toList ++ e ++ ",\"last_msg_age_s\":".toList ++ f ++
        ",\"out_sent_per_s\":".toList ++ g ++ ",\"out_bytes_per_s\":".toList ++ i ++
        ",\"out_load_pct\":".toList ++ j ++ ",\"pgns\":[\n".toList) ++
        (p ++ ("],\"out_types\":[\n".toList ++ (t ++ "]\x7d\n".toList))) =
      '\x7b' :: (separated ([Json.member (quoted "window_s".toList) a,
        Json.member (quoted "msg_per_s".toList) b,
        Json.member (quoted "frames_per_s".toList) c,
        Json.member (quoted "bus_load_pct".toList) d,
        Json.member (quoted "measured".toList) e] ++
        ([Json.member (quoted "last_msg_age_s".toList) f,
          Json.member (quoted "out_sent_per_s".toList) g,
          Json.member (quoted "out_bytes_per_s".toList) i,
          Json.member (quoted "out_load_pct".toList) j] ++
        [Json.member (quoted "pgns".toList) ('[' :: ("\n".toList ++ (p ++ [']']))),
          Json.member (quoted "out_types".toList) ('[' :: ("\n".toList ++ (t ++ [']'])))])) ++
          ['\x7d']) ++ "\n".toList := by
    intro a b c d e f g i j p t
    rw [separated_append (by simp) (by simp), separated_append (by simp) (by simp)]
    have htwo := (congrArg₂ (· ++ ·) (layout_output f g i j) (layout_tables p t))
    have hthree := congrArg₂ (· ++ ·) (layout_input a b c d e) htwo
    simp only [List.append_assoc, List.cons_append] at hthree ⊢
    exact hthree
  rw [toJson] at h
  rw [Registry.putAll_eq_some h]
  simp only [List.flatten_cons, List.flatten_append, flatten_objects, List.flatten_nil,
    List.append_nil]
  exact hlayout _ _ _ _ _ _ _ _ _ _ _

/-! ### What the text says -/

theorem spells_pgn {lm : Libm α} (hprints : Prints lm) (dt : α) (p : PgnStat) :
    Json.Spells (p.text lm dt) (p.tree lm dt) := by
  rw [p.text_eq]
  refine (Json.spells_record fun f hf => ?_).before (by simp [Blank, isBlank])
  simp only [PgnStat.fields, List.mem_cons, List.not_mem_nil, or_false] at hf
  rcases hf with rfl | rfl | rfl
  · exact ⟨Json.reads_of_isPlain rfl, Json.spells_decimalInt _⟩
  · exact ⟨Json.reads_of_isPlain rfl, spells_fixed hprints _ _⟩
  · exact ⟨Json.reads_of_isPlain rfl, Json.spells_decimal _⟩

theorem toNat_of_isAlphanum {c : Char} (h : c.isAlphanum = true) : 48 ≤ c.toNat := by
  rw [Char.isAlphanum, Bool.or_eq_true, Char.isAlpha, Bool.or_eq_true] at h
  rcases h with (h | h) | h
  · have hupper : 65 ≤ c.toNat ∧ c.toNat ≤ 90 := by
      simpa [Char.isUpper, UInt32.le_iff_toNat_le] using h
    omega
  · have hlower : 97 ≤ c.toNat ∧ c.toNat ≤ 122 := by
      simpa [Char.isLower, UInt32.le_iff_toNat_le] using h
    omega
  · exact (Json.toNat_of_isDigit h).1

theorem isPlain_of_typeOk {type : Text} (h : typeOk type = true) :
    Json.isPlain type = true := by
  rw [typeOk, Bool.and_eq_true] at h
  refine List.all_eq_true.mpr fun c hc => ?_
  have halnum : c.isAlphanum = true := List.all_eq_true.mp h.2 c hc
  have hne : ∀ d : Char, d.isAlphanum = false → c ≠ d := by
    rintro d hd rfl
    rw [halnum] at hd
    cases hd
  have hplain : Nat.ble 0x20 c.toNat = true := by
    rw [Nat.ble_eq]
    exact le_trans (by decide) (toNat_of_isAlphanum halnum)
  simp [hne '"' rfl, hne '\\' rfl, hplain]

theorem spells_type {lm : Libm α} (hprints : Prints lm) (dt : α) {t : TypeStat}
    (hok : typeOk t.type.text = true) :
    Json.Spells (t.text lm dt) (t.tree lm dt) := by
  rw [t.text_eq]
  refine (Json.spells_record fun f hf => ?_).before (by simp [Blank, isBlank])
  simp only [TypeStat.fields, List.mem_cons, List.not_mem_nil, or_false] at hf
  rcases hf with rfl | rfl | rfl
  · exact ⟨Json.reads_of_isPlain rfl,
      Json.spells_string (Json.reads_of_isPlain (isPlain_of_typeOk hok))⟩
  · exact ⟨Json.reads_of_isPlain rfl, spells_fixed hprints _ _⟩
  · exact ⟨Json.reads_of_isPlain rfl, Json.spells_decimal _⟩

/-- The document spells the statistics when the types are alphanumeric. -/
theorem spells_toJson {lm : Libm α} (hprints : Prints lm) {s : Stats} {sz : Nat}
    {now : UInt64} {doc : Text}
    (h : s.toJson lm sz now = some doc)
    (htypes : ∀ t ∈ s.types.items, typeOk t.type.text = true) :
    Json.Spells doc (s.tree lm now) := by
  rw [toJson_eq_some h]
  refine (Json.spells_record fun f hf => ?_).before (by simp [Blank, isBlank])
  simp only [fields, List.mem_cons, List.not_mem_nil, or_false] at hf
  rcases hf with rfl | rfl | rfl | rfl | rfl | rfl | rfl | rfl | rfl | rfl | rfl
  · exact ⟨Json.reads_of_isPlain rfl, spells_fixed hprints _ _⟩
  · exact ⟨Json.reads_of_isPlain rfl, spells_fixed hprints _ _⟩
  · exact ⟨Json.reads_of_isPlain rfl, spells_fixed hprints _ _⟩
  · exact ⟨Json.reads_of_isPlain rfl, spells_fixed hprints _ _⟩
  · refine ⟨Json.reads_of_isPlain rfl, ?_⟩
    have hbool := Json.spells_bool (decide (0 < s.measFrames))
    simpa only [decide_eq_true_eq] using hbool
  · exact ⟨Json.reads_of_isPlain rfl, spells_fixed hprints _ _⟩
  · exact ⟨Json.reads_of_isPlain rfl, spells_fixed hprints _ _⟩
  · exact ⟨Json.reads_of_isPlain rfl, spells_fixed hprints _ _⟩
  · exact ⟨Json.reads_of_isPlain rfl, spells_fixed hprints _ _⟩
  · refine ⟨Json.reads_of_isPlain rfl, ?_⟩
    have harray := Json.spells_array (a := "\n".toList) (b := [])
      (l := s.pgns.items.map fun p => (p.text lm (seconds s.windowStart now),
        p.tree lm (seconds s.windowStart now))) (fun q hq => by
        obtain ⟨p, -, rfl⟩ := List.mem_map.mp hq
        exact spells_pgn hprints _ p) (by simp [Blank, isBlank]) (by simp [Blank])
    rw [List.map_map, List.map_map] at harray
    exact harray
  · refine ⟨Json.reads_of_isPlain rfl, ?_⟩
    have harray := Json.spells_array (a := "\n".toList) (b := [])
      (l := s.types.items.map fun t => (t.text lm (seconds s.windowStart now),
        t.tree lm (seconds s.windowStart now))) (fun q hq => by
        obtain ⟨t, ht, rfl⟩ := List.mem_map.mp hq
        exact spells_type hprints _ (htypes t ht)) (by simp [Blank, isBlank])
      (by simp [Blank])
    rw [List.map_map, List.map_map] at harray
    exact harray

end Stats
end N2kMux
