import N2kMux.Lib.ExactLibm
import N2kMux.Lib.Pages
import N2kMux.Mapper.Combine

/-!
# The satellites in view

A list of satellites becomes pages of four.  `Gsv` is what a page says, whatever
its layout: the pages of the mapper say the whole list, in order, and agree on
how many they are.  The number of satellites they announce is the one of the
message when it is smaller than the list, so that it is not always the number
listed.
-/

namespace N2kMux
namespace Nmea0183

open Nmea

variable {α : Type} [Field α] [LinearOrder α] [FloorRing α]

/-- The text of a rounded number, nothing for a NaN. -/
def roundedText (v : Double α) (width : Nat) : Text :=
  match v with
  | .nan => []
  | .val x => padded width (llround x)

/-- The text of the four fields of a satellite. -/
def Satellite.text (sat : Satellite α) : Text :=
  (',' :: padded 2 sat.prn) ++ (',' :: roundedText sat.elev 2) ++
    (',' :: roundedText sat.azim 3) ++ (',' :: roundedText sat.snr 2)

/-- What a GSV sentence says. -/
structure Gsv (α : Type) where
  total : Nat
  index : Nat
  inView : Nat
  sats : List (Satellite α)

/-- The fields of a GSV sentence from the number in view on. -/
def Gsv.view (g : Gsv α) : Text :=
  padded 2 g.inView ++ (g.sats.map Satellite.text).flatten

/-- The text before the checksum. -/
def Gsv.body (talker : Text) (g : Gsv α) : Text :=
  '$' :: talker ++ "GSV".toList ++ ',' :: CText.decimal g.total ++
    ',' :: CText.decimal g.index ++ ',' :: g.view

/-- The sentence. -/
def Gsv.text (talker : Text) (g : Gsv α) : Text :=
  g.body talker ++ trailer (g.body talker)

/-- A number that is absent or from zero to `max`. -/
def AbsentOrUpTo (max : α) (v : Double α) : Prop :=
  ∀ x, v = .val x → 0 ≤ x ∧ x ≤ max

/-- A satellite whose values are in their ranges. -/
structure Satellite.InRange (sat : Satellite α) : Prop where
  prn : 0 ≤ sat.prn ∧ sat.prn ≤ 999
  elev : AbsentOrUpTo 99 sat.elev
  azim : AbsentOrUpTo 360 sat.azim
  snr : AbsentOrUpTo 99 sat.snr

instance (max : α) (v : Double α) : Decidable (AbsentOrUpTo max v) :=
  match v with
  | .nan => isTrue fun _ h => nomatch h
  | .val x =>
      decidable_of_iff (0 ≤ x ∧ x ≤ max)
        ⟨fun h _ hx => Double.val.inj hx ▸ h, fun h => h x rfl⟩

instance (sat : Satellite α) : Decidable sat.InRange :=
  decidable_of_iff ((0 ≤ sat.prn ∧ sat.prn ≤ 999) ∧ AbsentOrUpTo 99 sat.elev ∧
      AbsentOrUpTo 360 sat.azim ∧ AbsentOrUpTo 99 sat.snr)
    ⟨fun h => ⟨h.1, h.2.1, h.2.2.1, h.2.2.2⟩,
      fun h => ⟨h.prn, h.elev, h.azim, h.snr⟩⟩

/-! ### Lengths -/

section Rounded

variable [IsStrictOrderedRing α]

/-- A rounded number of at most `k` digits is written whole. -/
theorem fieldRound_written
    {v : Double α}
    {n width k : Nat}
    (hk : 0 < k)
    (hwidth : width ≤ k)
    (hroom : k < 10)
    (hn : n < 10 ^ k)
    (hv : AbsentOrUpTo (n : α) v)
    (t : Text) :
    (written t).fieldRound v width = written (t ++ ',' :: roundedText v width) ∧
      (roundedText v width).length ≤ k := by
  cases v with
  | nan => exact ⟨fieldEmpty_written t, Nat.zero_le k⟩
  | val x =>
      obtain ⟨h0, hx⟩ := hv x rfl
      obtain ⟨hpos, hle⟩ := llround_bounds h0 hx
      have hlen : (padded width (llround x)).length ≤ k :=
        length_padded_le hk hwidth hpos (by omega)
      have hint : CText.IsInt (llround x) := by
        have : (10 : Nat) ^ k ≤ 10 ^ 9 :=
          Nat.pow_le_pow_right (by omega) (by omega)
        exact ⟨by omega, by omega⟩
      refine ⟨?_, hlen⟩
      unfold Nmea.fieldRound Nmea.fieldIntw
      simp only
      rw [CText.castInt_of_isInt hint, fieldStr_written,
        CBuf.text_ofText_of_lt (by omega)]
      rfl

/-- A satellite in range is written whole. -/
theorem fieldSatellite_written
    {sat : Satellite α}
    (h : sat.InRange)
    (t : Text) :
    (written t).fieldSatellite sat = written (t ++ sat.text) ∧
      sat.text.length ≤ 14 := by
  obtain ⟨hprn0, hprn⟩ := h.prn
  have hlen : (padded 2 sat.prn).length ≤ 3 :=
    length_padded_le (by omega) (by omega) hprn0 (by omega)
  have hwritten : (written t).fieldIntw sat.prn 2 =
      written (t ++ ',' :: padded 2 sat.prn) := by
    unfold Nmea.fieldIntw
    rw [fieldStr_written, CBuf.text_ofText_of_lt (by omega)]
  have helev := fieldRound_written (n := 99) (k := 2) (by omega) (le_refl 2)
    (by omega) (by omega) (by exact_mod_cast h.elev)
  have hazim := fieldRound_written (n := 360) (k := 3) (by omega) (le_refl 3)
    (by omega) (by omega) (by exact_mod_cast h.azim)
  have hsnr := fieldRound_written (n := 99) (k := 2) (by omega) (le_refl 2)
    (by omega) (by omega) (by exact_mod_cast h.snr)
  constructor
  · unfold Nmea.fieldSatellite
    rw [hwritten, (helev _).1, (hazim _).1, (hsnr _).1]
    simp [Satellite.text]
  · have := (helev t).2
    have := (hazim t).2
    have := (hsnr t).2
    simp only [Satellite.text, List.length_append, List.length_cons]
    omega

theorem foldl_fieldSatellite_written
    {sats : List (Satellite α)}
    (h : ∀ sat ∈ sats, sat.InRange)
    (t : Text) :
    sats.foldl Nmea.fieldSatellite (written t) =
        written (t ++ (sats.map Satellite.text).flatten) ∧
      (sats.map Satellite.text).flatten.length ≤ 14 * sats.length := by
  induction sats generalizing t with
  | nil => simp
  | cons sat sats ih =>
      obtain ⟨hsat, hlen⟩ := fieldSatellite_written
        (h sat List.mem_cons_self) t
      obtain ⟨hrest, hlens⟩ := ih
        (fun x hx => h x (List.mem_cons_of_mem sat hx)) (t ++ sat.text)
      constructor
      · rw [List.foldl_cons, hsat, hrest]
        simp
      · simp only [List.map_cons, List.flatten_cons, List.length_append,
          List.length_cons]
        omega

/-- A page of four satellites in range fits. -/
theorem nmeaGsv_eq
    {talker : Text}
    (htalker : talker.length ≤ 2)
    {g : Gsv α}
    (htotal : g.total ≤ 9)
    (hindex : g.index ≤ 9)
    (hview : g.inView ≤ 99)
    (hsats : g.sats.length ≤ 4)
    (hrange : ∀ sat ∈ g.sats, sat.InRange) :
    ∃ s : Sentence, nmeaGsv talker g.total g.index g.inView g.sats = some s ∧
      s.text = g.text talker := by
  have hdigit : ∀ n ≤ 9, (CText.decimal n).length ≤ 1 := fun n hn =>
    (Nat.length_toDigits_le_iff (by omega) (by omega)).mpr (by omega)
  have hint : ∀ (t : Text) (n : Nat), n ≤ 9 →
      (written t).fieldInt n = written (t ++ ',' :: CText.decimal n) := by
    intro t n hn
    have := hdigit n hn
    unfold Nmea.fieldInt
    rw [fieldStr_written]
    change written (t ++ ',' :: (CBuf.ofText 16 (CText.decimal n)).text) = _
    rw [CBuf.text_ofText_of_lt (by omega)]
  have hviewlen : (padded 2 g.inView).length ≤ 2 :=
    length_padded_le (by omega) (le_refl 2) (by omega) (by omega)
  have hintw : ∀ t : Text, (written t).fieldIntw g.inView 2 =
      written (t ++ ',' :: padded 2 g.inView) := by
    intro t
    unfold Nmea.fieldIntw
    rw [fieldStr_written, CBuf.text_ofText_of_lt (by omega)]
  have hbody : nmeaGsv talker g.total g.index g.inView g.sats =
      (written (g.body talker)).finish := by
    unfold nmeaGsv
    rw [start_eq_written, hint _ _ htotal, hint _ _ hindex, hintw,
      (foldl_fieldSatellite_written hrange _).1,
      List.take_of_length_le htalker]
    simp [Gsv.body, Gsv.view]
  have hlen : (g.text talker).length < maxLen := by
    have hsatlen := (foldl_fieldSatellite_written hrange []).2
    have := hdigit g.total htotal
    have := hdigit g.index hindex
    simp only [Gsv.text, Gsv.body, Gsv.view, List.length_append, trailer_length,
      List.length_cons, maxLen]
    have : "GSV".toList.length = 3 := rfl
    omega
  refine ⟨.ofText maxLen (g.text talker), ?_, CBuf.text_ofText_of_lt hlen⟩
  rw [hbody, finish_written]
  exact if_pos hlen

end Rounded

/-! ### The announced number -/

/-- What follows the number in view is not a digit. -/
theorem head_flatten_text_append (sats : List (Satellite α)) (t : Text) :
    ∀ c ∈ ((sats.map Satellite.text).flatten ++ trailer t).head?,
      c.isDigit = false := by
  cases sats with
  | nil =>
      intro c hc
      obtain rfl : '*' = c := by simpa [trailer] using hc
      rfl
  | cons sat sats =>
      intro c hc
      obtain rfl : ',' = c := by simpa [Satellite.text] using hc
      rfl

/-- A page announces one number only. -/
theorem inView_eq_of_text_eq
    {talker : Text}
    {g : Gsv α}
    {n : Nat}
    (h : g.text talker = { g with inView := n }.text talker) :
    g.inView = n := by
  have hview : ∀ k : Nat, { g with inView := k }.text talker =
      ('$' :: talker ++ "GSV".toList ++ ',' :: CText.decimal g.total ++
        ',' :: CText.decimal g.index ++ [',']) ++
      (padded 2 k ++ ((g.sats.map Satellite.text).flatten ++
        trailer ({ g with inView := k }.body talker))) := by
    intro k
    simp [Gsv.text, Gsv.body, Gsv.view]
  have heq := (hview g.inView).symm.trans (h.trans (hview n))
  have hdigits := congrArg CText.digitsValue (List.append_cancel_left heq)
  rwa [digitsValue_padded 2 _ (head_flatten_text_append _ _),
    digitsValue_padded 2 _ (head_flatten_text_append _ _)] at hdigits

end Nmea0183

namespace Mapper

open Arbiter (Decision)
open Nmea0183
open Jsonl (Msg)
open Pages

variable {α : Type}

/-- The satellites that a message lists. -/
def satellites (lm : Libm α) (m : Msg α) : List (Satellite α) :=
  (List.range m.listCount).map (satelliteAt lm m)

/-- The pages of the satellites of a message that announce `inView`. -/
def gsvPages (lm : Libm α) (m : Msg α) (inView : Nat) : List (Gsv α) :=
  let groups := pages 4 (satellites lm m)
  groups.mapIdx fun k sats =>
    { total := groups.length, index := k + 1, inView := inView, sats := sats }

/-- The number in view of the message, when it announces fewer than it lists. -/
def announcedInView (lm : Libm α) (m : Msg α) : Nat :=
  let announced := geti lm m "Sats in View".toList m.listCount
  if announced ≤ 0 ∨ (m.listCount : Int) < announced then m.listCount
  else announced.toNat

variable {lm : Libm α} {m : Msg α}

theorem length_satellites : (satellites lm m).length = m.listCount := by
  simp [satellites]

theorem length_gsvPages (inView : Nat) :
    (gsvPages lm m inView).length = (m.listCount + 3) / 4 := by
  simp [gsvPages, length_pages, length_satellites]

theorem announcedInView_le : announcedInView lm m ≤ m.listCount := by
  unfold announcedInView
  simp only
  split_ifs with hout
  · exact le_rfl
  · omega

/-- The number listed is announced unless the message announces a smaller one. -/
theorem announcedInView_eq_iff (h : 0 < m.listCount) :
    announcedInView lm m = m.listCount ↔
      ∀ v, m.getNum "Sats in View".toList = some v →
        lm.toInt v ≤ 0 ∨ (m.listCount : Int) ≤ lm.toInt v := by
  unfold announcedInView geti
  cases hv : m.getNum "Sats in View".toList with
  | none => simp
  | some v =>
      simp only [Option.some.injEq, forall_eq']
      split_ifs with hout
      · refine iff_of_true rfl ?_
        omega
      · omega

/-- The satellites of a page are satellites of the message. -/
theorem mem_gsvPages
    {inView : Nat}
    {g : Gsv α}
    (hg : g ∈ gsvPages lm m inView) :
    g.total = (m.listCount + 3) / 4 ∧ g.index ≤ (m.listCount + 3) / 4 ∧
      g.inView = inView ∧ g.sats ∈ pages 4 (satellites lm m) := by
  obtain ⟨k, hk, rfl⟩ := List.mem_mapIdx.mp hg
  have hlen : (pages 4 (satellites lm m)).length = (m.listCount + 3) / 4 := by
    rw [length_pages, length_satellites]
  exact ⟨hlen, hlen ▸ hk, rfl, List.getElem_mem hk⟩

variable [Field α] [LinearOrder α] [FloorRing α]

/-- The loop of the source makes these pages. -/
theorem mapSats_eq
    (mp : Mapper α)
    (h : 0 < m.listCount) :
    mp.mapSats lm m = (gsvPages lm m (announcedInView lm m)).map fun g =>
      nmeaGsv mp.talker.text g.total g.index g.inView g.sats := by
  have hview : (if geti lm m "Sats in View".toList m.listCount ≤ 0 ∨
      (m.listCount : Int) < geti lm m "Sats in View".toList m.listCount then
        (m.listCount : Int)
      else geti lm m "Sats in View".toList m.listCount) =
      (announcedInView lm m : Int) := by
    unfold announcedInView
    simp only
    split_ifs with hout
    · rfl
    · omega
  unfold mapSats
  simp only
  rw [if_neg (by omega), hview]
  refine List.ext_getElem (by simp [length_gsvPages]) fun k hk hk' => ?_
  simp [gsvPages, pages, satellites, List.map_drop, List.map_take]

/-- The pages of a list of satellites in range are all emitted. -/
theorem map_sats_eq [IsStrictOrderedRing α]
    {mp : Mapper α}
    {d : Decision}
    {now : UInt64}
    (hacc : d.result = .accept)
    (hpgn : m.pgn = 129540)
    (hlist : 0 < m.listCount)
    (hrange : ∀ sat ∈ satellites lm m, sat.InRange) :
    (mp.map lm m d now).1.items.map (·.text) =
      (gsvPages lm m (announcedInView lm m)).map (·.text mp.talker.text) := by
  have hcount : m.listCount ≤ 32 := m.list.fits
  have hbuilt : ∀ g ∈ gsvPages lm m (announcedInView lm m), ∃ s : Sentence,
      nmeaGsv mp.talker.text g.total g.index g.inView g.sats = some s ∧
        s.text = g.text mp.talker.text := by
    intro g hg
    obtain ⟨htotal, hindex, hview, hsats⟩ := mem_gsvPages hg
    have hle : announcedInView lm m ≤ m.listCount := announcedInView_le
    refine nmeaGsv_eq ?_ (by omega) (by omega) (by omega)
      (length_le_of_mem_pages hsats) fun sat hsat => hrange sat ?_
    · have := mp.talker.fits
      omega
    · rw [← flatten_pages (by omega : 0 < 4) (satellites lm m)]
      exact List.mem_flatten_of_mem hsats hsat
  choose! sentence hsome htext using hbuilt
  have hmap : mp.mapSats lm m =
      ((gsvPages lm m (announcedInView lm m)).map sentence).map some := by
    rw [mapSats_eq mp hlist, List.map_map]
    exact List.map_congr_left hsome
  have hconv : mp.convert lm m d now = (mp.mapSats lm m, mp) := by
    simp [convert, hpgn]
  unfold map
  rw [if_neg (by simp [hacc])]
  simp only [hconv, hmap]
  rw [items_foldl_emit, Table.items_empty, List.nil_append, List.filterMap_map,
    Function.id_comp, List.filterMap_some, List.map_map]
  · exact List.map_congr_left htext
  · simp only [Table.items_empty, List.length_nil, List.length_map,
      length_gsvPages, maxSent]
    omega

/-- Pages are known by the number they announce. -/
theorem inView_eq_of_gsvPages_eq
    {talker : Text}
    {j k : Nat}
    (hlist : 0 < m.listCount)
    (h : (gsvPages lm m j).map (·.text talker) =
      (gsvPages lm m k).map (·.text talker)) :
    j = k := by
  have hlen : ∀ n, 0 < (gsvPages lm m n).length := fun n => by
    rw [length_gsvPages]
    omega
  have hfirst := List.getElem_of_eq h (i := 0) (by simpa using hlen j)
  simp only [List.getElem_map, gsvPages, List.getElem_mapIdx] at hfirst
  exact inView_eq_of_text_eq hfirst

/--
The pages of the satellites in view, for every list of satellites in range: as
many as needed, numbered in order, four satellites at most each, together the
list.  They announce the number listed exactly when the message has no `Sats in
View` that is positive and smaller.
-/
theorem gsv_pagination [IsStrictOrderedRing α]
    (lm : Libm α)
    (mp : Mapper α)
    (m : Msg α)
    (d : Decision)
    (now : UInt64)
    (hacc : d.result = .accept)
    (hpgn : m.pgn = 129540)
    (hlist : 1 ≤ m.listCount)
    (hrange : ∀ i < m.listCount, (satelliteAt lm m i).InRange) :
    let out := (mp.map lm m d now).1.items.map (·.text)
    let groups := pages 4 (satellites lm m)
    groups.length = (m.listCount + 3) / 4 ∧
    groups.flatten = satellites lm m ∧
    (∀ group ∈ groups, group.length ≤ 4) ∧
    (∃ inView, out = (gsvPages lm m inView).map (·.text mp.talker.text)) ∧
    (out = (gsvPages lm m m.listCount).map (·.text mp.talker.text) ↔
      ∀ v, m.getNum "Sats in View".toList = some v →
        lm.toInt v ≤ 0 ∨ (m.listCount : Int) ≤ lm.toInt v) := by
  intro out groups
  have hout : out = (gsvPages lm m (announcedInView lm m)).map
      (·.text mp.talker.text) := by
    refine map_sats_eq hacc hpgn hlist fun sat hsat => ?_
    obtain ⟨i, hi, rfl⟩ := List.mem_map.mp hsat
    exact hrange i (List.mem_range.mp hi)
  refine ⟨by rw [length_pages, length_satellites], flatten_pages (by omega) _,
    fun group => length_le_of_mem_pages, ⟨_, hout⟩, ?_⟩
  rw [← announcedInView_eq_iff hlist, hout]
  constructor
  · exact inView_eq_of_gsvPages_eq hlist
  · intro h
    rw [h]

/-- A satellite of a list. -/
def listed (prn elev : ℚ) : Jsonl.ListItem ℚ :=
  (Table.empty.pushOrDrop
    { key := .ofText _ "PRN".toList, type := .num, num := .val prn
      str := .empty }).pushOrDrop
    { key := .ofText _ "Elevation".toList, type := .num, num := .val elev
      str := .empty }

/-- A message that lists five satellites, with a number in view. -/
def fiveSats (inView : ℚ) : Msg ℚ :=
  { (Msg.init : Msg ℚ) with
    pgn := 129540
    fields := Table.empty.pushOrDrop
      { key := .ofText _ "Sats in View".toList, type := .num, num := .val inView
        str := .empty }
    list := .ofList _ [listed 4 30, listed 9 75, listed 11 8, listed 24 51,
      listed 31 3] }

/-- Five satellites are announced as five. -/
theorem gsv_pagination_all_in_view :
    (((Mapper.init "GP".toList).map exactLibm (fiveSats 9)
        (Decision.only .accept) 0).1.items.map (·.text)) =
      (gsvPages exactLibm (fiveSats 9) 5).map (·.text "GP".toList) := by
  have hrange : ∀ i < 5, (satelliteAt exactLibm (fiveSats 9) i).InRange := by
    decide +kernel
  refine (gsv_pagination exactLibm (Mapper.init "GP".toList) (fiveSats 9)
    (Decision.only .accept) 0 rfl rfl (by decide +kernel) hrange).2.2.2.2.mpr ?_
  intro v hv
  obtain rfl : .val 9 = v := Option.some.inj hv
  exact Or.inr (by decide +kernel)

/-- Five satellites are announced as three when the message says three. -/
theorem gsv_announces_fewer :
    (∀ i < 5, (satelliteAt exactLibm (fiveSats 3) i).InRange) ∧
    (((Mapper.init "GP".toList).map exactLibm (fiveSats 3)
        (Decision.only .accept) 0).1.items.map (·.text)) ≠
      (gsvPages exactLibm (fiveSats 3) 5).map (·.text "GP".toList) :=
  ⟨by decide +kernel, by decide +kernel⟩

end Mapper
end N2kMux
