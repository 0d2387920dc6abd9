import N2kMux.Lib.ExactLibm
import N2kMux.Registry.Observe

/-!
# The registry follows address claims

A message that claims a number is a claim of the directory, any other message at
most adds a provisional record.  So the registry keeps one record for each
address and each number, and agrees with the claims observed.
-/

namespace N2kMux
namespace Registry

open Directory

variable {α : Type}

/-! ### The number of records -/

theorem length_modify (r : Registry) (i : Nat) (f : Device → Device) :
    (r.modify i f).dev.items.length = r.dev.items.length := by
  simp [modify]

theorem length_allocAt (r : Registry) (src : Int) :
    r.dev.items.length ≤ (r.allocAt src).1.dev.items.length := by
  unfold allocAt allocDev
  cases h : r.dev.push? .fresh with
  | none => simp
  | some t =>
      simp [setSrc, length_modify, (Table.push?_eq_some_iff.mp h).2]

theorem length_touchBySrc (r : Registry) (src : Int) :
    r.dev.items.length ≤ (r.touchBySrc src).1.dev.items.length := by
  unfold touchBySrc
  cases r.findBySrc src with
  | some i => exact le_rfl
  | none => exact length_allocAt r src

theorem length_moveTo (r : Registry) (i : Nat) (src : Int) :
    (r.moveTo i src).dev.items.length = r.dev.items.length := by
  unfold moveTo
  cases r.dev.items[i]? with
  | none => rfl
  | some d =>
      simp only
      split_ifs
      · simp [setSrc, length_modify, detachAddr]
      · rfl

theorem length_adoptAt (r : Registry) (src : Int) :
    r.dev.items.length ≤ (r.adoptAt src).1.dev.items.length := by
  unfold adoptAt
  cases r.findBySrc src with
  | none => exact length_allocAt r src
  | some i =>
      cases hocc : r.dev.items[i]? with
      | none => simp [hocc]
      | some occ =>
          have := length_allocAt (r.setSrc i addrNull) src
          rw [setSrc, length_modify] at this
          cases hhas : occ.hasUnique with
          | false => simp [hocc, hhas]
          | true => simpa [hocc, hhas, setSrc] using this

theorem length_claimDevice (r : Registry) (src : Int) (u : Option UInt32) :
    r.dev.items.length ≤ (r.claimDevice src u).1.dev.items.length := by
  unfold claimDevice
  cases u with
  | none => exact length_touchBySrc r src
  | some u =>
      cases hfind : r.findByUnique u with
      | some i =>
          simp only [hfind]
          exact (length_moveTo r i src).ge
      | none =>
          have := length_adoptAt r src
          rcases h : r.adoptAt src with ⟨r', _ | i⟩ <;> rw [h] at this
          · simpa [hfind] using this
          · simpa [hfind, length_modify] using this

theorem length_correlate (lm : Libm α) (r : Registry) (m : Jsonl.Msg α) :
    r.dev.items.length ≤ (r.correlate lm m).1.dev.items.length := by
  unfold correlate
  by_cases hclaim : m.pgn = 60928
  · have := length_claimDevice r m.src (claimUnique lm m)
    rw [if_pos hclaim, fromClaim]
    rcases h : r.claimDevice m.src (claimUnique lm m) with ⟨r', _ | i⟩
    · rwa [h] at this
    · rw [h] at this
      simpa [length_modify] using this
  · have := length_touchBySrc r m.src
    rw [if_neg hclaim]
    rcases h : r.touchBySrc m.src with ⟨r', _ | i⟩
    · rwa [h] at this
    · rw [h] at this
      by_cases hproduct : m.pgn = 126996 <;>
        simpa [hproduct, length_modify] using this

/-- Records are never freed. -/
theorem length_observe (lm : Libm α) (r : Registry) (m : Jsonl.Msg α) :
    r.dev.items.length ≤ (r.observe lm m).1.dev.items.length := by
  unfold observe
  split_ifs
  · exact le_rfl
  · have := length_correlate lm r m
    rcases h : r.correlate lm m with ⟨r', _ | i⟩
    · rwa [h] at this
    · rw [h] at this
      simpa [length_modify] using this

/-! ### One message and the directory -/

theorem records_eq_some {r : Registry} {i : Nat} {e : Entry Int UInt32} :
    r.records i = some e ↔ ∃ d, r.dev.items[i]? = some d ∧ d.entry = e :=
  Option.map_eq_some_iff

theorem entry_vacate {src : Int} (hsrc : 0 ≤ src) (d : Device) :
    (d.vacate src).entry = vacate src d.entry := by
  unfold Device.vacate vacate Device.entry
  by_cases h : d.src = src
  · simp [h, hsrc, addrNull]
  · by_cases hd : 0 ≤ d.src <;> simp [h, hd]

theorem place_eq_some {d : Device} {a : Int} :
    d.entry.place = some a ↔ 0 ≤ a ∧ d.src = a := by
  unfold Device.entry
  by_cases h : 0 ≤ d.src
  · simp only [h, if_true, Option.some.injEq]
    exact ⟨fun ha => ⟨ha ▸ h, ha⟩, fun ha => ha.2⟩
  · simp only [h, if_false, false_iff, reduceCtorEq]
    rintro ⟨ha, rfl⟩
    exact h ha

theorem key_eq_some {d : Device} {u : UInt32} :
    d.entry.key = some u ↔ d.hasUnique = true ∧ d.unique = u := by
  unfold Device.entry
  cases d.hasUnique <;> simp

theorem key_eq_none {d : Device} :
    d.entry.key = none ↔ d.hasUnique = false := by
  unfold Device.entry
  cases d.hasUnique <;> simp

variable {lm : Libm α} {r r' : Registry} {m : Jsonl.Msg α} {i : Nat}

theorem Observed.records_others (h : Observed lm m r r' i) (hsrc : 0 ≤ m.src)
    {j : Nat} (hj : j ≠ i) :
    r'.records j = (r.records j).map (vacate m.src) := by
  unfold records
  rw [h.others j hj]
  cases r.dev.items[j]? with
  | none => rfl
  | some d => simp [entry_vacate hsrc]

/-- A message that claims a number is a claim. -/
theorem Observed.claimed (h : Observed lm m r r' i) (hsrc : 0 ≤ m.src)
    {u : UInt32} (hu : claimedNumber lm m = some u) :
    Claimed r.records r'.records m.src u i := by
  refine ⟨?_, fun j hj => h.records_others hsrc hj, fun j hj e he => ?_,
    fun e he => ?_⟩
  · obtain ⟨d', hd', henr, -⟩ := h.here
    refine records_eq_some.mpr ⟨d', hd', ?_⟩
    ext1
    · rw [place_eq_some]
      exact ⟨hsrc, henr.src_eq⟩
    · rw [key_eq_some, henr.hasUnique_eq, henr.unique_eq, hu]
      simp [Device.locate]
  · obtain ⟨d, hd, rfl⟩ := records_eq_some.mp he
    rw [Ne, key_eq_some]
    rintro ⟨hhas, hd_u⟩
    exact h.fresh_number u hu j hj d hd hhas hd_u
  · obtain ⟨d, hd, rfl⟩ := records_eq_some.mp he
    obtain ⟨hplace, hnumber⟩ := h.before d hd
    cases hhas : d.hasUnique with
    | true => exact Or.inl (key_eq_some.mpr ⟨hhas, hnumber u hu hhas⟩)
    | false =>
        refine Or.inr ⟨key_eq_none.mpr hhas, place_eq_some.mpr ⟨hsrc, ?_⟩⟩
        rcases hplace with hplace | ⟨x, -, htrue, -⟩
        · exact hplace
        · rw [hhas] at htrue
          cases htrue

/-- Any other message at most adds a record without a number. -/
theorem Observed.provisional (h : Observed lm m r r' i) (hsrc : 0 ≤ m.src)
    (hu : claimedNumber lm m = none) :
    Provisional r.records r'.records m.src := by
  have hothers : ∀ j ≠ i, r'.records j = r.records j := by
    intro j hj
    rw [h.records_others hsrc hj]
    cases hrec : r.records j with
    | none => rfl
    | some e =>
        obtain ⟨d, hd, rfl⟩ := records_eq_some.mp hrec
        rw [Option.map_some, vacate_of_ne]
        rw [Ne, place_eq_some]
        rintro ⟨-, hds⟩
        exact hj (h.unplaced hu j d hd hds)
  obtain ⟨d', hd', henr, -⟩ := h.here
  rw [hu] at henr
  cases hd : r.dev.items[i]? with
  | some d =>
      refine .known (funext fun j => ?_)
      by_cases hj : j = i
      · subst hj
        have hds : d.src = m.src := by
          rcases (h.before d hd).1 with hds | ⟨x, hx, -⟩
          · exact hds
          · rw [hu] at hx
            cases hx
        rw [hd, Option.getD_some] at henr
        unfold records
        rw [hd, hd', Option.map_some, Option.map_some]
        congr 1
        unfold Device.entry
        rw [henr.src_eq, henr.hasUnique_eq, henr.unique_eq]
        simp [Device.locate, hds]
      · exact hothers j hj
  | none =>
      refine .fresh i (by simp [records, hd]) (funext fun j => ?_)
        fun j e he hplace => ?_
      · by_cases hj : j = i
        · subst hj
          rw [hd] at henr
          rw [Function.update_self]
          refine records_eq_some.mpr ⟨d', hd', ?_⟩
          ext1
          · rw [place_eq_some]
            exact ⟨hsrc, henr.src_eq⟩
          · rw [key_eq_none, henr.hasUnique_eq]
            simp [Device.locate, Device.fresh]
        · rw [Function.update_of_ne hj, hothers j hj]
      · obtain ⟨d, hdj, rfl⟩ := records_eq_some.mp he
        have hji := h.unplaced hu j d hdj (place_eq_some.mp hplace).2
        rw [hji, hd] at hdj
        cases hdj

/-! ### Runs -/

/-- The registry after the messages `msgs`. -/
def observeAll (lm : Libm α) (msgs : List (Jsonl.Msg α)) : Registry :=
  msgs.foldl (fun r m => (r.observe lm m).1) init

/-- The claims among the messages, with the address each comes from. -/
def claims (lm : Libm α) (msgs : List (Jsonl.Msg α)) : List (Int × UInt32) :=
  msgs.filterMap fun m =>
    if Observable m then (claimedNumber lm m).map fun u => (m.src, u) else none

/-- Every record has the identity it should have. -/
def Identified (r : Registry) : Prop :=
  ∀ d ∈ r.dev.items, d.ident = d.identity

/-- What holds of the registry in any run. -/
structure Follows (lm : Libm α) (msgs : List (Jsonl.Msg α)) (r : Registry) :
    Prop where
  wf : Wf r.records
  agrees : Agrees r.records (claims lm msgs)
  identified : Identified r

theorem observeAll_append_singleton (lm : Libm α) (msgs : List (Jsonl.Msg α))
    (m : Jsonl.Msg α) :
    observeAll lm (msgs ++ [m]) = ((observeAll lm msgs).observe lm m).1 := by
  simp [observeAll]

theorem observe_of_not_observable (hm : ¬ Observable m) :
    r.observe lm m = (r, none) := by
  unfold observe
  rw [if_pos]
  by_contra h
  refine hm ?_
  simpa [Observable, and_assoc] using h

theorem identity_vacate (src : Int) (d : Device) :
    (d.vacate src).identity = d.identity := by
  unfold Device.vacate
  split_ifs <;> rfl

theorem ident_vacate (src : Int) (d : Device) :
    (d.vacate src).ident = d.ident := by
  unfold Device.vacate
  split_ifs <;> rfl

theorem Observed.identified (h : Observed lm m r r' i) (hr : Identified r) :
    Identified r' := by
  intro d' hmem
  obtain ⟨j, hj⟩ := List.mem_iff_getElem?.mp hmem
  by_cases hji : j = i
  · subst hji
    obtain ⟨d, hd, -, hident⟩ := h.here
    rw [hj] at hd
    obtain rfl := Option.some.inj hd
    exact hident
  · rw [h.others j hji] at hj
    obtain ⟨d, hd, rfl⟩ := Option.map_eq_some_iff.mp hj
    rw [ident_vacate, identity_vacate]
    exact hr d (List.mem_of_getElem? hd)

/-- One message keeps what holds in any run. -/
theorem Follows.observe {msgs : List (Jsonl.Msg α)} (h : Follows lm msgs r)
    (hroom : r.dev.items.length < maxDevices) :
    Follows lm (msgs ++ [m]) (r.observe lm m).1 := by
  have happ : claims lm (msgs ++ [m]) = claims lm msgs ++ claims lm [m] := by
    simp [claims]
  by_cases hm : Observable m
  · have hobs := observe_spec h.wf hm fun _ : r.subject m.src (claimedNumber lm m) = none => hroom
    have hsrc : 0 ≤ m.src := hm.2.2
    cases hu : claimedNumber lm m with
    | some u =>
        have hclaim : claims lm [m] = [(m.src, u)] := by simp [claims, hm, hu]
        refine ⟨(hobs.claimed hsrc hu).wf h.wf, ?_, hobs.identified h.identified⟩
        rw [happ, hclaim]
        exact (hobs.claimed hsrc hu).agrees h.agrees
    | none =>
        have hclaim : claims lm [m] = [] := by simp [claims, hu]
        refine ⟨(hobs.provisional hsrc hu).wf h.wf, ?_,
          hobs.identified h.identified⟩
        rw [happ, hclaim, List.append_nil]
        exact (hobs.provisional hsrc hu).agrees h.agrees
  · have hclaim : claims lm [m] = [] := by simp [claims, hm]
    rw [observe_of_not_observable hm]
    refine ⟨h.wf, ?_, h.identified⟩
    rw [happ, hclaim, List.append_nil]
    exact h.agrees

theorem observeAll_follows {msgs : List (Jsonl.Msg α)}
    (hroom : (observeAll lm msgs).dev.items.length < maxDevices) :
    Follows lm msgs (observeAll lm msgs) := by
  induction msgs using List.reverseRecOn with
  | nil =>
      exact ⟨wf_empty, agrees_empty, by simp [Identified, observeAll, init]⟩
  | append_singleton msgs m ih =>
      rw [observeAll_append_singleton] at hroom ⊢
      have hbefore : (observeAll lm msgs).dev.items.length < maxDevices :=
        lt_of_le_of_lt (length_observe lm _ m) hroom
      exact (ih hbefore).observe hbefore

theorem length_observeAll_append (lm : Libm α) (before after : List (Jsonl.Msg α)) :
    (observeAll lm before).dev.items.length ≤
      (observeAll lm (before ++ after)).dev.items.length := by
  induction after using List.reverseRecOn with
  | nil =>
      simp
  | append_singleton after m ih =>
      rw [← List.append_assoc, observeAll_append_singleton]
      exact ih.trans (length_observe lm _ m)

/-- The two records are the same device, but for its address. -/
structure SameDevice (d d' : Device) : Prop where
  hasUnique_eq : d'.hasUnique = d.hasUnique
  unique_eq : d'.unique = d.unique
  serial_eq : d'.serial = d.serial
  model_eq : d'.model = d.model
  ident_eq : d'.ident = d.ident

theorem identity_congr {d d' : Device} (hhas : d'.hasUnique = d.hasUnique)
    (hunique : d'.unique = d.unique) (hserial : d'.serial = d.serial) :
    d'.identity = d.identity := by
  unfold Device.identity
  rw [hhas, hunique, hserial]

/-- Only a claim moves a record, so what moves or is detached stays the same
device. -/
theorem Observed.sameDevice (h : Observed lm m r r' i) (hr : Identified r)
    {j : Nat} {d : Device} (hd : r.dev.items[j]? = some d) :
    ∃ d', r'.dev.items[j]? = some d' ∧ (d'.src ≠ d.src → SameDevice d d') := by
  by_cases hj : j = i
  · subst hj
    obtain ⟨d', hd', henr, hident⟩ := h.here
    refine ⟨d', hd', fun hmoved => ?_⟩
    rw [hd, Option.getD_some] at henr
    rcases (h.before d hd).1 with hds | ⟨u, hu, hhas, hunique⟩
    · exact absurd (henr.src_eq.trans hds.symm) hmoved
    · have hclaim : m.pgn = 60928 := by
        by_contra hne
        simp [claimedNumber, hne] at hu
      have hserial : announcedSerial m = none := by
        simp [announcedSerial, hclaim]
      have h1 : d'.hasUnique = d.hasUnique := by
        rw [henr.hasUnique_eq]
        simp [Device.locate, hhas]
      have h2 : d'.unique = d.unique := by
        rw [henr.unique_eq, hu]
        exact hunique.symm
      have h3 : d'.serial = d.serial := by
        rw [henr.serial_eq, hserial]
        rfl
      refine ⟨h1, h2, h3, henr.model_eq (by rw [hclaim]; decide), ?_⟩
      rw [hident, identity_congr h1 h2 h3]
      exact (hr d (List.mem_of_getElem? hd)).symm
  · refine ⟨d.vacate m.src, by rw [h.others j hj, hd]; rfl, fun _ => ?_⟩
    unfold Device.vacate
    split_ifs <;> exact ⟨rfl, rfl, rfl, rfl, rfl⟩

theorem eq_of_src_eq (hwf : Wf r.records) {j k : Nat} {d e : Device}
    (hd : r.dev.items[j]? = some d) (he : r.dev.items[k]? = some e)
    (hpos : 0 ≤ d.src) (hsrc : e.src = d.src) :
    j = k := by
  by_contra hjk
  exact src_ne_of_wf hwf hd he (Ne.symm hjk) hpos hsrc

theorem eq_of_unique_eq (hwf : Wf r.records) {j k : Nat} {d e : Device}
    (hd : r.dev.items[j]? = some d) (he : r.dev.items[k]? = some e)
    (hdhas : d.hasUnique = true) (hehas : e.hasUnique = true)
    (hunique : e.unique = d.unique) :
    j = k :=
  hwf.key_inj (records_eq_some.mpr ⟨d, hd, rfl⟩) (records_eq_some.mpr ⟨e, he, rfl⟩)
    (key_eq_some.mpr ⟨hdhas, rfl⟩) (key_eq_some.mpr ⟨hehas, hunique⟩)

/-- The record at an address. -/
theorem bySrc_eq_some_iff (hwf : Wf r.records) {a : Int} (ha : 0 ≤ a)
    {d : Device} :
    r.bySrc a = some d ↔ ∃ j : Nat, r.dev.items[j]? = some d ∧ d.src = a := by
  unfold bySrc
  constructor
  · intro h
    obtain ⟨j, hj, hd⟩ := Option.bind_eq_some_iff.mp h
    obtain ⟨e, he, hsrc⟩ := findBySrc_eq_some hj
    rw [hd] at he
    obtain rfl := Option.some.inj he
    exact ⟨j, hd, hsrc⟩
  · rintro ⟨j, hd, hsrc⟩
    cases hfind : r.findBySrc a with
    | none =>
        exact absurd hsrc (findBySrc_eq_none ha hfind hd)
    | some k =>
        obtain ⟨e, he, hesrc⟩ := findBySrc_eq_some hfind
        obtain rfl := eq_of_src_eq hwf hd he (hsrc ▸ ha) (hesrc.trans hsrc.symm)
        exact hd

/-- The record at `a` carries the number `u`. -/
def Carries (r : Registry) (a : Int) (u : UInt32) : Prop :=
  ∃ d, r.bySrc a = some d ∧ d.hasUnique = true ∧ d.unique = u

theorem carries_iff (hwf : Wf r.records) {a : Int} (ha : 0 ≤ a) {u : UInt32} :
    r.Carries a u ↔ ∃ j, r.records j = some ⟨some a, some u⟩ := by
  constructor
  · rintro ⟨d, hd, hhas, hunique⟩
    obtain ⟨j, hj, hsrc⟩ := (bySrc_eq_some_iff hwf ha).mp hd
    refine ⟨j, records_eq_some.mpr ⟨d, hj, ?_⟩⟩
    ext1
    · exact place_eq_some.mpr ⟨ha, hsrc⟩
    · exact key_eq_some.mpr ⟨hhas, hunique⟩
  · rintro ⟨j, hj⟩
    obtain ⟨d, hd, hentry⟩ := records_eq_some.mp hj
    obtain ⟨-, hsrc⟩ := place_eq_some.mp (by rw [hentry] : d.entry.place = some a)
    have hkey := key_eq_some.mp (by rw [hentry] : d.entry.key = some u)
    exact ⟨d, (bySrc_eq_some_iff hwf ha).mpr ⟨j, hd, hsrc⟩, hkey⟩

/-- What the identity says: the serial, else the unique number in decimal, else
nothing.  Neither is cut. -/
theorem text_identity (d : Device) :
    d.identity.text =
      if d.serial.text ≠ [] then d.serial.text
      else if d.hasUnique then CText.decimal d.unique.toNat else [] := by
  unfold Device.identity
  split_ifs
  · refine CBuf.text_ofText_of_lt ?_
    have := d.serial.fits
    simp only [serialLen, identLen] at this ⊢
    omega
  · refine CBuf.text_ofText_of_lt ?_
    have := CText.length_decimal_le_ten (UInt32.toNat_lt d.unique)
    simp only [identLen]
    omega
  · rfl

/--
The registry follows address claims.  As long as a record is left, in every run:
one record for each address, one for each unique number, agreement with the
claims, records that move or are detached unchanged, identities up to date.
-/
theorem registry_follows_claims (lm : Libm α) (msgs : List (Jsonl.Msg α))
    (hroom : (observeAll lm msgs).dev.items.length < maxDevices) :
    let r := observeAll lm msgs
    (∀ (j k : Nat) d e, r.dev.items[j]? = some d → r.dev.items[k]? = some e →
      0 ≤ d.src → e.src = d.src → j = k) ∧
    (∀ (j k : Nat) d e, r.dev.items[j]? = some d → r.dev.items[k]? = some e →
      d.hasUnique = true → e.hasUnique = true → e.unique = d.unique → j = k) ∧
    (∀ a u, 0 ≤ a → (r.Carries a u ↔ Announced (claims lm msgs) a u)) ∧
    (∀ before m after, msgs = before ++ m :: after →
      ∀ (j : Nat) d, (observeAll lm before).dev.items[j]? = some d →
        ∃ d', (observeAll lm (before ++ [m])).dev.items[j]? = some d' ∧
          (d'.src ≠ d.src → SameDevice d d')) ∧
    (∀ d ∈ r.dev.items, d.ident.text =
      if d.serial.text ≠ [] then d.serial.text
      else if d.hasUnique then CText.decimal d.unique.toNat else []) := by
  intro r
  obtain ⟨hwf, hagrees, hident⟩ := observeAll_follows hroom
  refine ⟨fun j k d e => eq_of_src_eq hwf, fun j k d e => eq_of_unique_eq hwf,
    fun a u ha => (carries_iff hwf ha).trans (hagrees a u), ?_, fun d hd => ?_⟩
  · rintro before m after rfl j d hd
    have hbefore : (observeAll lm before).dev.items.length < maxDevices :=
      lt_of_le_of_lt (length_observeAll_append lm before _) hroom
    have hfollows := observeAll_follows hbefore
    rw [observeAll_append_singleton]
    by_cases hm : Observable m
    · exact (observe_spec hfollows.wf hm fun _ => hbefore).sameDevice
        hfollows.identified hd
    · rw [observe_of_not_observable hm]
      exact ⟨d, hd, fun h => absurd rfl h⟩
  · rw [hident d hd, text_identity]

/-- An address claim. -/
def claimFrom (src : Int) (u : ℚ) : Jsonl.Msg ℚ :=
  { Jsonl.Msg.init with
    hasSrc := true, hasPgn := true, src := src, pgn := 60928
    fields := Table.empty.pushOrDrop
      { key := .ofText _ "Unique Number".toList, type := .num, num := .val u
        str := .empty } }

/-- A device that claims the address of another one is found there. -/
theorem registry_follows_eviction :
    (observeAll exactLibm [claimFrom 1 7, claimFrom 2 8, claimFrom 1 8]).Carries
      1 8 := by
  have h := registry_follows_claims exactLibm
    [claimFrom 1 7, claimFrom 2 8, claimFrom 1 8] (by decide +kernel)
  have hclaims : claims exactLibm [claimFrom 1 7, claimFrom 2 8, claimFrom 1 8] =
      [(1, 7), (2, 8), (1, 8)] := by decide +kernel
  refine (h.2.2.1 1 8 (by decide)).mpr ?_
  rw [hclaims]
  exact ⟨[(1, 7), (2, 8)], [], rfl, by simp, by simp⟩

end Registry
end N2kMux
