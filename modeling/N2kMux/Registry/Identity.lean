import N2kMux.Registry.Follows

/-!
# Identities on the bus

An identity is a serial, which product information gives to whoever is at the
address, or a unique number, which a claim follows from address to address.  Two
addresses never share the second kind.  They can share the first: here is when.
-/

namespace N2kMux
namespace Registry

open Directory

variable {α : Type}

/-- No two records that hold an address have the same non-empty identity. -/
def Distinct (r : Registry) : Prop :=
  ∀ (j k : Nat) d e, r.dev.items[j]? = some d → r.dev.items[k]? = some e →
    0 ≤ d.src → 0 ≤ e.src → d.ident.text = e.ident.text → d.ident.text ≠ [] →
    j = k

/-- The identity that a message gives to the record it is about: the serial it
announces or the record has, else the number it claims or the record has. -/
def givenIdent (lm : Libm α) (r : Registry) (m : Jsonl.Msg α) :
    CBuf identLen :=
  let d := ((r.subject m.src (claimedNumber lm m)).bind
    fun i => r.dev.items[i]?).getD .fresh
  { d.locate m.src (claimedNumber lm m) with
    serial := (announcedSerial m).getD d.serial }.identity

/-- The message gives its record an identity that no other record with an
address has. -/
def Unambiguous (lm : Libm α) (r : Registry) (m : Jsonl.Msg α) : Prop :=
  Observable m →
  (r.subject m.src (claimedNumber lm m) = none →
    r.dev.items.length < maxDevices) →
  (r.givenIdent lm m).text ≠ [] →
  ∀ j : Nat, j ≠ r.target m.src (claimedNumber lm m) →
    ∀ d, r.dev.items[j]? = some d → 0 ≤ d.src → d.src ≠ m.src →
      d.ident.text ≠ (r.givenIdent lm m).text

variable {lm : Libm α} {r r' : Registry} {m : Jsonl.Msg α}

/-! ### Every run, full table included -/

theorem getElem?_target (r : Registry) (src : Int) (u : Option UInt32) :
    r.dev.items[r.target src u]? =
      (r.subject src u).bind fun i => r.dev.items[i]? := by
  unfold target
  cases r.subject src u <;> simp

theorem Observed.ident_eq
    (h : Observed lm m r r' (r.target m.src (claimedNumber lm m))) :
    ∃ d', r'.dev.items[r.target m.src (claimedNumber lm m)]? = some d' ∧
      d'.src = m.src ∧ d'.ident = r.givenIdent lm m := by
  obtain ⟨d', hd', henr, hident⟩ := h.here
  refine ⟨d', hd', henr.src_eq, ?_⟩
  rw [getElem?_target] at henr
  rw [hident]
  exact identity_congr henr.hasUnique_eq henr.unique_eq henr.serial_eq

/-- A record that keeps an address is unchanged. -/
theorem vacate_eq_self {src : Int} {d : Device} (h : 0 ≤ (d.vacate src).src) :
    d.vacate src = d ∧ d.src ≠ src := by
  unfold Device.vacate at h ⊢
  split_ifs at h ⊢ with hds
  · exact absurd h (by simp [addrNull])
  · exact ⟨rfl, hds⟩

theorem vacate_of_src_ne {src : Int} {d : Device} (h : d.src ≠ src) :
    d.vacate src = d :=
  if_neg h

/-- What holds in any run, even when the table is full. -/
structure Sane (r : Registry) : Prop where
  wf : Wf r.records
  identified : Identified r

theorem sane_of_vacate {src : Int} (hsrc : 0 ≤ src) (h : Sane r)
    (hr' : ∀ j : Nat, r'.dev.items[j]? = (r.dev.items[j]?).map (Device.vacate src)) :
    Sane r' := by
  constructor
  · refine h.wf.of_sub fun j f hf => ?_
    obtain ⟨d', hd', rfl⟩ := records_eq_some.mp hf
    rw [hr'] at hd'
    obtain ⟨d, hd, rfl⟩ := Option.map_eq_some_iff.mp hd'
    refine ⟨d.entry, records_eq_some.mpr ⟨d, hd, rfl⟩, ?_, fun a ha => ?_⟩
    · rw [entry_vacate hsrc, vacate_key]
    · rw [entry_vacate hsrc] at ha
      exact (vacate_place_eq_some ha).1
  · intro d' hmem
    obtain ⟨j, hj⟩ := List.mem_iff_getElem?.mp hmem
    rw [hr'] at hj
    obtain ⟨d, hd, rfl⟩ := Option.map_eq_some_iff.mp hj
    rw [ident_vacate, identity_vacate]
    exact h.identified d (List.mem_of_getElem? hd)

/-- The three ways a message is taken into account. -/
theorem observe_cases (lm : Libm α) (m : Jsonl.Msg α) (h : Sane r) :
    (Observable m ∧
      (r.subject m.src (claimedNumber lm m) = none →
        r.dev.items.length < maxDevices) ∧
      Observed lm m r (r.observe lm m).1
        (r.target m.src (claimedNumber lm m))) ∨
    (Observable m ∧
      ¬ (r.subject m.src (claimedNumber lm m) = none →
        r.dev.items.length < maxDevices) ∧
      ∀ j : Nat, (r.observe lm m).1.dev.items[j]? =
        (r.dev.items[j]?).map (Device.vacate m.src)) ∨
    (¬ Observable m ∧ (r.observe lm m).1 = r) := by
  by_cases hm : Observable m
  · by_cases hroom : r.subject m.src (claimedNumber lm m) = none →
        r.dev.items.length < maxDevices
    · exact Or.inl ⟨hm, hroom, observe_spec h.wf hm hroom⟩
    · obtain ⟨hsubject, hlen⟩ := Classical.not_imp.mp hroom
      have hfull : r.dev.items.length = maxDevices :=
        le_antisymm r.dev.fits (not_lt.mp hlen)
      exact Or.inr (Or.inl ⟨hm, hroom, observe_full h.wf hm hsubject hfull⟩)
  · exact Or.inr (Or.inr ⟨hm, by rw [observe_of_not_observable hm]⟩)

theorem Sane.observe (h : Sane r) : Sane (r.observe lm m).1 := by
  rcases observe_cases lm m h with
    ⟨hm, -, hobs⟩ | ⟨hm, -, hvacate⟩ | ⟨-, hsame⟩
  · refine ⟨?_, hobs.identified h.identified⟩
    cases hu : claimedNumber lm m with
    | some u => exact (hobs.claimed hm.2.2 hu).wf h.wf
    | none => exact (hobs.provisional hm.2.2 hu).wf h.wf
  · exact sane_of_vacate hm.2.2 h hvacate
  · exact hsame.symm ▸ h

theorem observeAll_sane (lm : Libm α) (msgs : List (Jsonl.Msg α)) :
    Sane (observeAll lm msgs) := by
  induction msgs using List.reverseRecOn with
  | nil =>
      exact ⟨wf_empty, by simp [Identified, observeAll, init]⟩
  | append_singleton msgs m ih =>
      rw [observeAll_append_singleton]
      exact ih.observe

/-! ### Sharing an identity -/

/-- Records whose identities are unique numbers have different ones. -/
theorem Sane.serial_of_shared (h : Sane r) {j k : Nat} {d e : Device}
    (hd : r.dev.items[j]? = some d) (he : r.dev.items[k]? = some e)
    (hshared : d.ident.text = e.ident.text) (hne : d.ident.text ≠ [])
    (hjk : j ≠ k) :
    d.serial.text = d.ident.text ∨ e.serial.text = e.ident.text := by
  have hdident := h.identified d (List.mem_of_getElem? hd)
  have heident := h.identified e (List.mem_of_getElem? he)
  by_cases hds : d.serial.text = []
  · by_cases hes : e.serial.text = []
    · have hdtext := text_identity d
      have hetext := text_identity e
      rw [← hdident, hds, if_neg (by simp)] at hdtext
      rw [← heident, hes, if_neg (by simp), ← hshared] at hetext
      cases hdhas : d.hasUnique with
      | false => exact absurd (by simpa [hdhas] using hdtext) hne
      | true =>
          cases hehas : e.hasUnique with
          | false => exact absurd (by simpa [hehas] using hetext) hne
          | true =>
              rw [hdhas, if_pos rfl] at hdtext
              rw [hehas, if_pos rfl, hdtext] at hetext
              have hunique : e.unique = d.unique :=
                UInt32.toNat_inj.mp (CText.decimal_injective hetext).symm
              exact absurd (eq_of_unique_eq h.wf hd he hdhas hehas hunique) hjk
    · exact Or.inr (by rw [heident, text_identity, if_pos hes])
  · exact Or.inl (by rw [hdident, text_identity, if_pos hds])

/-- A message keeps the identities distinct exactly when it is unambiguous. -/
theorem Sane.distinct_observe_iff (h : Sane r) (hdistinct : Distinct r) :
    Distinct (r.observe lm m).1 ↔ Unambiguous lm r m := by
  rcases observe_cases lm m h with
    ⟨hm, hroom, hobs⟩ | ⟨hm, hroom, hvacate⟩ | ⟨hm, hsame⟩
  · obtain ⟨d', hd', hsrc', hident'⟩ := hobs.ident_eq
    have hpos : 0 ≤ d'.src := hsrc'.symm ▸ hm.2.2
    have hkept : ∀ j ≠ r.target m.src (claimedNumber lm m), ∀ e,
        (r.observe lm m).1.dev.items[j]? = some e → 0 ≤ e.src →
          r.dev.items[j]? = some e ∧ e.src ≠ m.src := by
      intro j hj e he hepos
      rw [hobs.others j hj] at he
      obtain ⟨d, hd, rfl⟩ := Option.map_eq_some_iff.mp he
      obtain ⟨hself, hne⟩ := vacate_eq_self hepos
      rw [hself]
      exact ⟨hd, hne⟩
    constructor
    · intro hr' _ _ hne j hj d hd hdpos hds hshared
      have hdj : (r.observe lm m).1.dev.items[j]? = some d := by
        rw [hobs.others j hj, hd, Option.map_some, vacate_of_src_ne hds]
      exact hj (hr' j _ d d' hdj hd' hdpos hpos (by rw [hshared, hident'])
        (by rw [hshared]; exact hne))
    · intro hun j k d e hd he hdpos hepos hshared hne
      by_cases hj : j = r.target m.src (claimedNumber lm m) <;>
        by_cases hk : k = r.target m.src (claimedNumber lm m)
      · rw [hj, hk]
      · obtain ⟨he, hes⟩ := hkept k hk e he hepos
        rw [hj, hd'] at hd
        obtain rfl := Option.some.inj hd
        rw [hident'] at hshared hne
        exact absurd hshared.symm (hun hm hroom hne k hk e he hepos hes)
      · obtain ⟨hd, hds⟩ := hkept j hj d hd hdpos
        rw [hk, hd'] at he
        obtain rfl := Option.some.inj he
        rw [hident'] at hshared
        rw [hshared] at hne
        exact absurd hshared (hun hm hroom hne j hj d hd hdpos hds)
      · exact hdistinct j k d e (hkept j hj d hd hdpos).1
          (hkept k hk e he hepos).1 hdpos hepos hshared hne
  · refine iff_of_true ?_ (fun _ hroom' => absurd hroom' hroom)
    intro j k d' e' hd' he' hdpos hepos hshared hne
    rw [hvacate] at hd' he'
    obtain ⟨d, hd, rfl⟩ := Option.map_eq_some_iff.mp hd'
    obtain ⟨e, he, rfl⟩ := Option.map_eq_some_iff.mp he'
    have hdself := (vacate_eq_self hdpos).1
    have heself := (vacate_eq_self hepos).1
    rw [hdself] at hdpos hshared hne
    rw [heself] at hepos hshared
    exact hdistinct j k d e hd he hdpos hepos hshared hne
  · rw [hsame]
    exact iff_of_true hdistinct (fun hm' => absurd hm' hm)

/-- A message without a number or a serial changes no identity. -/
theorem Sane.unambiguous_of_plain (h : Sane r) (hdistinct : Distinct r)
    (hu : claimedNumber lm m = none) (hserial : announcedSerial m = none) :
    Unambiguous lm r m := by
  intro hm _ hne j hj d hd hdpos hds hshared
  unfold givenIdent at hne hshared
  unfold target at hj
  rw [hu] at hne hshared hj
  cases hsub : r.subject m.src none with
  | none =>
      rw [hsub] at hne
      simp [hserial, Device.locate, Device.fresh, Device.identity] at hne
  | some i =>
      obtain ⟨e, he, hes⟩ := findBySrc_eq_some hsub
      have hident : { e.locate m.src none with
          serial := (announcedSerial m).getD e.serial }.identity = e.ident := by
        rw [h.identified e (List.mem_of_getElem? he), hserial]
        exact identity_congr (by simp [Device.locate]) rfl rfl
      rw [hsub] at hne hshared hj
      simp only [Option.bind_some, he, Option.getD_some, hident] at hne hshared hj
      exact hj (hdistinct j i d e hd he hdpos (hes.symm ▸ hm.2.2) hshared
        (hshared ▸ hne))

/--
Which identities two addresses can share, and when they come to.  In every run,
of two records with an address and the same identity one has it as its serial.
The identities stay distinct through the run exactly when every message is
unambiguous, as those without a number or a serial are.
-/
theorem shared_ident_iff (lm : Libm α) (msgs : List (Jsonl.Msg α)) :
    (∀ (j k : Nat) d e, (observeAll lm msgs).dev.items[j]? = some d →
      (observeAll lm msgs).dev.items[k]? = some e → 0 ≤ d.src → 0 ≤ e.src →
      d.ident.text = e.ident.text → d.ident.text ≠ [] → j ≠ k →
        d.serial.text = d.ident.text ∨ e.serial.text = e.ident.text) ∧
    ((∀ before after, msgs = before ++ after → Distinct (observeAll lm before)) ↔
      ∀ before m after, msgs = before ++ m :: after →
        Unambiguous lm (observeAll lm before) m) ∧
    (Distinct (observeAll lm msgs) →
      ∀ m, claimedNumber lm m = none → announcedSerial m = none →
        Unambiguous lm (observeAll lm msgs) m) := by
  refine ⟨fun j k d e hd he _ _ => (observeAll_sane lm msgs).serial_of_shared hd he,
    ⟨fun hall before m after hmsgs => ?_, fun hall before => ?_⟩,
    fun hdistinct m => (observeAll_sane lm msgs).unambiguous_of_plain hdistinct⟩
  · have hbefore := hall before (m :: after) hmsgs
    refine ((observeAll_sane lm before).distinct_observe_iff hbefore).mp ?_
    rw [← observeAll_append_singleton]
    exact hall (before ++ [m]) after (by simp [hmsgs])
  · induction before using List.reverseRecOn with
    | nil =>
        intro _ _ j k d e hd
        simp [observeAll, init] at hd
    | append_singleton before m ih =>
        intro after hmsgs
        have hbefore := ih (m :: after) (by simp [hmsgs])
        rw [observeAll_append_singleton]
        exact ((observeAll_sane lm before).distinct_observe_iff hbefore).mpr
          (hall before m after (by simp [hmsgs]))

/-- Product information. -/
def productFrom (src : Int) (serial : Text) : Jsonl.Msg ℚ :=
  { Jsonl.Msg.init with
    hasSrc := true, hasPgn := true, src := src, pgn := 126996
    fields := Table.empty.pushOrDrop
      { key := .ofText _ "Model Serial Code".toList, type := .str, num := .nan
        str := .ofText _ serial } }

/-- A device with a serial is seen at another address without having claimed it:
both addresses have its identity. -/
theorem shared_ident_after_unseen_claim :
    ¬ Distinct (observeAll exactLibm
      [claimFrom 1 7, productFrom 1 "S-7".toList, productFrom 2 "S-7".toList]) := by
  intro h
  have hmem : ∀ j : Fin 2, ∃ d,
      (observeAll exactLibm [claimFrom 1 7, productFrom 1 "S-7".toList,
        productFrom 2 "S-7".toList]).dev.items[j.val]? = some d ∧
      0 ≤ d.src ∧ d.ident.text = "S-7".toList := by
    intro j
    fin_cases j
    · exact ⟨_, rfl, by decide +kernel, by decide +kernel⟩
    · exact ⟨_, rfl, by decide +kernel, by decide +kernel⟩
  obtain ⟨d, hd, hdpos, hdident⟩ := hmem 0
  obtain ⟨e, he, hepos, heident⟩ := hmem 1
  have heq := h 0 1 d e hd he hdpos hepos (hdident.trans heident.symm)
    (by rw [hdident]; decide)
  exact absurd heq (by decide)

end Registry
end N2kMux
