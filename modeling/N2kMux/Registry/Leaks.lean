import N2kMux.Registry.Identity

/-!
# Records that the registry loses

A record without a unique number is found by its address only.  When a device
whose number is known claims that address, `detach_addr` takes the address away
and nothing finds the record any more: it stays allocated for ever.  This is the
only way to lose a record, and without it the records are bounded by the numbers
and the addresses seen on the bus.
-/

namespace N2kMux
namespace Registry

open Directory

variable {α : Type}

/-- A record without an address that no claim can find. -/
def Device.Lost (d : Device) : Prop :=
  d.hasUnique = false ∧ d.src < 0

instance (d : Device) : Decidable d.Lost :=
  inferInstanceAs (Decidable (_ ∧ _))

/-- The lost records of the registry. -/
def lostAt (r : Registry) : Finset Nat :=
  (Finset.range r.dev.items.length).filter fun i =>
    (r.dev.items[i]?).any fun d => decide d.Lost

/-- The claim of a number that the registry knows, from an address where a
record without a number is. -/
def Strands (lm : Libm α) (r : Registry) (m : Jsonl.Msg α) : Prop :=
  Observable m ∧ ((claimedNumber lm m).bind r.findByUnique).isSome ∧
    (r.provisionalAt m.src).isSome

instance (lm : Libm α) (r : Registry) (m : Jsonl.Msg α) :
    Decidable (Strands lm r m) :=
  inferInstanceAs (Decidable (_ ∧ _ ∧ _))

/-- The number of messages that strand a record. -/
def strandings (lm : Libm α) (msgs : List (Jsonl.Msg α)) : Nat :=
  (msgs.foldl
    (fun (s : Registry × Nat) m =>
      ((s.1.observe lm m).1, s.2 + if Strands lm s.1 m then 1 else 0))
    (init, 0)).2

/-- The unique numbers that the messages claim. -/
def numbers (lm : Libm α) (msgs : List (Jsonl.Msg α)) : Finset UInt32 :=
  ((claims lm msgs).map Prod.snd).toFinset

/-- The addresses that the messages come from. -/
def addresses (msgs : List (Jsonl.Msg α)) : Finset Int :=
  ((msgs.filter fun m => decide (Observable m)).map fun m => m.src).toFinset

variable {lm : Libm α} {r r' : Registry} {m : Jsonl.Msg α} {i : Nat}

/-! ### Lost records -/

theorem mem_lostAt {j : Nat} :
    j ∈ r.lostAt ↔ ∃ d, r.dev.items[j]? = some d ∧ d.Lost := by
  unfold lostAt
  rw [Finset.mem_filter, Finset.mem_range, Option.any_eq_true]
  constructor
  · rintro ⟨-, d, hd, hlost⟩
    exact ⟨d, hd, of_decide_eq_true hlost⟩
  · rintro ⟨d, hd, hlost⟩
    exact ⟨(List.getElem?_eq_some_iff.mp hd).1, d, hd, decide_eq_true hlost⟩

theorem lost_vacate_iff {src : Int} {d : Device} :
    (d.vacate src).Lost ↔ d.Lost ∨ (d.src = src ∧ d.hasUnique = false) := by
  unfold Device.vacate Device.Lost
  by_cases hds : d.src = src
  · simp [hds, addrNull]
    tauto
  · simp [hds]

theorem provisionalAt_eq_some_iff
    (hwf : Wf r.records)
    {src : Int}
    (hsrc : 0 ≤ src)
    {j : Nat} :
    r.provisionalAt src = some j ↔
      ∃ d, r.dev.items[j]? = some d ∧ d.src = src ∧ d.hasUnique = false := by
  unfold provisionalAt
  rw [Option.filter_eq_some_iff]
  constructor
  · rintro ⟨hfind, hany⟩
    obtain ⟨d, hd, hds⟩ := findBySrc_eq_some hfind
    exact ⟨d, hd, hds, by simpa [hd] using hany⟩
  · rintro ⟨d, hd, hds, hhas⟩
    refine ⟨?_, by simp [hd, hhas]⟩
    cases hfind : r.findBySrc src with
    | none => exact absurd hds (findBySrc_eq_none hsrc hfind hd)
    | some k =>
        obtain ⟨e, he, hes⟩ := findBySrc_eq_some hfind
        rw [eq_of_src_eq hwf he hd (hes.symm ▸ hsrc) (hds.trans hes.symm)]

/-- The record a message is about is not lost, before or after. -/
theorem Observed.not_lost
    (h : Observed lm m r r' i)
    (hsrc : 0 ≤ m.src) :
    i ∉ r.lostAt ∧ i ∉ r'.lostAt := by
  constructor
  · rw [mem_lostAt]
    rintro ⟨d, hd, hhas, hneg⟩
    rcases (h.before d hd).1 with hds | ⟨x, -, htrue, -⟩
    · omega
    · rw [hhas] at htrue
      cases htrue
  · rw [mem_lostAt]
    rintro ⟨d, hd, -, hneg⟩
    obtain ⟨d', hd', henr, -⟩ := h.here
    rw [hd] at hd'
    obtain rfl := Option.some.inj hd'
    have : d.src = m.src := henr.src_eq
    omega

/-- The records lost with a message are those it takes the address from. -/
theorem Observed.mem_lostAt_iff
    (h : Observed lm m r r' i)
    (hsrc : 0 ≤ m.src)
    (hwf : Wf r.records)
    (j : Nat) :
    j ∈ r'.lostAt ↔ j ∈ r.lostAt ∨ (j ≠ i ∧ r.provisionalAt m.src = some j) := by
  by_cases hj : j = i
  · subst hj
    obtain ⟨hbefore, hafter⟩ := h.not_lost hsrc
    simp [hbefore, hafter]
  · rw [mem_lostAt, mem_lostAt, h.others j hj,
      provisionalAt_eq_some_iff hwf hsrc]
    cases hd : r.dev.items[j]? with
    | none => simp
    | some d => simpa [hj] using lost_vacate_iff

/-- A record is stranded when the message is about another one. -/
theorem strands_iff
    (hwf : Wf r.records)
    (hm : Observable m)
    {j : Nat}
    (hprov : r.provisionalAt m.src = some j) :
    Strands lm r m ↔ j ≠ r.target m.src (claimedNumber lm m) := by
  obtain ⟨d, hd, hds, hhas⟩ := (provisionalAt_eq_some_iff hwf hm.2.2).mp hprov
  have hfind : r.findBySrc m.src = some j :=
    (Option.filter_eq_some_iff.mp hprov).1
  unfold Strands target subject
  cases claimedNumber lm m with
  | none => simp [hfind]
  | some u =>
      cases hu : r.findByUnique u with
      | none => simp [hprov, hu]
      | some k =>
          obtain ⟨e, he, hehas, -⟩ := findByUnique_eq_some hu
          have hjk : j ≠ k := by
            rintro rfl
            rw [hd] at he
            obtain rfl := Option.some.inj he
            rw [hhas] at hehas
            cases hehas
          simp [hm, hprov, hu, hjk]

/-- A message loses one record if it strands one, else none. -/
theorem Sane.card_lostAt_observe (h : Sane r) :
    (r.observe lm m).1.lostAt.card =
      r.lostAt.card + if Strands lm r m then 1 else 0 := by
  rcases observe_cases lm m h with
    ⟨hm, -, hobs⟩ | ⟨hm, hroom, hvacate⟩ | ⟨hm, hsame⟩
  · have hmem := hobs.mem_lostAt_iff hm.2.2 h.wf
    cases hprov : r.provisionalAt m.src with
    | none =>
        have hno : ¬ Strands lm r m := fun hs => by
          have := hs.2.2
          simp [hprov] at this
        have hset : (r.observe lm m).1.lostAt = r.lostAt := by
          ext j
          rw [hmem j, hprov]
          simp
        rw [hset, if_neg hno, Nat.add_zero]
    | some k =>
        have hiff : Strands lm r m ↔ _ := strands_iff h.wf hm hprov
        have hk : k ∉ r.lostAt := by
          obtain ⟨d, hd, hds, -⟩ :=
            (provisionalAt_eq_some_iff h.wf hm.2.2).mp hprov
          rw [mem_lostAt, hd]
          rintro ⟨e, he, -, hneg⟩
          obtain rfl := Option.some.inj he
          have := hm.2.2
          omega
        by_cases hs : Strands lm r m
        · have hset : (r.observe lm m).1.lostAt = insert k r.lostAt := by
            ext j
            rw [hmem j, hprov, Finset.mem_insert, Option.some.injEq]
            constructor
            · rintro (hj | ⟨-, rfl⟩)
              · exact Or.inr hj
              · exact Or.inl rfl
            · rintro (rfl | hj)
              · exact Or.inr ⟨hiff.mp hs, rfl⟩
              · exact Or.inl hj
          rw [hset, Finset.card_insert_of_notMem hk, if_pos hs]
        · have hset : (r.observe lm m).1.lostAt = r.lostAt := by
            ext j
            rw [hmem j, hprov, Option.some.injEq]
            refine or_iff_left ?_
            rintro ⟨hj, rfl⟩
            exact hs (hiff.mpr hj)
          rw [hset, if_neg hs, Nat.add_zero]
  · obtain ⟨hsubject, -⟩ := Classical.not_imp.mp hroom
    have hprov : r.provisionalAt m.src = none := by
      unfold subject at hsubject
      cases hu : claimedNumber lm m with
      | none =>
          rw [hu] at hsubject
          simp [provisionalAt, hsubject]
      | some u =>
          rw [hu, Option.or_eq_none_iff] at hsubject
          exact hsubject.2
    have hno : ¬ Strands lm r m := fun hs => by
      have := hs.2.2
      simp [hprov] at this
    have hset : (r.observe lm m).1.lostAt = r.lostAt := by
      ext j
      rw [mem_lostAt, mem_lostAt, hvacate j]
      cases hd : r.dev.items[j]? with
      | none => simp
      | some d =>
          have hd' : ¬ (d.src = m.src ∧ d.hasUnique = false) := fun hp => by
            have := (provisionalAt_eq_some_iff h.wf hm.2.2).mpr ⟨d, hd, hp⟩
            rw [hprov] at this
            cases this
          have hlost : (d.vacate m.src).Lost ↔ _ := lost_vacate_iff
          simpa [hd'] using hlost
    rw [hset, if_neg hno, Nat.add_zero]
  · rw [hsame, if_neg fun hs => hm hs.1, Nat.add_zero]

theorem strandings_append_singleton (lm : Libm α) (msgs : List (Jsonl.Msg α))
    (m : Jsonl.Msg α) :
    strandings lm (msgs ++ [m]) =
      strandings lm msgs + if Strands lm (observeAll lm msgs) m then 1 else 0 := by
  have hfst : ∀ (l : List (Jsonl.Msg α)) (s : Registry × Nat),
      (l.foldl
        (fun (s : Registry × Nat) m =>
          ((s.1.observe lm m).1, s.2 + if Strands lm s.1 m then 1 else 0))
        s).1 = l.foldl (fun r m => (r.observe lm m).1) s.1 := by
    intro l
    induction l with
    | nil => exact fun _ => rfl
    | cons x l ih => exact fun s => ih _
  unfold strandings
  rw [List.foldl_append, List.foldl_cons, List.foldl_nil, hfst]
  rfl

/-- The lost records are those that were stranded. -/
theorem card_lostAt_observeAll (lm : Libm α) (msgs : List (Jsonl.Msg α)) :
    (observeAll lm msgs).lostAt.card = strandings lm msgs := by
  induction msgs using List.reverseRecOn with
  | nil => rfl
  | append_singleton msgs m ih =>
      rw [observeAll_append_singleton, strandings_append_singleton,
        (observeAll_sane lm msgs).card_lostAt_observe, ih]

/-! ### The records that are not lost -/

/-- The records only have numbers and addresses that the messages mention. -/
structure Mentioned (lm : Libm α) (msgs : List (Jsonl.Msg α)) (r : Registry) :
    Prop where
  number : ∀ d ∈ r.dev.items, d.hasUnique = true → d.unique ∈ numbers lm msgs
  address : ∀ d ∈ r.dev.items, 0 ≤ d.src → d.src ∈ addresses msgs

theorem numbers_append (lm : Libm α) (before after : List (Jsonl.Msg α)) :
    numbers lm (before ++ after) = numbers lm before ∪ numbers lm after := by
  simp [numbers, claims]

theorem addresses_append (before after : List (Jsonl.Msg α)) :
    addresses (before ++ after) = addresses before ∪ addresses after := by
  simp [addresses]

theorem Mentioned.mono {msgs : List (Jsonl.Msg α)} (h : Mentioned lm msgs r)
    (after : List (Jsonl.Msg α)) :
    Mentioned lm (msgs ++ after) r := by
  constructor
  · intro d hd hhas
    rw [numbers_append]
    exact Finset.mem_union_left _ (h.number d hd hhas)
  · intro d hd hpos
    rw [addresses_append]
    exact Finset.mem_union_left _ (h.address d hd hpos)

/-- A record that loses its address mentions nothing new. -/
theorem Mentioned.vacate {msgs : List (Jsonl.Msg α)} (h : Mentioned lm msgs r)
    {d : Device} (hd : d ∈ r.dev.items) (src : Int) :
    ((d.vacate src).hasUnique = true → (d.vacate src).unique ∈ numbers lm msgs) ∧
      (0 ≤ (d.vacate src).src → (d.vacate src).src ∈ addresses msgs) := by
  constructor
  · unfold Device.vacate
    split_ifs <;> exact h.number d hd
  · intro hpos
    have hself := (vacate_eq_self hpos).1
    rw [hself] at hpos ⊢
    exact h.address d hd hpos

theorem mem_numbers_singleton (hm : Observable m) {u : UInt32}
    (hu : claimedNumber lm m = some u) :
    u ∈ numbers lm [m] := by
  simp [numbers, claims, hm, hu]

theorem mem_addresses_singleton (hm : Observable m) :
    m.src ∈ addresses [m] := by
  simp [addresses, hm]

/-- The records only have what was mentioned after one more message. -/
theorem Mentioned.observe {msgs : List (Jsonl.Msg α)} (h : Mentioned lm msgs r)
    (hsane : Sane r) :
    Mentioned lm (msgs ++ [m]) (r.observe lm m).1 := by
  have hmono := h.mono [m]
  rcases observe_cases lm m hsane with
    ⟨hm, -, hobs⟩ | ⟨-, -, hvacate⟩ | ⟨-, hsame⟩
  · have hold : ∀ d' ∈ (r.observe lm m).1.dev.items,
        (∃ d ∈ r.dev.items, d' = d.vacate m.src) ∨
        (d'.src = m.src ∧
          (d'.hasUnique = true → d'.unique ∈ numbers lm (msgs ++ [m]))) := by
      intro d' hd'
      obtain ⟨j, hj⟩ := List.mem_iff_getElem?.mp hd'
      by_cases hji : j = r.target m.src (claimedNumber lm m)
      · subst hji
        obtain ⟨e, he, henr, -⟩ := hobs.here
        rw [hj] at he
        obtain rfl := Option.some.inj he
        refine Or.inr ⟨henr.src_eq, fun hhas => ?_⟩
        rw [henr.hasUnique_eq] at hhas
        rw [henr.unique_eq]
        cases hu : claimedNumber lm m with
        | some u =>
            rw [numbers_append]
            exact Finset.mem_union_right _ (mem_numbers_singleton hm hu)
        | none =>
            rw [hu] at hhas
            cases hd : r.dev.items[r.target m.src none]? with
            | none => simp [hd, Device.locate, Device.fresh] at hhas
            | some d =>
                rw [hd] at hhas
                exact hmono.number d (List.mem_of_getElem? hd)
                  (by simpa [Device.locate] using hhas)
      · rw [hobs.others j hji] at hj
        obtain ⟨d, hd, rfl⟩ := Option.map_eq_some_iff.mp hj
        exact Or.inl ⟨d, List.mem_of_getElem? hd, rfl⟩
    constructor
    · intro d' hd' hhas
      rcases hold d' hd' with ⟨d, hd, rfl⟩ | ⟨-, hnumber⟩
      · exact (hmono.vacate hd m.src).1 hhas
      · exact hnumber hhas
    · intro d' hd' hpos
      rcases hold d' hd' with ⟨d, hd, rfl⟩ | ⟨hsrc, -⟩
      · exact (hmono.vacate hd m.src).2 hpos
      · rw [hsrc, addresses_append]
        exact Finset.mem_union_right _ (mem_addresses_singleton hm)
  · have hold : ∀ d' ∈ (r.observe lm m).1.dev.items,
        ∃ d ∈ r.dev.items, d' = d.vacate m.src := by
      intro d' hd'
      obtain ⟨j, hj⟩ := List.mem_iff_getElem?.mp hd'
      rw [hvacate j] at hj
      obtain ⟨d, hd, rfl⟩ := Option.map_eq_some_iff.mp hj
      exact ⟨d, List.mem_of_getElem? hd, rfl⟩
    constructor
    · intro d' hd'
      obtain ⟨d, hd, rfl⟩ := hold d' hd'
      exact (hmono.vacate hd m.src).1
    · intro d' hd'
      obtain ⟨d, hd, rfl⟩ := hold d' hd'
      exact (hmono.vacate hd m.src).2
  · rw [hsame]
    exact hmono

theorem observeAll_mentioned (lm : Libm α) (msgs : List (Jsonl.Msg α)) :
    Mentioned lm msgs (observeAll lm msgs) := by
  induction msgs using List.reverseRecOn with
  | nil =>
      exact ⟨by simp [observeAll, init], by simp [observeAll, init]⟩
  | append_singleton msgs m ih =>
      rw [observeAll_append_singleton]
      exact ih.observe (observeAll_sane lm msgs)

/-- A record is lost, or has a number or an address that was mentioned. -/
theorem length_le_of_mentioned {msgs : List (Jsonl.Msg α)}
    (hsane : Sane r) (h : Mentioned lm msgs r) :
    r.dev.items.length ≤
      (numbers lm msgs).card + (addresses msgs).card + r.lostAt.card := by
  have hsub : r.lostAt ⊆ Finset.range r.dev.items.length :=
    Finset.filter_subset _ _
  have hrest : (Finset.range r.dev.items.length \ r.lostAt).card ≤
      (numbers lm msgs).card + (addresses msgs).card := by
    refine hsane.wf.card_le fun j hj => ?_
    obtain ⟨hrange, hnot⟩ := Finset.mem_sdiff.mp hj
    have hlt : j < r.dev.items.length := Finset.mem_range.mp hrange
    have hd := List.getElem?_eq_getElem hlt
    have hmem := List.mem_of_getElem? hd
    refine ⟨_, records_eq_some.mpr ⟨_, hd, rfl⟩, ?_⟩
    cases hhas : (r.dev.items[j]).hasUnique with
    | true => exact Or.inl ⟨_, h.number _ hmem hhas, key_eq_some.mpr ⟨hhas, rfl⟩⟩
    | false =>
        have hpos : 0 ≤ (r.dev.items[j]).src := by
          by_contra hneg
          exact hnot (mem_lostAt.mpr ⟨_, hd, hhas, not_le.mp hneg⟩)
        exact Or.inr ⟨_, h.address _ hmem hpos, place_eq_some.mpr ⟨hpos, rfl⟩⟩
  have hcard := Finset.card_sdiff_add_card_eq_card hsub
  rw [Finset.card_range] at hcard
  omega

/-- A run in which no message strands a record has lost none. -/
theorem strandings_eq_zero {msgs : List (Jsonl.Msg α)}
    (h : ∀ before m after, msgs = before ++ m :: after →
      ¬ Strands lm (observeAll lm before) m) :
    strandings lm msgs = 0 := by
  induction msgs using List.reverseRecOn with
  | nil => rfl
  | append_singleton msgs m ih =>
      rw [strandings_append_singleton, if_neg (h msgs m [] rfl),
        ih fun before x after hmsgs => h before x (after ++ [m]) (by simp [hmsgs])]

/--
How many records a run allocates.  The lost ones are exactly as many as the
claims of a known number from the address of a record without a number, and the
others are bounded by the numbers and the addresses mentioned.  So without such
claims the whole registry is.
-/
theorem length_observeAll_le (lm : Libm α) (msgs : List (Jsonl.Msg α)) :
    (observeAll lm msgs).lostAt.card = strandings lm msgs ∧
    (observeAll lm msgs).dev.items.length ≤
      (numbers lm msgs).card + (addresses msgs).card + strandings lm msgs ∧
    ((∀ before m after, msgs = before ++ m :: after →
        ¬ Strands lm (observeAll lm before) m) →
      ∀ U A, (numbers lm msgs).card ≤ U → (addresses msgs).card ≤ A →
        (observeAll lm msgs).dev.items.length ≤ U + A) := by
  have hlost := card_lostAt_observeAll lm msgs
  have hlen := length_le_of_mentioned (observeAll_sane lm msgs)
    (observeAll_mentioned lm msgs)
  rw [hlost] at hlen
  refine ⟨hlost, hlen, fun h U A hU hA => ?_⟩
  rw [strandings_eq_zero h] at hlen
  omega

/-- Navigation data. -/
def trafficFrom (src : Int) : Jsonl.Msg ℚ :=
  { Jsonl.Msg.init with
    hasSrc := true, hasPgn := true, src := src, pgn := 127250 }

/-- One device that alternates between two addresses, each seen in use before
its claim: four records for one number and two addresses. -/
theorem registry_leaks :
    ¬ ∀ (msgs : List (Jsonl.Msg ℚ)) (U A : Nat),
      (numbers exactLibm msgs).card ≤ U → (addresses msgs).card ≤ A →
        (observeAll exactLibm msgs).dev.items.length ≤ U + A := by
  intro h
  have hlen := h [claimFrom 1 7, trafficFrom 2, claimFrom 2 7, trafficFrom 1,
    claimFrom 1 7, trafficFrom 2] 1 2 (by decide +kernel) (by decide +kernel)
  exact absurd hlen (by decide +kernel)

/-- Traffic before the claim of a new number strands nothing. -/
theorem length_observeAll_le_adopted :
    (observeAll exactLibm
      [trafficFrom 1, claimFrom 1 7, claimFrom 2 7]).dev.items.length ≤ 1 + 2 := by
  refine (length_observeAll_le exactLibm
    [trafficFrom 1, claimFrom 1 7, claimFrom 2 7]).2.2 ?_ 1 2 (by decide +kernel)
    (by decide +kernel)
  intro before m after h
  rcases before with _ | ⟨_, _ | ⟨_, _ | ⟨_, before⟩⟩⟩ <;>
    simp only [List.nil_append, List.cons_append, List.cons.injEq] at h
  · obtain ⟨rfl, -⟩ := h
    decide +kernel
  · obtain ⟨rfl, rfl, -⟩ := h
    decide +kernel
  · obtain ⟨rfl, rfl, rfl, -⟩ := h
    decide +kernel
  · simp at h

end Registry
end N2kMux
