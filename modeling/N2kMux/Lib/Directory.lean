import Mathlib.Data.List.Basic
import Mathlib.Tactic

/-!
# Directories that follow claims

A directory holds records, each with at most one place and at most one key.  A
claim says that the owner of a key is now at a place: the record of the key
moves there, and whoever was there is left without a place.

`Claimed` says what one claim may do to the records and `Provisional` what a
place seen without a claim may do.  Both keep the places and the keys of the
records distinct, and the directory in agreement with the sequence of claims.
-/

namespace Directory

variable {A K : Type}

/-- A record: where it is and what identifies it, if known. -/
@[ext] structure Entry (A K : Type) where
  place : Option A
  key : Option K

/-- The records, by index. -/
abbrev Records (A K : Type) := Nat → Option (Entry A K)

/-- No two records share a place or a key. -/
structure Wf (D : Records A K) : Prop where
  place_inj : ∀ {i j e f a}, D i = some e → D j = some f →
    e.place = some a → f.place = some a → i = j
  key_inj : ∀ {i j e f k}, D i = some e → D j = some f →
    e.key = some k → f.key = some k → i = j

/-- The last claim from `a` was for `k`, and `k` was not claimed from another
place since. -/
def Announced (claims : List (A × K)) (a : A) (k : K) : Prop :=
  ∃ before after, claims = before ++ (a, k) :: after ∧
    (∀ c ∈ after, c.1 ≠ a) ∧ ∀ c ∈ after, c.2 = k → c.1 = a

/-- The directory holds what the claims announce. -/
def Agrees (D : Records A K) (claims : List (A × K)) : Prop :=
  ∀ a k, (∃ i, D i = some ⟨some a, some k⟩) ↔ Announced claims a k

theorem wf_empty : Wf (fun _ => none : Records A K) :=
  ⟨by simp, by simp⟩

theorem agrees_empty : Agrees (fun _ => none : Records A K) [] := by
  intro a k
  constructor
  · rintro ⟨i, hi⟩
    simp at hi
  · rintro ⟨before, after, h, -⟩
    simp at h

/-- A claim is announced at once, and ends what it contradicts. -/
theorem announced_append_singleton {claims : List (A × K)} {c : A × K} {a : A}
    {k : K} :
    Announced (claims ++ [c]) a k ↔
      (a = c.1 ∧ k = c.2) ∨ (a ≠ c.1 ∧ k ≠ c.2 ∧ Announced claims a k) := by
  constructor
  · rintro ⟨before, after, h, hplace, hkey⟩
    rcases List.eq_nil_or_concat after with rfl | ⟨after, x, rfl⟩
    · obtain ⟨-, hc⟩ := List.append_inj' h rfl
      obtain rfl := List.singleton_inj.mp hc
      exact Or.inl ⟨rfl, rfl⟩
    · rw [List.concat_eq_append, ← List.cons_append, ← List.append_assoc] at h
      obtain ⟨hclaims, hx⟩ := List.append_inj' h rfl
      obtain rfl := List.singleton_inj.mp hx
      have hne := hplace c (by simp)
      refine Or.inr ⟨hne.symm, fun hk => hne (hkey c (by simp) hk.symm),
        before, after, hclaims, fun x hx => hplace x (by simp [hx]),
        fun x hx => hkey x (by simp [hx])⟩
  · rintro (⟨rfl, rfl⟩ | ⟨ha, hk, before, after, rfl, hplace, hkey⟩)
    · exact ⟨claims, [], rfl, by simp, by simp⟩
    · refine ⟨before, after ++ [c], by simp, fun x hx => ?_, fun x hx hxk => ?_⟩
      · rcases List.mem_append.mp hx with hx | hx
        · exact hplace x hx
        · rw [List.mem_singleton.mp hx]
          exact ha.symm
      · rcases List.mem_append.mp hx with hx | hx
        · exact hkey x hx hxk
        · rw [List.mem_singleton.mp hx] at hxk
          exact absurd hxk.symm hk

variable [DecidableEq A]

/-- Leave the place `a`. -/
def vacate (a : A) (e : Entry A K) : Entry A K :=
  if e.place = some a then { e with place := none } else e

@[simp] theorem vacate_key (a : A) (e : Entry A K) :
    (vacate a e).key = e.key := by
  unfold vacate
  split_ifs <;> rfl

theorem vacate_place_eq_some {a b : A} {e : Entry A K}
    (h : (vacate a e).place = some b) :
    e.place = some b ∧ b ≠ a := by
  unfold vacate at h
  split_ifs at h with ha
  refine ⟨h, ?_⟩
  rintro rfl
  exact ha h

theorem vacate_of_ne {a : A} {e : Entry A K}
    (h : e.place ≠ some a) :
    vacate a e = e :=
  if_neg h

omit [DecidableEq A] in
/-- Records that only lose their places stay distinct. -/
theorem Wf.of_sub {D D' : Records A K} (hwf : Wf D)
    (hsub : ∀ j f, D' j = some f →
      ∃ e, D j = some e ∧ f.key = e.key ∧ ∀ a, f.place = some a → e.place = some a) :
    Wf D' := by
  constructor
  · intro j l e f a he hf hae haf
    obtain ⟨e', he', -, hplace⟩ := hsub j e he
    obtain ⟨f', hf', -, hplace'⟩ := hsub l f hf
    exact hwf.place_inj he' hf' (hplace a hae) (hplace' a haf)
  · intro j l e f k he hf hke hkf
    obtain ⟨e', he', hkey, -⟩ := hsub j e he
    obtain ⟨f', hf', hkey', -⟩ := hsub l f hf
    exact hwf.key_inj he' hf' (hkey ▸ hke) (hkey' ▸ hkf)

/-- A claim of `k` from `a`: the record `i` is now there with that key; the other
records leave the place.  Before, `i` was free, or the record of the key, or a
record of the place without a key. -/
structure Claimed (D D' : Records A K) (a : A) (k : K) (i : Nat) : Prop where
  here : D' i = some ⟨some a, some k⟩
  others : ∀ j ≠ i, D' j = (D j).map (vacate a)
  fresh_key : ∀ j ≠ i, ∀ e, D j = some e → e.key ≠ some k
  before : ∀ e, D i = some e →
    e.key = some k ∨ e.key = none ∧ e.place = some a

/-- A place seen without a claim: nothing changes, or a free record gets it. -/
inductive Provisional (D D' : Records A K) (a : A) : Prop
  | known (h : D' = D)
  | fresh (i : Nat) (hfree : D i = none)
      (hnew : D' = Function.update D i (some ⟨some a, none⟩))
      (hnone : ∀ j e, D j = some e → e.place ≠ some a)

variable {D D' : Records A K} {a : A} {k : K} {i : Nat}
  {claims : List (A × K)}

theorem Claimed.wf (h : Claimed D D' a k i) (hwf : Wf D) : Wf D' := by
  have hother : ∀ {j f}, j ≠ i → D' j = some f →
      ∃ e, D j = some e ∧ f = vacate a e := by
    intro j f hj hf
    rw [h.others j hj] at hf
    obtain ⟨e, he, rfl⟩ := Option.map_eq_some_iff.mp hf
    exact ⟨e, he, rfl⟩
  constructor
  · intro j l e f b he hf hbe hbf
    by_cases hj : j = i <;> by_cases hl : l = i
    · rw [hj, hl]
    · subst hj
      obtain ⟨f', hf', rfl⟩ := hother hl hf
      rw [h.here] at he
      obtain rfl := Option.some.inj he
      exact absurd (Option.some.inj hbe).symm (vacate_place_eq_some hbf).2
    · subst hl
      obtain ⟨e', he', rfl⟩ := hother hj he
      rw [h.here] at hf
      obtain rfl := Option.some.inj hf
      exact absurd (Option.some.inj hbf).symm (vacate_place_eq_some hbe).2
    · obtain ⟨e', he', rfl⟩ := hother hj he
      obtain ⟨f', hf', rfl⟩ := hother hl hf
      exact hwf.place_inj he' hf' (vacate_place_eq_some hbe).1
        (vacate_place_eq_some hbf).1
  · intro j l e f x he hf hxe hxf
    by_cases hj : j = i <;> by_cases hl : l = i
    · rw [hj, hl]
    · subst hj
      obtain ⟨f', hf', rfl⟩ := hother hl hf
      rw [h.here] at he
      obtain rfl := Option.some.inj he
      rw [vacate_key, ← hxe] at hxf
      exact absurd hxf (h.fresh_key l hl f' hf')
    · subst hl
      obtain ⟨e', he', rfl⟩ := hother hj he
      rw [h.here] at hf
      obtain rfl := Option.some.inj hf
      rw [vacate_key, ← hxf] at hxe
      exact absurd hxe (h.fresh_key j hj e' he')
    · obtain ⟨e', he', rfl⟩ := hother hj he
      obtain ⟨f', hf', rfl⟩ := hother hl hf
      rw [vacate_key] at hxe hxf
      exact hwf.key_inj he' hf' hxe hxf

theorem Claimed.agrees (h : Claimed D D' a k i) (hag : Agrees D claims) :
    Agrees D' (claims ++ [(a, k)]) := by
  intro b x
  rw [announced_append_singleton, ← hag b x]
  constructor
  · rintro ⟨j, hj⟩
    by_cases hji : j = i
    · subst hji
      rw [h.here] at hj
      obtain ⟨hab, hkx⟩ := Entry.mk.inj (Option.some.inj hj)
      exact Or.inl ⟨(Option.some.inj hab).symm, (Option.some.inj hkx).symm⟩
    · rw [h.others j hji] at hj
      obtain ⟨e, he, hve⟩ := Option.map_eq_some_iff.mp hj
      have hplace : (vacate a e).place = some b := by rw [hve]
      obtain ⟨heb, hba⟩ := vacate_place_eq_some hplace
      have hkey : e.key = some x := by rw [← vacate_key a e, hve]
      have hxk : x ≠ k := by
        rintro rfl
        exact h.fresh_key j hji e he hkey
      exact Or.inr ⟨hba, hxk, j, by rw [he]; congr 1; ext1 <;> assumption⟩
  · rintro (⟨rfl, rfl⟩ | ⟨hba, hxk, j, hj⟩)
    · exact ⟨i, h.here⟩
    · refine ⟨j, ?_⟩
      have hji : j ≠ i := by
        rintro rfl
        rcases h.before _ hj with hkey | ⟨hkey, -⟩
        · exact hxk (Option.some.inj hkey)
        · simp at hkey
      rw [h.others j hji, hj, Option.map_some, vacate_of_ne]
      exact fun heq => hba (Option.some.inj heq)

omit [DecidableEq A] in
theorem Provisional.wf (h : Provisional D D' a) (hwf : Wf D) : Wf D' := by
  cases h with
  | known h => exact h ▸ hwf
  | fresh i hfree hnew hnone =>
      subst hnew
      constructor
      · intro j l e f b he hf hbe hbf
        by_cases hj : j = i <;> by_cases hl : l = i
        · rw [hj, hl]
        · subst hj
          rw [Function.update_self] at he
          rw [Function.update_of_ne hl] at hf
          obtain rfl := Option.some.inj he
          exact absurd (hbf.trans hbe.symm) (hnone l f hf)
        · subst hl
          rw [Function.update_self] at hf
          rw [Function.update_of_ne hj] at he
          obtain rfl := Option.some.inj hf
          exact absurd (hbe.trans hbf.symm) (hnone j e he)
        · rw [Function.update_of_ne hj] at he
          rw [Function.update_of_ne hl] at hf
          exact hwf.place_inj he hf hbe hbf
      · intro j l e f x he hf hxe hxf
        by_cases hj : j = i
        · subst hj
          rw [Function.update_self] at he
          obtain rfl := Option.some.inj he
          simp at hxe
        · by_cases hl : l = i
          · subst hl
            rw [Function.update_self] at hf
            obtain rfl := Option.some.inj hf
            simp at hxf
          · rw [Function.update_of_ne hj] at he
            rw [Function.update_of_ne hl] at hf
            exact hwf.key_inj he hf hxe hxf

omit [DecidableEq A] in
theorem Provisional.agrees (h : Provisional D D' a) (hag : Agrees D claims) :
    Agrees D' claims := by
  cases h with
  | known h => exact h ▸ hag
  | fresh i hfree hnew hnone =>
      subst hnew
      intro b x
      rw [← hag b x]
      refine exists_congr fun j => ?_
      by_cases hj : j = i
      · subst hj
        simp [hfree]
      · rw [Function.update_of_ne hj]

/-! ### Counting records -/

/-- A record that nothing finds any more. -/
def Entry.Lost (e : Entry A K) : Prop :=
  e.place = none ∧ e.key = none

omit [DecidableEq A] in
/-- The records with a key or a place are at most as many as the keys and the
places together. -/
theorem Wf.card_le
    (hwf : Wf D)
    {S : Finset Nat}
    {places : Finset A}
    {keys : Finset K}
    (hfound : ∀ i ∈ S, ∃ e, D i = some e ∧
      ((∃ k ∈ keys, e.key = some k) ∨ ∃ a ∈ places, e.place = some a)) :
    S.card ≤ keys.card + places.card := by
  have hname : ∀ i : S, ∃ x : K ⊕ A, x ∈ keys.disjSum places ∧
      ∃ e, D i = some e ∧
        Sum.elim (fun k => e.key = some k) (fun a => e.place = some a) x := by
    rintro ⟨i, hi⟩
    obtain ⟨e, he, ⟨k, hk, hkey⟩ | ⟨a, ha, hplace⟩⟩ := hfound i hi
    · exact ⟨.inl k, by simpa using hk, e, he, hkey⟩
    · exact ⟨.inr a, by simpa using ha, e, he, hplace⟩
  choose name hmem hname using hname
  rw [← Finset.card_disjSum, ← Finset.card_attach]
  refine Finset.card_le_card_of_injOn name (fun i _ => hmem i) ?_
  intro i _ j _ hij
  obtain ⟨e, he, hnamei⟩ := hname i
  obtain ⟨f, hf, hnamej⟩ := hname j
  rw [← hij] at hnamej
  refine Subtype.ext ?_
  cases hx : name i with
  | inl k =>
      rw [hx] at hnamei hnamej
      exact hwf.key_inj he hf hnamei hnamej
  | inr a =>
      rw [hx] at hnamei hnamej
      exact hwf.place_inj he hf hnamei hnamej

end Directory
