import N2kMux.Lib.Latest
import Mathlib.Data.Finset.Card

/-!
# A memory of the latest observations, entry by entry

A component keeps, for the keys it has room for, the time of the latest
observation.  Its entries are never cleaned: an entry is refreshed, a new one is
added, or an old one gives its place.  `Cached` says that the entries have
distinct keys, are in step with the log, and that no key heard recently is
missing; `Cached.replace` keeps it as long as what gives its place is stale,
which `Cached.exists_stale` grants when the keys heard recently fit.
-/

/-- The entries have distinct keys. -/
def Keyed {β κ : Type} (key : β → κ) (l : List β) : Prop := (l.map key).Nodup

namespace Keyed

variable {β κ : Type} {key : β → κ} {l : List β}

theorem index_inj (h : Keyed key l) {i j : Nat} {x y : β}
    (hx : l[i]? = some x) (hy : l[j]? = some y) (hkey : key x = key y) :
    i = j := by
  have hi : (l.map key)[i]? = some (key x) := by simp [hx]
  have hj : (l.map key)[j]? = some (key x) := by simp [hy, hkey]
  have hlt := (List.getElem?_eq_some_iff.mp hi).1
  exact (List.getElem?_inj hlt h).mp (hi.trans hj.symm)

/-- Writing an entry over another one. -/
theorem mem_set (h : Keyed key l) {i : Nat} {old x : β}
    (hold : l[i]? = some old) :
    ∀ y, y ∈ l.set i x ↔ (y ∈ l ∧ key y ≠ key old) ∨ y = x := by
  have hi := (List.getElem?_eq_some_iff.mp hold).1
  intro y
  constructor
  · intro hy
    obtain ⟨j, hj⟩ := List.mem_iff_getElem?.mp hy
    by_cases hij : i = j
    · subst hij
      rw [List.getElem?_set_self hi] at hj
      exact Or.inr (Option.some.inj hj).symm
    · rw [List.getElem?_set_ne hij] at hj
      refine Or.inl ⟨List.mem_of_getElem? hj, fun hkey => hij ?_⟩
      exact h.index_inj hold hj hkey.symm
  · rintro (⟨hy, hne⟩ | rfl)
    · obtain ⟨j, hj⟩ := List.mem_iff_getElem?.mp hy
      have hij : i ≠ j := by
        rintro rfl
        rw [hold] at hj
        exact hne (Option.some.inj hj ▸ rfl)
      exact List.mem_iff_getElem?.mpr ⟨j, by rw [List.getElem?_set_ne hij, hj]⟩
    · exact List.mem_iff_getElem?.mpr ⟨i, List.getElem?_set_self hi⟩

/-- The keys stay distinct when the new one is the old one, or new. -/
theorem set (h : Keyed key l) {i : Nat} {old x : β}
    (hold : l[i]? = some old)
    (hx : key x = key old ∨ ∀ y ∈ l, key y ≠ key x) :
    Keyed key (l.set i x) := by
  unfold Keyed
  rw [List.map_set]
  rcases hx with hx | hx
  · have hsame : (l.map key).set i (key x) = l.map key := by
      refine List.ext_getElem? fun j => ?_
      by_cases hij : i = j
      · subst hij
        have hi : i < (l.map key).length := by
          simpa using (List.getElem?_eq_some_iff.mp hold).1
        rw [List.getElem?_set_self hi, List.getElem?_map, hold, hx]
        rfl
      · rw [List.getElem?_set_ne hij]
    rw [hsame]
    exact h
  · refine List.Nodup.set h fun hmem => ?_
    obtain ⟨y, hy, hkey⟩ := List.mem_map.mp hmem
    exact hx y hy hkey

/-- Adding an entry of a new key. -/
theorem append_singleton (h : Keyed key l) {x : β}
    (hx : ∀ y ∈ l, key y ≠ key x) :
    Keyed key (l ++ [x]) := by
  unfold Keyed at h ⊢
  rw [List.map_append, List.map_singleton]
  refine List.nodup_append.mpr ⟨h, by simp, ?_⟩
  intro k hk k' hk'
  obtain ⟨y, hy, rfl⟩ := List.mem_map.mp hk
  rw [List.mem_singleton.mp hk']
  exact hx y hy

end Keyed

namespace Obs

variable {β κ ν : Type} {key : β → κ} {time : β → UInt64}

theorem Heard.mono {log : List (Obs κ ν)} {k : κ} {now later : UInt64}
    {timeout : Nat} (h : Heard log k later timeout) (hle : now ≤ later) :
    Heard log k now timeout := by
  obtain ⟨o, ho, hk, hrecent⟩ := h
  have hnat : now.toNat ≤ later.toNat := UInt64.le_iff_toNat_le.mp hle
  refine ⟨o, ho, hk, ?_⟩
  unfold Recent at *
  omega

/-- The key that has just been observed was heard. -/
theorem heard_append_self (log : List (Obs κ ν)) (o : Obs κ ν) (timeout : Nat) :
    Heard (log ++ [o]) o.key o.time timeout :=
  ⟨o, by simp, rfl, Nat.le_add_right _ _⟩

/-- An observation changes nothing for the other keys. -/
theorem heard_append_of_ne {log : List (Obs κ ν)} {o : Obs κ ν} {k : κ}
    {now : UInt64} {timeout : Nat} (hk : o.key ≠ k) :
    Heard (log ++ [o]) k now timeout ↔ Heard log k now timeout := by
  constructor
  · rintro ⟨x, hx, hxk, hrecent⟩
    rcases List.mem_append.mp hx with hx | hx
    · exact ⟨x, hx, hxk, hrecent⟩
    · rw [List.mem_singleton.mp hx] at hxk
      exact absurd hxk hk
  · rintro ⟨x, hx, h⟩
    exact ⟨x, List.mem_append_left _ hx, h⟩

variable [DecidableEq κ]

/-- The entries `l` remember the log: they hold the time of the latest
observation of their keys, and every key heard recently has one. -/
structure Cached (key : β → κ) (time : β → UInt64) (l : List β)
    (log : List (Obs κ ν)) (now : UInt64) (timeout : Nat) : Prop where
  keyed : Keyed key l
  clocked : Clocked log now
  entry : ∀ y ∈ l, ∃ o, latest log (key y) = some o ∧ o.time = time y
  live : ∀ k, Heard log k now timeout → ∃ y ∈ l, key y = k

/-- The keys heard recently. -/
def heardKeys (log : List (Obs κ ν)) (now : UInt64) (timeout : Nat) :
    Finset κ :=
  (log.map Obs.key).toFinset.filter fun k => Heard log k now timeout

theorem mem_heardKeys {log : List (Obs κ ν)} {now : UInt64} {timeout : Nat}
    {k : κ} :
    k ∈ heardKeys log now timeout ↔ Heard log k now timeout := by
  unfold heardKeys
  rw [Finset.mem_filter, List.mem_toFinset, List.mem_map]
  exact ⟨fun h => h.2, fun h => ⟨h.imp fun o ho => ⟨ho.1, ho.2.1⟩, h⟩⟩

variable {l l' : List β} {log : List (Obs κ ν)} {now later : UInt64}
  {timeout : Nat}

theorem cached_nil (now : UInt64) :
    Cached key time ([] : List β) ([] : List (Obs κ ν)) now timeout :=
  ⟨List.nodup_nil, clocked_nil now, by simp, by
    rintro k ⟨o, ho, -⟩
    simp at ho⟩

namespace Cached

theorem mono (h : Cached key time l log now timeout) (hle : now ≤ later) :
    Cached key time l log later timeout :=
  ⟨h.keyed, h.clocked.mono hle, h.entry, fun k hk => h.live k (hk.mono hle)⟩

/-- An entry is recent exactly when its key was heard recently. -/
theorem recent_iff (h : Cached key time l log now timeout) {y : β}
    (hy : y ∈ l) (later : UInt64) :
    Recent later (time y) timeout ↔ Heard log (key y) later timeout := by
  obtain ⟨o, ho, htime⟩ := h.entry y hy
  rw [heard_iff_latest h.clocked.1, ← htime]
  constructor
  · exact fun hrecent => ⟨o, ho, hrecent⟩
  · rintro ⟨o', ho', hrecent⟩
    obtain rfl := Option.some.inj (ho.symm.trans ho')
    exact hrecent

/-- The entries answer the question about the history. -/
theorem heard_iff (h : Cached key time l log now timeout) (k : κ) :
    Heard log k now timeout ↔
      ∃ y ∈ l, key y = k ∧ Recent now (time y) timeout := by
  constructor
  · intro hk
    obtain ⟨y, hy, rfl⟩ := h.live k hk
    exact ⟨y, hy, rfl, (h.recent_iff hy now).mpr hk⟩
  · rintro ⟨y, hy, rfl, hrecent⟩
    exact (h.recent_iff hy now).mp hrecent

/-- No entry is from the future. -/
theorem time_le (h : Cached key time l log now timeout) {y : β} (hy : y ∈ l) :
    time y ≤ now := by
  obtain ⟨o, ho, htime⟩ := h.entry y hy
  rw [← htime]
  exact h.clocked.2 o (mem_of_latest ho)

/-- An observation `o` enters as `x` in the place of the entry of `k`: either
`k` is the observed key, or that entry is stale and the observed key is new. -/
theorem replace (h : Cached key time l log now timeout) {o : Obs κ ν} {x : β}
    {k : κ} (hle : now ≤ o.time) (hkey : key x = o.key) (htime : time x = o.time)
    (hkeyed : Keyed key l')
    (hmem : ∀ y, y ∈ l' ↔ (y ∈ l ∧ key y ≠ k) ∨ y = x)
    (hk : k = o.key ∨ (∀ y ∈ l, key y ≠ o.key) ∧
      ∀ y ∈ l, key y = k → ¬ Recent o.time (time y) timeout) :
    Cached key time l' (log ++ [o]) o.time timeout := by
  refine ⟨hkeyed, (h.clocked.mono hle).append UInt64.le_rfl, fun y hy => ?_,
    fun j hj => ?_⟩
  · rw [latest_append_singleton]
    rcases (hmem y).mp hy with ⟨hy, hne⟩ | rfl
    · have hother : o.key ≠ key y := by
        rcases hk with rfl | ⟨hnew, -⟩
        · exact Ne.symm hne
        · exact Ne.symm (hnew y hy)
      rw [if_neg hother]
      exact h.entry y hy
    · exact ⟨o, if_pos hkey.symm, htime.symm⟩
  · by_cases hoj : o.key = j
    · exact ⟨x, (hmem x).mpr (Or.inr rfl), hkey.trans hoj⟩
    · rw [heard_append_of_ne hoj] at hj
      obtain ⟨y, hy, rfl⟩ := h.live j (hj.mono hle)
      refine ⟨y, (hmem y).mpr (Or.inl ⟨hy, fun hyk => ?_⟩), rfl⟩
      rcases hk with rfl | ⟨-, hstale⟩
      · exact hoj hyk.symm
      · exact hstale y hy hyk ((h.recent_iff hy o.time).mpr hj)

/-- When the keys heard recently fit in `cap` entries, a new key never finds
`cap` recent entries. -/
theorem exists_stale (h : Cached key time l log now timeout) {o : Obs κ ν}
    {cap : Nat}
    (hload : (heardKeys (log ++ [o]) o.time timeout).card ≤ cap)
    (hnew : ∀ y ∈ l, key y ≠ o.key) (hfull : l.length = cap) :
    ∃ y ∈ l, ¬ Recent o.time (time y) timeout := by
  by_contra hall
  push Not at hall
  have hnodup : (o.key :: l.map key).Nodup := by
    refine List.nodup_cons.mpr ⟨fun hmem => ?_, h.keyed⟩
    obtain ⟨y, hy, hkey⟩ := List.mem_map.mp hmem
    exact hnew y hy hkey
  have hsub : (o.key :: l.map key).toFinset ⊆
      heardKeys (log ++ [o]) o.time timeout := by
    intro k hk
    rw [mem_heardKeys]
    rcases List.mem_cons.mp (List.mem_toFinset.mp hk) with rfl | hk
    · exact heard_append_self log o timeout
    · obtain ⟨y, hy, rfl⟩ := List.mem_map.mp hk
      rw [heard_append_of_ne (Ne.symm (hnew y hy))]
      exact (h.recent_iff hy o.time).mp (hall y hy)
  have hcard := Finset.card_le_card hsub
  rw [List.toFinset_card_of_nodup hnodup, List.length_cons,
    List.length_map] at hcard
  omega

end Cached
end Obs
