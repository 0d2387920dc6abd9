import N2kMux.Daemon.DropSet
import Mathlib.Data.Finset.Card

/-!
# What the list of losers says

A pair of a PGN and an address loses when all the discriminants heard recently
lose.  The set of `dropset_update` forgets a passing verdict when it has no
entry of the pair; the list is right as long as no verdict so forgotten is still
recent when the first losing verdict of the pair comes.
-/

namespace N2kMux
namespace DropSet

open Obs
open Arbiter (Result)

/-- A verdict of the arbiter. -/
abbrev Verdict := Obs DropKey Result

/-- The call of `dropset_update` with a verdict. -/
def record (ds : DropSet) (o : Verdict) : DropSet :=
  ds.update o.key.pgn o.key.src o.key.disc o.val o.time

/-- What the list is meant to say: the pair was heard recently, and each of its
discriminants heard recently loses. -/
def Loses (log : List Verdict) (p : Int × Int) (now : UInt64) : Prop :=
  (∃ k : DropKey, k.pair = p ∧ Heard log k now dropTimeoutMs.toNat) ∧
    ∀ k : DropKey, k.pair = p → Heard log k now dropTimeoutMs.toNat →
      ∃ o, latest log k = some o ∧ o.val.losing = true

/-- A publication at `now` lists the losers, each once. -/
def Publishes (ds : DropSet) (log : List Verdict) (now : UInt64) : Prop :=
  ∀ cfg, (ds.write now cfg).2.losers.Nodup ∧
    ∀ p, p ∈ (ds.write now cfg).2.losers ↔ Loses log p now

/-- The last verdict of a key, when it is recent. -/
def RecentVerdict (log : List Verdict) (now : UInt64) (k : DropKey)
    (o : Verdict) : Prop :=
  latest log k = some o ∧ Recent now o.time dropTimeoutMs.toNat

/-! ### The entries after each operation -/

/-- The entry of a verdict. -/
def entryOf (o : Verdict) : DropEntry :=
  { pgn := o.key.pgn, src := o.key.src, disc := o.key.disc
    loser := o.val.losing, last := o.time }

@[simp] theorem key_entryOf (o : Verdict) : (entryOf o).key = o.key := rfl

@[simp] theorem pair_entryOf (o : Verdict) : (entryOf o).pair = o.key.pair := rfl

theorem pair_key (x : DropEntry) : x.key.pair = x.pair := rfl

theorem key_eq_iff {x : DropEntry} {k : DropKey} :
    x.key = k ↔ x.pgn = k.pgn ∧ x.src = k.src ∧ x.disc = k.disc := by
  cases k
  simp [DropEntry.key]

theorem pair_eq_iff {x : DropEntry} {k : DropKey} :
    x.pair = k.pair ↔ x.pgn = k.pgn ∧ x.src = k.src := by
  simp [DropEntry.pair, DropKey.pair]

/-- The entries have distinct keys. -/
def Keyed (ds : DropSet) : Prop := (ds.e.items.map DropEntry.key).Nodup

theorem Keyed.index_inj {ds : DropSet} (h : ds.Keyed) {i j : Nat}
    {x y : DropEntry} (hx : ds.e.items[i]? = some x)
    (hy : ds.e.items[j]? = some y) (hkey : x.key = y.key) :
    i = j := by
  have hi : (ds.e.items.map DropEntry.key)[i]? = some x.key := by simp [hx]
  have hj : (ds.e.items.map DropEntry.key)[j]? = some x.key := by simp [hy, hkey]
  have hlt := (List.getElem?_eq_some_iff.mp hi).1
  exact (List.getElem?_inj hlt h).mp (hi.trans hj.symm)

/-- A verdict on a key of the set replaces its entry. -/
theorem record_known {ds : DropSet} (h : ds.Keyed) {o : Verdict}
    (hknown : ∃ x ∈ ds.e.items, x.key = o.key) :
    (ds.record o).Keyed ∧ ∀ x, x ∈ (ds.record o).e.items ↔
      (x ∈ ds.e.items ∧ x.key ≠ o.key) ∨ x = entryOf o := by
  obtain ⟨y, hy, hykey⟩ := hknown
  unfold record update
  cases hfind : ds.e.items.findIdx? (fun x =>
      x.pgn = o.key.pgn ∧ x.src = o.key.src ∧ x.disc = o.key.disc) with
  | none =>
      rw [List.findIdx?_eq_none_iff] at hfind
      have := hfind y hy
      simp [key_eq_iff.mp hykey] at this
  | some i =>
      obtain ⟨hi, hkey, -⟩ := List.findIdx?_eq_some_iff_getElem.mp hfind
      rw [decide_eq_true_eq, ← key_eq_iff] at hkey
      have hnew : { ds.e.items[i] with loser := o.val.losing, last := o.time } =
          entryOf o := by
        obtain ⟨h1, h2, h3⟩ := key_eq_iff.mp hkey
        simp [entryOf, h1, h2, h3]
      constructor
      · unfold Keyed
        simp only [Table.items_modify]
        have hmap : (ds.e.items.modify i fun x =>
            { x with loser := o.val.losing, last := o.time }).map DropEntry.key =
            ds.e.items.map DropEntry.key := by
          refine List.ext_getElem? fun j => ?_
          rw [List.getElem?_map, List.getElem?_modify, List.getElem?_map]
          by_cases hij : i = j
          · subst hij
            cases ds.e.items[i]? <;> simp [DropEntry.key]
          · simp [hij]
        rw [hmap]
        exact h
      · intro x
        simp only [Table.items_modify]
        constructor
        · intro hx
          obtain ⟨j, hj⟩ := List.mem_iff_getElem?.mp hx
          rw [List.getElem?_modify] at hj
          by_cases hij : i = j
          · subst hij
            rw [List.getElem?_eq_getElem hi] at hj
            exact Or.inr (by rw [← hnew]; simpa using hj.symm)
          · have hj' : ds.e.items[j]? = some x := by simpa [hij] using hj
            refine Or.inl ⟨List.mem_of_getElem? hj', fun hkx => hij ?_⟩
            exact h.index_inj (List.getElem?_eq_getElem hi) hj'
              (hkey.trans hkx.symm)
        · rintro (⟨hx, hne⟩ | rfl)
          · obtain ⟨j, hj⟩ := List.mem_iff_getElem?.mp hx
            refine List.mem_iff_getElem?.mpr ⟨j, ?_⟩
            have hij : i ≠ j := by
              rintro rfl
              rw [List.getElem?_eq_getElem hi] at hj
              exact hne (Option.some.inj hj ▸ hkey)
            rw [List.getElem?_modify]
            simpa [hij] using hj
          · refine List.mem_iff_getElem?.mpr ⟨i, ?_⟩
            rw [List.getElem?_modify, List.getElem?_eq_getElem hi, ← hnew]
            simp

/-- A verdict on a new key is forgotten when it passes and the pair has no
entry, and gets an entry otherwise. -/
theorem record_new {ds : DropSet} (h : ds.Keyed) {o : Verdict}
    (hnew : ∀ x ∈ ds.e.items, x.key ≠ o.key)
    (hroom : ds.e.items.length < dropMax) :
    (o.val.losing = false ∧ (∀ x ∈ ds.e.items, x.pair ≠ o.key.pair) ∧
      ds.record o = ds) ∨
    ((o.val.losing = true ∨ ∃ x ∈ ds.e.items, x.pair = o.key.pair) ∧
      (ds.record o).Keyed ∧ ∀ x, x ∈ (ds.record o).e.items ↔
        (x ∈ ds.e.items ∧ x.key ≠ o.key) ∨ x = entryOf o) := by
  have hfind : ds.e.items.findIdx? (fun x =>
      x.pgn = o.key.pgn ∧ x.src = o.key.src ∧ x.disc = o.key.disc) = none := by
    rw [List.findIdx?_eq_none_iff]
    intro x hx
    rw [decide_eq_false_iff_not, ← key_eq_iff]
    exact hnew x hx
  unfold record update
  rw [hfind]
  simp only
  by_cases hforget : (!o.val.losing && !ds.e.items.any fun x =>
      x.pgn = o.key.pgn ∧ x.src = o.key.src) = true
  · rw [if_pos hforget]
    rw [Bool.and_eq_true, Bool.not_eq_true', Bool.not_eq_true',
      List.any_eq_false] at hforget
    refine Or.inl ⟨hforget.1, fun x hx hpair => hforget.2 x hx ?_, rfl⟩
    exact decide_eq_true (pair_eq_iff.mp hpair)
  · rw [if_neg hforget]
    obtain ⟨t, ht⟩ : ∃ t, ds.e.push? (entryOf o) = some t := by
      cases hpush : ds.e.push? (entryOf o) with
      | some t => exact ⟨t, rfl⟩
      | none =>
          rw [Table.push?_eq_none_iff] at hpush
          omega
    have hitems := (Table.push?_eq_some_iff.mp ht).2
    unfold entryOf at ht
    rw [ht]
    refine Or.inr ⟨?_, ?_, fun x => ?_⟩
    · rw [Bool.and_eq_true, not_and_or, Bool.not_eq_true', Bool.not_eq_true',
        Bool.not_eq_false, Bool.not_eq_false, List.any_eq_true] at hforget
      refine hforget.imp_right fun ⟨x, hx, hpair⟩ => ⟨x, hx, ?_⟩
      exact pair_eq_iff.mpr (of_decide_eq_true hpair)
    · unfold Keyed at h ⊢
      simp only [hitems, List.map_append, List.map_cons, List.map_nil]
      refine List.nodup_append.mpr ⟨h, by simp, ?_⟩
      intro k hk k' hk'
      obtain ⟨x, hx, rfl⟩ := List.mem_map.mp hk
      rw [List.mem_singleton.mp hk']
      exact hnew x hx
    · simp only [hitems, List.mem_append, List.mem_singleton]
      exact or_congr_left ⟨fun hx => ⟨hx, hnew x hx⟩, fun hx => hx.1⟩

theorem mem_purge {ds : DropSet} {now : UInt64} {x : DropEntry} :
    x ∈ (ds.purge now).e.items ↔
      x ∈ ds.e.items ∧ now - x.last ≤ dropTimeoutMs := by
  simp [purge]

/-- The pairs listed are those all whose entries lose. -/
theorem mem_losersFrom {all : List DropEntry} {p : Int × Int} :
    ∀ {l before : List DropEntry},
      p ∈ losersFrom all before l ↔
        (∀ y ∈ before, y.pair ≠ p) ∧ (∃ x ∈ l, x.pair = p) ∧
          ∀ y ∈ all, y.pair = p → y.loser = true := by
  intro l
  induction l with
  | nil =>
      intro before
      simp [losersFrom]
  | cons x rest ih =>
      intro before
      unfold losersFrom
      rw [List.mem_append, ih]
      by_cases hxp : x.pair = p
      · subst hxp
        simp only [List.mem_append, List.mem_cons]
        simp
        grind
      · simp only [List.mem_append, List.mem_cons]
        grind

theorem nodup_losersFrom (all : List DropEntry) :
    ∀ l before : List DropEntry, (losersFrom all before l).Nodup := by
  intro l
  induction l with
  | nil =>
      intro before
      exact List.nodup_nil
  | cons x rest ih =>
      intro before
      unfold losersFrom
      refine List.nodup_append.mpr ⟨?_, ih _, ?_⟩
      · split_ifs <;> simp
      · intro p hp q hq
        rintro rfl
        have hpx : p = x.pair := by
          split_ifs at hp
          · simpa using hp
          · simp at hp
        exact (mem_losersFrom.mp hq).1 x (by simp) hpx.symm

/-! ### The set and the history -/

/-- The set holds the latest verdict of its keys; the recent verdicts that it
does not hold pass. -/
structure Tracks (ds : DropSet) (log : List Verdict) (now : UInt64) : Prop where
  keyed : ds.Keyed
  clocked : Clocked log now
  entry : ∀ x ∈ ds.e.items, ∃ o, latest log x.key = some o ∧
    o.time = x.last ∧ o.val.losing = x.loser
  passing : ∀ k o, RecentVerdict log now k o →
    (∃ x ∈ ds.e.items, x.key = k) ∨ o.val.losing = false

/-- No recent verdict of a pair with an entry is forgotten. -/
def Complete (ds : DropSet) (log : List Verdict) (now : UInt64) : Prop :=
  ∀ x ∈ ds.e.items, ∀ k o, k.pair = x.pair → RecentVerdict log now k o →
    ∃ y ∈ ds.e.items, y.key = k

/-- The condition on a verdict: if it is the first losing one of a pair without
an entry, the other discriminants of the pair have no recent verdict (it would
be a passing one, forgotten). -/
def Admits (ds : DropSet) (log : List Verdict) (o : Verdict) : Prop :=
  o.val.losing = true → (∀ x ∈ ds.e.items, x.pair ≠ o.key.pair) →
    ∀ k x, k ≠ o.key → k.pair = o.key.pair → ¬ RecentVerdict log o.time k x

theorem RecentVerdict.mono {log : List Verdict} {now later : UInt64}
    {k : DropKey} {o : Verdict} (h : RecentVerdict log later k o)
    (hle : now ≤ later) :
    RecentVerdict log now k o := by
  have hnow : now.toNat ≤ later.toNat := UInt64.le_iff_toNat_le.mp hle
  refine ⟨h.1, ?_⟩
  have := h.2
  unfold Recent at *
  omega

theorem recentVerdict_append {log : List Verdict} {o x : Verdict}
    {now : UInt64} {k : DropKey} :
    RecentVerdict (log ++ [o]) now k x ↔
      (o.key = k ∧ x = o ∧ Recent now o.time dropTimeoutMs.toNat) ∨
        (o.key ≠ k ∧ RecentVerdict log now k x) := by
  unfold RecentVerdict
  rw [latest_append_singleton]
  by_cases hk : o.key = k
  · simp only [hk, if_true, Option.some.injEq, true_and, ne_eq, not_true_eq_false,
      false_and, or_false]
    constructor
    · rintro ⟨rfl, hrecent⟩
      exact ⟨rfl, hrecent⟩
    · rintro ⟨rfl, hrecent⟩
      exact ⟨rfl, hrecent⟩
  · simp [hk]

theorem tracks_init : Tracks init [] 0 :=
  ⟨List.nodup_nil, clocked_nil 0, by simp [init],
    fun k o h => by simp [RecentVerdict] at h⟩

theorem complete_init : Complete init [] 0 := by
  simp [Complete, init]

variable {ds : DropSet} {log : List Verdict} {now later : UInt64}

theorem Tracks.mono (h : Tracks ds log now) (hle : now ≤ later) :
    Tracks ds log later :=
  ⟨h.keyed, h.clocked.mono hle, h.entry, fun k o ho => h.passing k o (ho.mono hle)⟩

theorem Complete.mono (h : Complete ds log now) (hle : now ≤ later) :
    Complete ds log later :=
  fun x hx k o hk ho => h x hx k o hk (ho.mono hle)

/-- The test of the purge, on a verdict of the history. -/
theorem Tracks.fresh_iff (h : Tracks ds log now) {x : DropEntry}
    (hx : x ∈ ds.e.items) :
    now - x.last ≤ dropTimeoutMs ↔ Heard log x.key now dropTimeoutMs.toNat := by
  obtain ⟨o, ho, htime, -⟩ := h.entry x hx
  rw [← htime, sub_le_iff_recent (h.clocked.2 o (mem_of_latest ho)),
    heard_iff_latest h.clocked.1]
  constructor
  · exact fun hrecent => ⟨o, ho, hrecent⟩
  · rintro ⟨o', ho', hrecent⟩
    obtain rfl := Option.some.inj (ho.symm.trans ho')
    exact hrecent

/-- Purging forgets no recent verdict. -/
theorem Tracks.purge (h : Tracks ds log now) : Tracks (ds.purge now) log now := by
  refine ⟨?_, h.clocked, fun x hx => h.entry x (mem_purge.mp hx).1,
    fun k o ho => ?_⟩
  · exact h.keyed.sublist (List.filter_sublist.map _)
  · refine (h.passing k o ho).imp_left fun ⟨x, hx, hkey⟩ => ⟨x, ?_, hkey⟩
    refine mem_purge.mpr ⟨hx, (h.fresh_iff hx).mpr ?_⟩
    exact (heard_iff_latest h.clocked.1).mpr ⟨o, hkey ▸ ho.1, ho.2⟩

theorem Complete.purge (h : Tracks ds log now) (hc : Complete ds log now) :
    Complete (ds.purge now) log now := by
  intro x hx k o hk ho
  obtain ⟨y, hy, hkey⟩ := hc x (mem_purge.mp hx).1 k o hk ho
  refine ⟨y, mem_purge.mpr ⟨hy, (h.fresh_iff hy).mpr ?_⟩, hkey⟩
  exact (heard_iff_latest h.clocked.1).mpr ⟨o, hkey ▸ ho.1, ho.2⟩

/-- What a verdict does to the entries. -/
theorem Tracks.record_cases (h : Tracks ds log now) {o : Verdict}
    (hroom : (∀ x ∈ ds.e.items, x.key ≠ o.key) → ds.e.items.length < dropMax) :
    (o.val.losing = false ∧ (∀ x ∈ ds.e.items, x.pair ≠ o.key.pair) ∧
      ds.record o = ds) ∨
    ((o.val.losing = true ∨ ∃ x ∈ ds.e.items, x.pair = o.key.pair) ∧
      (ds.record o).Keyed ∧ ∀ x, x ∈ (ds.record o).e.items ↔
        (x ∈ ds.e.items ∧ x.key ≠ o.key) ∨ x = entryOf o) := by
  by_cases hknown : ∃ x ∈ ds.e.items, x.key = o.key
  · obtain ⟨x, hx, hkey⟩ := hknown
    exact Or.inr ⟨Or.inr ⟨x, hx, by rw [← hkey, pair_key]⟩,
      record_known h.keyed ⟨x, hx, hkey⟩⟩
  · have hnew : ∀ x ∈ ds.e.items, x.key ≠ o.key :=
      fun x hx hkey => hknown ⟨x, hx, hkey⟩
    exact record_new h.keyed hnew (hroom hnew)

/-- A verdict keeps the set in step with the history. -/
theorem Tracks.record (h : Tracks ds log now) {o : Verdict} (hle : now ≤ o.time)
    (hroom : (∀ x ∈ ds.e.items, x.key ≠ o.key) → ds.e.items.length < dropMax) :
    Tracks (ds.record o) (log ++ [o]) o.time := by
  have hclocked : Clocked (log ++ [o]) o.time :=
    (h.clocked.mono hle).append UInt64.le_rfl
  have hold := h.mono hle
  rcases h.record_cases hroom with ⟨hpass, habsent, hsame⟩ | ⟨-, hkeyed, hmem⟩
  · have hother : ∀ x ∈ ds.e.items, o.key ≠ x.key := fun x hx hkey =>
      habsent x hx (by rw [hkey, pair_key])
    rw [hsame]
    refine ⟨h.keyed, hclocked, fun x hx => ?_, fun k v hv => ?_⟩
    · rw [latest_append_singleton, if_neg (hother x hx)]
      exact h.entry x hx
    · rcases recentVerdict_append.mp hv with ⟨-, rfl, -⟩ | ⟨-, hv⟩
      · exact Or.inr hpass
      · exact hold.passing k v hv
  · refine ⟨hkeyed, hclocked, fun x hx => ?_, fun k v hv => ?_⟩
    · rw [latest_append_singleton]
      rcases (hmem x).mp hx with ⟨hx, hne⟩ | rfl
      · rw [if_neg (Ne.symm hne)]
        exact h.entry x hx
      · exact ⟨o, if_pos rfl, rfl, rfl⟩
    · rcases recentVerdict_append.mp hv with ⟨rfl, -, -⟩ | ⟨hne, hv⟩
      · exact Or.inl ⟨entryOf o, (hmem _).mpr (Or.inr rfl), rfl⟩
      · refine (hold.passing k v hv).imp_left fun ⟨x, hx, hkey⟩ => ⟨x, ?_, hkey⟩
        exact (hmem x).mpr (Or.inl ⟨hx, hkey ▸ Ne.symm hne⟩)

/-- A verdict that the set admits forgets nothing that matters. -/
theorem Complete.record (h : Tracks ds log now) (hc : Complete ds log now)
    {o : Verdict} (hle : now ≤ o.time)
    (hroom : (∀ x ∈ ds.e.items, x.key ≠ o.key) → ds.e.items.length < dropMax)
    (hadmits : ds.Admits log o) :
    Complete (ds.record o) (log ++ [o]) o.time := by
  have hc := hc.mono hle
  rcases h.record_cases hroom with ⟨-, habsent, hsame⟩ | ⟨hwhy, -, hmem⟩
  · rw [hsame]
    intro x hx k v hk hv
    rcases recentVerdict_append.mp hv with ⟨rfl, -, -⟩ | ⟨-, hv⟩
    · exact absurd hk.symm (habsent x hx)
    · exact hc x hx k v hk hv
  · -- an old entry of the pair, or the verdict is its first losing one
    have hkept : ∀ k v, k ≠ o.key → RecentVerdict log o.time k v →
        (k.pair = o.key.pair ∨ ∃ x ∈ ds.e.items, k.pair = x.pair) →
          ∃ y ∈ ds.e.items, y.key = k := by
      rintro k v hne hv (hpair | ⟨x, hx, hpair⟩)
      · by_cases hpresent : ∃ x ∈ ds.e.items, x.pair = o.key.pair
        · obtain ⟨x, hx, hxpair⟩ := hpresent
          exact hc x hx k v (hpair.trans hxpair.symm) hv
        · have hlosing := hwhy.resolve_right hpresent
          refine absurd hv (hadmits hlosing (fun x hx hxpair => ?_) k v hne hpair)
          exact hpresent ⟨x, hx, hxpair⟩
      · exact hc x hx k v hpair hv
    intro x hx k v hk hv
    rcases recentVerdict_append.mp hv with ⟨rfl, -, -⟩ | ⟨hne, hv⟩
    · exact ⟨entryOf o, (hmem _).mpr (Or.inr rfl), rfl⟩
    · obtain ⟨y, hy, hkey⟩ := hkept k v (Ne.symm hne) hv (by
        rcases (hmem x).mp hx with ⟨hx, -⟩ | rfl
        · exact Or.inr ⟨x, hx, hk⟩
        · exact Or.inl hk)
      exact ⟨y, (hmem y).mpr (Or.inl ⟨hy, hkey ▸ Ne.symm hne⟩), hkey⟩

/-- A complete set publishes the losers. -/
theorem Complete.publishes (h : Tracks ds log now) (hc : Complete ds log now) :
    Publishes ds log now := by
  have hp := h.purge
  have hcp := Complete.purge h hc
  have hheard : ∀ x ∈ (ds.purge now).e.items,
      Heard log x.key now dropTimeoutMs.toNat := fun x hx =>
    (h.fresh_iff (mem_purge.mp hx).1).mp (mem_purge.mp hx).2
  refine fun cfg => ⟨nodup_losersFrom _ _ _, fun p => ?_⟩
  refine mem_losersFrom.trans ?_
  constructor
  · rintro ⟨-, ⟨x, hx, rfl⟩, hall⟩
    refine ⟨⟨x.key, pair_key x, hheard x hx⟩, fun k hk hkheard => ?_⟩
    obtain ⟨o, ho, hrecent⟩ := (heard_iff_latest h.clocked.1).mp hkheard
    obtain ⟨y, hy, rfl⟩ := hcp x hx k o hk ⟨ho, hrecent⟩
    obtain ⟨o', ho', -, hlosing⟩ := hp.entry y hy
    exact ⟨o', ho', hlosing.trans (hall y hy (by rw [← pair_key, hk]))⟩
  · rintro ⟨⟨k, rfl, hk⟩, hall⟩
    refine ⟨by simp, ?_, fun y hy hpair => ?_⟩
    · obtain ⟨o, ho, hrecent⟩ := (heard_iff_latest h.clocked.1).mp hk
      obtain ⟨o', ho', hlosing⟩ := hall k rfl hk
      obtain rfl := Option.some.inj (ho.symm.trans ho')
      rcases hp.passing k o ⟨ho, hrecent⟩ with ⟨x, hx, rfl⟩ | hpass
      · exact ⟨x, hx, pair_key x⟩
      · rw [hpass] at hlosing
        cases hlosing
    · obtain ⟨o, ho, -, hlosing⟩ := hp.entry y hy
      obtain ⟨o', ho', hlosing'⟩ := hall y.key (by rw [pair_key, hpair]) (hheard y hy)
      obtain rfl := Option.some.inj (ho.symm.trans ho')
      exact hlosing.symm.trans hlosing'

/-- A verdict that the set does not admit makes the next publication wrong. -/
theorem Tracks.not_publishes (h : Tracks ds log now) {o : Verdict}
    (hle : now ≤ o.time)
    (hroom : (∀ x ∈ ds.e.items, x.key ≠ o.key) → ds.e.items.length < dropMax)
    (hadmits : ¬ ds.Admits log o) :
    ¬ Publishes (ds.record o) (log ++ [o]) o.time := by
  intro hpub
  simp only [Admits, Classical.not_imp, not_forall, not_not] at hadmits
  obtain ⟨hlosing, habsent, k, v, hne, hpair, hv⟩ := hadmits
  have hafter := h.record hle hroom
  rcases h.record_cases hroom with ⟨hpass, -⟩ | ⟨-, -, hmem⟩
  · rw [hpass] at hlosing
    cases hlosing
  -- the entry of the verdict is the only one of the pair
  have honly : ∀ x ∈ (ds.record o).e.items, x.pair = o.key.pair → x = entryOf o :=
    fun x hx hxpair => ((hmem x).mp hx).resolve_left
      fun hold => habsent x hold.1 hxpair
  have hself : entryOf o ∈ ((ds.record o).purge o.time).e.items := by
    refine mem_purge.mpr ⟨(hmem _).mpr (Or.inr rfl), ?_⟩
    simp [entryOf]
  have hlisted := ((hpub none).2 o.key.pair).mp
    (mem_losersFrom.mpr ⟨by simp, ⟨entryOf o, hself, rfl⟩, fun y hy hy' => by
      rw [honly y (mem_purge.mp hy).1 hy']
      exact hlosing⟩)
  have hv' : RecentVerdict (log ++ [o]) o.time k v :=
    recentVerdict_append.mpr (Or.inr ⟨Ne.symm hne, hv⟩)
  obtain ⟨v', hv'', hvlosing⟩ := hlisted.2 k hpair
    ((heard_iff_latest hafter.clocked.1).mpr ⟨v, hv'⟩)
  obtain rfl := Option.some.inj (hv'.1.symm.trans hv'')
  rcases (h.mono hle).passing k v hv with ⟨x, hx, rfl⟩ | hpass
  · exact habsent x hx (by rw [← pair_key, hpair])
  · rw [hpass] at hvlosing
    cases hvlosing

/-! ### Runs -/

/-- A call on the set. -/
inductive Op where
  | update (o : Verdict)
  | write (now : UInt64)

def Op.time : Op → UInt64
  | update o => o.time
  | write now => now

def Op.verdict? : Op → Option Verdict
  | update o => some o
  | write _ => none

/-- The set after a call. -/
def step (ds : DropSet) : Op → DropSet
  | .update o => ds.record o
  | .write now => (ds.write now none).1

/-- The set after the calls `ops`. -/
def run (ops : List Op) : DropSet := ops.foldl step init

/-- The verdicts among the calls. -/
def verdicts (ops : List Op) : List Verdict := ops.filterMap Op.verdict?

/-- The condition on a call. -/
def Admissible (ds : DropSet) (log : List Verdict) : Op → Prop
  | .update o => ds.Admits log o
  | .write _ => True

/-- The calls involve at most as many keys as the set has entries. -/
def Fits (ops : List Op) : Prop :=
  ((verdicts ops).map Obs.key).toFinset.card ≤ dropMax

instance (ops : List Op) : Decidable (Fits ops) :=
  inferInstanceAs (Decidable (_ ≤ _))

theorem Fits.of_append {before after : List Op} (h : Fits (before ++ after)) :
    Fits before := by
  refine le_trans (Finset.card_le_card fun k hk => ?_) h
  simp only [verdicts, List.filterMap_append, List.map_append,
    List.toFinset_append, Finset.mem_union]
  exact Or.inl hk

/-- As long as the keys fit, there is room for a new one. -/
theorem Tracks.room (h : Tracks ds log now) {o : Verdict}
    (hkeys : ((log ++ [o]).map Obs.key).toFinset.card ≤ dropMax)
    (hnew : ∀ x ∈ ds.e.items, x.key ≠ o.key) :
    ds.e.items.length < dropMax := by
  have hnodup : (o.key :: ds.e.items.map DropEntry.key).Nodup := by
    refine List.nodup_cons.mpr ⟨fun hmem => ?_, h.keyed⟩
    obtain ⟨x, hx, hkey⟩ := List.mem_map.mp hmem
    exact hnew x hx hkey
  have hcard := List.toFinset_card_of_nodup hnodup
  have hsub : (o.key :: ds.e.items.map DropEntry.key).toFinset ⊆
      ((log ++ [o]).map Obs.key).toFinset := by
    intro k hk
    rw [List.mem_toFinset] at hk ⊢
    rcases List.mem_cons.mp hk with rfl | hk
    · simp
    · obtain ⟨x, hx, rfl⟩ := List.mem_map.mp hk
      obtain ⟨v, hv, -⟩ := h.entry x hx
      refine List.mem_map.mpr ⟨v, ?_, key_of_latest hv⟩
      exact List.mem_append_left _ (mem_of_latest hv)
  have := Finset.card_le_card hsub
  simp only [hcard, List.length_cons, List.length_map] at this
  omega

theorem run_append_singleton (ops : List Op) (op : Op) :
    run (ops ++ [op]) = (run ops).step op := by
  simp [run]

theorem verdicts_append_update (ops : List Op) (o : Verdict) :
    verdicts (ops ++ [.update o]) = verdicts ops ++ [o] := by
  simp [verdicts, Op.verdict?]

theorem verdicts_append_write (ops : List Op) (now : UInt64) :
    verdicts (ops ++ [.write now]) = verdicts ops := by
  simp [verdicts, Op.verdict?]

theorem time_le_last {before : List Op} {op : Op}
    (hmono : (before ++ [op]).Pairwise (fun x y => x.time ≤ y.time)) :
    before.Pairwise (fun x y => x.time ≤ y.time) ∧
      ∀ x ∈ before, x.time ≤ op.time :=
  ⟨(List.pairwise_append.mp hmono).1, fun x hx =>
    (List.pairwise_append.mp hmono).2.2 x hx op (by simp)⟩

/-- In any run the set is in step with the history. -/
theorem run_tracks {ops : List Op}
    (hmono : ops.Pairwise (fun x y => x.time ≤ y.time)) (hfits : Fits ops)
    (hnow : ∀ x ∈ ops, x.time ≤ now) :
    Tracks (run ops) (verdicts ops) now := by
  induction ops using List.reverseRecOn generalizing now with
  | nil =>
      exact tracks_init.mono (UInt64.zero_le)
  | append_singleton ops op ih =>
      obtain ⟨hmono', hpast⟩ := time_le_last hmono
      have h := ih hmono' hfits.of_append hpast
      have hle : op.time ≤ now := hnow op (by simp)
      rw [run_append_singleton]
      cases op with
      | update o =>
          rw [verdicts_append_update]
          refine (h.record UInt64.le_rfl (h.room ?_)).mono hle
          rw [← verdicts_append_update]
          exact hfits
      | write t =>
          rw [verdicts_append_write]
          exact h.purge.mono hle

/-- In a run of admissible calls no recent verdict is forgotten. -/
theorem run_complete {ops : List Op}
    (hmono : ops.Pairwise (fun x y => x.time ≤ y.time)) (hfits : Fits ops)
    (hadmissible : ∀ before op after, ops = before ++ op :: after →
      Admissible (run before) (verdicts before) op)
    (hnow : ∀ x ∈ ops, x.time ≤ now) :
    Complete (run ops) (verdicts ops) now := by
  induction ops using List.reverseRecOn generalizing now with
  | nil =>
      exact complete_init.mono (UInt64.zero_le)
  | append_singleton ops op ih =>
      obtain ⟨hmono', hpast⟩ := time_le_last hmono
      have h := run_tracks hmono' hfits.of_append hpast
      have hc := ih hmono' hfits.of_append
        (fun before x after hops => hadmissible before x (after ++ [op])
          (by simp [hops])) hpast
      have hle : op.time ≤ now := hnow op (by simp)
      have hop := hadmissible ops op [] rfl
      rw [run_append_singleton]
      cases op with
      | update o =>
          rw [verdicts_append_update]
          refine (Complete.record h hc UInt64.le_rfl (h.room ?_) hop).mono hle
          rw [← verdicts_append_update]
          exact hfits
      | write t =>
          rw [verdicts_append_write]
          exact (Complete.purge h hc).mono hle

/--
When the list of losers is right.  In every run whose keys fit the set, a
publication is right at every moment of the run exactly when every first losing
verdict of a pair without an entry comes when no other discriminant of the pair
was heard recently.
-/
theorem losers_published_iff (ops : List Op)
    (hmono : ops.Pairwise (fun x y => x.time ≤ y.time)) (hfits : Fits ops) :
    (∀ before after, ops = before ++ after →
      ∀ now, (∀ x ∈ before, x.time ≤ now) →
        Publishes (run before) (verdicts before) now) ↔
    (∀ before op after, ops = before ++ op :: after →
      Admissible (run before) (verdicts before) op) := by
  constructor
  · rintro hpub before op after rfl
    cases op with
    | write now => trivial
    | update o =>
        have happ : before ++ Op.update o :: after =
            (before ++ [.update o]) ++ after := by simp
        rw [happ] at hmono hfits
        obtain ⟨hmono', hpast⟩ := time_le_last (List.pairwise_append.mp hmono).1
        have hfits' := hfits.of_append
        have h := run_tracks hmono' hfits'.of_append hpast
        by_contra hadmits
        refine h.not_publishes UInt64.le_rfl (h.room ?_) hadmits ?_
        · rw [← verdicts_append_update]
          exact hfits'
        · have hnext := hpub (before ++ [.update o]) after happ o.time
          rw [run_append_singleton, verdicts_append_update] at hnext
          refine hnext fun x hx => ?_
          rcases List.mem_append.mp hx with hx | hx
          · exact hpast x hx
          · rw [List.mem_singleton.mp hx]
            exact UInt64.le_rfl
  · rintro hadmissible before after rfl now hnow
    have hmono' := (List.pairwise_append.mp hmono).1
    have hfits' := hfits.of_append
    refine (run_complete hmono' hfits' (fun b op a hb => ?_) hnow).publishes
      (run_tracks hmono' hfits' hnow)
    exact hadmissible b op (a ++ after) (by simp [hb])

/-- A verdict on the wind of the address 5. -/
def windVerdict (disc : String) (r : Result) (time : UInt64) : Verdict :=
  { key := ⟨130306, 5, .ofText _ disc.toList⟩, time := time, val := r }

/-- A wind that loses under both references is listed. -/
theorem losers_published_both :
    (130306, 5) ∈ ((run [.update (windVerdict "True" .rejectPriority 0),
      .update (windVerdict "Apparent" .rejectPriority 1)]).write 2
        none).2.losers := by
  have hiff := losers_published_iff
    [.update (windVerdict "True" .rejectPriority 0),
      .update (windVerdict "Apparent" .rejectPriority 1)]
    (by decide) (by decide +kernel)
  have hadmissible : ∀ before op after,
      [Op.update (windVerdict "True" .rejectPriority 0),
        .update (windVerdict "Apparent" .rejectPriority 1)] =
          before ++ op :: after →
      Admissible (run before) (verdicts before) op := by
    rintro (_ | ⟨x, _ | ⟨y, before⟩⟩) op after h
    · obtain ⟨rfl, -⟩ := List.cons.inj h
      rintro - - k x - - ⟨hx, -⟩
      simp [verdicts] at hx
    · simp only [List.cons_append, List.nil_append, List.cons.injEq] at h
      obtain ⟨rfl, rfl, -⟩ := h
      intro _ habsent
      exact absurd rfl (habsent (entryOf (windVerdict "True" .rejectPriority 0))
        (by decide +kernel))
    · simp at h
  refine ((hiff.mpr hadmissible _ [] (by simp) 2 (by decide) none).2 _).mpr
    ⟨⟨⟨130306, 5, .ofText _ "True".toList⟩, rfl, by decide +kernel⟩,
      fun k hk ⟨o, ho, hkey, _⟩ => ?_⟩
  subst hkey
  simp only [verdicts, Op.verdict?, List.filterMap_cons, List.filterMap_nil,
    List.mem_cons, List.not_mem_nil, or_false] at ho
  rcases ho with rfl | rfl
  · exact ⟨_, rfl, rfl⟩
  · exact ⟨_, rfl, rfl⟩

/-- A wind accepted as apparent, then rejected as true, is listed: its apparent
frames, which win, are dropped. -/
theorem losers_published_winner :
    let ops := [Op.update (windVerdict "Apparent" .accept 0),
      .update (windVerdict "True" .rejectPriority 1)]
    ops.Pairwise (fun x y => x.time ≤ y.time) ∧ Fits ops ∧
      ¬ Publishes (run ops) (verdicts ops) 2 := by
  refine ⟨by decide, by decide +kernel, fun hpub => ?_⟩
  have hlisted := ((hpub none).2 (130306, 5)).mp (by decide +kernel)
  obtain ⟨o, ho, hlosing⟩ := hlisted.2 ⟨130306, 5, .ofText _ "Apparent".toList⟩
    rfl (by decide +kernel)
  have hlatest : latest (verdicts [Op.update (windVerdict "Apparent" .accept 0),
      .update (windVerdict "True" .rejectPriority 1)])
      ⟨130306, 5, .ofText _ "Apparent".toList⟩ =
        some (windVerdict "Apparent" .accept 0) := rfl
  rw [hlatest] at ho
  obtain rfl := Option.some.inj ho
  cases hlosing

end DropSet
end N2kMux
