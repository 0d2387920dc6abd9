import N2kMux.Lib.Directory
import N2kMux.Registry.Model

/-!
# One message observed by the registry

The records of the registry, seen as addresses and unique numbers, form a
directory.  `observe_spec` says what one message does to every record: one
record is correlated with the message and enriched, the others at most lose
their address.
-/

namespace N2kMux
namespace Registry

open Directory

variable {α : Type}

/-- The address and the unique number of a record. -/
def Device.entry (d : Device) : Entry Int UInt32 :=
  { place := if 0 ≤ d.src then some d.src else none
    key := if d.hasUnique then some d.unique else none }

/-- The registry as a directory. -/
def records (r : Registry) : Records Int UInt32 :=
  fun i => (r.dev.items[i]?).map Device.entry

/-- A message that `registry_observe` takes into account. -/
def Observable (m : Jsonl.Msg α) : Prop :=
  m.hasPgn = true ∧ m.hasSrc = true ∧ 0 ≤ m.src

instance (m : Jsonl.Msg α) : Decidable (Observable m) :=
  inferInstanceAs (Decidable (_ ∧ _ ∧ _))

/-- The unique number that a message claims for its address. -/
def claimedNumber (lm : Libm α) (m : Jsonl.Msg α) : Option UInt32 :=
  if m.pgn = 60928 then claimUnique lm m else none

/-- The Model Serial Code that a message announces, if any. -/
def announcedSerial (m : Jsonl.Msg α) : Option (CBuf serialLen) :=
  if m.pgn = 126996 then
    (m.getStr "Model Serial Code".toList).bind fun s =>
      if s ≠ [] then some (.ofText serialLen s) else none
  else none

/-- The record without its address when that is `src`. -/
def Device.vacate (src : Int) (d : Device) : Device :=
  if d.src = src then { d with src := addrNull } else d

/-- The record without a number at `src`. -/
def provisionalAt (r : Registry) (src : Int) : Option Nat :=
  (r.findBySrc src).filter fun i => (r.dev.items[i]?).any fun d => !d.hasUnique

/-- The record that a message from `src`, with the number `u` if it claims one,
is about. -/
def subject (r : Registry) (src : Int) (u : Option UInt32) : Option Nat :=
  match u with
  | none => r.findBySrc src
  | some u => (r.findByUnique u).or (r.provisionalAt src)

/-- The index of that record, which may have to be allocated. -/
def target (r : Registry) (src : Int) (u : Option UInt32) : Nat :=
  (r.subject src u).getD r.dev.items.length

/-! ### Searching -/

theorem findBySrc_eq_some {r : Registry} {src : Int} {i : Nat}
    (h : r.findBySrc src = some i) :
    ∃ d, r.dev.items[i]? = some d ∧ d.src = src := by
  unfold findBySrc at h
  split_ifs at h
  obtain ⟨hi, hsrc, -⟩ := List.findIdx?_eq_some_iff_getElem.mp h
  exact ⟨_, List.getElem?_eq_getElem hi, by simpa using hsrc⟩

theorem findBySrc_eq_none {r : Registry} {src : Int} (hsrc : 0 ≤ src)
    (h : r.findBySrc src = none) {i : Nat} {d : Device}
    (hd : r.dev.items[i]? = some d) :
    d.src ≠ src := by
  unfold findBySrc at h
  rw [if_neg (by omega), List.findIdx?_eq_none_iff] at h
  simpa using h d (List.mem_of_getElem? hd)

theorem findByUnique_eq_some {r : Registry} {u : UInt32} {i : Nat}
    (h : r.findByUnique u = some i) :
    ∃ d, r.dev.items[i]? = some d ∧ d.hasUnique = true ∧ d.unique = u := by
  unfold findByUnique at h
  obtain ⟨hi, hu, -⟩ := List.findIdx?_eq_some_iff_getElem.mp h
  exact ⟨_, List.getElem?_eq_getElem hi, by simpa using hu⟩

theorem findByUnique_eq_none {r : Registry} {u : UInt32}
    (h : r.findByUnique u = none) {i : Nat} {d : Device}
    (hd : r.dev.items[i]? = some d) (hu : d.hasUnique = true) :
    d.unique ≠ u := by
  unfold findByUnique at h
  rw [List.findIdx?_eq_none_iff] at h
  have := h d (List.mem_of_getElem? hd)
  simpa [hu] using this

/-! ### The records after each operation -/

theorem getElem?_modify_self {r : Registry} {i : Nat} {f : Device → Device}
    {d : Device} (hd : r.dev.items[i]? = some d) :
    (r.modify i f).dev.items[i]? = some (f d) := by
  simp [modify, hd]

theorem getElem?_modify_of_ne {r : Registry} {i j : Nat} {f : Device → Device}
    (h : j ≠ i) :
    (r.modify i f).dev.items[j]? = r.dev.items[j]? := by
  simp [modify, h.symm]

theorem getElem?_detachAddr {r : Registry} {src : Int} {keep j : Nat} :
    (r.detachAddr src keep).dev.items[j]? =
      (r.dev.items[j]?).map fun d =>
        if j ≠ keep then d.vacate src else d := by
  unfold detachAddr Device.vacate
  simp only [Table.items_mapItems, List.getElem?_mapIdx]
  congr 1
  funext d
  by_cases hj : j = keep <;> by_cases hs : d.src = src <;> simp [hj, hs]

/-- Two records of a well-formed registry are not at the same address. -/
theorem src_ne_of_wf {r : Registry} (hwf : Wf r.records) {i j : Nat}
    {d e : Device} (hd : r.dev.items[i]? = some d)
    (he : r.dev.items[j]? = some e) (hij : j ≠ i) (hsrc : 0 ≤ d.src) :
    e.src ≠ d.src := by
  intro heq
  refine hij (hwf.place_inj (e := e.entry) (f := d.entry) (a := d.src) ?_ ?_
    ?_ ?_)
  · simp [records, he]
  · simp [records, hd]
  · simp [Device.entry, heq, hsrc]
  · simp [Device.entry, hsrc]

/-- The record at the address `src`, with the number `u` if there is one. -/
def Device.locate (src : Int) (u : Option UInt32) (d : Device) : Device :=
  { d with
    src := src
    unique := u.getD d.unique
    hasUnique := d.hasUnique || u.isSome }

/-- A record that is there already, with that number. -/
theorem Device.locate_self {d : Device} {u : UInt32} (hhas : d.hasUnique = true)
    (hu : d.unique = u) :
    d.locate d.src (some u) = d := by
  subst hu
  cases d
  cases hhas
  rfl

/-- What correlating a message with a record does: the record `i` is the one of
the message, it is at its address and has the claimed number. -/
structure Correlated (r r' : Registry) (src : Int) (u : Option UInt32)
    (i : Nat) : Prop where
  here : r'.dev.items[i]? =
    some (((r.dev.items[i]?).getD .fresh).locate src u)
  others : ∀ j ≠ i, r'.dev.items[j]? = (r.dev.items[j]?).map (Device.vacate src)
  fresh_number : ∀ x, u = some x → ∀ j ≠ i, ∀ d, r.dev.items[j]? = some d →
    d.hasUnique = true → d.unique ≠ x
  unplaced : u = none → ∀ j d, r.dev.items[j]? = some d → d.src = src → j = i
  before : ∀ d, r.dev.items[i]? = some d →
    (d.src = src ∨ ∃ x, u = some x ∧ d.hasUnique = true ∧ d.unique = x) ∧
      ∀ x, u = some x → d.hasUnique = true → d.unique = x

/-- The records that are not at an address are unchanged when it is vacated. -/
theorem map_vacate_of_ne {r : Registry} {src : Int} {j : Nat}
    (h : ∀ d, r.dev.items[j]? = some d → d.src ≠ src) :
    (r.dev.items[j]?).map (Device.vacate src) = r.dev.items[j]? := by
  cases hj : r.dev.items[j]? with
  | none => rfl
  | some d =>
      have hne := h d hj
      simp [Device.vacate, hne]

/-- A new record for an address that no record has. -/
theorem allocAt_spec {r : Registry} (src : Int)
    (hroom : r.dev.items.length < maxDevices) :
    ∃ r', r.allocAt src = (r', some r.dev.items.length) ∧
      r'.dev.items = r.dev.items ++ [{ Device.fresh with src := src }] := by
  unfold allocAt allocDev
  obtain ⟨t, ht⟩ : ∃ t, r.dev.push? .fresh = some t := by
    cases h : r.dev.push? .fresh with
    | some t => exact ⟨t, rfl⟩
    | none =>
        rw [Table.push?_eq_none_iff] at h
        omega
  have hitems := (Table.push?_eq_some_iff.mp ht).2
  refine ⟨(⟨t⟩ : Registry).setSrc r.dev.items.length src, by simp [ht], ?_⟩
  simp only [setSrc, modify, Table.items_modify, hitems]
  rw [List.modify_eq_set_getElem?]
  simp

theorem getElem?_length_append {β : Type} (l : List β) (x : β) (j : Nat) :
    (l ++ [x])[j]? = if j = l.length then some x else l[j]? := by
  rcases Nat.lt_trichotomy j l.length with hlt | rfl | hgt
  · rw [List.getElem?_append_left hlt, if_neg hlt.ne]
  · simp
  · rw [if_neg hgt.ne', List.getElem?_eq_none (by simp; omega),
      List.getElem?_eq_none hgt.le]

/-- Correlating by the address only. -/
theorem touchBySrc_spec {r : Registry} {src : Int} (hwf : Wf r.records)
    (hsrc : 0 ≤ src)
    (hroom : r.subject src none = none → r.dev.items.length < maxDevices) :
    ∃ r', r.touchBySrc src = (r', some (r.target src none)) ∧
      Correlated r r' src none (r.target src none) := by
  unfold touchBySrc target
  unfold subject at hroom ⊢
  cases hfind : r.findBySrc src with
  | some i =>
      obtain ⟨d, hd, hds⟩ := findBySrc_eq_some hfind
      have hne : ∀ j : Nat, j ≠ i → ∀ e, r.dev.items[j]? = some e → e.src ≠ src :=
        fun j hj e he => hds ▸ src_ne_of_wf hwf hd he hj (hds ▸ hsrc)
      refine ⟨r, rfl, ?_, fun j hj => ?_, by simp, fun _ j e he hes => ?_,
        fun e he => ?_⟩
      · rw [Option.getD_some, hd]
        simp [Device.locate, ← hds]
      · exact (map_vacate_of_ne (hne j hj)).symm
      · by_contra hj
        exact hne j hj e he hes
      · rw [Option.getD_some, hd] at he
        obtain rfl := Option.some.inj he
        exact ⟨Or.inl hds, by simp⟩
  | none =>
      have hne : ∀ (j : Nat) e, r.dev.items[j]? = some e → e.src ≠ src :=
        fun j e he => findBySrc_eq_none hsrc hfind he
      obtain ⟨r', hr', hitems⟩ := allocAt_spec src (hroom hfind)
      refine ⟨r', hr', ?_, fun j hj => ?_, by simp, fun _ j e he hes => ?_,
        fun e he => ?_⟩
      · rw [Option.getD_none, hitems, getElem?_length_append]
        simp [Device.locate, Device.fresh]
      · rw [Option.getD_none] at hj
        rw [hitems, getElem?_length_append, if_neg hj]
        exact (map_vacate_of_ne (hne j)).symm
      · exact absurd hes (hne j e he)
      · simp at he

/-- A known number moves to the address. -/
theorem moveTo_spec {r : Registry} {src : Int} {u : UInt32} {i : Nat}
    (hwf : Wf r.records) (hsrc : 0 ≤ src) (hfind : r.findByUnique u = some i) :
    Correlated r (r.moveTo i src) src (some u) i := by
  obtain ⟨d, hd, hhas, hu⟩ := findByUnique_eq_some hfind
  have hfresh : ∀ x, some u = some x → ∀ j ≠ i, ∀ e,
      r.dev.items[j]? = some e → e.hasUnique = true → e.unique ≠ x := by
    rintro x hx j hj e he hehas heu
    obtain rfl := Option.some.inj hx
    refine hj (hwf.key_inj (e := e.entry) (f := d.entry) (k := u) ?_ ?_ ?_ ?_)
    · simp [records, he]
    · simp [records, hd]
    · simp [Device.entry, hehas, heu]
    · simp [Device.entry, hhas, hu]
  have hbefore : ∀ e, r.dev.items[i]? = some e →
      (e.src = src ∨ ∃ x, some u = some x ∧ e.hasUnique = true ∧ e.unique = x) ∧
        ∀ x, some u = some x → e.hasUnique = true → e.unique = x := by
    intro e he
    rw [hd] at he
    obtain rfl := Option.some.inj he
    exact ⟨Or.inr ⟨u, rfl, hhas, hu⟩,
      fun x hx _ => hu.trans (Option.some.inj hx)⟩
  unfold moveTo
  rw [hd]
  simp only
  split_ifs with hmoved
  · refine ⟨?_, fun j hj => ?_, hfresh, by simp,
      hbefore⟩
    · have hdet : (r.detachAddr src i).dev.items[i]? = some d := by
        rw [getElem?_detachAddr, hd]
        simp
      unfold setSrc
      rw [getElem?_modify_self hdet, hd]
      simp [Device.locate, hhas, ← hu]
    · unfold setSrc
      rw [getElem?_modify_of_ne hj, getElem?_detachAddr]
      simp [hj]
  · have hds : d.src = src := not_not.mp hmoved
    refine ⟨?_, fun j hj => ?_, hfresh, by simp,
      hbefore⟩
    · rw [hd, Option.getD_some, ← hds, Device.locate_self hhas hu]
    · refine (map_vacate_of_ne fun e he => ?_).symm
      exact hds ▸ src_ne_of_wf hwf hd he hj (hds ▸ hsrc)

/-- A new number adopts the provisional record of the address, or gets a record
of its own. -/
theorem adoptAt_spec {r : Registry} {src : Int} {u : UInt32}
    (hwf : Wf r.records) (hsrc : 0 ≤ src)
    (hroom : r.provisionalAt src = none → r.dev.items.length < maxDevices)
    (hfind : r.findByUnique u = none) :
    ∃ r' i, i = (r.provisionalAt src).getD r.dev.items.length ∧
      r.adoptAt src = (r', some i) ∧
      Correlated r
        (r'.modify i fun d => { d with unique := u, hasUnique := true })
        src (some u) i := by
  have hfresh : ∀ (i : Nat) x, some u = some x → ∀ j ≠ i, ∀ e,
      r.dev.items[j]? = some e → e.hasUnique = true → e.unique ≠ x := by
    rintro i x hx j - e he hehas
    obtain rfl := Option.some.inj hx
    exact findByUnique_eq_none hfind he hehas
  unfold adoptAt
  cases hocc : r.findBySrc src with
  | none =>
      have hprov : r.provisionalAt src = none := by simp [provisionalAt, hocc]
      obtain ⟨r', hr', hitems⟩ := allocAt_spec src (hroom hprov)
      refine ⟨r', _, by rw [hprov]; rfl, hr', ?_, fun j hj => ?_, hfresh _, by simp,
        fun e he => ?_⟩
      · rw [getElem?_modify_self (d := { Device.fresh with src := src })]
        · simp [Device.locate, Device.fresh]
        · rw [hitems, getElem?_length_append, if_pos rfl]
      · rw [getElem?_modify_of_ne hj, hitems, getElem?_length_append, if_neg hj]
        exact (map_vacate_of_ne fun e he =>
          findBySrc_eq_none hsrc hocc he).symm
      · simp at he
  | some i =>
      obtain ⟨d, hd, hds⟩ := findBySrc_eq_some hocc
      have hne : ∀ j : Nat, j ≠ i → ∀ e, r.dev.items[j]? = some e → e.src ≠ src :=
        fun j hj e he => hds ▸ src_ne_of_wf hwf hd he hj (hds ▸ hsrc)
      simp only [hd]
      split_ifs with hhas
      · -- the occupant is evicted
        have hprov : r.provisionalAt src = none := by
          simp [provisionalAt, hocc, Option.filter, hd, hhas]
        have hroom' : (r.setSrc i addrNull).dev.items.length < maxDevices := by
          simpa [setSrc, modify] using hroom hprov
        obtain ⟨r', hr', hitems⟩ := allocAt_spec src hroom'
        have hlen : (r.setSrc i addrNull).dev.items.length =
            r.dev.items.length := by simp [setSrc, modify]
        have hother : ∀ j : Nat, (r.setSrc i addrNull).dev.items[j]? =
            (r.dev.items[j]?).map (Device.vacate src) := by
          intro j
          by_cases hj : j = i
          · subst hj
            unfold setSrc
            rw [getElem?_modify_self hd, hd]
            simp [Device.vacate, hds]
          · unfold setSrc
            rw [getElem?_modify_of_ne hj]
            exact (map_vacate_of_ne (hne j hj)).symm
        rw [hlen] at hr'
        refine ⟨r', _, by rw [hprov]; rfl, hr', ?_, fun j hj => ?_, hfresh _, by simp,
        fun e he => ?_⟩
        · rw [getElem?_modify_self (d := { Device.fresh with src := src })]
          · simp [Device.locate, Device.fresh]
          · rw [hitems, getElem?_length_append, hlen, if_pos rfl]
        · rw [getElem?_modify_of_ne hj, hitems, getElem?_length_append, hlen,
            if_neg hj, hother]
        · simp at he
      · -- the occupant is provisional
        have hprov : r.provisionalAt src = some i := by
          simp [provisionalAt, hocc, Option.filter, hd, hhas]
        refine ⟨r, i, by rw [hprov]; rfl, rfl, ?_, fun j hj => ?_, hfresh _, by simp,
        fun e he => ?_⟩
        · rw [getElem?_modify_self hd, hd]
          simp [Device.locate, ← hds]
        · rw [getElem?_modify_of_ne hj]
          exact (map_vacate_of_ne (hne j hj)).symm
        · rw [hd] at he
          obtain rfl := Option.some.inj he
          exact ⟨Or.inl hds, fun x _ h => absurd h hhas⟩

/-- Correlating a claim. -/
theorem claimDevice_spec {r : Registry} {src : Int} {u : Option UInt32}
    (hwf : Wf r.records) (hsrc : 0 ≤ src)
    (hroom : r.subject src u = none → r.dev.items.length < maxDevices) :
    ∃ r', r.claimDevice src u = (r', some (r.target src u)) ∧
      Correlated r r' src u (r.target src u) := by
  unfold claimDevice
  cases u with
  | none =>
      exact touchBySrc_spec hwf hsrc hroom
  | some u =>
      cases hfind : r.findByUnique u with
      | some i =>
          have htarget : r.target src (some u) = i := by
            simp [target, subject, hfind]
          rw [htarget]
          exact ⟨r.moveTo i src, by simp [hfind], moveTo_spec hwf hsrc hfind⟩
      | none =>
          have hsubject : r.subject src (some u) = r.provisionalAt src := by
            simp [subject, hfind]
          rw [hsubject] at hroom
          obtain ⟨r', i, hi, hadopt, hcorr⟩ := adoptAt_spec hwf hsrc hroom hfind
          have htarget : r.target src (some u) = i := by
            rw [target, hsubject, hi]
          rw [htarget]
          exact ⟨_, by simp [hfind, hadopt], hcorr⟩

/-! ### One message -/

/-- What a message writes in its record besides the address and the number. -/
structure Enriched (m : Jsonl.Msg α) (d d' : Device) : Prop where
  src_eq : d'.src = d.src
  hasUnique_eq : d'.hasUnique = d.hasUnique
  unique_eq : d'.unique = d.unique
  serial_eq : d'.serial = (announcedSerial m).getD d.serial
  model_eq : m.pgn ≠ 126996 → d'.model = d.model

theorem withMfg_enriched (lm : Libm α) {m : Jsonl.Msg α}
    (hpgn : m.pgn = 60928) (d : Device) :
    Enriched m d (d.withMfg lm m) := by
  have hserial : announcedSerial m = none := by simp [announcedSerial, hpgn]
  unfold Device.withMfg
  cases m.getStr "Manufacturer Code".toList <;>
    cases m.getNum "Manufacturer Code".toList <;>
    exact ⟨rfl, rfl, rfl, by rw [hserial]; rfl, fun _ => rfl⟩

theorem fromProduct_enriched {m : Jsonl.Msg α} (hpgn : m.pgn = 126996)
    (d : Device) :
    Enriched m d (d.fromProduct m) := by
  have hmodel : m.pgn ≠ 126996 → (d.fromProduct m).model = d.model :=
    fun h => absurd hpgn h
  refine ⟨?_, ?_, ?_, ?_, hmodel⟩
  all_goals
    unfold Device.fromProduct
    try unfold announcedSerial
    try rw [if_pos hpgn]
    cases m.getStr "Model Serial Code".toList with
    | none =>
        cases m.getStr "Model ID".toList with
        | none => rfl
        | some x => by_cases hx : x = [] <;> simp [hx]
    | some s =>
        cases m.getStr "Model ID".toList with
        | none => by_cases hs : s = [] <;> simp [hs]
        | some x =>
            by_cases hs : s = [] <;> by_cases hx : x = [] <;> simp [hs, hx]

theorem modify_id (r : Registry) (i : Nat) : r.modify i id = r := by
  unfold modify
  congr 1
  ext1
  simp

/-- The record of a message is correlated, then enriched. -/
theorem correlate_spec {lm : Libm α} {r : Registry} {m : Jsonl.Msg α}
    (hwf : Wf r.records) (hsrc : 0 ≤ m.src)
    (hroom : r.subject m.src (claimedNumber lm m) = none →
      r.dev.items.length < maxDevices) :
    let i := r.target m.src (claimedNumber lm m)
    ∃ mid f, r.correlate lm m = (mid.modify i f, some i) ∧
      Correlated r mid m.src (claimedNumber lm m) i ∧
      ∀ d, Enriched m d (f d) := by
  unfold correlate
  by_cases hclaim : m.pgn = 60928
  · have hu : claimedNumber lm m = claimUnique lm m := if_pos hclaim
    rw [hu] at hroom ⊢
    obtain ⟨mid, hdev, hcorr⟩ := claimDevice_spec hwf hsrc hroom
    refine ⟨mid, Device.withMfg lm m, ?_, hcorr, withMfg_enriched lm hclaim⟩
    rw [if_pos hclaim, fromClaim, hdev]
  · have hu : claimedNumber lm m = none := if_neg hclaim
    rw [hu] at hroom ⊢
    obtain ⟨mid, hdev, hcorr⟩ := touchBySrc_spec hwf hsrc hroom
    rw [if_neg hclaim, hdev]
    by_cases hproduct : m.pgn = 126996
    · exact ⟨mid, Device.fromProduct m, if_pos hproduct, hcorr,
        fromProduct_enriched hproduct⟩
    · have hserial : announcedSerial m = none := if_neg hproduct
      refine ⟨mid, id, ?_, hcorr,
        fun d => ⟨rfl, rfl, rfl, by rw [hserial]; rfl, fun _ => rfl⟩⟩
      rw [modify_id]
      exact if_neg hproduct

theorem bumpPgn_frame (d : Device) (pgn : Int) :
    (d.bumpPgn pgn).src = d.src ∧ (d.bumpPgn pgn).hasUnique = d.hasUnique ∧
      (d.bumpPgn pgn).unique = d.unique ∧ (d.bumpPgn pgn).serial = d.serial ∧
      (d.bumpPgn pgn).model = d.model := by
  unfold Device.bumpPgn
  split <;> exact ⟨rfl, rfl, rfl, rfl, rfl⟩

/-- Counting a message only refreshes the identity. -/
theorem Enriched.count {m : Jsonl.Msg α} {d d' : Device} {pgn : Int}
    (h : Enriched m d d') :
    Enriched m d (d'.count pgn) ∧ (d'.count pgn).ident = (d'.count pgn).identity := by
  obtain ⟨h1, h2, h3, h4, h5⟩ := bumpPgn_frame { d' with seen := d'.seen + 1 } pgn
  exact ⟨⟨h1.trans h.src_eq, h2.trans h.hasUnique_eq, h3.trans h.unique_eq,
    h4.trans h.serial_eq, fun hm => h5.trans (h.model_eq hm)⟩, rfl⟩

/-- What one message does to the registry: the record `i` is correlated with it
and enriched, the other records at most lose their address. -/
structure Observed (lm : Libm α) (m : Jsonl.Msg α) (r r' : Registry)
    (i : Nat) : Prop where
  here : ∃ d', r'.dev.items[i]? = some d' ∧
    Enriched m (((r.dev.items[i]?).getD .fresh).locate m.src (claimedNumber lm m))
      d' ∧
    d'.ident = d'.identity
  others : ∀ j ≠ i,
    r'.dev.items[j]? = (r.dev.items[j]?).map (Device.vacate m.src)
  fresh_number : ∀ x, claimedNumber lm m = some x → ∀ j ≠ i, ∀ d,
    r.dev.items[j]? = some d → d.hasUnique = true → d.unique ≠ x
  unplaced : claimedNumber lm m = none → ∀ j d, r.dev.items[j]? = some d →
    d.src = m.src → j = i
  before : ∀ d, r.dev.items[i]? = some d →
    (d.src = m.src ∨
        ∃ x, claimedNumber lm m = some x ∧ d.hasUnique = true ∧ d.unique = x) ∧
      ∀ x, claimedNumber lm m = some x → d.hasUnique = true → d.unique = x

theorem observe_spec {lm : Libm α} {r : Registry} {m : Jsonl.Msg α}
    (hwf : Wf r.records) (hm : Observable m)
    (hroom : r.subject m.src (claimedNumber lm m) = none →
      r.dev.items.length < maxDevices) :
    Observed lm m r (r.observe lm m).1
      (r.target m.src (claimedNumber lm m)) := by
  obtain ⟨hpgn, hsrc, hpos⟩ := hm
  obtain ⟨mid, f, hmid, hcorr, hf⟩ := correlate_spec hwf hpos hroom
  have hobserve : (r.observe lm m).1 =
      (mid.modify (r.target m.src (claimedNumber lm m)) f).modify
        (r.target m.src (claimedNumber lm m)) (Device.count m.pgn) := by
    unfold observe
    rw [if_neg (by simp [hpgn, hsrc, hpos]), hmid]
  rw [hobserve]
  refine ⟨⟨_, getElem?_modify_self (getElem?_modify_self hcorr.here),
    (hf _).count⟩, fun j hj => ?_, hcorr.fresh_number, hcorr.unplaced,
    hcorr.before⟩
  rw [getElem?_modify_of_ne hj, getElem?_modify_of_ne hj, hcorr.others j hj]

/-- A full table. -/
theorem allocAt_full {r : Registry} (src : Int)
    (hfull : r.dev.items.length = maxDevices) :
    r.allocAt src = (r, none) := by
  unfold allocAt allocDev
  rw [Table.push?_eq_none_iff.mpr hfull]
  rfl

/-- A message about a record that a full table cannot take: the address is
vacated all the same. -/
theorem observe_full {lm : Libm α} {r : Registry} {m : Jsonl.Msg α}
    (hwf : Wf r.records) (hm : Observable m)
    (hsubject : r.subject m.src (claimedNumber lm m) = none)
    (hfull : r.dev.items.length = maxDevices) (j : Nat) :
    (r.observe lm m).1.dev.items[j]? =
      (r.dev.items[j]?).map (Device.vacate m.src) := by
  obtain ⟨hpgn, hsrc, hpos⟩ := hm
  have hcond : ¬ (!m.hasPgn || !m.hasSrc || decide (m.src < 0)) = true := by
    simp [hpgn, hsrc, hpos]
  have htouch : r.findBySrc m.src = none →
      r.touchBySrc m.src = (r, none) ∧
        r.dev.items[j]? = (r.dev.items[j]?).map (Device.vacate m.src) := by
    intro hfind
    refine ⟨?_, (map_vacate_of_ne fun e he =>
      findBySrc_eq_none hpos hfind he).symm⟩
    unfold touchBySrc
    rw [hfind]
    exact allocAt_full m.src hfull
  unfold observe correlate
  rw [if_neg hcond]
  by_cases hclaim : m.pgn = 60928
  · have hu : claimedNumber lm m = claimUnique lm m := if_pos hclaim
    rw [if_pos hclaim]
    rw [hu] at hsubject
    cases hnum : claimUnique lm m with
    | none =>
        rw [hnum] at hsubject
        obtain ⟨hr, hj⟩ := htouch hsubject
        simpa [fromClaim, claimDevice, hnum, hr] using hj
    | some u =>
        rw [hnum] at hsubject
        obtain ⟨hfind, hprov⟩ := Option.or_eq_none_iff.mp hsubject
        cases hocc : r.findBySrc m.src with
        | none =>
            obtain ⟨-, hj⟩ := htouch hocc
            simpa [fromClaim, claimDevice, hnum, hfind, adoptAt, hocc,
              allocAt_full m.src hfull] using hj
        | some i =>
            obtain ⟨d, hd, hds⟩ := findBySrc_eq_some hocc
            have hhas : d.hasUnique = true := by
              simpa [provisionalAt, hocc, hd, Option.filter] using hprov
            have hfull' : (r.setSrc i addrNull).dev.items.length =
                maxDevices := by
              simpa [setSrc, modify] using hfull
            simp only [fromClaim, claimDevice, hnum, hfind, adoptAt, hocc, hd,
              hhas, if_true, allocAt_full m.src hfull']
            unfold setSrc
            by_cases hj : j = i
            · subst hj
              rw [getElem?_modify_self hd, hd]
              simp [Device.vacate, hds]
            · rw [getElem?_modify_of_ne hj]
              exact (map_vacate_of_ne fun e he =>
                hds ▸ src_ne_of_wf hwf hd he hj (hds ▸ hpos)).symm
  · have hu : claimedNumber lm m = none := if_neg hclaim
    rw [hu] at hsubject
    obtain ⟨hr, hj⟩ := htouch hsubject
    rw [if_neg hclaim, hr]
    exact hj

end Registry
end N2kMux
