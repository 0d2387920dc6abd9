import N2kMux.Mapper.Framed

/-!
# The rate limit of the output (daemon.c)

The loop over the sentences of one call of `mapper_map`: the whitelist, then the
gate of the type, which stays open for the rest of the call once it opened.

A type that is not in the table has the time `0`, and creating its entry does not
change that: `lastOf` is what the gate really depends on.
-/

namespace N2kMux
namespace Daemon

open Nmea0183
open Mapper (maxSent)

/-- `THR_MAX` -/
def thrMax : Nat := 32

/-- `thr_entry_t` -/
structure ThrEntry where
  type : CBuf 4
  last : UInt64
deriving DecidableEq

/-- `throttle_t` -/
abbrev Throttle := Table thrMax ThrEntry

/-- `thr_last`: the entry of a type, created if needed. -/
def thrLast (t : Throttle) (type : Text) : Throttle × Option Nat :=
  match t.items.findIdx? (fun e => e.type.text = type) with
  | some i => (t, some i)
  | none =>
      match t.push? { type := .ofText 4 type, last := 0 } with
      | some t' => (t', some t.items.length)
      | none => (t, none)

/-- The table and the types opened in this call. -/
structure Gate where
  thr : Throttle
  opened : Table maxSent (CBuf 4)

/-- The gate of a type that has not opened in this call. -/
def Gate.open? (g : Gate) (type : Text) (iv : Int) (now : UInt64) :
    Bool × Gate :=
  let opened := g.opened.pushOrDrop (.ofText 4 type)
  match thrLast g.thr type with
  | (thr, none) => (true, { thr := thr, opened := opened })
  | (thr, some i) =>
      let last := (thr.items[i]?).elim 0 (·.last)
      -- the interval is positive here, so that its cast to 64 bits keeps it
      if ((now - last).toNat : Int) < iv then (false, { g with thr := thr })
      else
        (true,
          { thr := thr.modify i fun e => { e with last := now }
            opened := opened })

/-- The interval of a type, `0` without a type. -/
def intervalOf (cfg : Config) (type : Text) : Int :=
  if type ≠ [] then cfg.rateMs type else 0

/-- The whitelist lets a sentence of that type through. -/
def allowed (cfg : Config) (pgn : Int) (s : Sentence) : Bool :=
  let type := sentenceType s.text
  type = [] || cfg.sentenceOk pgn type

/-- One turn of the loop over the sentences: whether it is written. -/
def gateSentence (cfg : Config) (pgn : Int) (now : UInt64) (g : Gate)
    (s : Sentence) : Bool × Gate :=
  let type := sentenceType s.text
  if !allowed cfg pgn s then (false, g)
  else if 0 < intervalOf cfg type then
    if g.opened.items.any fun o => o.text = type then (true, g)
    else g.open? type (intervalOf cfg type) now
  else (true, g)

/-- The loop over the sentences: what is written, in order. -/
def gateSentences (cfg : Config) (pgn : Int) (now : UInt64) :
    Gate → List Sentence → List Sentence × Gate
  | g, [] => ([], g)
  | g, s :: ss =>
      let r := gateSentence cfg pgn now g s
      let rest := gateSentences cfg pgn now r.2 ss
      (if r.1 then s :: rest.1 else rest.1, rest.2)

/-- The sentences of one call that are written. -/
def throttle (cfg : Config) (pgn : Int) (now : UInt64) (thr : Throttle)
    (ss : List Sentence) : List Sentence × Throttle :=
  let r := gateSentences cfg pgn now { thr := thr, opened := .empty } ss
  (r.1, r.2.thr)

/-! ### The time of a type -/

/-- The time remembered for a type, `0` when there is none. -/
def lastOf (t : Throttle) (type : Text) : UInt64 :=
  (t.items.find? fun e => e.type.text = type).elim 0 (·.last)

/-- The types of the table. -/
def typesOf (t : Throttle) : List Text := t.items.map (·.type.text)

/-- The table has each type once, and only types of the constructors. -/
structure Throttle.Wf (t : Throttle) : Prop where
  nodup : (typesOf t).Nodup
  known : ∀ type ∈ typesOf t, type ∈ sentenceTypes

theorem Throttle.wf_empty : Throttle.Wf .empty :=
  ⟨List.nodup_nil, by simp [typesOf]⟩

/-- There is room for a type that the table does not have. -/
theorem Throttle.Wf.room
    {t : Throttle}
    (h : Throttle.Wf t) :
    t.items.length < thrMax := by
  have hsub : typesOf t ⊆ sentenceTypes := h.known
  have hle := (List.subperm_of_subset h.nodup hsub).length_le
  have htypes : sentenceTypes.length = 21 := rfl
  have hlen : (typesOf t).length = t.items.length := by simp [typesOf]
  unfold thrMax
  omega

theorem text_ofText_of_mem {type : Text} (h : type ∈ sentenceTypes) :
    (CBuf.ofText 4 type).text = type := by
  have hall : ∀ ty ∈ sentenceTypes, ty.length < 4 := by
    simp [sentenceTypes]
  exact CBuf.text_ofText_of_lt (hall type h)

theorem lastOf_eq_elim {t : Throttle} {type : Text} {i : Nat}
    (h : t.items.findIdx? (fun e => e.type.text = type) = some i) :
    lastOf t type = (t.items[i]?).elim 0 (·.last) := by
  unfold lastOf
  rw [List.find?_eq_bind_findIdx?_getElem?, h, Option.bind_some]

/-- The entry of a type has its time; creating it changes no time. -/
theorem thrLast_spec
    {t : Throttle}
    (hwf : Throttle.Wf t)
    {type : Text}
    (htype : type ∈ sentenceTypes) :
    ∃ t' i, thrLast t type = (t', some i) ∧
      t'.items.findIdx? (fun e => e.type.text = type) = some i ∧
      Throttle.Wf t' ∧ ∀ ty, lastOf t' ty = lastOf t ty := by
  unfold thrLast
  cases hfind : t.items.findIdx? (fun e => e.type.text = type) with
  | some i => exact ⟨t, i, rfl, hfind, hwf, fun _ => rfl⟩
  | none =>
      have hroom := hwf.room
      obtain ⟨new, hnew⟩ : ∃ new : ThrEntry,
          new = { type := .ofText 4 type, last := 0 } := ⟨_, rfl⟩
      have htext : new.type.text = type := by
        rw [hnew]
        exact text_ofText_of_mem htype
      have hlast : new.last = 0 := by rw [hnew]
      rw [← hnew]
      clear hnew
      obtain ⟨t', ht'⟩ : ∃ t', t.push? new = some t' := by
        cases h : t.push? new with
        | some t' => exact ⟨t', rfl⟩
        | none =>
            rw [Table.push?_eq_none_iff] at h
            omega
      have hitems := (Table.push?_eq_some_iff.mp ht').2
      have htypes : typesOf t' = typesOf t ++ [type] := by
        simp [typesOf, hitems, htext]
      have hnotin : type ∉ typesOf t := by
        simpa [List.findIdx?_eq_none_iff, typesOf] using hfind
      refine ⟨t', t.items.length, by simp [ht'], ?_, ⟨?_, ?_⟩, fun ty => ?_⟩
      · rw [hitems, List.findIdx?_append, hfind]
        simp [List.findIdx?_cons, htext]
      · rw [htypes]
        exact List.nodup_append'.mpr ⟨hwf.nodup, List.nodup_singleton _,
          by simpa using hnotin⟩
      · intro ty hty
        rw [htypes, List.mem_append, List.mem_singleton] at hty
        rcases hty with hty | rfl
        · exact hwf.known ty hty
        · exact htype
      · unfold lastOf
        rw [hitems, List.find?_append]
        cases t.items.find? (fun e => e.type.text = ty) with
        | some e => rfl
        | none =>
            by_cases hty : new.type.text = ty
            · simp [hty, hlast]
            · simp [hty]

/-- Setting the time of a type. -/
theorem lastOf_modify {t : Throttle} {type : Text} {i : Nat} (now : UInt64)
    (h : t.items.findIdx? (fun e => e.type.text = type) = some i) (ty : Text) :
    lastOf (t.modify i fun e => { e with last := now }) ty =
      if ty = type then now else lastOf t ty := by
  unfold lastOf
  rw [Table.items_modify,
    List.find?_modify_of_findIdx? (k := fun e : ThrEntry => e.type.text)
      (f := fun e => { e with last := now }) (fun _ => rfl) h ty]
  split_ifs with hty
  · obtain ⟨hi, -⟩ := List.findIdx?_eq_some_iff_getElem.mp h
    simp [List.getElem?_eq_getElem hi]
  · rfl

theorem Throttle.Wf.modify {t : Throttle} (h : Throttle.Wf t) (i : Nat)
    (now : UInt64) :
    Throttle.Wf (t.modify i fun e => { e with last := now }) := by
  have htypes : typesOf (t.modify i fun e => { e with last := now }) =
      typesOf t := by
    unfold typesOf
    rw [Table.items_modify]
    refine List.ext_getElem (by simp) fun j hj hj' => ?_
    simp only [List.getElem_map, List.getElem_modify]
    split_ifs <;> rfl
  exact ⟨htypes ▸ h.nodup, htypes ▸ h.known⟩

/-! ### One call -/

section Call

variable {cfg : Config} {pgn : Int} {now : UInt64}

/-- The interval of the type since its remembered time is over. -/
def Due (cfg : Config) (now : UInt64) (t : Throttle) (type : Text) : Prop :=
  intervalOf cfg type ≤ ((now - lastOf t type).toNat : Int)

instance (cfg : Config) (now : UInt64) (t : Throttle) (type : Text) :
    Decidable (Due cfg now t type) :=
  inferInstanceAs (Decidable (_ ≤ _))

/-- The whitelist lets the sentence through, and its type is not limited or
due. -/
def passes (cfg : Config) (pgn : Int) (now : UInt64) (t : Throttle)
    (s : Sentence) : Bool :=
  allowed cfg pgn s &&
    (decide (intervalOf cfg (sentenceType s.text) ≤ 0) ||
      decide (Due cfg now t (sentenceType s.text)))

/-- A sentence of a limited type that passes. -/
def Opened (cfg : Config) (pgn : Int) (now : UInt64) (t : Throttle)
    (ss : List Sentence) (type : Text) : Prop :=
  ∃ s ∈ ss, sentenceType s.text = type ∧ passes cfg pgn now t s = true ∧
    0 < intervalOf cfg type

/-- The types opened so far in the call. -/
def Gate.types (g : Gate) : List Text := g.opened.items.map (·.text)

/-- A call, started with the table `t`, in which the sentences `done` were
treated. -/
structure Gate.During (cfg : Config) (pgn : Int) (now : UInt64) (t : Throttle)
    (done : List Sentence) (g : Gate) : Prop where
  wf : Throttle.Wf g.thr
  opened : ∀ type, type ∈ g.types ↔ Opened cfg pgn now t done type
  time : ∀ type, lastOf g.thr type =
    if type ∈ g.types then now else lastOf t type
  few : g.opened.items.length ≤ done.length

variable {t : Throttle} {done : List Sentence} {g : Gate}

theorem opened_append_singleton {s : Sentence} {type : Text} :
    Opened cfg pgn now t (done ++ [s]) type ↔
      Opened cfg pgn now t done type ∨ (sentenceType s.text = type ∧
        passes cfg pgn now t s = true ∧ 0 < intervalOf cfg type) := by
  unfold Opened
  constructor
  · rintro ⟨x, hx, h⟩
    rcases List.mem_append.mp hx with hx | hx
    · exact Or.inl ⟨x, hx, h⟩
    · rw [List.mem_singleton.mp hx] at h
      exact Or.inr h
  · rintro (⟨x, hx, h⟩ | h)
    · exact ⟨x, List.mem_append_left _ hx, h⟩
    · exact ⟨s, by simp, h⟩

/-- A sentence that opens no gate leaves the call as it is. -/
theorem Gate.During.same (h : g.During cfg pgn now t done) {s : Sentence}
    (hs : passes cfg pgn now t s = true →
      0 < intervalOf cfg (sentenceType s.text) →
      Opened cfg pgn now t done (sentenceType s.text)) :
    g.During cfg pgn now t (done ++ [s]) := by
  refine ⟨h.wf, fun type => ?_, h.time, ?_⟩
  · rw [h.opened type, opened_append_singleton]
    refine (or_iff_left_of_imp ?_).symm
    rintro ⟨rfl, hpass, hiv⟩
    exact hs hpass hiv
  · have := h.few
    rw [List.length_append]
    omega

/-- The gate of a type that has not opened yet in the call. -/
theorem Gate.During.open?
    (h : g.During cfg pgn now t done)
    {s : Sentence}
    (hroom : done.length < maxSent)
    (hallowed : allowed cfg pgn s = true)
    (htype : sentenceType s.text ∈ sentenceTypes)
    (hiv : 0 < intervalOf cfg (sentenceType s.text))
    (hnew : sentenceType s.text ∉ g.types) :
    let r := g.open? (sentenceType s.text)
      (intervalOf cfg (sentenceType s.text)) now
    r.1 = passes cfg pgn now t s ∧ r.2.During cfg pgn now t (done ++ [s]) := by
  have hpasses : passes cfg pgn now t s =
      decide (Due cfg now t (sentenceType s.text)) := by
    simp [passes, hallowed, hiv.not_ge]
  obtain ⟨thr, i, hthr, hfind, hwf, hlast⟩ := thrLast_spec h.wf htype
  have htime : (thr.items[i]?).elim 0 (·.last) =
      lastOf t (sentenceType s.text) := by
    rw [← lastOf_eq_elim hfind, hlast, h.time, if_neg hnew]
  unfold Gate.open?
  simp only [hthr, htime]
  split_ifs with hearly
  · have hnot : ¬ Due cfg now t (sentenceType s.text) := not_le.mpr hearly
    have hfalse : passes cfg pgn now t s = false := by
      rw [hpasses, decide_eq_false hnot]
    have hsame : Gate.During cfg pgn now t done { g with thr := thr } :=
      ⟨hwf, h.opened, fun type => (hlast type).trans (h.time type), h.few⟩
    refine ⟨hfalse.symm, hsame.same fun htrue => ?_⟩
    rw [hfalse] at htrue
    cases htrue
  · have hdue : Due cfg now t (sentenceType s.text) := not_lt.mp hearly
    have htrue : passes cfg pgn now t s = true := by
      rw [hpasses, decide_eq_true hdue]
    have hitems : (g.opened.pushOrDrop (.ofText 4 (sentenceType s.text))).items =
        g.opened.items ++ [.ofText 4 (sentenceType s.text)] := by
      have hlt : g.opened.items.length < maxSent := lt_of_le_of_lt h.few hroom
      unfold Table.pushOrDrop
      cases hp : g.opened.push? (.ofText 4 (sentenceType s.text)) with
      | none =>
          rw [Table.push?_eq_none_iff] at hp
          omega
      | some o => exact (Table.push?_eq_some_iff.mp hp).2
    refine ⟨htrue.symm, hwf.modify i now, fun type => ?_, fun type => ?_, ?_⟩
    · rw [opened_append_singleton, ← h.opened type]
      simp only [Gate.types, hitems, List.map_append, List.map_cons, List.map_nil,
        text_ofText_of_mem htype, List.mem_append, List.mem_singleton]
      refine or_congr_right ⟨?_, fun hs => hs.1.symm⟩
      rintro rfl
      exact ⟨rfl, htrue, hiv⟩
    · simp only [Gate.types, hitems, List.map_append, List.map_cons, List.map_nil,
        text_ofText_of_mem htype, List.mem_append, List.mem_singleton]
      rw [lastOf_modify now hfind, hlast, h.time]
      by_cases hty : type = sentenceType s.text
      · simp [hty]
      · simp [hty, Gate.types]
    · have := h.few
      rw [hitems, List.length_append, List.length_append]
      exact Nat.add_le_add_right this 1

/-- One turn of the loop. -/
theorem Gate.During.step
    (h : g.During cfg pgn now t done)
    {s : Sentence}
    (hroom : done.length < maxSent)
    (htype : sentenceType s.text ∈ sentenceTypes ∨ sentenceType s.text = []) :
    let r := gateSentence cfg pgn now g s
    r.1 = passes cfg pgn now t s ∧ r.2.During cfg pgn now t (done ++ [s]) := by
  unfold gateSentence
  simp only
  cases hallowed : allowed cfg pgn s with
  | false =>
      have hfalse : passes cfg pgn now t s = false := by simp [passes, hallowed]
      refine ⟨hfalse.symm, h.same fun htrue => ?_⟩
      rw [hfalse] at htrue
      cases htrue
  | true =>
      simp only [Bool.not_true, Bool.false_eq_true, if_false]
      split_ifs with hiv hopen
      · -- the gate opened earlier in the call
        have hmem : sentenceType s.text ∈ g.types := by
          obtain ⟨o, ho, heq⟩ := List.any_eq_true.mp hopen
          exact List.mem_map.mpr ⟨o, ho, of_decide_eq_true heq⟩
        have hopened := (h.opened _).mp hmem
        refine ⟨?_, h.same fun _ _ => hopened⟩
        obtain ⟨x, -, hx, hpass, -⟩ := hopened
        have hdue : Due cfg now t (sentenceType s.text) := by
          simpa [passes, hx, hiv.not_ge] using (Bool.and_eq_true_iff.mp hpass).2
        simp [passes, hallowed, hdue]
      · have hne : sentenceType s.text ≠ [] := by
          rintro hnil
          simp [intervalOf, hnil] at hiv
        refine h.open? hroom hallowed (htype.resolve_right hne) hiv fun hmem => ?_
        obtain ⟨o, ho, heq⟩ := List.mem_map.mp hmem
        exact hopen (List.any_eq_true.mpr ⟨o, ho, decide_eq_true heq⟩)
      · refine ⟨?_, h.same fun _ hpos => absurd hpos hiv⟩
        simp [passes, hallowed, not_lt.mp hiv]

/-- The loop over the sentences. -/
theorem Gate.During.run
    (ss : List Sentence)
    (h : g.During cfg pgn now t done)
    (hroom : done.length + ss.length ≤ maxSent)
    (htypes : ∀ s ∈ ss,
      sentenceType s.text ∈ sentenceTypes ∨ sentenceType s.text = []) :
    let r := gateSentences cfg pgn now g ss
    r.1 = ss.filter (passes cfg pgn now t) ∧
      r.2.During cfg pgn now t (done ++ ss) := by
  induction ss generalizing g done with
  | nil =>
      rw [List.append_nil]
      exact ⟨rfl, h⟩
  | cons s ss ih =>
      rw [List.length_cons] at hroom
      obtain ⟨hpass, hnext⟩ := h.step (by omega) (htypes s List.mem_cons_self)
      obtain ⟨hfilter, hend⟩ := ih hnext
        (by rw [List.length_append, List.length_singleton]; omega)
        fun x hx => htypes x (List.mem_cons_of_mem s hx)
      refine ⟨?_, by simpa [gateSentences] using hend⟩
      simp only [gateSentences, hpass, hfilter]
      cases hs : passes cfg pgn now t s with
      | true => rw [if_pos rfl, List.filter_cons_of_pos hs]
      | false =>
          rw [if_neg (by simp), List.filter_cons_of_neg (by simp [hs])]

end Call

/-- What one call writes, and the times after it. -/
theorem throttle_spec
    {cfg : Config}
    {pgn : Int}
    {now : UInt64}
    {t : Throttle}
    {ss : List Sentence}
    (hwf : Throttle.Wf t)
    (hlen : ss.length ≤ maxSent)
    (htypes : ∀ s ∈ ss,
      sentenceType s.text ∈ sentenceTypes ∨ sentenceType s.text = []) :
    let r := throttle cfg pgn now t ss
    r.1 = ss.filter (passes cfg pgn now t) ∧ Throttle.Wf r.2 ∧
      ∀ type, (Opened cfg pgn now t ss type → lastOf r.2 type = now) ∧
        (¬ Opened cfg pgn now t ss type → lastOf r.2 type = lastOf t type) := by
  have hstart : Gate.During cfg pgn now t []
      { thr := t, opened := .empty } :=
    ⟨hwf, by simp [Gate.types, Opened], by simp [Gate.types], by simp⟩
  obtain ⟨hfilter, hend⟩ := hstart.run ss (by simpa using hlen) htypes
  rw [List.nil_append] at hend
  refine ⟨hfilter, hend.wf, fun type => ⟨fun hopen => ?_, fun hopen => ?_⟩⟩
  · exact (hend.time type).trans (if_pos ((hend.opened type).mpr hopen))
  · exact (hend.time type).trans (if_neg fun hmem => hopen ((hend.opened type).mp hmem))

end Daemon
end N2kMux
