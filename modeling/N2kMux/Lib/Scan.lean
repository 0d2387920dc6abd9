import Mathlib.Data.List.DropRight
import Mathlib.Data.List.TakeWhile
import N2kMux.Lib.CText

/-!
# Loops over delimited members

A tolerant reader of bracketed text runs the loop

    while (*p) { skip blanks; stop at the closing character;
                 step over a comma; read one entry; }

where reading an entry may itself run such loops.  Nothing bounds the number
of turns, so the loop is given fuel; `Outcome.outOfFuel` says that the fuel
did not suffice.

`loop_behaves` decides what a loop does for *every* amount of fuel from what
its entries do: it ends, it fails, or it never ends.  The last happens exactly
when some entry never ends or leaves the reading position where it was.
-/

/-- What reading from a position gives. -/
inductive Outcome (σ : Type) where
  | ok (rest : Text) (st : σ)
  | malformed
  | outOfFuel

namespace Outcome

variable {σ τ : Type}

/-- Continue after a successful reading. -/
def andThen (o : Outcome σ) (k : Text → σ → Outcome τ) : Outcome τ :=
  match o with
  | ok rest st => k rest st
  | malformed => malformed
  | outOfFuel => outOfFuel

/-- A reading that needs no fuel: it delivers a position and a result, or
fails. -/
def ofRead {β : Type} (r : Option (Text × β)) (g : β → σ) : Outcome σ :=
  match r with
  | some (rest, x) => ok rest (g x)
  | none => malformed

/-- A reading that needs no fuel: it delivers a position or fails. -/
def ofOption (r : Option Text) (st : σ) : Outcome σ :=
  match r with
  | some rest => ok rest st
  | none => malformed

@[simp] theorem andThen_ok (rest : Text) (st : σ) (k : Text → σ → Outcome τ) :
    (ok rest st).andThen k = k rest st := rfl

@[simp] theorem andThen_malformed (k : Text → σ → Outcome τ) :
    (malformed : Outcome σ).andThen k = malformed := rfl

@[simp] theorem andThen_outOfFuel (k : Text → σ → Outcome τ) :
    (outOfFuel : Outcome σ).andThen k = outOfFuel := rfl

@[simp] theorem ofRead_some {β : Type} (rest : Text) (x : β) (g : β → σ) :
    ofRead (some (rest, x)) g = ok rest (g x) := rfl

@[simp] theorem ofRead_none {β : Type} (g : β → σ) :
    ofRead none g = (malformed : Outcome σ) := rfl

@[simp] theorem ofOption_some (rest : Text) (st : σ) :
    ofOption (some rest) st = ok rest st := rfl

@[simp] theorem ofOption_none (st : σ) :
    ofOption none st = (malformed : Outcome σ) := rfl

theorem andThen_eq_ok {o : Outcome σ} {k : Text → σ → Outcome τ} {q : Text} {y : τ}
    (h : o.andThen k = ok q y) :
    ∃ rest x, o = ok rest x ∧ k rest x = ok q y := by
  cases o with
  | ok rest x => exact ⟨rest, x, rfl, h⟩
  | malformed => cases h
  | outOfFuel => cases h

theorem ofOption_eq_ok {r : Option Text} {q : Text} {x y : σ}
    (h : ofOption r x = ok q y) :
    y = x := by
  cases r with
  | none => cases h
  | some rest => exact (Outcome.ok.inj h).2.symm

theorem ofRead_eq_ok {β : Type} {r : Option (Text × β)} {g : β → σ} {q : Text} {y : σ}
    (h : ofRead r g = ok q y) :
    ∃ x, y = g x := by
  cases r with
  | none => cases h
  | some rx => exact ⟨rx.2, (Outcome.ok.inj h).2.symm⟩

end Outcome

namespace Scan

variable {σ τ : Type}

/-- The loop: `entry` gets the fuel that is left. -/
def loop (blank : Char → Bool) (close : Char)
    (entry : Nat → Text → σ → Outcome σ) :
    Nat → Text → σ → Outcome σ
  | 0, _, _ => .outOfFuel
  | n + 1, p, st =>
      if p = [] then .ok [] st
      else
        let p := p.dropWhile blank
        if p.head? = some close then .ok p.tail st
        else if p.head? = some ',' then loop blank close entry n p.tail st
        else (entry n p st).andThen (loop blank close entry n)

/-- `F` gives `o` with fuel `N`, and nothing else with less fuel. -/
def Converges (F : Nat → Outcome σ) (N : Nat) (o : Outcome σ) : Prop :=
  (∀ n, F n = o ∨ F n = .outOfFuel) ∧ ∀ n, N ≤ n → F n = o

/-- No amount of fuel suffices. -/
def Diverges (F : Nat → Outcome σ) : Prop := ∀ n, F n = .outOfFuel

/-- What a reading from `p` does, with fuel `N`.  `bad` marks the positions from
which the whole reader never ends, and `bad'` those after this reading. -/
inductive Behaves (F : Nat → Outcome σ) (N : Nat) (p : Text)
    (bad : Bool) (bad' : Text → σ → Bool) : Prop
  | ok (rest : Text) (st : σ)
      (hF : Converges F N (.ok rest st))
      (hlen : rest.length ≤ p.length)
      (hbad : bad = bad' rest st)
  | malformed
      (hF : Converges F N .malformed)
      (hbad : bad = false)
  | diverges
      (hF : Diverges F)
      (hbad : bad = true)

theorem Converges.const (o : Outcome σ) (N : Nat) :
    Converges (fun _ => o) N o :=
  ⟨fun _ => Or.inl rfl, fun _ _ => rfl⟩

theorem Converges.mono {F : Nat → Outcome σ} {M N : Nat} {o : Outcome σ}
    (h : Converges F M o) (hMN : M ≤ N) :
    Converges F N o :=
  ⟨h.1, fun n hn => h.2 n (le_trans hMN hn)⟩

theorem Behaves.mono {F : Nat → Outcome σ} {M N : Nat} {p : Text}
    {bad : Bool} {bad' : Text → σ → Bool}
    (h : Behaves F M p bad bad') (hMN : M ≤ N) :
    Behaves F N p bad bad' := by
  cases h with
  | ok rest st hF hlen hbad => exact .ok rest st (hF.mono hMN) hlen hbad
  | malformed hF hbad => exact .malformed (hF.mono hMN) hbad
  | diverges hF hbad => exact .diverges hF hbad

theorem Behaves.congr_bad {F : Nat → Outcome σ} {N : Nat} {p : Text}
    {b b' : Bool} {bad' : Text → σ → Bool}
    (h : Behaves F N p b bad') (hb : b' = b) :
    Behaves F N p b' bad' := by
  subst hb
  exact h

/-- The same reading seen from a position further back. -/
theorem Behaves.of_length_le {F : Nat → Outcome σ} {N : Nat} {p q : Text}
    {bad : Bool} {bad' : Text → σ → Bool}
    (h : Behaves F N q bad bad') (hq : q.length ≤ p.length) :
    Behaves F N p bad bad' := by
  cases h with
  | ok rest st hF hlen hbad => exact .ok rest st hF (le_trans hlen hq) hbad
  | malformed hF hbad => exact .malformed hF hbad
  | diverges hF hbad => exact .diverges hF hbad

/-- A successful reading followed by one that starts where it ends. -/
theorem Behaves.andThen {F : Nat → Outcome σ} {G : Nat → Text → σ → Outcome τ}
    {N : Nat} {rest : Text} {st : σ} {bad : Bool} {bad' : Text → τ → Bool}
    (hF : Converges F N (.ok rest st))
    (hG : Behaves (fun n => G n rest st) N rest bad bad') :
    Behaves (fun n => (F n).andThen (G n)) N rest bad bad' := by
  cases hG with
  | malformed hG hbad =>
      refine .malformed ⟨fun n => ?_, fun n hn => ?_⟩ hbad
      · rcases hF.1 n with h | h
        · simpa [h] using hG.1 n
        · simp [h]
      · simpa [hF.2 n hn] using hG.2 n hn
  | diverges hG hbad =>
      refine .diverges (fun n => ?_) hbad
      rcases hF.1 n with h | h
      · simpa [h] using hG n
      · simp [h]
  | ok rest' st' hG hlen hbad =>
      refine .ok rest' st' ⟨fun n => ?_, fun n hn => ?_⟩ hlen hbad
      · rcases hF.1 n with h | h
        · simpa [h] using hG.1 n
        · simp [h]
      · simpa [hF.2 n hn] using hG.2 n hn

/-- Using the result of a reading without reading on. -/
theorem Behaves.map {F : Nat → Outcome σ} {N : Nat} {p : Text} {bad : Bool}
    {mid : Text → σ → Bool} {S : Text → τ → Bool} {g : σ → τ}
    (hF : Behaves F N p bad mid)
    (hg : ∀ rest st, S rest (g st) = mid rest st) :
    Behaves (fun n => (F n).andThen fun rest st => .ok rest (g st))
      N p bad S := by
  cases hF with
  | malformed hF hbad =>
      refine .malformed ⟨fun n => ?_, fun n hn => by simp [hF.2 n hn]⟩ hbad
      rcases hF.1 n with h | h <;> simp [h]
  | diverges hF hbad => exact .diverges (fun n => by simp [hF n]) hbad
  | ok rest st hF hlen hbad =>
      refine .ok rest (g st) ⟨fun n => ?_, fun n hn => by simp [hF.2 n hn]⟩
        hlen (hbad.trans (hg rest st).symm)
      rcases hF.1 n with h | h <;> simp [h]

/-- A reading that spends one unit of fuel before another one. -/
theorem Behaves.succ {F G : Nat → Outcome σ} {N : Nat} {p : Text}
    {bad : Bool} {bad' : Text → σ → Bool}
    (hG : Behaves G N p bad bad')
    (hzero : F 0 = .outOfFuel)
    (hsucc : ∀ n, F (n + 1) = G n) :
    Behaves F (N + 1) p bad bad' := by
  have lift {o : Outcome σ} (hc : Converges G N o) : Converges F (N + 1) o := by
    refine ⟨fun n => ?_, fun n hn => ?_⟩
    · cases n with
      | zero => exact Or.inr hzero
      | succ n => simpa [hsucc n] using hc.1 n
    · obtain ⟨m, rfl⟩ : ∃ m, n = m + 1 := ⟨n - 1, by omega⟩
      simpa [hsucc m] using hc.2 m (by omega)
  cases hG with
  | ok rest st hF hlen hbad => exact .ok rest st (lift hF) hlen hbad
  | malformed hF hbad => exact .malformed (lift hF) hbad
  | diverges hF hbad =>
      refine .diverges (fun n => ?_) hbad
      cases n with
      | zero => exact hzero
      | succ n => rw [hsucc n, hF n]

/-- What one entry at `p` does: it behaves and consumes something, or it gives
back its own position and state. -/
inductive EntryBehaves (F : Nat → Outcome σ) (p : Text) (st : σ)
    (bad : Bool) (bad' : Text → σ → Bool) : Prop
  | ok (rest : Text) (st' : σ)
      (hF : Converges F p.length (.ok rest st'))
      (hlen : rest.length < p.length)
      (hbad : bad = bad' rest st')
  | malformed
      (hF : Converges F p.length .malformed)
      (hbad : bad = false)
  | diverges
      (hF : Diverges F)
      (hbad : bad = true)
  | stalls
      (hF : ∀ n, F n = .ok p st)
      (hbad : bad = true)

/-- A reading that starts further on is the reading of an entry. -/
theorem Behaves.toEntry {F : Nat → Outcome σ} {N : Nat} {p q : Text} {st : σ}
    {bad : Bool} {bad' : Text → σ → Bool}
    (h : Behaves F N q bad bad')
    (hq : q.length < p.length) (hN : N ≤ p.length) :
    EntryBehaves F p st bad bad' := by
  cases h with
  | ok rest st' hF hlen hbad =>
      exact .ok rest st' (hF.mono hN) (lt_of_le_of_lt hlen hq) hbad
  | malformed hF hbad => exact .malformed (hF.mono hN) hbad
  | diverges hF hbad => exact .diverges hF hbad

section Loop

variable {blank : Char → Bool} {close : Char}
  {entry : Nat → Text → σ → Outcome σ}

@[simp] theorem loop_zero (p : Text) (st : σ) :
    loop blank close entry 0 p st = .outOfFuel := rfl

@[simp] theorem loop_nil (n : Nat) (st : σ) :
    loop blank close entry (n + 1) [] st = .ok [] st := by
  simp [loop]

/-- One turn of the loop away from the end of the text. -/
theorem loop_succ {p : Text} (hp : p ≠ []) (n : Nat) (st : σ) :
    loop blank close entry (n + 1) p st =
      if (p.dropWhile blank).head? = some close then
        .ok (p.dropWhile blank).tail st
      else if (p.dropWhile blank).head? = some ',' then
        loop blank close entry n (p.dropWhile blank).tail st
      else
        (entry n (p.dropWhile blank) st).andThen
          (loop blank close entry n) := by
  simp [loop, hp]

/-- What every entry keeps, the loop keeps. -/
theorem loop_keeps {I : σ → Prop}
    (hentry : ∀ n p st q st', I st → entry n p st = .ok q st' → I st')
    {n : Nat} {p q : Text} {st st' : σ}
    (hst : I st)
    (h : loop blank close entry n p st = .ok q st') :
    I st' := by
  induction n generalizing p st with
  | zero => cases h
  | succ n ih =>
      rw [loop] at h
      simp only at h
      split_ifs at h
      · rw [← (Outcome.ok.inj h).2]
        exact hst
      · rw [← (Outcome.ok.inj h).2]
        exact hst
      · exact ih hst h
      · obtain ⟨rest, x, hread, hrest⟩ := Outcome.andThen_eq_ok h
        exact ih (hentry _ _ _ _ _ hst hread) hrest

/-- A loop that comes back to the same position with the same state never
ends. -/
theorem loop_diverges_of_stall {p : Text} {st : σ}
    (hp : p ≠ [])
    (hblank : p.dropWhile blank = p)
    (hclose : p.head? ≠ some close)
    (hcomma : p.head? ≠ some ',')
    (hstall : ∀ n, entry n p st = .ok p st) :
    Diverges (fun n => loop blank close entry n p st) := by
  intro n
  induction n with
  | zero => rfl
  | succ n ih =>
      show loop blank close entry (n + 1) p st = _
      rw [loop_succ hp, hblank, if_neg hclose, if_neg hcomma, hstall]
      exact ih

/--
The loop rule.  `S` marks the positions inside the loop from which the reader
never ends, `exit` those behind the loop.  If every entry behaves, so does the
loop.
-/
theorem loop_behaves {S exit : Text → σ → Bool}
    (hnil : ∀ st, S [] st = exit [] st)
    (hblank : ∀ p st, S (p.dropWhile blank) st = S p st)
    (hclose : ∀ q st, S (close :: q) st = exit q st)
    (hcomma : ∀ q st, S (',' :: q) st = S q st)
    (hcommaClose : close ≠ ',')
    (hentryNil : ∀ n st, entry n [] st = .ok [] st)
    (hentry : ∀ p st, p ≠ [] →
      p.dropWhile blank = p →
      p.head? ≠ some close → p.head? ≠ some ',' →
      EntryBehaves (fun n => entry n p st) p st (S p st) S) :
    ∀ (p : Text) (st : σ),
      Behaves (fun n => loop blank close entry n p st)
        (p.length + 1) p (S p st) exit := by
  intro p
  induction hk : p.length using Nat.strong_induction_on generalizing p with
  | _ k ih =>
  intro st
  subst hk
  by_cases hp : p = []
  · subst hp
    refine Behaves.succ (G := fun _ => .ok [] st) ?_ rfl (fun n => by simp)
    exact .ok [] st (.const _ _) (le_refl _) (hnil st)
  · have hdrop : (p.dropWhile blank).length ≤ p.length :=
      List.length_dropWhile_le blank p
    have hpos : 0 < p.length := List.length_pos_of_ne_nil hp
    have hsucc := fun n => @loop_succ _ blank close entry p hp n st
    have hidem : (p.dropWhile blank).dropWhile blank = p.dropWhile blank :=
      List.dropWhile_idempotent blank p
    have hS := hblank p st
    generalize p.dropWhile blank = q at hdrop hsucc hS hidem
    rw [← hS]
    by_cases hc : q.head? = some close
    · obtain ⟨r, rfl⟩ := List.head?_eq_some_iff.mp hc
      simp only [List.length_cons] at hdrop
      refine Behaves.succ (G := fun _ => .ok r st) ?_ rfl
        (fun n => by simp [hsucc])
      exact .ok r st (.const _ _) (by omega) (hclose r st)
    · by_cases hcm : q.head? = some ','
      · obtain ⟨r, rfl⟩ := List.head?_eq_some_iff.mp hcm
        simp only [List.length_cons] at hdrop
        refine Behaves.succ (G := fun n => loop blank close entry n r st) ?_ rfl
          (fun n => by simp [hsucc, hcommaClose.symm])
        have hr := ih r.length (by omega) r rfl st
        exact ((hr.mono (by omega)).of_length_le (by omega)).congr_bad
          (hcomma r st)
      · have hG : ∀ n, loop blank close entry (n + 1) p st =
            (entry n q st).andThen (loop blank close entry n) :=
          fun n => by simp [hsucc, hc, hcm]
        by_cases hqnil : q = []
        · -- only blanks were left: one more turn sees the end of the text
          subst hqnil
          refine Behaves.succ (G := fun n => loop blank close entry n [] st) ?_
            rfl (fun n => by simp [hG, hentryNil])
          have hr := ih 0 hpos [] rfl st
          exact (hr.mono hpos).of_length_le (Nat.zero_le _)
        · refine Behaves.succ
            (G := fun n => (entry n q st).andThen (loop blank close entry n))
            ?_ rfl hG
          cases hentry q st hqnil hidem hc hcm with
          | malformed hF hb =>
              refine .malformed ⟨fun n => ?_, fun n hn => ?_⟩ hb
              · rcases hF.1 n with h | h <;> simp [h]
              · simp [hF.2 n (le_trans hdrop hn)]
          | diverges hF hb => exact .diverges (fun n => by simp [hF n]) hb
          | stalls hF hb =>
              have hd := loop_diverges_of_stall hqnil hidem hc hcm hF
              exact .diverges (fun n => by simpa [hF n] using hd n) hb
          | ok rest st' hF hlen hb =>
              have hr := ih rest.length (by omega) rest rfl st'
              have hthen := Behaves.andThen (hF.mono hdrop)
                (hr.mono (N := p.length) (by omega))
              exact (hthen.of_length_le (by omega)).congr_bad hb

end Loop

end Scan
