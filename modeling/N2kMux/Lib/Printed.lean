import N2kMux.Lib.Scan

/-!
# Reading printed members

Members printed between a bracket and the closing one, with commas between them
and blanks around them, are what `Scan.loop` reads.  `loop_body` says what the
loop delivers from what one entry does to a printed member: the members are put
one after the other, and the loop stops right behind the closing character.

Fuel is left open here: `Gives` speaks of all amounts that suffice.
-/

namespace Scan

variable {β σ τ : Type}

/-- A text of blanks. -/
def Blanks (blank : Char → Bool) (w : Text) : Prop := ∀ c ∈ w, blank c = true

/-- Members with commas between them and blanks around each. -/
inductive Members (blank : Char → Bool) (R : β → Text → Prop) :
    List β → Text → Prop
  | last {x : β} {w t w' : Text} (hw : Blanks blank w) (hx : R x t)
      (hw' : Blanks blank w') : Members blank R [x] (w ++ (t ++ w'))
  | cons {x : β} {xs : List β} {w t w' s : Text} (hw : Blanks blank w)
      (hx : R x t) (hw' : Blanks blank w') (hxs : Members blank R xs s) :
      Members blank R (x :: xs) (w ++ (t ++ (w' ++ ',' :: s)))

/-- What stands between the brackets. -/
inductive Body (blank : Char → Bool) (R : β → Text → Prop) : List β → Text → Prop
  | empty {w : Text} (hw : Blanks blank w) : Body blank R [] w
  | members {l : List β} {t : Text} (h : Members blank R l t) : Body blank R l t

/-- With enough fuel, `F` reads up to `rest`. -/
def Gives (F : Nat → Outcome σ) (rest : Text) (st : σ) : Prop :=
  ∃ N, ∀ n, N ≤ n → F n = .ok rest st

/-- `after` goes on, behind blanks, with a comma or the closing character. -/
def Stops (blank : Char → Bool) (close : Char) (after : Text) : Prop :=
  ∃ d r, after.dropWhile blank = d :: r ∧ (d = ',' ∨ d = close)

/-- A property of texts that blanks and commas have, and that passes to texts put
together, passes from the members to the whole. -/
theorem Body.text {blank : Char → Bool} {R : β → Text → Prop} {P : Text → Prop}
    {l : List β} {t : Text} (h : Body blank R l t)
    (hblanks : ∀ w, Blanks blank w → P w) (hcomma : P [','])
    (happend : ∀ s t, P s → P t → P (s ++ t)) (hR : ∀ x ∈ l, ∀ t, R x t → P t) :
    P t := by
  cases h with
  | empty hw => exact hblanks _ hw
  | members h =>
      induction h with
      | last hw hx hw' =>
          exact happend _ _ (hblanks _ hw)
            (happend _ _ (hR _ (by simp) _ hx) (hblanks _ hw'))
      | @cons x xs w t w' s hw hx hw' _ ih =>
          have hs := ih fun y hy => hR y (by simp [hy])
          have hcs : P (',' :: s) := happend [','] s hcomma hs
          exact happend _ _ (hblanks _ hw)
            (happend _ _ (hR _ (by simp) _ hx) (happend _ _ (hblanks _ hw') hcs))

theorem Blanks.dropWhile_append {blank : Char → Bool} {w : Text}
    (h : Blanks blank w) (s : Text) :
    (w ++ s).dropWhile blank = s.dropWhile blank :=
  List.dropWhile_append_of_pos h

/-! ### Readings -/

theorem Gives.const (rest : Text) (st : σ) :
    Gives (fun _ => .ok rest st) rest st :=
  ⟨0, fun _ _ => rfl⟩

theorem Gives.of_eq {F : Nat → Outcome σ} {rest : Text} {st : σ}
    (h : ∀ n, F n = .ok rest st) : Gives F rest st :=
  ⟨0, fun n _ => h n⟩

/-- A reading and the one behind it. -/
theorem Gives.andThen {F : Nat → Outcome σ} {G : Nat → Text → σ → Outcome τ}
    {rest rest' : Text} {st : σ} {st' : τ} (hF : Gives F rest st)
    (hG : Gives (fun n => G n rest st) rest' st') :
    Gives (fun n => (F n).andThen (G n)) rest' st' := by
  obtain ⟨N, hN⟩ := hF
  obtain ⟨M, hM⟩ := hG
  refine ⟨max N M, fun n hn => ?_⟩
  simp only [hN n (by omega), Outcome.andThen_ok]
  exact hM n (by omega)

/-- One turn more than another reading takes. -/
theorem Gives.succ {F G : Nat → Outcome σ} {rest : Text} {st : σ}
    (hG : Gives G rest st) (hsucc : ∀ n, F (n + 1) = G n) :
    Gives F rest st := by
  obtain ⟨N, hN⟩ := hG
  refine ⟨N + 1, fun n hn => ?_⟩
  obtain ⟨m, rfl⟩ : ∃ m, n = m + 1 := ⟨n - 1, by omega⟩
  rw [hsucc]
  exact hN m (by omega)

section Loop

variable {blank : Char → Bool} {close : Char}
  {entry : Nat → Text → σ → Outcome σ}

theorem ne_nil_of_dropWhile {p q : Text} {c : Char}
    (h : p.dropWhile blank = c :: q) : p ≠ [] := by
  rintro rfl
  cases h

theorem loop_gives_close {p rest : Text} {st : σ}
    (hp : p.dropWhile blank = close :: rest) :
    Gives (fun n => loop blank close entry n p st) rest st := by
  refine (Gives.const rest st).succ fun n => ?_
  rw [loop_succ (ne_nil_of_dropWhile hp), hp]
  simp

theorem loop_gives_comma {p q rest : Text} {st st' : σ} (hclose : close ≠ ',')
    (hp : p.dropWhile blank = ',' :: q)
    (h : Gives (fun n => loop blank close entry n q st) rest st') :
    Gives (fun n => loop blank close entry n p st) rest st' := by
  refine h.succ fun n => ?_
  rw [loop_succ (ne_nil_of_dropWhile hp), hp]
  simp [hclose.symm]

theorem loop_gives_entry {p q after rest : Text} {c : Char} {st st1 st' : σ}
    (hp : p.dropWhile blank = c :: q) (hc : c ≠ close) (hcomma : c ≠ ',')
    (hentry : Gives (fun n => entry n (c :: q) st) after st1)
    (h : Gives (fun n => loop blank close entry n after st1) rest st') :
    Gives (fun n => loop blank close entry n p st) rest st' := by
  refine (hentry.andThen h).succ fun n => ?_
  rw [loop_succ (ne_nil_of_dropWhile hp), hp]
  simp [hc, hcomma]

variable {R : β → Text → Prop} {put : σ → β → σ}

/--
The loop rule.  An entry may stop before or behind the blanks that follow its
member.
-/
theorem loop_body (hclose : close ≠ ',') (hblankClose : blank close = false)
    (hblankComma : blank ',' = false)
    (hhead : ∀ x t, R x t → ∃ c r, t = c :: r ∧ blank c = false ∧ c ≠ close ∧ c ≠ ',')
    (hentry : ∀ x t, R x t → ∀ after st, Stops blank close after →
      ∃ after', Gives (fun n => entry n (t ++ after) st) after' (put st x) ∧
        after'.dropWhile blank = after.dropWhile blank)
    {l : List β} {t : Text} (hbody : Body blank R l t) (rest : Text) (st : σ) :
    Gives (fun n => loop blank close entry n (t ++ close :: rest) st) rest
      (l.foldl put st) := by
  have hdropClose : ∀ s, (close :: s).dropWhile blank = close :: s := fun s =>
    List.dropWhile_cons_of_neg (by simp [hblankClose])
  have hdropComma : ∀ s, (',' :: s).dropWhile blank = ',' :: s := fun s =>
    List.dropWhile_cons_of_neg (by simp [hblankComma])
  -- One member, with the loop going on behind it.
  have hone : ∀ {x w t w' s rest st st'}, Blanks blank w → R x t → Blanks blank w' →
      Stops blank close s →
      (∀ p, p.dropWhile blank = s.dropWhile blank →
        Gives (fun n => loop blank close entry n p (put st x)) rest st') →
      Gives (fun n => loop blank close entry n (w ++ (t ++ (w' ++ s))) st) rest st' := by
    intro x w t w' s rest st st' hw hx hw' hs hrest
    obtain ⟨c, r, rfl, hblank, hne, hcomma⟩ := hhead x t hx
    have hdrop := hw'.dropWhile_append s
    obtain ⟨d, q, hd, hdor⟩ := hs
    obtain ⟨after', hgives, hafter⟩ :=
      hentry x (c :: r) hx (w' ++ s) st ⟨d, q, hdrop.trans hd, hdor⟩
    refine loop_gives_entry (c := c) ?_ hne hcomma hgives
      (hrest after' (hafter.trans hdrop))
    rw [hw.dropWhile_append]
    exact List.dropWhile_cons_of_neg (by simp [hblank])
  cases hbody with
  | empty hw =>
      exact loop_gives_close ((hw.dropWhile_append _).trans (hdropClose rest))
  | members h =>
      induction h generalizing st with
      | last hw hx hw' =>
          rw [List.append_assoc, List.append_assoc]
          refine hone hw hx hw' ⟨close, rest, hdropClose rest, Or.inr rfl⟩ fun p hp => ?_
          exact loop_gives_close (hp.trans (hdropClose rest))
      | @cons x xs w t w' s hw hx hw' _ ih =>
          have hassoc : w ++ (t ++ (w' ++ ',' :: s)) ++ close :: rest =
              w ++ (t ++ (w' ++ ',' :: (s ++ close :: rest))) := by simp
          rw [hassoc]
          refine hone hw hx hw' ⟨',', _, hdropComma _, Or.inl rfl⟩ fun p hp => ?_
          exact loop_gives_comma hclose (hp.trans (hdropComma _)) (ih (put st x))

end Loop

end Scan
