import N2kMux.Lib.Printed

/-!
# Members cut off

The beginning of printed members is some whole members and perhaps one that is
begun.  `loop_cut` says what `Scan.loop` does on it: it puts the whole members
one after the other, and then does what its entry does on the one that is begun.
With nothing behind the last whole member, the loop ends there.
-/

namespace Scan

variable {β σ τ : Type}

/-! ### Prefixes -/

/-- A prefix of two texts ends inside the first or goes on into the second. -/
theorem prefix_append_cases {u a b : Text}
    (h : u <+: a ++ b) :
    (u <+: a ∧ u ≠ a) ∨ ∃ v, v <+: b ∧ u = a ++ v := by
  obtain ⟨r, hr⟩ := h
  rcases List.append_eq_append_iff.mp hr with ⟨s, hs, -⟩ | ⟨v, hv, hb⟩
  · by_cases hnil : s = []
    · refine Or.inr ⟨[], List.nil_prefix, ?_⟩
      simp [hs, hnil]
    · refine Or.inl ⟨⟨s, hs.symm⟩, fun heq => hnil ?_⟩
      simpa [heq] using hs
  · exact Or.inr ⟨v, ⟨r, hb.symm⟩, hv⟩

theorem prefix_singleton_cases {u : Text} {c : Char}
    (h : u <+: [c]) :
    u = [] ∨ u = [c] := by
  rcases List.prefix_cons_iff.mp h with rfl | ⟨v, rfl, hv⟩
  · exact Or.inl rfl
  · exact Or.inr (by rw [List.prefix_nil.mp hv])

theorem Blanks.of_front {blank : Char → Bool} {v w : Text}
    (h : Blanks blank w)
    (hv : v <+: w) :
    Blanks blank v :=
  fun c hc => h c (hv.subset hc)

/-! ### Readings -/

/-- With enough fuel, `F` does `o`. -/
def Settles (F : Nat → Outcome σ) (o : Outcome σ) : Prop := ∃ N, ∀ n, N ≤ n → F n = o

theorem Settles.of_eq {F : Nat → Outcome σ} {o : Outcome σ}
    (h : ∀ n, F n = o) :
    Settles F o :=
  ⟨0, fun n _ => h n⟩

theorem Settles.unique {F : Nat → Outcome σ} {o o' : Outcome σ}
    (h : Settles F o)
    (h' : Settles F o') :
    o = o' := by
  obtain ⟨N, hN⟩ := h
  obtain ⟨M, hM⟩ := h'
  rw [← hN (max N M) (by omega), hM (max N M) (by omega)]

/-- A successful reading and what is done behind it. -/
theorem Settles.andThen {F : Nat → Outcome σ} {G : Nat → Text → σ → Outcome τ}
    {rest : Text} {st : σ} {o : Outcome τ}
    (hF : Settles F (.ok rest st))
    (hG : Settles (fun n => G n rest st) o) :
    Settles (fun n => (F n).andThen (G n)) o := by
  obtain ⟨N, hN⟩ := hF
  obtain ⟨M, hM⟩ := hG
  refine ⟨max N M, fun n hn => ?_⟩
  simp only [hN n (by omega), Outcome.andThen_ok]
  exact hM n (by omega)

theorem Settles.andThen_malformed {F : Nat → Outcome σ}
    {G : Nat → Text → σ → Outcome τ}
    (hF : Settles F .malformed) :
    Settles (fun n => (F n).andThen (G n)) .malformed := by
  obtain ⟨N, hN⟩ := hF
  exact ⟨N, fun n hn => by simp only [hN n hn, Outcome.andThen_malformed]⟩

/-- One turn more than another reading takes. -/
theorem Settles.succ {F G : Nat → Outcome σ} {o : Outcome σ}
    (hG : Settles G o)
    (hsucc : ∀ n, F (n + 1) = G n) :
    Settles F o := by
  obtain ⟨N, hN⟩ := hG
  refine ⟨N + 1, fun n hn => ?_⟩
  obtain ⟨m, rfl⟩ : ∃ m, n = m + 1 := ⟨n - 1, by omega⟩
  rw [hsucc]
  exact hN m (by omega)

/-! ### The beginning of members -/

/-- Whole members, each with its comma, and blanks. -/
inductive Heads (blank : Char → Bool) (R : β → Text → Prop) : List β → Text → Prop
  | nil {w : Text} (hw : Blanks blank w) : Heads blank R [] w
  | cons {x : β} {xs : List β} {w t w' s : Text} (hw : Blanks blank w) (hx : R x t)
      (hw' : Blanks blank w') (hxs : Heads blank R xs s) :
      Heads blank R (x :: xs) (w ++ (t ++ (w' ++ ',' :: s)))

/-- `u` is the beginning of the members `l`: some of them whole, and perhaps one
that is begun, with its text so far. -/
inductive Cut (blank : Char → Bool) (R : β → Text → Prop) (l : List β) :
    Text → List β → Option (β × Text) → Prop
  | between {whole rest : List β} {u : Text} (hl : l = whole ++ rest)
      (h : Heads blank R whole u) : Cut blank R l u whole none
  | behind {whole rest : List β} {x : β} {u t w : Text} (hl : l = whole ++ x :: rest)
      (h : Heads blank R whole u) (hx : R x t) (hw : Blanks blank w) :
      Cut blank R l (u ++ (t ++ w)) (whole ++ [x]) none
  | inside {whole rest : List β} {x : β} {u t v : Text} (hl : l = whole ++ x :: rest)
      (h : Heads blank R whole u) (hx : R x t) (hv : v <+: t) (hne : v ≠ [])
      (hproper : v ≠ t) : Cut blank R l (u ++ v) whole (some (x, v))

section Cut

variable {blank : Char → Bool} {R : β → Text → Prop}

/-- A member in front. -/
theorem Cut.cons {x : β} {w t w' : Text} {l whole : List β} {u : Text}
    {o : Option (β × Text)}
    (hw : Blanks blank w)
    (hx : R x t)
    (hw' : Blanks blank w')
    (h : Cut blank R l u whole o) :
    Cut blank R (x :: l) (w ++ (t ++ (w' ++ ',' :: u))) (x :: whole) o := by
  cases h with
  | between hl h => exact .between (congrArg (List.cons x) hl) (.cons hw hx hw' h)
  | @behind whole rest y u t' w'' hl h hy hw'' =>
      have hcut : Cut blank R (x :: l) (w ++ (t ++ (w' ++ ',' :: u)) ++ (t' ++ w''))
          ((x :: whole) ++ [y]) none :=
        .behind (congrArg (List.cons x) hl) (.cons hw hx hw' h) hy hw''
      simpa using hcut
  | @inside whole rest y u t' v hl h hy hv hne hproper =>
      have hcut : Cut blank R (x :: l) (w ++ (t ++ (w' ++ ',' :: u)) ++ v)
          (x :: whole) (some (y, v)) :=
        .inside (congrArg (List.cons x) hl) (.cons hw hx hw' h) hy hv hne hproper
      simpa using hcut

/-- A prefix of one member and the blanks around it, the last member. -/
theorem cut_last {x : β} {w t w' u : Text} {l : List β}
    (hw : Blanks blank w)
    (hx : R x t)
    (hw' : Blanks blank w')
    (hu : u <+: w ++ (t ++ w')) :
    ∃ whole o, Cut blank R (x :: l) u whole o := by
  rcases prefix_append_cases hu with ⟨hu, -⟩ | ⟨v, hv, rfl⟩
  · exact ⟨[], none, .between rfl (.nil (hw.of_front hu))⟩
  · rcases prefix_append_cases hv with ⟨hv, hproper⟩ | ⟨v', hv', rfl⟩
    · by_cases hne : v = []
      · subst hne
        exact ⟨[], none, .between rfl (.nil (by simpa using hw))⟩
      · exact ⟨[], some (x, v), .inside rfl (.nil hw) hx hv hne hproper⟩
    · exact ⟨_, none, .behind rfl (.nil hw) hx (hw'.of_front hv')⟩

/-- Every prefix of printed members is such a beginning. -/
theorem Body.cut {l : List β} {t u : Text}
    (h : Body blank R l t)
    (hu : u <+: t) :
    ∃ whole o, Cut blank R l u whole o := by
  cases h with
  | empty hw => exact ⟨[], none, .between rfl (.nil (hw.of_front hu))⟩
  | members h =>
      induction h generalizing u with
      | last hw hx hw' => exact cut_last hw hx hw' hu
      | @cons x xs w t w' s hw hx hw' _ ih =>
          have hassoc : w ++ (t ++ (w' ++ ',' :: s)) =
              (w ++ (t ++ w')) ++ ([','] ++ s) := by simp
          rw [hassoc] at hu
          rcases prefix_append_cases hu with ⟨hu, -⟩ | ⟨v, hv, rfl⟩
          · exact cut_last hw hx hw' hu
          · rcases prefix_append_cases hv with ⟨hv, hproper⟩ | ⟨s', hs', rfl⟩
            · obtain rfl := (prefix_singleton_cases hv).resolve_right hproper
              exact cut_last hw hx hw' (by simp)
            · obtain ⟨whole, o, hcut⟩ := ih hs'
              refine ⟨x :: whole, o, ?_⟩
              have hcons := hcut.cons hw hx hw'
              simpa using hcons

/-- The whole members are the first ones. -/
theorem Cut.whole_front {l whole : List β} {u : Text} {o : Option (β × Text)}
    (h : Cut blank R l u whole o) :
    whole <+: l := by
  cases h with
  | between hl h => exact ⟨_, hl.symm⟩
  | behind hl h => exact ⟨_, by rw [hl, List.append_assoc]; rfl⟩
  | inside hl h => exact ⟨_, hl.symm⟩

/-- The member that is begun comes behind the whole ones. -/
theorem Cut.split {l whole : List β} {u v : Text} {x : β}
    (h : Cut blank R l u whole (some (x, v))) :
    ∃ rest, l = whole ++ x :: rest := by
  cases h with
  | inside hl h => exact ⟨_, hl⟩

theorem Cut.mem {l whole : List β} {u v : Text} {x : β}
    (h : Cut blank R l u whole (some (x, v))) :
    x ∈ l := by
  obtain ⟨rest, rfl⟩ := h.split
  simp

/-- It is begun, and not whole. -/
theorem Cut.begun {l whole : List β} {u v : Text} {x : β}
    (h : Cut blank R l u whole (some (x, v))) :
    ∃ t, R x t ∧ v <+: t ∧ v ≠ [] ∧ v ≠ t := by
  cases h with
  | inside hl h hx hv hne hproper => exact ⟨_, hx, hv, hne, hproper⟩

end Cut

/-! ### The loop -/

/-- Behind blanks comes a comma, the closing character, or nothing. -/
def Follows (blank : Char → Bool) (close : Char) (after : Text) : Prop :=
  ∀ d r, after.dropWhile blank = d :: r → d = ',' ∨ d = close

theorem Stops.follows {blank : Char → Bool} {close : Char} {after : Text}
    (h : Stops blank close after) :
    Follows blank close after := by
  obtain ⟨d, r, hd, hor⟩ := h
  intro d' r' hd'
  obtain ⟨rfl, -⟩ := List.cons.inj (hd.symm.trans hd')
  exact hor

theorem Blanks.follows {blank : Char → Bool} {w : Text}
    (h : Blanks blank w)
    (close : Char) :
    Follows blank close w := by
  intro d r hd
  rw [List.dropWhile_eq_nil_iff.mpr h] at hd
  cases hd

/-- The loop whose entries read the members that meet `Ok`, and put each one into
the state. -/
structure Reads (blank : Char → Bool) (close : Char)
    (entry : Nat → Text → σ → Outcome σ) (R : β → Text → Prop) (Ok : β → Prop)
    (put : σ → β → σ) : Prop where
  close_ne : close ≠ ','
  blank_close : blank close = false
  blank_comma : blank ',' = false
  head : ∀ x t, R x t → ∃ c r, t = c :: r ∧ blank c = false ∧ c ≠ close ∧ c ≠ ','
  nil : ∀ n st, entry n [] st = .ok [] st
  member : ∀ x t, R x t → Ok x → ∀ after st, Follows blank close after →
    ∃ after', Gives (fun n => entry n (t ++ after) st) after' (put st x) ∧
      after'.dropWhile blank = after.dropWhile blank

section Loop

variable {blank : Char → Bool} {close : Char}
  {entry : Nat → Text → σ → Outcome σ} {R : β → Text → Prop} {Ok : β → Prop}
  {put : σ → β → σ}

/-- The loop on the printed members. -/
theorem Reads.body (h : Reads blank close entry R Ok put) {l : List β} {t : Text}
    (hbody : Body blank R l t)
    (hok : ∀ x ∈ l, Ok x)
    (rest : Text)
    (st : σ) :
    Gives (fun n => loop blank close entry n (t ++ close :: rest) st) rest
      (l.foldl put st) := by
  have hbody' : Body blank (fun x t => R x t ∧ Ok x) l t := by
    cases hbody with
    | empty hw => exact .empty hw
    | members hm =>
        refine .members ?_
        induction hm with
        | last hw hx hw' => exact .last hw ⟨hx, hok _ (by simp)⟩ hw'
        | cons hw hx hw' _ ih =>
            exact .cons hw ⟨hx, hok _ (by simp)⟩ hw'
              (ih fun y hy => hok y (by simp [hy]))
  exact loop_body h.close_ne h.blank_close h.blank_comma
    (fun x t hx => h.head x t hx.1)
    (fun x t hx after st hafter => h.member x t hx.1 hx.2 after st hafter.follows)
    hbody' rest st

/-- At the end of the text. -/
theorem Reads.loop_blanks (h : Reads blank close entry R Ok put) {w : Text}
    (hw : Blanks blank w)
    (st : σ) :
    Settles (fun n => loop blank close entry n w st) (.ok [] st) := by
  have hnil : Settles (fun n => loop blank close entry n [] st) (.ok [] st) :=
    Settles.succ (Settles.of_eq fun _ => rfl) fun n => loop_nil n st
  by_cases hne : w = []
  · subst hne
    exact hnil
  · refine Settles.succ hnil fun n => ?_
    rw [loop_succ hne, List.dropWhile_eq_nil_iff.mpr hw, List.head?_nil,
      if_neg (by simp), if_neg (by simp), h.nil, Outcome.andThen_ok]

/-- Blanks in front are stepped over. -/
theorem Reads.loop_of_dropWhile (h : Reads blank close entry R Ok put) {p q : Text}
    (hpq : p.dropWhile blank = q.dropWhile blank)
    {st : σ} {o : Outcome σ}
    (ho : Settles (fun n => loop blank close entry n q st) o) :
    Settles (fun n => loop blank close entry n p st) o := by
  have hblanks : ∀ s : Text, s.dropWhile blank = [] → Blanks blank s := fun s hs =>
    List.dropWhile_eq_nil_iff.mp hs
  cases hd : q.dropWhile blank with
  | nil =>
      obtain rfl := ho.unique (h.loop_blanks (hblanks q hd) st)
      exact h.loop_blanks (hblanks p (hpq.trans hd)) st
  | cons c r =>
      obtain ⟨N, hN⟩ := ho
      refine ⟨N, fun n hn => ?_⟩
      rw [← hN n hn]
      cases n with
      | zero => rfl
      | succ n =>
          show loop blank close entry (n + 1) p st = loop blank close entry (n + 1) q st
          rw [loop_succ (ne_nil_of_dropWhile hd),
            loop_succ (ne_nil_of_dropWhile (hpq.trans hd)), hpq]

/-- One whole member, and the loop going on behind it. -/
theorem Reads.loop_member (h : Reads blank close entry R Ok put) {x : β} {t s : Text}
    (hx : R x t)
    (hok : Ok x)
    (hs : Follows blank close s)
    {st : σ} {o : Outcome σ}
    (ho : Settles (fun n => loop blank close entry n s (put st x)) o) :
    Settles (fun n => loop blank close entry n (t ++ s) st) o := by
  obtain ⟨c, r, rfl, hblank, hne, hcomma⟩ := h.head x t hx
  obtain ⟨after', hgives, hafter⟩ := h.member x (c :: r) hx hok s st hs
  have hdrop : ((c :: r) ++ s).dropWhile blank = c :: (r ++ s) :=
    List.dropWhile_cons_of_neg (by simp [hblank])
  refine Settles.succ (Settles.andThen hgives (h.loop_of_dropWhile hafter ho)) fun n => ?_
  rw [loop_succ (ne_nil_of_dropWhile hdrop), hdrop]
  simp [hne, hcomma]

/-- Whole members with their commas, and the loop going on behind them. -/
theorem Reads.loop_heads (h : Reads blank close entry R Ok put) {whole : List β}
    {u : Text}
    (hu : Heads blank R whole u)
    (hok : ∀ x ∈ whole, Ok x)
    {s : Text} {st : σ} {o : Outcome σ}
    (ho : Settles (fun n => loop blank close entry n s (whole.foldl put st)) o) :
    Settles (fun n => loop blank close entry n (u ++ s) st) o := by
  induction hu generalizing st with
  | nil hw => exact h.loop_of_dropWhile (hw.dropWhile_append s) ho
  | @cons x xs w t w' u hw hx hw' _ ih =>
      have hassoc : w ++ (t ++ (w' ++ ',' :: u)) ++ s =
          w ++ (t ++ (w' ++ ',' :: (u ++ s))) := by simp
      have hdrop : (w' ++ ',' :: (u ++ s)).dropWhile blank = ',' :: (u ++ s) := by
        rw [hw'.dropWhile_append]
        exact List.dropWhile_cons_of_neg (by simp [h.blank_comma])
      rw [hassoc]
      refine h.loop_of_dropWhile (hw.dropWhile_append _) ?_
      refine h.loop_member hx (hok x (by simp)) (fun d r hd => ?_) ?_
      · rw [hdrop] at hd
        exact Or.inl (List.cons.inj hd).1.symm
      · refine Settles.succ (ih (fun y hy => hok y (by simp [hy])) ho) fun n => ?_
        rw [loop_succ (ne_nil_of_dropWhile hdrop), hdrop]
        simp [h.close_ne.symm]

/-- The loop on the beginning of members, with none that is begun. -/
theorem Reads.loop_whole (h : Reads blank close entry R Ok put) {l whole : List β}
    {u : Text}
    (hcut : Cut blank R l u whole none)
    (hok : ∀ x ∈ l, Ok x)
    (st : σ) :
    Settles (fun n => loop blank close entry n u st) (.ok [] (whole.foldl put st)) := by
  have hwhole : ∀ x ∈ whole, Ok x := fun x hx => hok x (hcut.whole_front.subset hx)
  cases hcut with
  | between hl hu =>
      have hnil : Blanks blank [] := by simp [Blanks]
      have hend := h.loop_heads hu hwhole (h.loop_blanks hnil (whole.foldl put st))
      simpa using hend
  | behind hl hu hx hw =>
      refine h.loop_heads hu (fun y hy => hwhole y (by simp [hy])) ?_
      rw [List.foldl_append]
      exact h.loop_member hx (hwhole _ (by simp)) (hw.follows close) (h.loop_blanks hw _)

/-- The loop on the beginning of members, with one that is begun: what its entry
does there at the end of the text. -/
theorem Reads.loop_begun (h : Reads blank close entry R Ok put) {l whole : List β}
    {u v : Text} {x : β}
    (hcut : Cut blank R l u whole (some (x, v)))
    (hok : ∀ x ∈ l, Ok x)
    {st : σ} {o : Outcome σ}
    (ho : Settles (fun n => entry n v (whole.foldl put st)) o)
    (hend : o = .malformed ∨ ∃ st', o = .ok [] st') :
    Settles (fun n => loop blank close entry n u st) o := by
  have hwhole : ∀ x ∈ whole, Ok x := fun x hx => hok x (hcut.whole_front.subset hx)
  cases hcut with
  | @inside _ rest _ u t v hl hu hx hv hne hproper =>
      refine h.loop_heads hu hwhole ?_
      obtain ⟨c, r, rfl, hblank, hclose, hcomma⟩ := h.head x t hx
      obtain ⟨v, rfl⟩ : ∃ v', v = c :: v' := by
        rcases List.prefix_cons_iff.mp hv with rfl | ⟨v', rfl, -⟩
        · exact absurd rfl hne
        · exact ⟨v', rfl⟩
      have hdrop : (c :: v).dropWhile blank = c :: v :=
        List.dropWhile_cons_of_neg (by simp [hblank])
      have hturn : ∀ n st, loop blank close entry (n + 1) (c :: v) st =
          (entry n (c :: v) st).andThen (loop blank close entry n) := by
        intro n st
        rw [loop_succ (List.cons_ne_nil c v), hdrop]
        simp [hclose, hcomma]
      refine Settles.succ ?_ fun n => hturn n _
      rcases hend with rfl | ⟨st', rfl⟩
      · exact ho.andThen_malformed
      · have hnil : Blanks blank [] := by simp [Blanks]
        exact ho.andThen (h.loop_blanks hnil st')

end Loop

end Scan
