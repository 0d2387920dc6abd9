import N2kMux.Lib.CText

/-!
# Searching a text

`search p` gives the first place of a text from which `p` holds, in the manner
of `strstr` and `strcasestr`.  Whether a word stands at a place depends only on
as many characters as the word has, so what is found in a text is found at the
same place in every longer one.
-/

namespace CText

/-- The first place from which `p` holds: what precedes it, and what is there. -/
def search (p : Text → Bool) : Text → Option (Text × Text)
  | [] => if p [] then some ([], []) else none
  | c :: s =>
      if p (c :: s) then some ([], c :: s)
      else (search p s).map (fun r => (c :: r.1, r.2))

/-- `strstr(s, w)`: what precedes the first `w`, and the text from there. -/
def strstr (s w : Text) : Option (Text × Text) := search (fun t => w.isPrefixOf t) s

/-- `strcasestr(s, w)`: what precedes the first `w`, and the text from there. -/
def strcasestrAt (s w : Text) : Option (Text × Text) := search ( caseprefix w) s

/-- Whether `p` holds of a text is decided by its first `m` characters. -/
structure Word (p : Text → Bool) (m : Nat) : Prop where
  le : ∀ {s : Text}, p s = true → m ≤ s.length
  append : ∀ {s : Text} (t : Text), m ≤ s.length → p (s ++ t) = p s

theorem word_isPrefixOf (w : Text) : Word (fun t => w.isPrefixOf t) w.length where
  le := fun h => (List.isPrefixOf_iff_prefix.mp h).length_le
  append := by
    intro s t hlen
    rw [Bool.eq_iff_iff, List.isPrefixOf_iff_prefix, List.isPrefixOf_iff_prefix]
    constructor
    · exact fun h => List.prefix_of_prefix_length_le h (List.prefix_append s t) hlen
    · exact fun h => h.trans (List.prefix_append s t)

theorem word_caseprefix (w : Text) : Word ( caseprefix w) w.length where
  le := by
    intro s h
    simpa [lower] using (word_isPrefixOf (lower w)).le h
  append := by
    intro s t hlen
    have hlower : lower (s ++ t) = lower s ++ lower t := List.map_append
    rw [ caseprefix, caseprefix, hlower]
    exact (word_isPrefixOf (lower w)).append _ (by simpa [lower] using hlen)

section Search

variable {p : Text → Bool} {m : Nat}
variable {s a b : Text}

theorem search_eq_some
    (h : search p s = some (a, b)) :
    s = a ++ b ∧ p b = true := by
  induction s generalizing a with
  | nil =>
      simp only [search] at h
      split at h
      · next hp =>
          cases h
          exact ⟨rfl, hp⟩
      · cases h
  | cons c s ih =>
      simp only [search] at h
      split at h
      · next hp =>
          cases h
          exact ⟨rfl, hp⟩
      · obtain ⟨⟨a', b'⟩, hrest, heq⟩ := Option.map_eq_some_iff.mp h
        cases heq
        obtain ⟨rfl, hp⟩ := ih hrest
        exact ⟨rfl, hp⟩

/-- What is found stays where it is when the text goes on. -/
theorem search_append (hp : Word p m) (t : Text)
    (h : search p s = some (a, b)) :
    search p (s ++ t) = some (a, b ++ t) := by
  induction s generalizing a with
  | nil =>
      simp only [search] at h
      split at h
      · next hnil =>
          cases h
          have hm : p t = true := by
            rw [← List.nil_append t, hp.append t (hp.le hnil)]
            exact hnil
          cases t with
          | nil => simpa [search] using hm
          | cons d t => simp [search, hm]
      · cases h
  | cons c s ih =>
      have hlen : m ≤ (c :: s).length := by
        obtain ⟨hs, hb⟩ := search_eq_some h
        have := hp.le hb
        rw [hs, List.length_append]
        omega
      have hhere : p (c :: (s ++ t)) = p (c :: s) := hp.append t hlen
      simp only [List.cons_append, search] at h ⊢
      rw [hhere]
      split at h
      · next hc =>
          cases h
          rw [if_pos hc, List.cons_append]
      · next hc =>
          obtain ⟨⟨a', b'⟩, hrest, heq⟩ := Option.map_eq_some_iff.mp h
          cases heq
          rw [if_neg hc, ih hrest]
          rfl

/-- The search passes over a text from none of whose places `p` holds. -/
theorem search_skip {y : Text}
    (h : ∀ x z, y = x ++ z → z ≠ [] → p (z ++ s) = false) :
    search p (y ++ s) = (search p s).map fun r => (y ++ r.1, r.2) := by
  induction y with
  | nil => simp
  | cons c y ih =>
      have hhere : p (c :: (y ++ s)) = false := h [] (c :: y) rfl (List.cons_ne_nil c y)
      rw [List.cons_append, search, hhere, ih fun x z hy hz => h (c :: x) z (by rw [hy]; rfl) hz,
        Option.map_map]
      rfl

/-- It stops where `p` holds. -/
theorem search_stop
    (h : p s = true) :
    search p s = some ([], s) := by
  cases s with
  | nil => rw [search, if_pos h]
  | cons c s => rw [search, if_pos h]

/-- A word is not found among characters other than its first one. -/
theorem strstr_skip {c : Char} {w y : Text}
    (h : c ∉ y) (s : Text) :
    strstr (y ++ s) (c :: w) = (strstr s (c :: w)).map fun r => (y ++ r.1, r.2) := by
  refine search_skip fun x z hy hz => ?_
  cases z with
  | nil => exact absurd rfl hz
  | cons d z =>
      have hne : c ≠ d := fun heq => h (by rw [hy, heq]; simp)
      simp [List.isPrefixOf, hne]

end Search

end CText
