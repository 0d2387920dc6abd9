import N2kMux.Jsonl.Parser

/-!
# How far the readers move

Every loop-free reader of the line returns a position behind the one it was
given: strictly behind it, except for `skipValue` on a closing bracket, a comma
or the end of the text.
-/

namespace N2kMux
namespace Jsonl

variable {α : Type}

theorem skipWs_length_le (p : Text) :
    (skipWs p).length ≤ p.length :=
  List.length_dropWhile_le isWs p

@[simp] theorem skipWs_nil : skipWs [] = [] := rfl

theorem skipWs_skipWs (p : Text) :
    skipWs (skipWs p) = skipWs p :=
  List.dropWhile_idempotent isWs p

theorem skipWs_cons_of_not_ws {c : Char} {p : Text}
    (h : isWs c = false) :
    skipWs (c :: p) = c :: p :=
  List.dropWhile_cons_of_neg (by simp [h])

/-- What `skipWs` stops on is not blank. -/
theorem isWs_head_skipWs {p q : Text} {c : Char}
    (h : skipWs p = c :: q) :
    isWs c = false := by
  have := List.head?_dropWhile_not isWs p
  unfold skipWs at h
  simpa [h] using this

theorem parseStringLoop_length {n : Nat} :
    ∀ (p : Text) (hex : Nat) (dst : CBuf n) {r : Text} {s : CBuf n},
      parseStringLoop p hex dst = some (r, s) →
      r.length < p.length := by
  intro p hex dst
  induction hk : p.length using Nat.strong_induction_on
    generalizing p hex dst with
  | _ k ih =>
  subst hk
  intro r s h
  match p, hex with
  | [], _ => simp [parseStringLoop] at h
  | c :: p, hex + 1 =>
      have := ih p.length (by simp) p hex dst rfl h
      simp only [List.length_cons]
      omega
  | c :: p, 0 =>
      unfold parseStringLoop at h
      split_ifs at h with hq hb
      · obtain ⟨rfl, rfl⟩ := Prod.mk.inj (Option.some.inj h)
        simp
      · cases p with
        | nil => simp at h
        | cons e q =>
            simp only at h
            split_ifs at h with hu
            all_goals
              have := ih q.length (by simp) q _ _ rfl h
              simp only [List.length_cons]
              omega
      · have := ih p.length (by simp) p 0 _ rfl h
        simp only [List.length_cons]
        omega

theorem parseString_length {p r : Text} {n : Nat} {s : CBuf n}
    (h : parseString p n = some (r, s)) :
    r.length < p.length := by
  cases p with
  | nil => simp [parseString] at h
  | cons c q =>
      simp only [parseString] at h
      split_ifs at h
      have := parseStringLoop_length q 0 _ h
      simp only [List.length_cons]
      omega

theorem parseKey_length {p r : Text} {n : Nat} {k : CBuf n}
    (h : parseKey p n = some (r, k)) :
    r.length < p.length := by
  unfold parseKey at h
  obtain ⟨⟨q, k'⟩, hs, hm⟩ := Option.bind_eq_some_iff.mp h
  obtain ⟨q', hc, hq'⟩ := Option.map_eq_some_iff.mp hm
  obtain ⟨rfl, rfl⟩ := Prod.mk.inj hq'
  have hlen := parseString_length hs
  unfold skipColon at hc
  split at hc
  · rename_i q'' hws
    have hw := skipWs_length_le q
    rw [hws] at hw
    simp only [List.length_cons] at hw
    obtain rfl := Option.some.inj hc
    omega
  · simp at hc

theorem skipString_length :
    ∀ (p : Text) {r : Text},
      skipString p = some r → r.length < p.length := by
  intro p
  induction hk : p.length using Nat.strong_induction_on generalizing p with
  | _ k ih =>
  subst hk
  intro r h
  cases p with
  | nil => simp [skipString] at h
  | cons c p =>
      unfold skipString at h
      split_ifs at h with hq hb
      · obtain rfl := Option.some.inj h
        simp
      · cases p with
        | nil => simp at h
        | cons e q =>
            have := ih q.length (by simp) q rfl h
            simp only [List.length_cons]
            omega
      · have := ih p.length (by simp) p rfl h
        simp only [List.length_cons]
        omega

theorem skipNested_length {opn cls : Char} :
    ∀ (p : Text) (depth : Nat) (inStr : Bool) {r : Text},
      skipNested opn cls p depth inStr = some r →
      r.length < p.length := by
  intro p
  induction hk : p.length using Nat.strong_induction_on generalizing p with
  | _ k ih =>
  subst hk
  intro depth inStr r h
  cases p with
  | nil => simp [skipNested] at h
  | cons c p =>
      have hp : ∀ d b, skipNested opn cls p d b = some r →
          r.length < (c :: p).length := by
        intro d b hdb
        have := ih p.length (by simp) p rfl d b hdb
        simp only [List.length_cons]
        omega
      cases inStr with
      | true =>
          unfold skipNested at h
          split_ifs at h with hb
          · cases p with
            | nil => simp at h
            | cons e q =>
                have := ih q.length (by simp) q rfl depth true h
                simp only [List.length_cons]
                omega
          · exact hp _ _ h
      | false =>
          unfold skipNested at h
          split_ifs at h
          · exact hp _ _ h
          · exact hp _ _ h
          · obtain rfl := Option.some.inj h
            simp
          · exact hp _ _ h
          · exact hp _ _ h

/-- A skipped value that starts with anything but a delimiter is not empty. -/
theorem skipValue_length {c : Char} {p r : Text}
    (hws : isWs c = false)
    (hdelim : isDelim c = false)
    (h : skipValue (c :: p) = some r) :
    r.length < (c :: p).length := by
  unfold skipValue at h
  rw [skipWs_cons_of_not_ws hws] at h
  simp only at h
  split_ifs at h
  · have := skipString_length p h
    simp only [List.length_cons]
    omega
  · exact skipNested_length _ _ _ h
  · exact skipNested_length _ _ _ h
  · obtain rfl := Option.some.inj h
    rw [List.dropWhile_cons_of_pos (by simp [hdelim])]
    have := List.length_dropWhile_le (fun d => !isDelim d) p
    simp only [List.length_cons]
    omega

/-- `skipValue` stays where it is on a delimiter. -/
theorem skipValue_delim {c : Char} {p : Text}
    (hdelim : isDelim c = true) :
    skipValue (c :: p) = some (c :: p) := by
  have hc : c = ',' ∨ c = '}' ∨ c = ']' := by
    simpa [isDelim, or_assoc] using hdelim
  rcases hc with rfl | rfl | rfl <;> rfl

/-- Skipping never goes back. -/
theorem skipValue_length_le {p r : Text}
    (h : skipValue p = some r) :
    r.length ≤ p.length := by
  have hws := skipWs_length_le p
  cases hq : skipWs p with
  | nil =>
      have : skipValue p = some [] := by simp [skipValue, hq]
      rw [this] at h
      obtain rfl := Option.some.inj h
      simp
  | cons c q =>
      have hstep : skipValue p = skipValue (c :: q) := by
        unfold skipValue
        rw [hq, skipWs_cons_of_not_ws (isWs_head_skipWs hq)]
      rw [hq] at hws
      rw [hstep] at h
      by_cases hd : isDelim c = true
      · rw [skipValue_delim hd] at h
        obtain rfl := Option.some.inj h
        exact hws
      · have := skipValue_length (isWs_head_skipWs hq) (by simpa using hd) h
        omega

end Jsonl
end N2kMux
