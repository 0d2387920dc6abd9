import N2kMux.Jsonl.Fields

/-!
# JSON texts, whole and cut off

`Json.Spelled j t` says that `t` is a text of the value `j`, with any blanks and any
of the escapes of JSON.  `skip_value` passes over such a text; of one that is cut
off, it takes a scalar for whole and refuses everything else.
-/

namespace N2kMux
namespace Jsonl

open Scan (Blanks Members Body)

/-- `t` spells a JSON value. -/
inductive Json.Spelled : Json → Text → Prop
  | null : Spelled .null "null".toList
  | bool (b : Bool) : Spelled (.bool b) (boolText b)
  | num (n : Number) : Spelled (.num n) n.text
  | str {s t : Text} (h : Literal s t) : Spelled (.str s) t
  | arr {l : List Json} {t : Text} (h : Body isWs Spelled l t) :
      Spelled (.arr l) (bracketed t)
  | obj {l : List (Text × Json)} {t : Text} (h : Body isWs (Entry Spelled) l t) :
      Spelled (.obj l) (braced t)

/-- The text of a number, a boolean or `null`. -/
def Json.scalarText : Json → Option Text
  | .null => some "null".toList
  | .bool b => some (boolText b)
  | .num n => some n.text
  | _ => none

theorem Json.scalar_of_scalarText {j : Json} {t : Text}
    (h : j.scalarText = some t) :
    Scalar t := by
  cases j with
  | null =>
      obtain rfl := Option.some.inj h
      exact scalar_null
  | bool b =>
      obtain rfl := Option.some.inj h
      exact scalar_boolText b
  | num n =>
      obtain rfl := Option.some.inj h
      exact scalar_number n
  | str s => cases h
  | arr l => cases h
  | obj l => cases h

/-- Values are scalars, literals, arrays and objects. -/
theorem Json.Spelled.induct {P : Json → Text → Prop}
    (hscalar : ∀ j t, j.scalarText = some t → P j t)
    (hstr : ∀ s t, Literal s t → P (.str s) t)
    (harr : ∀ l t, Body isWs P l t → P (.arr l) (bracketed t))
    (hobj : ∀ l t, Body isWs (Entry P) l t → P (.obj l) (braced t))
    {j : Json} {t : Text}
    (h : j.Spelled t) :
    P j t := by
  refine @Json.Spelled.rec (fun j t _ => P j t)
    (fun l t _ => Body isWs P l t)
    (fun l t _ => Body isWs (Entry P) l t)
    (fun l t _ => Members isWs P l t)
    (fun l t _ => Members isWs (Entry P) l t)
    (fun m t _ => Entry P m t)
    (hscalar _ _ rfl) (fun b => hscalar _ _ rfl)
    (fun n => hscalar _ _ rfl) (fun h => hstr _ _ h)
    (fun _ ih => harr _ _ ih) (fun _ ih => hobj _ _ ih)
    (fun hw => .empty hw) (fun _ ih => .members ih)
    (fun hw => .empty hw) (fun _ ih => .members ih)
    (fun hw _ hw' ih => .last hw ih hw') (fun hw _ hw' _ ih ih' => .cons hw ih hw' ih')
    (fun hw _ hw' ih => .last hw ih hw') (fun hw _ hw' _ ih ih' => .cons hw ih hw' ih')
    (fun hk hw hw' _ ih => .mk hk hw hw' ih) j t h

/-! ### Brackets that stay open -/

/-- The bracket loop passes over the text, and at no place inside it is a bracket
closed that was open before. -/
def Sealed (t : Text) : Prop :=
  Transparent t ∧ ∀ v, v <+: t → ∀ opn cls, Brackets opn cls → ∀ d,
    skipNested opn cls v (d + 1) false = none

theorem sealed_append {s t : Text}
    (hs : Sealed s)
    (ht : Sealed t) :
    Sealed (s ++ t) := by
  refine ⟨transparent_append hs.1 ht.1, fun v hv opn cls hb d => ?_⟩
  rcases Scan.prefix_append_cases hv with ⟨hv, -⟩ | ⟨v', hv', rfl⟩
  · exact hs.2 v hv opn cls hb d
  · rw [hs.1 opn cls hb]
    exact ht.2 v' hv' opn cls hb d

theorem sealed_plain {t : Text}
    (h : ∀ c ∈ t, isStructural c = false) :
    Sealed t := by
  refine ⟨transparent_plain h, fun v hv opn cls hb d => ?_⟩
  have hplain := transparent_plain (fun c hc => h c (hv.subset hc)) opn cls hb d []
  rwa [List.append_nil, skipNested] at hplain

theorem sealed_literal {s t : Text}
    (h : Literal s t) :
    Sealed t := by
  refine ⟨transparent_literal h, fun v hv opn cls hb d => ?_⟩
  by_cases hwhole : v = t
  · have htext := transparent_literal h opn cls hb d []
    rwa [List.append_nil, ← hwhole, skipNested] at htext
  · rcases h.cut_cases hv hwhole with rfl | ⟨u, v', hu, hv', rfl⟩
    · rw [skipNested]
    · rw [skipNested, if_pos rfl]
      exact skipNested_cut hu hv' _

theorem sealed_brackets {o c : Char}
    (hoc : Brackets o c)
    {t : Text}
    (h : Sealed t) :
    Sealed (o :: (t ++ [c])) := by
  refine ⟨transparent_brackets hoc h.1, fun v hv opn cls hb d => ?_⟩
  have hopen : ∀ v', v' <+: t → skipNested opn cls (o :: v') (d + 1) false = none := by
    intro v' hv'
    have hin := h.2 v' hv' opn cls hb
    cases hoc <;> cases hb <;> simp [skipNested, hin]
  rcases prefix_cons_cases hv with rfl | ⟨v', hv', rfl⟩
  · rw [skipNested]
  · rcases List.prefix_concat_iff.mp hv' with rfl | hv'
    · have hall := transparent_brackets hoc h.1 opn cls hb d []
      rwa [List.append_nil, skipNested] at hall
    · exact hopen v' hv'

theorem sealed_blanks {w : Text}
    (h : Blanks isWs w) :
    Sealed w :=
  sealed_plain fun c hc => isStructural_of_isWs (h c hc)

theorem sealed_char {c : Char}
    (h : isStructural c = false) :
    Sealed [c] :=
  sealed_plain fun x hx => by rwa [List.mem_singleton.mp hx]

theorem sealed_body {β : Type} {R : β → Text → Prop} {l : List β} {t : Text}
    (h : Body isWs R l t)
    (hR : ∀ x ∈ l, ∀ t, R x t → Sealed t) :
    Sealed t :=
  h.text (fun _ hw => sealed_blanks hw) (sealed_char rfl)
    (fun _ _ => sealed_append) hR

theorem Entry.sealed {β : Type} {R : β → Text → Prop} {m : Text × β} {t : Text}
    (h : Entry R m t)
    (hR : ∀ s, R m.2 s → Sealed s) :
    Sealed t := by
  cases h with
  | mk hk hw hw' hx =>
      refine sealed_append (sealed_literal hk) (sealed_append (sealed_blanks hw) ?_)
      exact sealed_append (s := [':']) (sealed_char rfl)
        (sealed_append (sealed_blanks hw') (hR _ hx))

/-! ### Whole values -/

/-- What `skip_value` does on a text that is there to its end, and on its
beginnings. -/
structure Skipped (j : Json) (t : Text) : Prop where
  sealed : Sealed t
  passed : Passed t
  cut : ∀ v, v <+: t → v ≠ t → v ≠ [] → j.scalarText = none → skipValue v = none

theorem skipped_brackets {o c : Char}
    (hoc : Brackets o c)
    {j : Json}
    {t : Text}
    (h : Sealed t) :
    Skipped j (o :: (t ++ [c])) := by
  refine ⟨sealed_brackets hoc h, passed_brackets hoc h.1, fun v hv hproper hne _ => ?_⟩
  rcases prefix_cons_cases hv with rfl | ⟨v', hv', rfl⟩
  · exact absurd rfl hne
  · have hin : v' <+: t := (List.prefix_concat_iff.mp hv').resolve_left
      fun heq => hproper (congrArg (List.cons _) heq)
    have hnone := h.2 v' hin o c hoc 0
    rw [skipValue]
    cases hoc
    · rw [skipWs_cons_of_not_ws (by decide)]
      simpa [skipNested] using hnone
    · rw [skipWs_cons_of_not_ws (by decide)]
      simpa [skipNested] using hnone

theorem Json.Spelled.skipped {j : Json} {t : Text}
    (h : j.Spelled t) :
    Skipped j t := by
  refine h.induct ?_ ?_ ?_ ?_
  · intro j t hj
    have ht := Json.scalar_of_scalarText hj
    refine ⟨sealed_plain fun c hc => (ht.2 c hc).2, passed_scalar ht, ?_⟩
    intro v _ _ _ hnone
    rw [hj] at hnone
    cases hnone
  · intro s t ht
    refine ⟨sealed_literal ht, passed_literal ht, fun v hv hproper hne _ => ?_⟩
    rcases ht.cut_cases hv hproper with rfl | ⟨u, v', hu, hv', rfl⟩
    · exact absurd rfl hne
    · rw [skipValue, skipWs_cons_of_not_ws (by decide)]
      exact skipString_cut hu hv'
  · intro l t hbody
    exact skipped_brackets .array (sealed_body hbody fun _ _ _ h => h.sealed)
  · intro l t hbody
    exact skipped_brackets .object
      (sealed_body hbody fun _ _ _ h => h.sealed fun _ h => h.sealed)

/-! ### The first character -/

theorem Literal.starts {s t : Text}
    (h : Literal s t) :
    Starts t := by
  obtain ⟨u, -, rfl⟩ := h
  exact ⟨'"', _, rfl, rfl, rfl⟩

theorem Json.Spelled.starts {j : Json} {t : Text}
    (h : j.Spelled t) :
    Starts t :=
  h.induct (P := fun _ t => Starts t)
    (fun _ _ hj => (Json.scalar_of_scalarText hj).starts) (fun _ _ ht => ht.starts)
    (fun _ _ _ => ⟨'[', _, rfl, rfl, rfl⟩) (fun _ _ _ => ⟨'\x7b', _, rfl, rfl, rfl⟩)

theorem Json.Spelled.ne_nil {j : Json} {t : Text}
    (h : j.Spelled t) :
    t ≠ [] := by
  obtain ⟨c, r, rfl, -⟩ := h.starts
  exact List.cons_ne_nil c r

/-- The text of a scalar is the one of the value. -/
theorem Json.Spelled.eq_scalarText {j : Json} {t u : Text}
    (h : j.Spelled t)
    (hu : j.scalarText = some u) :
    t = u := by
  cases h with
  | null => exact Option.some.inj hu
  | bool b => exact Option.some.inj hu
  | num n => exact Option.some.inj hu
  | str h => cases hu
  | arr h => cases hu
  | obj h => cases hu

end Jsonl
end N2kMux
