import N2kMux.Mapper.ShoalSafety
import N2kMux.Nmea0183.Framing

/-!
# The mapper emits framed sentences

Whatever the message, the decision and the memory, each case of the switch calls
constructors of sentences, and what they deliver is whole.
-/

namespace N2kMux
namespace Mapper

open Arbiter (Decision)
open Nmea0183
open Jsonl (Msg)

variable {α : Type} [Field α] [LinearOrder α] [FloorRing α] {lm : Libm α}

/-- Nothing, or what a constructor delivers. -/
def Emits (lm : Libm α) (talker : Text) (r : Option Sentence) : Prop :=
  r = none ∨ ∃ type, Built lm talker type r

variable {talker type : Text} {r : Option Sentence}

theorem Emits.none : Emits lm talker none := Or.inl rfl

theorem emits_of_built (h : Built lm talker type r) : Emits lm talker r :=
  Or.inr ⟨type, h⟩

theorem emits_pair {a b : Option Sentence} (ha : Emits lm talker a)
    (hb : Emits lm talker b) :
    ∀ r ∈ [a, b], Emits lm talker r := by
  intro r hr
  rcases List.mem_pair.mp hr with rfl | rfl
  · exact ha
  · exact hb

theorem emits_singleton {a : Option Sentence} (ha : Emits lm talker a) :
    ∀ r ∈ [a], Emits lm talker r := by
  intro r hr
  rw [List.mem_singleton.mp hr]
  exact ha

theorem emits_ite {c : Prop} [Decidable c]
    {a b : List (Option Sentence) × Mapper α} (ha : ∀ r ∈ a.1, Emits lm talker r)
    (hb : ∀ r ∈ b.1, Emits lm talker r) :
    ∀ r ∈ (if c then a else b).1, Emits lm talker r := by
  split_ifs
  · exact ha
  · exact hb

variable (mp : Mapper α) (m : Msg α) (d : Decision) (now : UInt64)

theorem emits_mapMda (p t : Double α) (isPress : Bool) :
    Emits lm mp.talker.text (mp.mapMda lm now p t isPress).1 := by
  have htalker : (mp.rememberMda p t now).talker = mp.talker := by
    unfold rememberMda
    simp only
    split_ifs <;> rfl
  unfold mapMda
  simp only
  split_ifs
  · exact Emits.none
  · exact Emits.none
  · rw [htalker]
    exact emits_of_built (.mda _ _)

theorem emits_mapLogMax : Emits lm mp.talker.text (mp.mapLogMax lm m d now).1 := by
  unfold mapLogMax
  simp only
  split
  · exact Emits.none
  · split_ifs
    · exact Emits.none
    · exact Emits.none
    · exact emits_of_built (.vlw _ _)

theorem emits_mapDepthMin : Emits lm mp.talker.text (mp.mapDepthMin lm m d now).1 := by
  unfold mapDepthMin
  simp only
  split
  · exact Emits.none
  · split_ifs
    · exact Emits.none
    · exact Emits.none
    · exact emits_of_built (.dpt _ _)

theorem emits_mapTemperature :
    Emits lm mp.talker.text (mp.mapTemperature lm m d now).1 := by
  unfold mapTemperature
  generalize getf m (if m.pgn = 130316 then "Temperature".toList
    else "Actual Temperature".toList) = t
  simp only
  split_ifs
  · exact emits_of_built (.mtw _)
  · exact emits_mapMda mp now _ _ _
  · exact Emits.none

theorem emits_mapWind : Emits lm mp.talker.text (mp.mapWind lm m) := by
  unfold mapWind
  simp only
  split_ifs
  · exact emits_of_built (.mwd _ _ _)
  · exact emits_of_built (.mwd _ _ _)
  · exact emits_of_built (.mwv _ _ rfl _ _ rfl)
  · exact emits_of_built (.mwv _ _ rfl _ _ rfl)

theorem emits_mapAttitude : Emits lm mp.talker.text (mp.mapAttitude lm m) := by
  unfold mapAttitude
  by_cases h : (getf m "Pitch".toList).isNan && (getf m "Roll".toList).isNan
  · left
    unfold nmeaXdrAttitude
    exact if_pos h
  · exact emits_of_built (.xdr _ _ h)

theorem emits_mapGnss : ∀ r ∈ mp.mapGnss lm m now, Emits lm mp.talker.text r := by
  unfold mapGnss
  simp only
  split
  · simp
  · exact emits_pair (emits_of_built (.gga ..)) (emits_of_built (.rmc ..))

theorem emits_mapSystemTime :
    ∀ r ∈ mp.mapSystemTime lm m, Emits lm mp.talker.text r := by
  unfold mapSystemTime
  split
  · exact emits_singleton (emits_of_built (.zda ..))
  · simp

theorem emits_mapDops : ∀ r ∈ mp.mapDops lm m, Emits lm mp.talker.text r := by
  have hmode : isFieldChar
      (if hasWord (gets m "Desired Mode".toList) "Auto".toList then 'A' else 'M') =
        true := by
    split_ifs <;> rfl
  exact emits_singleton (emits_of_built (.gsa _ hmode ..))

theorem emits_mapSats : ∀ r ∈ mp.mapSats lm m, Emits lm mp.talker.text r := by
  unfold mapSats
  simp only
  split_ifs
  · simp
  · intro r hr
    obtain ⟨page, -, rfl⟩ := List.mem_map.mp hr
    exact emits_of_built (.gsv ..)
  · intro r hr
    obtain ⟨page, -, rfl⟩ := List.mem_map.mp hr
    exact emits_of_built (.gsv ..)

theorem emits_mapHeading :
    ∀ r ∈ (mp.mapHeading lm m now).1, Emits lm mp.talker.text r := by
  unfold mapHeading
  simp only
  refine emits_ite (emits_singleton ?_) (emits_pair ?_ ?_)
  · split_ifs <;> exact emits_of_built (.hdt _)
  · split_ifs <;> exact emits_of_built (.hdg ..)
  · split_ifs <;> exact emits_of_built (.hdm _)

theorem emits_mapCogSog :
    ∀ r ∈ (mp.mapCogSog lm m now).1, Emits lm mp.talker.text r := by
  unfold mapCogSog
  simp only
  refine emits_singleton ?_
  split_ifs <;> exact emits_of_built (.vtg ..)

/-- Every case of the switch. -/
theorem emits_convert :
    ∀ r ∈ (mp.convert lm m d now).1, Emits lm mp.talker.text r := by
  unfold convert
  refine emits_ite (emits_singleton (emits_of_built (.gll ..))) ?_
  refine emits_ite (emits_mapCogSog mp m now) ?_
  refine emits_ite (emits_mapSystemTime mp m) ?_
  refine emits_ite (emits_mapGnss mp m now) ?_
  refine emits_ite (emits_mapDops mp m) ?_
  refine emits_ite (emits_mapSats mp m) ?_
  refine emits_ite (emits_mapHeading mp m now) ?_
  refine emits_ite (emits_singleton (emits_of_built (.rot ..))) ?_
  refine emits_ite (emits_singleton (emits_mapAttitude mp m)) ?_
  refine emits_ite (emits_singleton (emits_mapWind mp m)) ?_
  refine emits_ite (emits_singleton (emits_of_built (.vdr ..))) ?_
  refine emits_ite (emits_singleton (emits_of_built (.rsa ..))) ?_
  refine emits_ite (emits_singleton (emits_of_built (.vhw ..))) ?_
  refine emits_ite (emits_singleton (emits_mapLogMax mp m d now)) ?_
  refine emits_ite (emits_singleton (emits_mapTemperature mp m d now)) ?_
  refine emits_ite (emits_singleton (emits_mapMda mp now _ _ _)) ?_
  refine emits_ite (emits_singleton (emits_mapDepthMin mp m d now)) ?_
  simp

/-- What is placed in the output was emitted. -/
theorem mem_foldl_emit {rs : List (Option Sentence)} {s : Sentence} :
    ∀ {o : MapOut}, s ∈ (rs.foldl emit o).items → s ∈ o.items ∨ some s ∈ rs := by
  induction rs with
  | nil =>
      intro o h
      exact Or.inl h
  | cons r rs ih =>
      intro o h
      rw [List.foldl_cons] at h
      rcases ih h with h | h
      · cases r with
        | none => exact Or.inl h
        | some x =>
            rcases Table.mem_pushOrDrop h with h | rfl
            · exact Or.inl h
            · exact Or.inr List.mem_cons_self
      · exact Or.inr (List.mem_cons_of_mem _ h)

/-- The exact conversions format with signs, digits and a point. -/
theorem formatsPlainly_exactLibm : FormatsPlainly exactLibm := by
  have hdecimal : ∀ {n : Nat} {c : Char}, c ∈ CText.decimal n →
      isNumberChar c = true := by
    intro n c hc
    simp [isNumberChar, Char.isAlphanum, CText.isDigit_of_mem_decimal hc]
  intro decimals x c hc
  change c ∈ ExactLibm.fixed decimals x at hc
  unfold ExactLibm.fixed at hc
  generalize (llround ((if x < 0 then -x else x) * 10 ^ decimals)).toNat = u at hc
  simp only [List.mem_append] at hc
  rcases hc with (hc | hc) | hc
  · split_ifs at hc
    · rw [List.mem_singleton.mp hc]
      rfl
    · simp at hc
  · exact hdecimal hc
  · split_ifs at hc
    · simp at hc
    · simp only [List.mem_cons, List.mem_append, List.mem_replicate] at hc
      rcases hc with rfl | ⟨-, rfl⟩ | hc
      · rfl
      · rfl
      · exact hdecimal hc

end Mapper
end N2kMux
