import N2kMux.Lib.ExactLibm
import N2kMux.Mapper.Combine

/-!
# The least depth and the greatest log

Depth (128267, DPT) and log (128275, VLW) are sound channels of the mapper.  For
the depth this is the safety of shoal waters: the depth displayed is never
greater than the latest depth of a sounder that is still live.
-/

namespace N2kMux
namespace Mapper

open Arbiter (Decision)
open Config (Rule)
open Nmea0183
open Jsonl (Msg)
open Obs

set_option linter.unusedSectionVars false

variable {α : Type} [Field α] [LinearOrder α] [FloorRing α]

/-- Depths: the smallest one, announced with the offset of its message. -/
def depthChannel : Channel α :=
  { pgn := 128267
    field := "Depth".toList
    slots := depthSlots
    better := Double.lt
    ranking := fun x y => x < y
    sentence := fun lm mp m v =>
      nmeaDpt lm mp.talker.text v (getf m "Offset".toList) }

/-- Logs: the greatest one, announced with the trip log of its message. -/
def logChannel : Channel α :=
  { pgn := 128275
    field := "Log".toList
    slots := logSlots
    better := gt
    ranking := fun x y => y < x
    sentence := fun lm mp m v =>
      nmeaVlw lm mp.talker.text (toNm v) (toNm (getf m "Trip Log".toList)) }

/-! ### The two sentences always fit -/

theorem nmeaDpt_isSome (lm : Libm α) (talker : Text) (depth offset : Double α) :
    (nmeaDpt lm talker depth offset).isSome = true := by
  have h1 := Nmea.fixedText_length_le lm depth 1
  have h2 := Nmea.fixedText_length_le lm offset 1
  have htk : (talker.take 2).length ≤ 2 := List.length_take_le 2 talker
  have hmax : maxLen = 100 := rfl
  unfold nmeaDpt
  simp only [Nmea.start_eq_written, Nmea.fieldF_written, Nmea.finish_written]
  rw [if_pos]
  · rfl
  · simp only [List.length_append, List.length_cons, trailer_length,
      show ("DPT".toList).length = 3 from rfl]
    omega

theorem nmeaVlw_isSome (lm : Libm α) (talker : Text) (total trip : Double α) :
    (nmeaVlw lm talker total trip).isSome = true := by
  have h1 := Nmea.fixedText_length_le lm total 1
  have h2 := Nmea.fixedText_length_le lm trip 1
  have htk : (talker.take 2).length ≤ 2 := List.length_take_le 2 talker
  have hmax : maxLen = 100 := rfl
  unfold nmeaVlw
  simp only [Nmea.start_eq_written, Nmea.fieldF_written,
    Nmea.fieldChar_written, Nmea.fieldEmpty_written, Nmea.finish_written]
  rw [if_pos]
  · rfl
  · simp only [List.length_append, List.length_cons, List.length_nil,
      trailer_length, show ("VLW".toList).length = 3 from rfl]
    omega

/-! ### Both channels are sound -/

theorem convert_depth {lm : Libm α} {mp : Mapper α} {m : Msg α} {d : Decision}
    {now : UInt64}
    (h : m.pgn = 128267) :
    mp.convert lm m d now = one (mp.mapDepthMin lm m d now) := by
  unfold convert
  rw [h]
  rfl

theorem convert_log {lm : Libm α} {mp : Mapper α} {m : Msg α} {d : Decision}
    {now : UInt64}
    (h : m.pgn = 128275) :
    mp.convert lm m d now = one (mp.mapLogMax lm m d now) := by
  unfold convert
  rw [h]
  rfl

theorem depthChannel_sound (lm : Libm α) :
    (depthChannel : Channel α).Sound lm := by
  refine Channel.sound_of_shape (mapDepthMin lm) (fun mp _ => mp.rememberDepth)
    Ranking.lt
    (fun x y => by simp [depthChannel]) (fun mp m v => nmeaDpt_isSome _ _ _ _)
    (fun mp m d now h => convert_depth h)
    (fun mp mp' m now hc hpgn => hc.depthSlots_eq hpgn)
    (fun mp m slot x now => rfl) (fun mp m d now => rfl)

theorem logChannel_sound (lm : Libm α) :
    (logChannel : Channel α).Sound lm := by
  refine Channel.sound_of_shape (mapLogMax lm)
    (fun mp m slot total now =>
      mp.rememberLog slot total (getf m "Trip Log".toList) now) Ranking.gt
    (fun x y => by simp [logChannel, gt])
    (fun mp m v => nmeaVlw_isSome _ _ _ _)
    (fun mp m d now h => convert_log h)
    (fun mp mp' m now hc hpgn => hc.logSlots_eq hpgn)
    (fun mp m slot x now => rfl) (fun mp m d now => ?_)
  unfold mapLogMax
  simp only [rememberLog, Function.update_self]
  rfl

/-! ### Runs of a rule -/

/-- The retained messages of that PGN were retained for that rule. -/
def OfRule (pgn : Int) (r : Rule) (events : List (Event α)) : Prop :=
  ∀ e ∈ events, Retained pgn e → ∃ ri, e.dec.rule = some (r, ri)

theorem ruleSize_of_rule {pgn : Int} {r : Rule} {events : List (Event α)}
    (h : OfRule pgn r events) :
    ∀ e ∈ events, Retained pgn e → ruleSize e.dec = r.sources.items.length := by
  intro e he hret
  obtain ⟨ri, hri⟩ := h e he hret
  simp [ruleSize, hri]

/-- What the run of a channel announces: a message is announced when its source
is the first one in rule order that holds the best of the values that count. -/
theorem Channel.Sound.announces {lm : Libm α} {c : Channel α}
    (hc : c.Sound lm) {mp : Mapper α} {r : Rule} {events : List (Event α)}
    {e : Event α}
    (hfresh : (c.slots mp).seen = fun _ => false)
    (hmono : Monotone events) (hnow : ∀ x ∈ events, x.now ≤ e.now)
    (hrule : OfRule c.pgn r [e]) :
    (∀ o, reported c.pgn c.field e = some o →
      (((mp.runFrom lm events).step lm e).1.items ≠ [] ↔
        IsFirstBest c.ranking
          (current (reports c.pgn c.field (events ++ [e])) e.now
            mp.timeoutMs.toNat)
          r.sources.items.length o.key o.val) ∧
      (((mp.runFrom lm events).step lm e).1.items ≠ [] →
        ((mp.runFrom lm events).step lm e).1.items =
          (c.sentence lm (mp.runFrom lm events) e.msg (.val o.val)).toList)) ∧
    (reported c.pgn c.field e = none → Retained c.pgn e →
      ((mp.runFrom lm events).step lm e).1.items = []) := by
  refine ⟨fun o hrep => ?_, fun hrep hret => (hc.silent _ e hrep).2 hret⟩
  have hret := (reported_eq_some_iff.mp hrep).1
  obtain ⟨hitems, hiff⟩ := hc.announced_iff hfresh hmono hnow hrep
  rw [ruleSize_of_rule hrule e (by simp) hret] at hiff
  refine ⟨hiff, fun hne => ?_⟩
  rw [hitems] at hne ⊢
  split_ifs at hne ⊢
  · rfl
  · exact absurd rfl hne

/--
Shoal safety of the merged depth, and its mirror for the log.  A depth message
is announced exactly when its source is the first in rule order that holds the
least of the live depths, with that depth and its own offset; and the depth
announced last is at most every live depth, at any later time.
-/
theorem shoal_safety (lm : Libm α) (mp : Mapper α) (r r' : Rule)
    (events : List (Event α))
    (hdepth : mp.depthSeen = fun _ => false)
    (hlog : mp.logSeen = fun _ => false)
    (hmono : Monotone events)
    (hrule : OfRule 128267 r events) (hrule' : OfRule 128275 r' events) :
    let T := mp.timeoutMs.toNat
    let depths := reports (α := α) 128267 "Depth".toList
    let logs := reports (α := α) 128275 "Log".toList
    (∀ e : Event α, (∀ x ∈ events, x.now ≤ e.now) → OfRule 128267 r [e] →
      (∀ o, reported 128267 "Depth".toList e = some o →
        (((mp.runFrom lm events).step lm e).1.items ≠ [] ↔
          IsFirstBest (fun x y => x < y) (current (depths (events ++ [e])) e.now T)
            r.sources.items.length o.key o.val) ∧
        (((mp.runFrom lm events).step lm e).1.items ≠ [] →
          ((mp.runFrom lm events).step lm e).1.items =
            (nmeaDpt lm mp.talker.text (.val o.val)
              (getf e.msg "Offset".toList)).toList)) ∧
      (reported 128267 "Depth".toList e = none → Retained 128267 e →
        ((mp.runFrom lm events).step lm e).1.items = [])) ∧
    (∀ now, (∀ x ∈ events, x.now ≤ now) →
      ∀ i v, current (depths events) now T i = some v →
        ∃ b, depthChannel.lastShown lm mp events = some b ∧ b ≤ v) ∧
    (∀ e : Event α, (∀ x ∈ events, x.now ≤ e.now) → OfRule 128275 r' [e] →
      (∀ o, reported 128275 "Log".toList e = some o →
        (((mp.runFrom lm events).step lm e).1.items ≠ [] ↔
          IsFirstBest (fun x y => y < x) (current (logs (events ++ [e])) e.now T)
            r'.sources.items.length o.key o.val) ∧
        (((mp.runFrom lm events).step lm e).1.items ≠ [] →
          ((mp.runFrom lm events).step lm e).1.items =
            (nmeaVlw lm mp.talker.text (toNm (.val o.val))
              (toNm (getf e.msg "Trip Log".toList))).toList)) ∧
      (reported 128275 "Log".toList e = none → Retained 128275 e →
        ((mp.runFrom lm events).step lm e).1.items = [])) ∧
    (∀ now, (∀ x ∈ events, x.now ≤ now) →
      ∀ i v, current (logs events) now T i = some v →
        ∃ b, logChannel.lastShown lm mp events = some b ∧ v ≤ b) := by
  intro T depths logs
  have htalker := (runFrom_frame lm mp events).2
  refine ⟨fun e hnow hr => ?_, fun now hnow i v hv => ?_,
    fun e hnow hr => ?_, fun now hnow i v hv => ?_⟩
  · rw [← htalker]
    exact (depthChannel_sound lm).announces hdepth hmono hnow hr
  · obtain ⟨b, hb, hvb⟩ := (depthChannel_sound lm).covers hdepth hmono hnow
      (ruleSize_of_rule hrule) now UInt64.le_rfl i v hv
    exact ⟨b, hb, not_lt.mp hvb⟩
  · rw [← htalker]
    exact (logChannel_sound lm).announces hlog hmono hnow hr
  · obtain ⟨b, hb, hvb⟩ := (logChannel_sound lm).covers hlog hmono hnow
      (ruleSize_of_rule hrule') now UInt64.le_rfl i v hv
    exact ⟨b, hb, not_lt.mp hvb⟩

/-- A message with one number. -/
def messageWith (pgn src : Int) (field : Text) (x : ℚ) : Msg ℚ :=
  { Msg.init with
    hasPgn := true, hasSrc := true, pgn := pgn, src := src
    fields :=
      ⟨[{ key := .ofText _ field, type := .num, num := .val x, str := .empty }],
        by simp [Jsonl.maxFields]⟩ }

theorem sounders_fit :
    [CBuf.ofText Config.nameLen "A".toList, CBuf.ofText _ "B".toList].length ≤
      Config.maxPrio := by
  decide

/-- The rule of two sounders. -/
def sounders : Rule :=
  { pgn := 128267, discriminant := .empty, mode := .min
    sources := ⟨[.ofText _ "A".toList, .ofText _ "B".toList], sounders_fit⟩ }

/-- A retained depth of one of the two sounders. -/
def depthOf (source : Text) (x : ℚ) (now : UInt64) : Event ℚ :=
  { msg := messageWith 128267 1 "Depth".toList x
    dec := { Decision.only .accept with
      rule := some (sounders, 0), mode := .min
      sourceName := some (.ofText _ source) }
    now := now }

/-- The deeper sounder does not change what is displayed, which stays below what
it reports. -/
theorem shoal_safety_two_sounders :
    ∃ b, depthChannel.lastShown exactLibm (Mapper.init "II".toList)
        [depthOf "A".toList 3 0, depthOf "B".toList 5 10] = some b ∧ b ≤ 5 := by
  have hrule : OfRule 128267 sounders
      [depthOf "A".toList 3 0, depthOf "B".toList 5 10] := by
    intro e he _
    rcases List.mem_pair.mp he with rfl | rfl <;> exact ⟨0, rfl⟩
  have hrule' : OfRule 128275 sounders
      [depthOf "A".toList 3 0, depthOf "B".toList 5 10] := by
    intro e he hret
    rcases List.mem_pair.mp he with rfl | rfl <;> exact absurd hret.2 (by decide)
  refine (shoal_safety exactLibm (Mapper.init "II".toList) sounders sounders
    [depthOf "A".toList 3 0, depthOf "B".toList 5 10] rfl rfl
    (by unfold Monotone; decide) hrule hrule').2.1 20 (by decide) 1 5 ?_
  decide +kernel

end Mapper
end N2kMux
