import N2kMux.Lib.Memo
import N2kMux.Mapper.ShoalSafety

/-!
# What RMC and MDA borrow from other messages

The RMC sentence of a 129029 takes its speed, its course and its variation from
messages seen before, the MDA sentence its pressure and its temperature.  Each is
the memory of one kind of report: every call of `mapper_map` updates it with what
its message reports, and with nothing else.
-/

namespace N2kMux
namespace Mapper

open Arbiter (Decision)
open Nmea0183
open Jsonl (Msg)

variable {α : Type}

/-- The speed and the true course that RMC borrows. -/
def sogMemo (mp : Mapper α) : Memo (Double α × Double α) :=
  ⟨mp.rmcSogSeen, (mp.rmcSogKn, mp.rmcCogTrue), mp.rmcSogT⟩

/-- The variation that RMC borrows. -/
def varMemo (mp : Mapper α) : Memo (Double α) :=
  ⟨mp.rmcVarSeen, mp.rmcVariation, mp.rmcVarT⟩

/-- The pressure of MDA. -/
def pressMemo (mp : Mapper α) : Memo (Double α) :=
  ⟨mp.mdaPressSeen, mp.mdaPress, mp.mdaPressT⟩

/-- The air temperature of MDA. -/
def airMemo (mp : Mapper α) : Memo (Double α) :=
  ⟨mp.mdaAirSeen, mp.mdaAir, mp.mdaAirT⟩

/-- Nothing was borrowed yet. -/
structure Unborrowed (mp : Mapper α) : Prop where
  sog : mp.rmcSogSeen = false
  var : mp.rmcVarSeen = false
  press : mp.mdaPressSeen = false
  air : mp.mdaAirSeen = false

/-- A number that is present. -/
def present (v : Double α) : Option (Double α) :=
  if v.isNan then none else some v

/-- A value, or a NaN for none. -/
def orNan (v : Option (Double α)) : Double α := v.getD .nan

/-- The number of a field, in a retained message of that PGN. -/
def fieldReport (pgn : Int) (field : Text) (e : Event α) : Option (Double α) :=
  if Retained pgn e then present (getf e.msg field) else none

/-- The variation of a retained 127250 that has one. -/
def varReport (e : Event α) : Option (Double α) :=
  fieldReport 127250 "Variation".toList e

/-- The pressure of a retained 130314 that has one. -/
def pressReport (e : Event α) : Option (Double α) :=
  fieldReport 130314 "Pressure".toList e

/-- A retained temperature of the outside. -/
def Outside (e : Event α) : Prop :=
  (Retained 130312 e ∨ Retained 130316 e) ∧
    hasWord (some e.dec.discriminant.text) "Sea".toList = false ∧
    hasWord (some e.dec.discriminant.text) "Outside".toList = true

instance (e : Event α) : Decidable (Outside e) :=
  inferInstanceAs (Decidable ((_ ∨ _) ∧ _ ∧ _))

/-- The temperature of a message. -/
def temperature (m : Msg α) : Double α :=
  getf m
    (if m.pgn = 130316 then "Temperature".toList
      else "Actual Temperature".toList)

/-- The temperature of an outside-temperature message that has one. -/
def airReport (e : Event α) : Option (Double α) :=
  if Outside e then present (temperature e.msg) else none

theorem freshValue_eq (m : Memo (Double α)) (now limit : UInt64) :
    freshValue m.seen m.val m.time now limit = orNan (m.fresh now limit) := by
  unfold freshValue Memo.fresh orNan
  split_ifs <;> rfl

theorem pressMemo_rememberMda (mp : Mapper α) (press air : Double α)
    (now : UInt64) :
    (mp.rememberMda press air now).pressMemo =
      mp.pressMemo.update (present press) now := by
  cases press <;> cases air <;> rfl

theorem airMemo_rememberMda (mp : Mapper α) (press air : Double α)
    (now : UInt64) :
    (mp.rememberMda press air now).airMemo =
      mp.airMemo.update (present air) now := by
  cases press <;> cases air <;> rfl

/-- What `fieldReport` and `airReport` report is a number. -/
theorem isNan_of_present {v w : Double α} (h : present v = some w) :
    w.isNan = false := by
  cases v with
  | nan => cases h
  | val x =>
      obtain rfl := Option.some.inj h
      rfl

theorem isNan_orNan_recent {events : List (Event α)} {now limit : UInt64}
    {report : Event α → Option (Double α)}
    (hreport : ∀ e w, report e = some w → w.isNan = false) :
    (orNan (Memo.recent report Event.now events now limit)).isNan =
      (Memo.recent report Event.now events now limit).isNone := by
  cases h : Memo.recent report Event.now events now limit with
  | none => rfl
  | some v =>
      obtain ⟨e, -, he⟩ := Memo.reported_of_recent h
      exact hreport e v he

theorem pressReport_isNan (e : Event α) (w : Double α)
    (h : pressReport e = some w) :
    w.isNan = false := by
  unfold pressReport fieldReport at h
  split_ifs at h
  exact isNan_of_present h

theorem airReport_isNan (e : Event α) (w : Double α)
    (h : airReport e = some w) :
    w.isNan = false := by
  unfold airReport at h
  split_ifs at h
  exact isNan_of_present h

variable [Field α] [LinearOrder α] [FloorRing α]

/-- The speed and the true course of a retained 129026 that has one of them. -/
def sogReport (e : Event α) : Option (Double α × Double α) :=
  let kn := toKn (getf e.msg "SOG".toList)
  let cogT := unlessMagnetic (gets e.msg "COG Reference".toList)
    (getf e.msg "COG".toList)
  if Retained 129026 e ∧ (!kn.isNan || !cogT.isNan) then some (kn, cogT) else none

/-- The sentences of a 129029 with the values that RMC borrows. -/
def gnssSentences (lm : Libm α) (talker : Text) (m : Msg α)
    (sog cog var : Double α) : List (Option Sentence) :=
  let quality := ggaQuality (gets m "Method".toList)
  match parseTime lm (gets m "Time".toList) with
  | none => []
  | some (h, mi, se) =>
      let lat := getf m "Latitude".toList
      let lon := getf m "Longitude".toList
      let (y, mo, dd) := (parseDate (gets m "Date".toList)).getD (0, 0, 0)
      [nmeaGga lm talker h mi se lat lon quality
          (geti lm m "Number of SVs".toList 0) (getf m "HDOP".toList)
          (getf m "Altitude".toList) (getf m "Geoidal Separation".toList),
        nmeaRmc lm talker h mi se (quality ≠ 0) lat lon sog cog dd mo y var]

/-! ### One call -/

/-- What `map_mda` emits, from the fresh values. -/
theorem mapMda_fst (lm : Libm α) (mp : Mapper α) (now : UInt64)
    (press air : Double α) (isPress : Bool) :
    (mp.mapMda lm now press air isPress).1 =
      let p := orNan ((mp.pressMemo.update (present press) now).fresh now mdaFreshMs)
      let t := orNan ((mp.airMemo.update (present air) now).fresh now mdaFreshMs)
      if p.isNan && t.isNan then none
      else if !isPress && !p.isNan then none
      else nmeaMda lm mp.talker.text p t := by
  rw [← pressMemo_rememberMda mp press air, ← airMemo_rememberMda mp press air,
    ← freshValue_eq, ← freshValue_eq]
  have htalker := (rememberMda_frame mp press air now).2.2.2
  unfold mapMda
  simp only [apply_ite Prod.fst, htalker]
  rfl

variable {lm : Libm α} {mp : Mapper α} {e : Event α}

/-- A call on a message that is not retained does nothing. -/
theorem step_of_not_accept (h : e.dec.result ≠ .accept) :
    mp.step lm e = (.empty, mp) := by
  unfold step map
  rw [if_pos h]

/-- A call on a retained message. -/
theorem step_of_accept (h : e.dec.result = .accept) :
    (mp.step lm e).2 = (mp.convert lm e.msg e.dec e.now).2 ∧
      (mp.step lm e).1 =
        (mp.convert lm e.msg e.dec e.now).1.foldl emit .empty := by
  unfold step map
  rw [if_neg (by simp [h])]
  exact ⟨rfl, rfl⟩

/-- What only the messages of some PGNs change. -/
theorem step_unchanged {β : Type} {part : Mapper α → β} (pgns : List Int)
    (hpart : ∀ mp', Change mp e.msg e.now mp' → e.msg.pgn ∉ pgns →
      part mp' = part mp)
    (h : ∀ pgn ∈ pgns, ¬ Retained pgn e) :
    part (mp.step lm e).2 = part mp := by
  by_cases hacc : e.dec.result = .accept
  · exact hpart _ (map_change lm mp e.msg e.dec e.now) fun hmem =>
      h _ hmem ⟨hacc, rfl⟩
  · rw [step_of_not_accept hacc]

theorem step_sogMemo (mp : Mapper α) (e : Event α) :
    (mp.step lm e).2.sogMemo = mp.sogMemo.update (sogReport e) e.now := by
  by_cases hret : Retained 129026 e
  · have hconv : (mp.step lm e).2 = (mp.mapCogSog lm e.msg e.now).2 := by
      rw [(step_of_accept hret.1).1]
      simp [convert, hret.2]
    rw [hconv]
    unfold mapCogSog sogReport
    simp only [hret, true_and]
    split_ifs <;> rfl
  · have hnone : sogReport e = none := by simp [sogReport, hret]
    rw [hnone, Memo.update_none]
    refine step_unchanged [129026] (fun mp' h hpgn => ?_) (by simpa using hret)
    cases h with
    | cogSog hp => simp [hp] at hpgn
    | mda _ press air => cases press <;> cases air <;> rfl
    | _ => rfl

theorem step_varMemo (mp : Mapper α) (e : Event α) :
    (mp.step lm e).2.varMemo = mp.varMemo.update (varReport e) e.now := by
  by_cases hret : Retained 127250 e
  · have hconv : (mp.step lm e).2 = (mp.mapHeading lm e.msg e.now).2 := by
      rw [(step_of_accept hret.1).1]
      simp [convert, hret.2]
    rw [hconv]
    unfold mapHeading varReport fieldReport
    rw [if_pos hret]
    generalize getf e.msg "Variation".toList = var
    simp only [apply_ite Prod.snd, ite_self]
    cases var <;> rfl
  · have hnone : varReport e = none := by simp [varReport, fieldReport, hret]
    rw [hnone, Memo.update_none]
    refine step_unchanged [127250] (fun mp' h hpgn => ?_) (by simpa using hret)
    cases h with
    | heading hp => simp [hp] at hpgn
    | mda _ press air => cases press <;> cases air <;> rfl
    | _ => rfl

omit [LinearOrder α] [FloorRing α] in
theorem mapTemperature_eq (mp : Mapper α) (m : Msg α) (d : Decision)
    (now : UInt64) :
    mp.mapTemperature lm m d now =
      if hasWord (some d.discriminant.text) "Sea".toList then
        (nmeaMtw lm mp.talker.text (temperature m), mp)
      else if hasWord (some d.discriminant.text) "Outside".toList then
        mp.mapMda lm now .nan (temperature m) false
      else (none, mp) := rfl

/-- The call on a retained temperature. -/
theorem step_of_temperature (h : Retained 130312 e ∨ Retained 130316 e) :
    (mp.step lm e).2 = (mp.mapTemperature lm e.msg e.dec e.now).2 ∧
      (mp.step lm e).1.items =
        (mp.mapTemperature lm e.msg e.dec e.now).1.toList := by
  have hconv : mp.convert lm e.msg e.dec e.now =
      one (mp.mapTemperature lm e.msg e.dec e.now) := by
    rcases h with h | h <;> simp [convert, h.2]
  have hacc : Retained e.msg.pgn e := ⟨h.elim (·.1) (·.1), rfl⟩
  have hret := step_retained hacc hconv
  exact ⟨hret.2, hret.1⟩

/-- The call on a retained pressure. -/
theorem step_of_pressure (h : Retained 130314 e) :
    (mp.step lm e).2 = (mp.mapPressure lm e.msg e.now).2 ∧
      (mp.step lm e).1.items = (mp.mapPressure lm e.msg e.now).1.toList := by
  have hconv : mp.convert lm e.msg e.dec e.now =
      one (mp.mapPressure lm e.msg e.now) := by
    simp [convert, h.2]
  have hret := step_retained (r := mp.mapPressure lm e.msg e.now) h hconv
  exact ⟨hret.2, hret.1⟩

theorem step_pressMemo (mp : Mapper α) (e : Event α) :
    (mp.step lm e).2.pressMemo = mp.pressMemo.update (pressReport e) e.now := by
  by_cases hret : Retained 130314 e
  · rw [(step_of_pressure hret).1, mapPressure, mapMda_snd, pressMemo_rememberMda]
    simp [pressReport, fieldReport, hret]
  · have hnone : pressReport e = none := by simp [pressReport, fieldReport, hret]
    rw [hnone, Memo.update_none]
    by_cases htemp : Retained 130312 e ∨ Retained 130316 e
    · rw [(step_of_temperature htemp).1, mapTemperature_eq]
      split_ifs
      · rfl
      · rw [mapMda_snd, pressMemo_rememberMda]
        rfl
      · rfl
    · refine step_unchanged [130312, 130316, 130314]
        (fun mp' h hpgn => ?_) (by simpa [hret, not_or] using htemp)
      cases h with
      | mda hp => simp at hpgn; tauto
      | _ => rfl

theorem step_airMemo (mp : Mapper α) (e : Event α) :
    (mp.step lm e).2.airMemo = mp.airMemo.update (airReport e) e.now := by
  by_cases htemp : Retained 130312 e ∨ Retained 130316 e
  · rw [(step_of_temperature htemp).1, mapTemperature_eq]
    by_cases hout : Outside e
    · obtain ⟨-, hsea, houtside⟩ := id hout
      rw [airReport, if_pos hout, hsea, houtside, if_neg (by simp), if_pos rfl,
        mapMda_snd, airMemo_rememberMda]
    · rw [airReport, if_neg hout, Memo.update_none]
      split_ifs with hsea houtside
      · rfl
      · exact absurd ⟨htemp, Bool.eq_false_iff.mpr hsea, houtside⟩ hout
      · rfl
  · have hnone : airReport e = none := by simp [airReport, Outside, htemp]
    rw [hnone, Memo.update_none]
    by_cases hret : Retained 130314 e
    · rw [(step_of_pressure hret).1, mapPressure, mapMda_snd, airMemo_rememberMda]
      rfl
    · refine step_unchanged [130312, 130316, 130314]
        (fun mp' h hpgn => ?_) (by simpa [hret, not_or] using htemp)
      cases h with
      | mda hp => simp at hpgn; tauto
      | _ => rfl

/-! ### Runs -/

theorem runFrom_append_singleton (lm : Libm α) (mp : Mapper α)
    (events : List (Event α)) (e : Event α) :
    mp.runFrom lm (events ++ [e]) = ((mp.runFrom lm events).step lm e).2 := by
  simp [runFrom]

variable {events : List (Event α)} {now limit : UInt64}

/-- The value of a memory after a run is the recent report. -/
theorem fresh_runFrom {β : Type} {cell : Mapper α → Memo β}
    {report : Event α → Option β}
    (hstep : ∀ mp e, cell (mp.step lm e).2 = (cell mp).update (report e) e.now)
    (hseen : (cell mp).seen = false)
    (hnow : ∀ x ∈ events, x.now ≤ now) :
    (cell (mp.runFrom lm events)).fresh now limit =
      Memo.recent report Event.now events now limit := by
  have hfollows : Memo.Follows cell (fun mp (e : Event α) => (mp.step lm e).2)
      report Event.now := hstep
  exact hfollows.fresh_eq hseen hnow limit

/-- The digits of the three numbers of an MDA. -/
def mdaDigits (lm : Libm α) (press air : Double α) : Nat :=
  (Nmea.fixedText lm (press.map (· * micro 29529983)) 4).length +
    (Nmea.fixedText lm press 4).length + (Nmea.fixedText lm air 1).length

omit [LinearOrder α] [FloorRing α] in
/-- An MDA is delivered when its numbers are not too long. -/
theorem nmeaMda_isSome_iff (lm : Libm α) {talker : Text} (press air : Double α)
    (htalker : talker.length ≤ 2) :
    (nmeaMda lm talker press air).isSome ↔
      talker.length + mdaDigits lm press air ≤ 61 := by
  have htk : talker.take 2 = talker := List.take_of_length_le htalker
  unfold nmeaMda mdaDigits
  simp only [Nmea.start_eq_written, Nmea.fieldF_written, Nmea.fieldChar_written,
    Nmea.fieldEmpty_written, Nmea.finish_written, htk]
  rw [apply_ite Option.isSome, Option.isSome_some, Option.isSome_none,
    Bool.if_true_left, Bool.or_false, decide_eq_true_iff]
  simp only [List.length_append, List.length_cons, List.length_nil, trailer_length,
    show ("MDA".toList).length = 3 from rfl, maxLen]
  omega

omit [Field α] [LinearOrder α] [FloorRing α] in
/-- One part of a pair that is remembered. -/
theorem freshValue_part {β : Type} (m : Memo β) (part : β → Double α)
    (now limit : UInt64) :
    freshValue m.seen (part m.val) m.time now limit =
      (m.fresh now limit).elim .nan part := by
  unfold freshValue Memo.fresh
  split_ifs <;> rfl

/-- The call on a retained 129029. -/
theorem items_gnss (h : Retained 129029 e) :
    (mp.step lm e).1.items =
      (gnssSentences lm mp.talker.text e.msg
        ((mp.sogMemo.fresh e.now rmcFreshMs).elim .nan Prod.fst)
        ((mp.sogMemo.fresh e.now rmcFreshMs).elim .nan Prod.snd)
        (orNan (mp.varMemo.fresh e.now rmcFreshMs))).filterMap id := by
  have hconv : (mp.convert lm e.msg e.dec e.now).1 =
      gnssSentences lm mp.talker.text e.msg
        ((mp.sogMemo.fresh e.now rmcFreshMs).elim .nan Prod.fst)
        ((mp.sogMemo.fresh e.now rmcFreshMs).elim .nan Prod.snd)
        (orNan (mp.varMemo.fresh e.now rmcFreshMs)) := by
    rw [← freshValue_part, ← freshValue_part, ← freshValue_eq]
    simp only [convert, h.2]
    rfl
  have hlen : ∀ sog cog var,
      (gnssSentences lm mp.talker.text e.msg sog cog var).length ≤ 2 := by
    intro sog cog var
    unfold gnssSentences
    simp only
    split <;> simp
  rw [(step_of_accept h.1).2, hconv, items_foldl_emit, Table.items_empty,
    List.nil_append]
  refine le_trans (Nat.add_le_add_left (hlen _ _ _) _) ?_
  simp [maxSent]

/-- The call on a retained pressure, from the memories after it. -/
theorem items_pressure (h : Retained 130314 e) :
    let p := orNan ((mp.step lm e).2.pressMemo.fresh e.now mdaFreshMs)
    let t := orNan ((mp.step lm e).2.airMemo.fresh e.now mdaFreshMs)
    (mp.step lm e).1.items =
      if p.isNan && t.isNan then []
      else (nmeaMda lm mp.talker.text p t).toList := by
  have hair : airReport e = none := by
    have hpgn := h.2
    simp [airReport, Outside, Retained, hpgn]
  have hpress : pressReport e = present (getf e.msg "Pressure".toList) := by
    simp [pressReport, fieldReport, h]
  rw [step_pressMemo, step_airMemo, (step_of_pressure h).2, mapPressure, mapMda_fst,
    hair, hpress]
  simp only [present, Double.isNan_nan, if_true, Memo.update_none, Bool.not_true,
    Bool.false_and, Bool.false_eq_true, if_false]
  split_ifs <;> rfl

/-- The call on a retained temperature of the outside. -/
theorem items_outside (h : Outside e) :
    let p := orNan ((mp.step lm e).2.pressMemo.fresh e.now mdaFreshMs)
    let t := orNan ((mp.step lm e).2.airMemo.fresh e.now mdaFreshMs)
    (mp.step lm e).1.items =
      if p.isNan && !t.isNan then (nmeaMda lm mp.talker.text p t).toList else [] := by
  have hpress : pressReport e = none := by
    rcases h.1 with hret | hret <;>
      simp [pressReport, fieldReport, Retained, hret.2]
  have hair : airReport e = present (temperature e.msg) := if_pos h
  rw [step_pressMemo, step_airMemo, (step_of_temperature h.1).2, mapTemperature_eq,
    if_neg (Bool.eq_false_iff.mp h.2.1), if_pos h.2.2, mapMda_fst, hair, hpress]
  simp only [present, Double.isNan_nan, if_true, Memo.update_none, Bool.not_false,
    Bool.true_and]
  split_ifs <;> simp_all

/--
What RMC and MDA borrow, in every run.  The RMC of a retained 129029 carries the
speed and the true course, and the variation, last reported, when they are at
most `MAP_RMC_FRESH_MS` old.  A retained pressure announces the pressure and the
temperature last reported, when they are at most `MAP_MDA_FRESH_MS` old and there
is one; a retained temperature of the outside does so when there is no such
pressure.  An MDA is delivered when its numbers are not too long for a sentence.
-/
theorem borrowed_fields
    (lm : Libm α)
    (mp : Mapper α)
    (hmp : Unborrowed mp)
    (events : List (Event α))
    (hmono : Monotone events) :
    ∀ before e after, events = before ++ e :: after →
      let out := ((mp.runFrom lm before).step lm e).1.items
      let sog := Memo.recent sogReport Event.now before e.now rmcFreshMs
      let var := Memo.recent varReport Event.now before e.now rmcFreshMs
      let press := Memo.recent pressReport Event.now (before ++ [e]) e.now mdaFreshMs
      let air := Memo.recent airReport Event.now (before ++ [e]) e.now mdaFreshMs
      (Retained 129029 e →
        out = (gnssSentences lm mp.talker.text e.msg (sog.elim .nan Prod.fst)
          (sog.elim .nan Prod.snd) (orNan var)).filterMap id) ∧
      (Retained 130314 e →
        out = if press.isSome ∨ air.isSome then
            (nmeaMda lm mp.talker.text (orNan press) (orNan air)).toList
          else []) ∧
      (Outside e →
        out = if air.isSome ∧ press = none then
            (nmeaMda lm mp.talker.text .nan (orNan air)).toList
          else []) ∧
      ((nmeaMda lm mp.talker.text (orNan press) (orNan air)).isSome ↔
        mp.talker.text.length + mdaDigits lm (orNan press) (orNan air) ≤ 61) := by
  rintro before e after rfl
  intro out sog var press air
  have hbefore : ∀ x ∈ before, x.now ≤ e.now := fun x hx =>
    (List.pairwise_append.mp hmono).2.2 x hx e (by simp)
  have hwith : ∀ x ∈ before ++ [e], x.now ≤ e.now := by
    intro x hx
    rcases List.mem_append.mp hx with hx | hx
    · exact hbefore x hx
    · rw [List.mem_singleton.mp hx]
      exact UInt64.le_refl _
  have htalker : (mp.runFrom lm before).talker = mp.talker :=
    (runFrom_frame lm mp before).2
  have hpress : (((mp.runFrom lm before).step lm e).2.pressMemo).fresh e.now
      mdaFreshMs = press := by
    rw [← runFrom_append_singleton]
    exact fresh_runFrom step_pressMemo hmp.press hwith
  have hair : (((mp.runFrom lm before).step lm e).2.airMemo).fresh e.now
      mdaFreshMs = air := by
    rw [← runFrom_append_singleton]
    exact fresh_runFrom step_airMemo hmp.air hwith
  have hpressNan : (orNan press).isNan = press.isNone :=
    isNan_orNan_recent pressReport_isNan
  have hairNan : (orNan air).isNan = air.isNone :=
    isNan_orNan_recent airReport_isNan
  refine ⟨fun h => ?_, fun h => ?_, fun h => ?_,
    nmeaMda_isSome_iff lm _ _ mp.talker.fits⟩
  · change ((mp.runFrom lm before).step lm e).1.items = _
    rw [items_gnss h, htalker, fresh_runFrom step_sogMemo hmp.sog hbefore,
      fresh_runFrom step_varMemo hmp.var hbefore]
  · change ((mp.runFrom lm before).step lm e).1.items = _
    rw [items_pressure h, hpress, hair, htalker, hpressNan, hairNan]
    cases press <;> cases air <;> simp
  · change ((mp.runFrom lm before).step lm e).1.items = _
    rw [items_outside h, hpress, hair, htalker, hpressNan, hairNan]
    cases press with
    | none => cases air <;> simp [orNan]
    | some p => simp

/-- A retained message of the mapper. -/
def retained (m : Msg ℚ) (now : UInt64) : Event ℚ :=
  { msg := m, dec := Decision.only .accept, now := now }

/-- A retained temperature of the outside. -/
def outsideAt (t : ℚ) (now : UInt64) : Event ℚ :=
  { msg := messageWith 130316 1 "Temperature".toList t
    dec := { Decision.only .accept with
      discriminant := .ofText _ "Outside Temperature".toList }
    now := now }

/-- After a pressure of forty seconds ago, a temperature is announced alone. -/
theorem borrowed_fields_stale_pressure :
    let p := retained (messageWith 130314 1 "Pressure".toList 1) 0
    (((Mapper.init "II".toList).runFrom exactLibm [p]).step exactLibm
        (outsideAt 20 40000)).1.items =
      (nmeaMda exactLibm "II".toList .nan (.val 20)).toList := by
  intro p
  have hmono : Monotone [p, outsideAt 20 40000] := by
    simp [Monotone, p, retained, outsideAt]
  have hout := (borrowed_fields exactLibm (Mapper.init "II".toList)
    ⟨rfl, rfl, rfl, rfl⟩ [p, outsideAt 20 40000] hmono [p] (outsideAt 20 40000) []
    rfl).2.2.1 (by decide +kernel)
  have hpress : Memo.recent pressReport Event.now ([p] ++ [outsideAt 20 40000])
      40000 mdaFreshMs = none := by
    decide +kernel
  have hair : Memo.recent airReport Event.now ([p] ++ [outsideAt 20 40000])
      40000 mdaFreshMs = some (.val 20) := by
    decide +kernel
  refine hout.trans ?_
  rw [if_pos ⟨by rw [show (outsideAt 20 40000).now = 40000 from rfl, hair]; rfl,
    hpress⟩]
  rw [show (outsideAt 20 40000).now = 40000 from rfl, hair]
  rfl

/-- A pressure too long for a sentence is not announced. -/
theorem mda_too_long :
    let e := retained (messageWith 130314 1 "Pressure".toList (10 ^ 30)) 0
    Retained 130314 e ∧
      (Memo.recent pressReport Event.now [e] e.now mdaFreshMs).isSome ∧
      (((Mapper.init "II".toList).runFrom exactLibm []).step exactLibm e).1.items =
        [] := by
  decide +kernel

end Mapper
end N2kMux
