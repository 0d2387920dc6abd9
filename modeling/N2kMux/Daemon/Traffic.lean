import N2kMux.Daemon.RateLaw
import N2kMux.Stats.Document

/-!
# The traffic that the loop counts (daemon.c)

The main loop counts the frames of the bus, the messages and the sentences it writes,
and publishes the counts from time to time.  In each turn a sentence type counts once,
however many pages it has; the bytes of all its sentences count.
-/

namespace N2kMux
namespace Daemon

open Nmea0183
open Mapper (maxSent)

/-! ### The loop -/

/-- The options of `main` for the statistics. -/
structure StatsOptions where
  statsPath : Bool
  verbose : Bool
  statsInterval : UInt32

/-- The loop with its statistics. -/
structure Traffic (α : Type) where
  loop : MainLoop α
  stats : Stats
  lastStats : UInt64

/-- What a turn of the loop finds: the lengths of the frames that wait, a configuration
that was reloaded, whether the file of the statistics can be written, and a line. -/
structure Pass (α : Type) where
  now : UInt64
  frames : List Int
  reload : Option Config
  stored : Bool
  line : Option (Jsonl.Msg α)

/-- The loop over the sentences that are written; `counted` are the types that were
already counted. -/
def countSentences (st : Stats) (counted : Table maxSent (CBuf 4)) :
    List Sentence → Stats
  | [] => st
  | s :: ss =>
      let type := sentenceType s.text
      let len := s.text.length
      let seen := counted.items.any fun c => c.text = type
      if type ≠ [] ∧ seen = false then
        countSentences (st.observeOut type len) (counted.pushOrDrop (.ofText 4 type)) ss
      else countSentences (st.observeOutBytes len) counted ss

/-- The PGN that a line counts for. -/
def countedPgn {α : Type} (line : Option (Jsonl.Msg α)) : Option Int :=
  line.bind fun m => if m.hasPgn then some m.pgn else none

namespace Traffic

variable {α : Type} [Field α] [LinearOrder α] [FloorRing α]

/-- The start of `main`. -/
def start (cfg : Config) (now : UInt64) : Traffic α :=
  { loop := MainLoop.start cfg, stats := Stats.init now, lastStats := now }

/-- The statistics are due. -/
def due (o : StatsOptions) (t : Traffic α) (now : UInt64) : Bool :=
  (o.statsPath || o.verbose) && decide (o.statsInterval.toUInt64 * 1000 ≤ now - t.lastStats)

/-- The publication of the statistics: what is stored, and the statistics after it. -/
def report (lm : Libm α) (o : StatsOptions) (t : Traffic α) (stored : Bool) (now : UInt64) :
    Option Text × Traffic α :=
  if t.due o now then
    let r := if o.statsPath then t.stats.write lm stored now else (none, t.stats.reset now)
    (r.1, { t with stats := r.2, lastStats := now })
  else (none, t)

/-- The loop after a reload, if there is one. -/
def reloaded (lm : Libm α) (t : Traffic α) (p : Pass α) : MainLoop α :=
  match p.reload with
  | none => t.loop
  | some cfg => (t.loop.turn lm ⟨p.now, .reload cfg⟩).2

/-- What a turn shows: the document that is stored, and the sentences. -/
structure Shown where
  doc : Option Text
  written : List Sentence

/-- A turn up to the line: the frames, the reload and the publication. -/
def reported (lm : Libm α) (o : StatsOptions) (t : Traffic α) (p : Pass α) :
    Option Text × Traffic α :=
  let drained := p.frames.foldl Stats.observeFrame t.stats
  { t with loop := t.reloaded lm p, stats := drained }.report lm o p.stored p.now

/-- A turn of the loop. -/
def pass (lm : Libm α) (o : StatsOptions) (t : Traffic α) (p : Pass α) :
    Shown × Traffic α :=
  let r := t.reported lm o p
  match p.line with
  | none => (⟨r.1, []⟩, r.2)
  | some m =>
      let observed :=
        match countedPgn p.line with
        | some pgn => r.2.stats.observe pgn p.now
        | none => r.2.stats
      let w := r.2.loop.turn lm ⟨p.now, .message m⟩
      (⟨r.1, w.1⟩, { r.2 with loop := w.2, stats := countSentences observed .empty w.1 })

/-- The loop after the turns. -/
def runFrom (lm : Libm α) (o : StatsOptions) (t : Traffic α) (passes : List (Pass α)) :
    Traffic α :=
  passes.foldl (fun t p => (t.pass lm o p).2) t

end Traffic

/-! ### What happened -/

/-- The messages with their times, the frames, and the sentences of each turn. -/
structure Ledger where
  messages : List (Int × UInt64)
  frames : List Int
  written : List (List Sentence)

namespace Ledger

def empty : Ledger := ⟨[], [], []⟩

def add (l k : Ledger) : Ledger :=
  ⟨l.messages ++ k.messages, l.frames ++ k.frames, l.written ++ k.written⟩

def pgns (l : Ledger) : List Int := l.messages.map Prod.fst

/-- The turns that wrote a sentence of the type. -/
def turnsWith (l : Ledger) (type : Text) : Nat :=
  l.written.countP fun ss => type ∈ ss.map fun s => sentenceType s.text

theorem add_empty (l : Ledger) : l.add empty = l := by simp [add, empty]

end Ledger

/-- What happened since the start, and since the statistics were reset, at the time
`opened`. -/
structure Books where
  all : Ledger
  window : Ledger
  opened : UInt64

namespace Books

def start (now : UInt64) : Books := ⟨.empty, .empty, now⟩

def add (b : Books) (k : Ledger) : Books :=
  { b with all := b.all.add k, window := b.window.add k }

/-- The window ends. -/
def close (b : Books) (now : UInt64) : Books := { b with window := .empty, opened := now }

end Books

namespace Traffic

variable {α : Type} [Field α] [LinearOrder α] [FloorRing α]

/-- The window ends with this turn. -/
def closes (lm : Libm α) (o : StatsOptions) (t : Traffic α) (p : Pass α) : Bool :=
  t.due o p.now && (!o.statsPath || (t.reported lm o p).1.isSome)

/-- The books after the frames of a turn, when the statistics are published. -/
def booksAt (b : Books) (p : Pass α) : Books := b.add ⟨[], p.frames, []⟩

/-- The books after a turn. -/
def booksAfter (lm : Libm α) (o : StatsOptions) (t : Traffic α) (b : Books) (p : Pass α) :
    Books :=
  let b := booksAt b p
  (if t.closes lm o p then b.close p.now else b).add
    ⟨(countedPgn p.line).toList.map fun pgn => (pgn, p.now), [],
      [(t.pass lm o p).1.written]⟩

/-- The books after the turns. -/
def books (lm : Libm α) (o : StatsOptions) (t : Traffic α) : Books → List (Pass α) → Books
  | b, [] => b
  | b, p :: passes =>
      books lm o (t.pass lm o p).2 (booksAfter lm o t b p) passes

end Traffic

/-- The statistics are those of the books.  The PGNs are the first ones that came, as
many as there are slots; every type that was written has its entry. -/
structure Counted (b : Books) (s : Stats) : Prop where
  windowStart : s.windowStart = b.opened
  haveMsg : s.haveMsg = decide (b.all.messages ≠ [])
  lastMsg : s.lastMsg = (b.all.messages.getLast?.map Prod.snd).getD 0
  msgs : s.msgs = .ofNat b.window.messages.length
  frames : s.frames = .ofNat (b.window.pgns.map Stats.framesFor).sum
  measFrames : s.measFrames = .ofNat b.window.frames.length
  measBits : s.measBits = .ofNat
    (b.window.frames.map fun dlc => Stats.canFrameOverhead + 8 * Stats.boundDlc dlc).sum
  outSent : s.outSent = .ofNat b.window.written.flatten.length
  outBytes : s.outBytes = .ofNat (b.window.written.flatten.map fun x => x.text.length).sum
  pgns : s.pgns.items = (b.all.pgns.eraseDups.take Stats.maxPgns).map fun pgn =>
    ⟨pgn, .ofNat (b.window.pgns.count pgn), .ofNat (b.all.pgns.count pgn)⟩
  types : ∀ type ∈ sentenceTypes,
    Keyed.lookup (fun t : Stats.TypeStat => t.type.text) s.types.items type =
      if b.all.turnsWith type = 0 then none
      else some ⟨.ofText 4 type, .ofNat (b.window.turnsWith type),
        .ofNat (b.all.turnsWith type)⟩
  known : ∀ t ∈ s.types.items, t.type.text ∈ sentenceTypes

/-! ### What the statistics are told -/

/-- The sentences of a turn; `seen` are the types that were counted. -/
def outEvents (seen : List Text) : List Sentence → List Stats.Event
  | [] => []
  | s :: ss =>
      let type := sentenceType s.text
      if type ≠ [] ∧ type ∉ seen then
        .out type s.text.length :: outEvents (seen ++ [type]) ss
      else .outBytes s.text.length :: outEvents seen ss

/-- The sentences have a type of the constructors, or none. -/
def Known (ss : List Sentence) : Prop :=
  ∀ s ∈ ss, sentenceType s.text ∈ sentenceTypes ∨ sentenceType s.text = []

theorem countSentences_eq {st : Stats} {counted : Table maxSent (CBuf 4)} {seen : List Text}
    {ss : List Sentence}
    (hseen : counted.items.map CBuf.text = seen)
    (hknown : Known ss)
    (hfits : seen.length + ss.length ≤ maxSent) :
    countSentences st counted ss = (outEvents seen ss).foldl Stats.step st := by
  induction ss generalizing st counted seen with
  | nil => rfl
  | cons s ss ih =>
      have hss : Known ss := fun x hx => hknown x (List.mem_cons_of_mem s hx)
      have hin : (counted.items.any fun c => c.text = sentenceType s.text) = false ↔
          sentenceType s.text ∉ seen := by
        rw [← hseen]
        simp
      rw [List.length_cons] at hfits
      rw [countSentences, outEvents]
      simp only [hin]
      split_ifs with hnew
      · have hmem := (hknown s List.mem_cons_self).resolve_right hnew.1
        refine ih ?_ hss (by rw [List.length_append, List.length_singleton]; omega)
        have hroom : counted.items.length < maxSent := by
          rw [← List.length_map (f := CBuf.text), hseen]
          omega
        have hpush : (counted.pushOrDrop (.ofText 4 (sentenceType s.text))).items =
            counted.items ++ [.ofText 4 (sentenceType s.text)] := by
          rw [Table.items_pushOrDrop (l := counted.items)
            (List.take_of_length_le counted.fits).symm,
            List.take_of_length_le (by rw [List.length_append]; exact hroom)]
        rw [hpush, List.map_append, hseen, List.map_singleton, text_ofText_of_mem hmem]
      · exact ih hseen hss (by omega)

/-- What is told has the messages, the frames and the sentences of the ledger. -/
structure Recorded (events : List Stats.Event) (l : Ledger) : Prop where
  pgns : Stats.pgnsOf events = l.pgns
  times : events.filterMap Stats.Event.message? = l.messages.map Prod.snd
  bits : events.filterMap Stats.Event.bits? =
    l.frames.map fun dlc => Stats.canFrameOverhead + 8 * Stats.boundDlc dlc
  bytes : events.filterMap Stats.Event.bytes? =
    l.written.flatten.map fun x => x.text.length
  types : ∀ type ∈ sentenceTypes,
    (Stats.typesOf events).count (.ofText 4 type) = l.turnsWith type
  known : ∀ k ∈ Stats.typesOf events, k.text ∈ sentenceTypes

theorem Recorded.append {events events' : List Stats.Event} {l l' : Ledger}
    (h : Recorded events l)
    (h' : Recorded events' l') :
    Recorded (events ++ events') (l.add l') where
  pgns := by
    rw [Stats.pgnsOf, List.filterMap_append, Ledger.pgns, Ledger.add, List.map_append]
    exact congrArg₂ _ h.pgns h'.pgns
  times := by
    rw [List.filterMap_append, h.times, h'.times, ← List.map_append]
    rfl
  bits := by rw [List.filterMap_append, h.bits, h'.bits, ← List.map_append]; rfl
  bytes := by
    rw [List.filterMap_append, h.bytes, h'.bytes, ← List.map_append, ← List.flatten_append]
    rfl
  types := fun type htype => by
    rw [Stats.typesOf, List.filterMap_append, List.count_append]
    have hsum := congrArg₂ (· + ·) (h.types type htype) (h'.types type htype)
    rw [Ledger.turnsWith, Ledger.add, List.countP_append]
    exact hsum
  known := fun k hk => by
    rw [Stats.typesOf, List.filterMap_append, List.mem_append] at hk
    exact hk.elim (h.known k) (h'.known k)

theorem recorded_nil : Recorded [] .empty :=
  ⟨rfl, rfl, rfl, rfl, fun _ _ => rfl, fun _ hk => by cases hk⟩

theorem recorded_reset (now : UInt64) : Recorded [.reset now] .empty :=
  ⟨rfl, rfl, rfl, rfl, fun _ _ => rfl, fun _ hk => by cases hk⟩

theorem recorded_frames (frames : List Int) :
    Recorded (frames.map .frame) ⟨[], frames, []⟩ := by
  have hnone : ∀ {β : Type} (f : Stats.Event → Option β), (∀ dlc, f (.frame dlc) = none) →
      (frames.map Stats.Event.frame).filterMap f = [] := by
    intro β f hf
    simp [List.filterMap_map, hf]
  have htypes : Stats.typesOf (frames.map .frame) = [] := hnone _ fun _ => rfl
  refine ⟨hnone _ fun _ => rfl, hnone _ fun _ => rfl, ?_, hnone _ fun _ => rfl,
    fun type _ => ?_, fun k hk => ?_⟩
  · simp [List.filterMap_map, Function.comp_def, Stats.Event.bits?]
  · rw [htypes]
    rfl
  · rw [htypes] at hk
    cases hk

theorem recorded_message (pgn : Option Int) (now : UInt64) :
    Recorded (pgn.toList.map fun pgn => .message pgn now)
      ⟨pgn.toList.map fun pgn => (pgn, now), [], []⟩ := by
  cases pgn with
  | none => exact recorded_nil
  | some pgn => exact ⟨rfl, rfl, rfl, rfl, fun _ _ => rfl, fun _ hk => by cases hk⟩

theorem length_lt_of_mem {type : Text} (h : type ∈ sentenceTypes) : type.length < 4 := by
  have hall : ∀ ty ∈ sentenceTypes, ty.length < 4 := by simp [sentenceTypes]
  exact hall type h

theorem typeOk_of_mem {type : Text} (h : type ∈ sentenceTypes) :
    Stats.typeOk type = true := by
  have hall : sentenceTypes.all Stats.typeOk = true := by decide
  exact List.all_eq_true.mp hall type h

theorem typesOf_outEvents_cons {seen : List Text} {s : Sentence} {ss : List Sentence}
    (hknown : Known (s :: ss)) :
    Stats.typesOf (outEvents seen (s :: ss)) =
      if sentenceType s.text ≠ [] ∧ sentenceType s.text ∉ seen then
        .ofText 4 (sentenceType s.text) ::
          Stats.typesOf (outEvents (seen ++ [sentenceType s.text]) ss)
      else Stats.typesOf (outEvents seen ss) := by
  rw [outEvents]
  split_ifs with hnew
  · have hok := typeOk_of_mem ((hknown s List.mem_cons_self).resolve_right hnew.1)
    rw [Stats.typesOf, List.filterMap_cons_some]
    · rfl
    · rw [Stats.Event.type?, if_pos hok]
  · rfl

theorem count_outEvents {seen : List Text} {ss : List Sentence} {type : Text}
    (hknown : Known ss)
    (htype : type ∈ sentenceTypes) :
    (Stats.typesOf (outEvents seen ss)).count (.ofText 4 type) =
      if type ∈ (ss.map fun s => sentenceType s.text) ∧ type ∉ seen then 1 else 0 := by
  induction ss generalizing seen with
  | nil => rfl
  | cons s ss ih =>
      have hss : Known ss := fun x hx => hknown x (List.mem_cons_of_mem s hx)
      have hne : type ≠ [] := by
        rintro rfl
        exact absurd (typeOk_of_mem htype) (by decide)
      simp only [typesOf_outEvents_cons hknown, List.map_cons, List.mem_cons]
      by_cases heq : type = sentenceType s.text
      · by_cases hseen : type ∈ seen
        · rw [if_neg fun h => h.2 (heq ▸ hseen), ih hss, if_neg fun h => h.2 hseen,
            if_neg fun h => h.2 hseen]
        · rw [if_pos ⟨heq ▸ hne, heq ▸ hseen⟩, ← heq, List.count_cons_self, ih hss,
            if_neg (by simp), if_pos ⟨.inl rfl, hseen⟩]
      · simp only [heq, false_or]
        by_cases hnew : sentenceType s.text ≠ [] ∧ sentenceType s.text ∉ seen
        · have hbuf : CBuf.ofText 4 (sentenceType s.text) ≠ CBuf.ofText 4 type := by
            intro h
            have hmem := (hknown s List.mem_cons_self).resolve_right hnew.1
            have htext := congrArg CBuf.text h
            rw [text_ofText_of_mem hmem, text_ofText_of_mem htype] at htext
            exact heq htext.symm
          rw [if_pos hnew, List.count_cons_of_ne hbuf, ih hss]
          simp [heq]
        · rw [if_neg hnew, ih hss]

/-- Only sentences are told. -/
theorem filterMap_outEvents {β : Type} {f : Stats.Event → Option β}
    (hout : ∀ type bytes, f (.out type bytes) = none)
    (hbytes : ∀ bytes, f (.outBytes bytes) = none)
    (seen : List Text) (ss : List Sentence) :
    (outEvents seen ss).filterMap f = [] := by
  induction ss generalizing seen with
  | nil => rfl
  | cons s ss ih =>
      rw [outEvents]
      split_ifs
      · rw [List.filterMap_cons_none (hout _ _), ih]
      · rw [List.filterMap_cons_none (hbytes _), ih]

theorem bytes_outEvents (seen : List Text) (ss : List Sentence) :
    (outEvents seen ss).filterMap Stats.Event.bytes? = ss.map fun x => x.text.length := by
  induction ss generalizing seen with
  | nil => rfl
  | cons s ss ih =>
      rw [outEvents, List.map_cons]
      split_ifs
      · exact congrArg _ (ih _)
      · exact congrArg _ (ih _)

theorem known_outEvents {seen : List Text} {ss : List Sentence} (hknown : Known ss)
    {k : CBuf 4}
    (hk : k ∈ Stats.typesOf (outEvents seen ss)) :
    k.text ∈ sentenceTypes := by
  induction ss generalizing seen with
  | nil => cases hk
  | cons s ss ih =>
      have hss : Known ss := fun x hx => hknown x (List.mem_cons_of_mem s hx)
      rw [typesOf_outEvents_cons hknown] at hk
      split_ifs at hk with hnew
      · rcases List.mem_cons.mp hk with rfl | hk
        · have hmem := (hknown s List.mem_cons_self).resolve_right hnew.1
          rwa [text_ofText_of_mem hmem]
        · exact ih hss hk
      · exact ih hss hk

/-- The types that are told are short. -/
theorem plain_outEvents {seen : List Text} {ss : List Sentence} (hknown : Known ss)
    {e : Stats.Event}
    (he : e ∈ outEvents seen ss) :
    e.Short ∧ e.reset? = none := by
  induction ss generalizing seen with
  | nil => cases he
  | cons s ss ih =>
      have hss : Known ss := fun x hx => hknown x (List.mem_cons_of_mem s hx)
      rw [outEvents] at he
      split_ifs at he with hnew
      · rcases List.mem_cons.mp he with rfl | he
        · exact ⟨length_lt_of_mem ((hknown s List.mem_cons_self).resolve_right hnew.1), rfl⟩
        · exact ih hss he
      · rcases List.mem_cons.mp he with rfl | he
        · exact ⟨trivial, rfl⟩
        · exact ih hss he

/-- Of the pages of a type, the first one counts for the type. -/
theorem recorded_out {ss : List Sentence} (hknown : Known ss) :
    Recorded (outEvents [] ss) ⟨[], [], [ss]⟩ where
  pgns := filterMap_outEvents (fun _ _ => rfl) (fun _ => rfl) _ _
  times := filterMap_outEvents (fun _ _ => rfl) (fun _ => rfl) _ _
  bits := filterMap_outEvents (fun _ _ => rfl) (fun _ => rfl) _ _
  bytes := by
    rw [bytes_outEvents]
    simp
  types := fun type htype => by
    rw [count_outEvents hknown htype]
    simp [Ledger.turnsWith, List.countP_cons]
  known := fun _ hk => known_outEvents hknown hk

/-! ### From the events to the books -/

/-- The types that are told have a slot. -/
theorem types_fit {types : List (CBuf 4)} (hknown : ∀ k ∈ types, k.text ∈ sentenceTypes) :
    types.eraseDups.length ≤ Stats.maxTypes := by
  have hnodup : (types.eraseDups.map CBuf.text).Nodup :=
    (Keyed.nodup_eraseDups types).map fun _ _ h => CBuf.ext h
  have hsub : types.eraseDups.map CBuf.text ⊆ sentenceTypes := by
    intro type htype
    obtain ⟨k, hk, rfl⟩ := List.mem_map.mp htype
    exact hknown k (List.mem_eraseDups.mp hk)
  have hle := (List.subperm_of_subset hnodup hsub).length_le
  have htypes : sentenceTypes.length = 21 := rfl
  rw [List.length_map] at hle
  exact le_trans hle (by rw [htypes]; decide)

/-- Counters of events are those of the books. -/
theorem counted_of_counts {start : UInt64} {events window : List Stats.Event} {b : Books}
    {s : Stats}
    (h : Stats.Counts start events window s)
    (hall : Recorded events b.all)
    (hwindow : Recorded window b.window)
    (hopened : ((events.filterMap Stats.Event.reset?).getLast?).getD start = b.opened) :
    Counted b s where
  windowStart := by rw [h.windowStart, hopened]
  haveMsg := by rw [h.haveMsg, hall.pgns]; simp [Ledger.pgns]
  lastMsg := by rw [h.lastMsg, hall.times, List.getLast?_map]
  msgs := by rw [h.msgs, hwindow.pgns, Ledger.pgns, List.length_map]
  frames := by rw [h.frames, hwindow.pgns]
  measFrames := by rw [h.measFrames, hwindow.bits, List.length_map]
  measBits := by rw [h.measBits, hwindow.bits]
  outSent := by rw [h.outSent, hwindow.bytes, List.length_map]
  outBytes := by rw [h.outBytes, hwindow.bytes]
  pgns := by
    have htally := h.pgns
    rw [hall.pgns, hwindow.pgns] at htally
    exact htally
  types := fun type htype => by
    have hfits := types_fit hall.known
    have htally := h.types
    have hkey : (fun t : Stats.TypeStat => decide (t.type.text = type)) =
        fun t => decide (t.type = .ofText 4 type) := by
      funext t
      rw [Bool.eq_iff_iff, decide_eq_true_iff, decide_eq_true_iff]
      exact Stats.text_eq_iff (length_lt_of_mem htype)
    have hlookup : Keyed.lookup (fun t : Stats.TypeStat => t.type.text) s.types.items type =
        Keyed.lookup Stats.TypeStat.type s.types.items (.ofText 4 type) := by
      rw [Keyed.lookup, hkey, Keyed.lookup]
    have hcount := hall.types type htype
    rw [hlookup]
    split_ifs with hzero
    · rw [Keyed.lookup_eq_none_iff, htally.keys Stats.counter_type,
        List.take_of_length_le hfits, List.mem_eraseDups, ← List.count_eq_zero, hcount]
      exact hzero
    · have hin : CBuf.ofText 4 type ∈
          (Stats.typesOf events).eraseDups.take Stats.maxTypes := by
        rw [List.take_of_length_le hfits, List.mem_eraseDups, ← List.count_pos_iff, hcount]
        exact Nat.pos_of_ne_zero hzero
      rw [htally.lookup Stats.counter_type hin, hcount, hwindow.types type htype]
  known := fun t ht => by
    have hkey := List.mem_map_of_mem (f := Stats.TypeStat.type) ht
    rw [h.types.keys Stats.counter_type] at hkey
    exact hall.known _ (List.mem_eraseDups.mp (List.mem_of_mem_take hkey))

/-! ### The sentences of a turn -/

theorem gateSentences_sublist (cfg : Config) (pgn : Int) (now : UInt64) (g : Gate)
    (ss : List Sentence) :
    (gateSentences cfg pgn now g ss).1.Sublist ss := by
  induction ss generalizing g with
  | nil => exact List.Sublist.refl _
  | cons s ss ih =>
      rw [gateSentences]
      split_ifs
      · exact (ih _).cons_cons s
      · exact (ih _).cons s

namespace MainLoop

variable {α : Type} [Field α] [LinearOrder α] [FloorRing α] {lm : Libm α}

/-- What a turn writes has known types and is no more than one call produces. -/
theorem written_spec (hlm : FormatsPlainly lm) (s : MainLoop α) (e : Turn α) :
    Known (s.turn lm e).1 ∧ (s.turn lm e).1.length ≤ maxSent := by
  rw [turn]
  cases e.input with
  | reload cfg => exact ⟨by simp [Known], by simp⟩
  | message m =>
      simp only
      split_ifs
      · have hsub := gateSentences_sublist s.cfg m.pgn e.now ⟨s.thr, .empty⟩
          ((s.mapperFor m.pgn).map lm m (s.decided lm e.now m).2.1 e.now).1.items
        exact ⟨fun x hx => sentenceType_of_map hlm (hsub.subset hx),
          hsub.length_le.trans (Table.fits _)⟩
      · exact ⟨by simp [Known], by simp⟩

end MainLoop

/-! ### One turn -/

namespace Traffic

variable {α : Type} [Field α] [LinearOrder α] [FloorRing α] {lm : Libm α} {o : StatsOptions}

omit [FloorRing α] in
theorem report_spec (t : Traffic α) (stored : Bool) (now : UInt64) :
    (t.report lm o stored now).2.stats =
      if t.due o now && (!o.statsPath || (t.report lm o stored now).1.isSome) then
        t.stats.reset now
      else t.stats := by
  rw [report]
  cases hdue : t.due o now with
  | false => rfl
  | true =>
      cases hpath : o.statsPath with
      | false => rfl
      | true =>
          simp only [Stats.write]
          cases t.stats.toJson lm Stats.writeLen now with
          | none => rfl
          | some doc =>
              cases stored with
              | false => rfl
              | true => rfl

omit [FloorRing α] in
/-- What is stored was written by `stats_to_json`. -/
theorem report_eq_some {t : Traffic α} {stored : Bool} {now : UInt64} {doc : Text}
    (h : (t.report lm o stored now).1 = some doc) :
    t.stats.toJson lm Stats.writeLen now = some doc := by
  rw [report] at h
  split_ifs at h
  · simp only [Stats.write] at h
    cases hjson : t.stats.toJson lm Stats.writeLen now with
    | none => rw [hjson] at h; cases h
    | some doc' =>
        rw [hjson] at h
        cases stored with
        | false => cases h
        | true => exact h

theorem pass_doc (t : Traffic α) (p : Pass α) :
    (t.pass lm o p).1.doc = (t.reported lm o p).1 := by
  rw [pass]
  cases p.line with
  | none => rfl
  | some m => rfl

/-- The statistics before the line of a turn. -/
theorem reported_stats (t : Traffic α) (p : Pass α) :
    (t.reported lm o p).2.stats =
      if t.closes lm o p then (p.frames.foldl Stats.observeFrame t.stats).reset p.now
      else p.frames.foldl Stats.observeFrame t.stats :=
  report_spec { t with loop := t.reloaded lm p,
                       stats := p.frames.foldl Stats.observeFrame t.stats } p.stored p.now

theorem known_written (hlm : FormatsPlainly lm) (t : Traffic α) (p : Pass α) :
    Known (t.pass lm o p).1.written ∧ (t.pass lm o p).1.written.length ≤ maxSent := by
  rw [pass]
  cases p.line with
  | none => exact ⟨by simp [Known], by simp⟩
  | some m => exact MainLoop.written_spec hlm _ _

/-- The message and the sentences of a turn. -/
def lineEvents (lm : Libm α) (o : StatsOptions) (t : Traffic α) (p : Pass α) :
    List Stats.Event :=
  (countedPgn p.line).toList.map (fun pgn => .message pgn p.now) ++
    outEvents [] (t.pass lm o p).1.written

theorem pass_stats (hlm : FormatsPlainly lm) (t : Traffic α) (p : Pass α) :
    (t.pass lm o p).2.stats =
      (lineEvents lm o t p).foldl Stats.step (t.reported lm o p).2.stats := by
  have hwritten := known_written (o := o) hlm t p
  rw [lineEvents, List.foldl_append]
  cases hline : p.line with
  | none => simp [pass, hline, countedPgn, outEvents]
  | some m =>
      have hobserved : (match countedPgn (some m) with
            | some pgn => (t.reported lm o p).2.stats.observe pgn p.now
            | none => (t.reported lm o p).2.stats) =
          ((countedPgn (some m)).toList.map fun pgn => Stats.Event.message pgn p.now).foldl
            Stats.step (t.reported lm o p).2.stats := by
        cases countedPgn (some m) with
        | none => rfl
        | some pgn => rfl
      have hpass : (t.pass lm o p).2.stats = countSentences (match countedPgn (some m) with
            | some pgn => (t.reported lm o p).2.stats.observe pgn p.now
            | none => (t.reported lm o p).2.stats) .empty (t.pass lm o p).1.written := by
        rw [pass, hline]
      have hseen : (Table.empty : Table maxSent (CBuf 4)).items.map CBuf.text = [] := rfl
      rw [hpass, hobserved, countSentences_eq hseen hwritten.1 (by simpa using hwritten.2)]

/-! ### Runs -/

/-- The statistics and the books are of the same events. -/
def Follows (start : UInt64) (b : Books) (s : Stats) : Prop :=
  ∃ events, s = Stats.after start events ∧ (∀ e ∈ events, e.Short) ∧
    Recorded events b.all ∧ Recorded (Stats.sinceReset events) b.window ∧
    ((events.filterMap Stats.Event.reset?).getLast?).getD start = b.opened

theorem Follows.counted {start : UInt64} {b : Books} {s : Stats} (h : Follows start b s) :
    Counted b s := by
  obtain ⟨events, rfl, hshort, hall, hwindow, hopened⟩ := h
  exact counted_of_counts (Stats.counts_after start hshort) hall hwindow hopened

theorem follows_start (now : UInt64) : Follows now (.start now) (Stats.init now) :=
  ⟨[], rfl, by simp, recorded_nil, recorded_nil, rfl⟩

/-- More events without a reset. -/
theorem Follows.add {start : UInt64} {b : Books} {s : Stats} (h : Follows start b s)
    {l : List Stats.Event} {k : Ledger}
    (hl : Recorded l k)
    (hshort : ∀ e ∈ l, e.Short)
    (hreset : ∀ e ∈ l, e.reset? = none) :
    Follows start (b.add k) (l.foldl Stats.step s) := by
  obtain ⟨events, rfl, hevents, hall, hwindow, hopened⟩ := h
  refine ⟨events ++ l, ?_, ?_, hall.append hl, ?_, ?_⟩
  · rw [Stats.after, Stats.after, List.foldl_append]
  · intro e he
    exact (List.mem_append.mp he).elim (hevents e) (hshort e)
  · rw [Stats.sinceReset_append hreset]
    exact hwindow.append hl
  · rw [List.filterMap_append, List.filterMap_eq_nil_iff.mpr hreset, List.append_nil]
    exact hopened

/-- A reset. -/
theorem Follows.close {start : UInt64} {b : Books} {s : Stats} (h : Follows start b s)
    (now : UInt64) :
    Follows start (b.close now) (s.reset now) := by
  obtain ⟨events, rfl, hevents, hall, hwindow, -⟩ := h
  refine ⟨events ++ [.reset now], ?_, ?_, ?_, ?_, ?_⟩
  · rw [Stats.after, Stats.after, List.foldl_append]
    rfl
  · intro e he
    rcases List.mem_append.mp he with he | he
    · exact hevents e he
    · rw [List.mem_singleton.mp he]
      trivial
  · have hboth := hall.append (recorded_reset now)
    rwa [Ledger.add_empty] at hboth
  · rw [Stats.sinceReset_append_singleton]
    exact recorded_nil
  · rw [Stats.filterMap_append_singleton]
    simp [Stats.Event.reset?, Books.close]

omit [Field α] [LinearOrder α] [FloorRing α] in
/-- The frames of a turn. -/
theorem Follows.frames {start : UInt64} {b : Books} {s : Stats} (h : Follows start b s)
    (p : Pass α) :
    Follows start (booksAt b p) (p.frames.foldl Stats.observeFrame s) := by
  have hframes := h.add (recorded_frames p.frames) (by simp [Stats.Event.Short])
    (by simp [Stats.Event.reset?])
  rwa [List.foldl_map] at hframes

/-- One turn. -/
theorem Follows.pass {start : UInt64} {b : Books} {t : Traffic α}
    (h : Follows start b t.stats)
    (hlm : FormatsPlainly lm)
    (p : Pass α) :
    Follows start (booksAfter lm o t b p) (t.pass lm o p).2.stats := by
  have hknown := (known_written (o := o) hlm t p).1
  have hreported : Follows start
      (if t.closes lm o p then (booksAt b p).close p.now else booksAt b p)
      (t.reported lm o p).2.stats := by
    rw [reported_stats]
    cases t.closes lm o p with
    | false => exact h.frames p
    | true => exact (h.frames p).close p.now
  have hrecorded : Recorded (lineEvents lm o t p)
      ⟨(countedPgn p.line).toList.map fun pgn => (pgn, p.now), [],
        [(t.pass lm o p).1.written]⟩ := by
    have hboth := (recorded_message (countedPgn p.line) p.now).append (recorded_out hknown)
    rw [lineEvents]
    simpa only [Ledger.add, List.append_nil, List.nil_append] using hboth
  have hplain : ∀ e ∈ lineEvents lm o t p, e.Short ∧ e.reset? = none := by
    intro e he
    rcases List.mem_append.mp he with he | he
    · obtain ⟨pgn, -, rfl⟩ := List.mem_map.mp he
      exact ⟨trivial, rfl⟩
    · exact plain_outEvents hknown he
  rw [pass_stats hlm]
  exact hreported.add hrecorded (fun e he => (hplain e he).1) fun e he => (hplain e he).2

/-- Every run. -/
theorem Follows.run {start : UInt64} {b : Books} {t : Traffic α}
    (h : Follows start b t.stats)
    (hlm : FormatsPlainly lm)
    (passes : List (Pass α)) :
    Follows start (books lm o t b passes) (t.runFrom lm o passes).stats := by
  induction passes generalizing b t with
  | nil => exact h
  | cons p passes ih => exact ih (h.pass hlm p)

/-- Over every run, the statistics count what the loop read and wrote. -/
theorem counted_run
    (lm : Libm α)
    (hlm : FormatsPlainly lm)
    (o : StatsOptions)
    (cfg : Config)
    (start : UInt64)
    (passes : List (Pass α)) :
    Counted (books lm o (.start cfg start) (.start start) passes)
      ((Traffic.start cfg start : Traffic α).runFrom lm o passes).stats :=
  Follows.counted (Follows.run (follows_start start) hlm passes)

/-- A claim, a depth and a publication. -/
def depthPasses : List (Pass ℚ) :=
  [⟨0, [8], none, true, some (Registry.claimFrom 1 11)⟩,
    ⟨60000, [8, 3], none, true,
      some (Mapper.messageWith 128267 1 "Depth".toList 3)⟩]

/-- The depth is counted. -/
theorem counted_run_depth :
    Keyed.lookup (fun t : Stats.TypeStat => t.type.text)
      ((Traffic.start depthEveryMinute 0 : Traffic ℚ).runFrom exactLibm ⟨true, false, 5⟩
        depthPasses).stats.types.items "DPT".toList =
      some ⟨.ofText 4 "DPT".toList, 1, 1⟩ := by
  have hcounted := counted_run exactLibm Mapper.formatsPlainly_exactLibm ⟨true, false, 5⟩
    depthEveryMinute 0 depthPasses
  rw [hcounted.types "DPT".toList (by decide)]
  decide +kernel

/-- A document that is stored shows the counts up to its turn, with the frames of the
turn, since the document before it. -/
theorem published_stats
    (lm : Libm α)
    (hlm : FormatsPlainly lm)
    (hprints : Stats.Prints lm)
    (o : StatsOptions)
    (cfg : Config)
    (start : UInt64)
    (before : List (Pass α))
    (p : Pass α)
    (doc : Text)
    (hdoc : (((Traffic.start cfg start).runFrom lm o before).pass lm o p).1.doc = some doc) :
    ∃ s : Stats,
      Counted (booksAt (books lm o (.start cfg start) (.start start) before) p) s ∧
        Json.Spells doc (s.tree lm p.now) := by
  have hrun : Follows start (books lm o (.start cfg start) (.start start) before)
      ((Traffic.start cfg start).runFrom lm o before).stats :=
    Follows.run (follows_start start) hlm before
  have hfollows := hrun.frames p
  have hcounted := hfollows.counted
  refine ⟨_, hcounted, ?_⟩
  generalize (Traffic.start cfg start).runFrom lm o before = t at hdoc hcounted ⊢
  rw [pass_doc, reported] at hdoc
  have hjson := report_eq_some hdoc
  exact Stats.spells_toJson hprints hjson fun x hx => typeOk_of_mem (hcounted.known x hx)

theorem published_stats_depth :
    ∃ doc, (((Traffic.start depthEveryMinute 0 : Traffic ℚ).runFrom exactLibm ⟨true, false, 5⟩
        (depthPasses.take 1)).pass exactLibm ⟨true, false, 5⟩
          ⟨60000, [8, 3], none, true, none⟩).1.doc = some doc ∧
      ∃ s : Stats, s.msgs = 1 ∧ s.measFrames = 3 ∧
        Json.Spells doc (s.tree exactLibm 60000) := by
  obtain ⟨doc, hdoc⟩ : ∃ doc, (((Traffic.start depthEveryMinute 0 : Traffic ℚ).runFrom
      exactLibm ⟨true, false, 5⟩ (depthPasses.take 1)).pass exactLibm ⟨true, false, 5⟩
        ⟨60000, [8, 3], none, true, none⟩).1.doc = some doc := by
    rw [← Option.isSome_iff_exists]
    decide +kernel
  obtain ⟨s, hcounted, hspells⟩ := published_stats exactLibm Mapper.formatsPlainly_exactLibm
    Stats.prints_exactLibm ⟨true, false, 5⟩ depthEveryMinute 0 (depthPasses.take 1) _ doc hdoc
  refine ⟨doc, hdoc, s, ?_, ?_, hspells⟩
  · rw [hcounted.msgs]
    decide +kernel
  · rw [hcounted.measFrames]
    decide +kernel

end Traffic

end Daemon
end N2kMux
