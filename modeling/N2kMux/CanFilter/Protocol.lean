import N2kMux.CanFilter.Losers
import N2kMux.Lib.Watched

/-!
# The daemon and the filter at work (canfilter.c, daemon.c)

The daemon replaces the list of losers by a rename, at any time.  n2k-filter reads one
frame after the other, looks at the modification time of the list at most once a second,
and reads the list again when it has changed.  The steps of both are interleaved here in
any order.

`forwarded_frames` says what is written to the second bus: every frame that arrived, in
order, but for those that a list not older than their second drops.  A call of `write`
may fail, and its frame is lost then.
-/

namespace N2kMux
namespace CanFilter

/-! ### The steps -/

/-- `struct can_frame` -/
structure Frame where
  id : Nat
  data : List UInt8
deriving DecidableEq

/-- The list on the disk, with its modification time. -/
structure DropFile where
  text : Text
  mtime : Int
deriving DecidableEq

/-- Where `main` is.  Until the first frame, and between reading a frame and judging
it, other processes may run. -/
inductive Phase where
  /-- before the first `drop_load` -/
  | loading
  /-- before the first `stat` -/
  | stating
  /-- before `read` -/
  | reading
  /-- before `time(NULL)`, with a frame -/
  | timing (f : Frame)
  /-- before `stat`, in a second that is new -/
  | checking (f : Frame)
  /-- before `drop_load`, with a modification time that is new -/
  | reloading (f : Frame)
  /-- before `drop_has` -/
  | judging (f : Frame)
  /-- before `write`, with a frame that goes on -/
  | writing (f : Frame)
deriving DecidableEq

/-- The file, the clock, the frames that the socket holds, and the variables of
`main`. -/
structure World where
  file : Option DropFile
  now : Int
  rx : List Frame
  phase : Phase
  dset : Table fdropMax (Int × Int)
  dmtime : Int
  lastCheck : Int
  tx : List Frame
  nOut : Nat
  nDrop : Nat

/-- What happens: the daemon renames a new list, time passes, a frame arrives, the filter
goes on, or its `write` does not take the whole frame. -/
inductive Action where
  | publish (file : DropFile)
  | tick (now : Int)
  | arrive (f : Frame)
  | go
  | lose

/-- `drop_load` of what is on the disk. -/
def loadFile (file : Option DropFile) : Table fdropMax (Int × Int) :=
  match file with
  | none => .empty
  | some file => dropLoad file.text

/-- The next step of `main`. -/
def World.go (w : World) : World :=
  match w.phase with
  | .loading => { w with dset := loadFile w.file, phase := .stating }
  | .stating =>
      match w.file with
      | none => { w with phase := .reading }
      | some file => { w with dmtime := file.mtime, phase := .reading }
  | .reading =>
      match w.rx with
      | [] => w
      | f :: rx => { w with rx := rx, phase := .timing f }
  | .timing f =>
      if w.now ≠ w.lastCheck then { w with lastCheck := w.now, phase := .checking f }
      else { w with phase := .judging f }
  | .checking f =>
      match w.file with
      | none => { w with phase := .judging f }
      | some file =>
          if file.mtime ≠ w.dmtime then
            { w with dmtime := file.mtime, phase := .reloading f }
          else { w with phase := .judging f }
  | .reloading f => { w with dset := loadFile w.file, phase := .judging f }
  | .judging f =>
      if dropHas w.dset (pgnOf f.id) (srcOf f.id) then
        { w with nDrop := w.nDrop + 1, phase := .reading }
      else { w with phase := .writing f }
  | .writing f =>
      { w with tx := w.tx ++ [f], nOut := w.nOut + 1, phase := .reading }

/-- A `write` that does not take the whole frame: `main` goes on without it. -/
def World.lose (w : World) : World :=
  match w.phase with
  | .writing _ => { w with phase := .reading }
  | _ => w

/-- One step of anybody. -/
def World.step (w : World) : Action → World
  | .publish file => { w with file := some file }
  | .tick now => { w with now := now }
  | .arrive f => { w with rx := w.rx ++ [f] }
  | .go => w.go
  | .lose => w.lose

/-- The start of `main` at the time `now`. -/
def World.start (now : Int) : World :=
  { file := none, now := now, rx := [], phase := .loading, dset := .empty, dmtime := 0
    lastCheck := 0, tx := [], nOut := 0, nDrop := 0 }

/-- The state after a run. -/
def run (now : Int) (acts : List Action) : World := acts.foldl World.step (.start now)

/-! ### The history of a run -/

/-- A list, and when it was published. -/
structure Version where
  file : DropFile
  born : Int
deriving DecidableEq

def Version.stamp (v : Version) : Int := v.file.mtime

/-- A frame that was judged: the clock when it was timed, the number of versions when
the list was read, and whether it went on. -/
structure Verdict where
  frame : Frame
  second : Int
  held : Nat
  passed : Bool
deriving DecidableEq

/-- A call of `write`: its frame, and whether the call took the whole of it. -/
structure Write where
  frame : Frame
  taken : Bool

/-- What no step reads: the versions, the clock when the frame in hand was timed, the
frames that were judged and the calls of `write`. -/
structure History where
  watch : Watch Version Int
  second : Int
  verdicts : List Verdict
  writes : List Write

namespace History

/-- The history after a step in the state `w`. -/
def step (w : World) (h : History) : Action → History
  | .publish file => { h with watch := h.watch.publish ⟨file, w.now⟩ }
  | .go =>
      match w.phase with
      | .loading => { h with watch := h.watch.read }
      | .stating => { h with watch := h.watch.look Version.stamp }
      | .timing _ => { h with second := w.now }
      | .checking _ => { h with watch := h.watch.look Version.stamp }
      | .reloading _ => { h with watch := h.watch.read }
      | .judging f =>
          { h with
            verdicts := h.verdicts ++
              [⟨f, h.second, h.watch.held, !dropHas w.dset (pgnOf f.id) (srcOf f.id)⟩] }
      | .writing f => { h with writes := h.writes ++ [⟨f, true⟩] }
      | .reading => h
  | .lose =>
      match w.phase with
      | .writing f => { h with writes := h.writes ++ [⟨f, false⟩] }
      | _ => h
  | _ => h

def start : History := { watch := .start 0, second := 0, verdicts := [], writes := [] }

end History

/-- The state and the history after a run. -/
def runWith (now : Int) (acts : List Action) : World × History :=
  acts.foldl (fun p a => (p.1.step a, p.2.step p.1 a)) (.start now, .start)

/-- The history of a run. -/
def history (now : Int) (acts : List Action) : History := (runWith now acts).2

/-- The frames that arrived. -/
def arrived (acts : List Action) : List Frame :=
  acts.filterMap fun
    | .arrive f => some f
    | _ => none

/-- The frame that the filter has in hand, before it is judged. -/
def Phase.inHand : Phase → List Frame
  | .timing f => [f]
  | .checking f => [f]
  | .reloading f => [f]
  | .judging f => [f]
  | _ => []

/-- The frame that goes on and is not written yet. -/
def Phase.pending : Phase → List Frame
  | .writing f => [f]
  | _ => []

/-- The clock does not go back, and nothing is published between the first `drop_load`
and the first `stat`. -/
def Orderly (w : World) : Action → Prop
  | .publish _ => w.phase ≠ .stating
  | .tick now => w.now ≤ now
  | _ => True

instance (w : World) (a : Action) : Decidable (Orderly w a) :=
  match a with
  | .publish _ => inferInstanceAs (Decidable (_ ≠ _))
  | .tick _ => inferInstanceAs (Decidable (_ ≤ _))
  | .arrive _ => .isTrue trivial
  | .go => .isTrue trivial
  | .lose => .isTrue trivial

/-- Every step is orderly, from the state `w` on. -/
def OrderlyFrom (w : World) : List Action → Prop
  | [] => True
  | a :: acts => Orderly w a ∧ OrderlyFrom (w.step a) acts

instance decidableOrderlyFrom (w : World) :
    (acts : List Action) → Decidable (OrderlyFrom w acts)
  | [] => .isTrue trivial
  | a :: acts =>
      @instDecidableAnd _ _ inferInstance (decidableOrderlyFrom (w.step a) acts)

/-- Every step of a run is orderly. -/
def OrderlyRun (now : Int) (acts : List Action) : Prop := OrderlyFrom (.start now) acts

instance (now : Int) (acts : List Action) : Decidable (OrderlyRun now acts) :=
  decidableOrderlyFrom _ acts

/-! ### The invariant -/

/-- The variables of the filter are those of a reader of the file. -/
structure Tracks (w : World) (h : Watch Version Int) : Prop where
  ok : h.Ok Version.stamp 0
  file : w.file = h.current.map Version.file
  dmtime : w.dmtime = h.stamp
  dset : w.dset = loadFile ((h.at? h.held).map Version.file)

/-- The list in use is not older than the last look, but for the time between a look
and the reading that it calls for. -/
def Caught (w : World) (h : Watch Version Int) : Prop :=
  match w.phase with
  | .stating => h.held = h.versions.length
  | .reloading _ => True
  | _ => h.seen ≤ h.held

/-- The last look was in the second of the frame, or is due. -/
def Timed (w : World) (h : History) : Prop :=
  match w.phase with
  | .checking _ => h.second = w.lastCheck
  | .reloading _ => h.second = w.lastCheck
  | .judging _ => h.second = w.lastCheck
  | _ => True

/-- What was published before the second of the last look was seen by it. -/
structure Timely (w : World) (h : Watch Version Int) : Prop where
  now : w.lastCheck ≤ w.now
  seen : (∀ f, w.phase ≠ .checking f) →
    ∀ i v, h.versions[i]? = some v → v.born < w.lastCheck → i < h.seen

section Step

variable {w : World} {h : History}

theorem Tracks.publish (ht : Tracks w h.watch) (file : DropFile) :
    Tracks (w.step (.publish file)) (h.step w (.publish file)).watch := by
  refine ⟨ht.ok.publish _, ?_, ht.dmtime, ?_⟩
  · simp [World.step, History.step, Watch.current, Watch.publish]
  · show w.dset = loadFile (((h.watch.publish _).at? h.watch.held).map Version.file)
    rw [Watch.at?_publish ht.ok.held, ht.dset]

theorem Tracks.read (ht : Tracks w h.watch) {phase : Phase} :
    Tracks { w with dset := loadFile w.file, phase := phase } h.watch.read := by
  refine ⟨ht.ok.read, ht.file, ht.dmtime, ?_⟩
  show loadFile w.file = loadFile ((h.watch.at? h.watch.versions.length).map Version.file)
  rw [Watch.at?_length, ht.file]

theorem Tracks.look (ht : Tracks w h.watch) (phase : Phase) :
    Tracks { w with dmtime := (w.file.map DropFile.mtime).getD w.dmtime, phase := phase }
      (h.watch.look Version.stamp) := by
  refine ⟨ht.ok.look, ht.file, ?_, ht.dset⟩
  show (w.file.map DropFile.mtime).getD w.dmtime =
    (h.watch.current.map Version.stamp).getD h.watch.stamp
  rw [ht.file, ht.dmtime, Option.map_map]
  rfl

theorem Tracks.other (ht : Tracks w h.watch) {phase : Phase} {rx tx : List Frame}
    {lastCheck now : Int} {nOut nDrop : Nat} :
    Tracks { w with phase := phase, rx := rx, tx := tx, lastCheck := lastCheck,
                    nOut := nOut, nDrop := nDrop, now := now } h.watch :=
  ⟨ht.ok, ht.file, ht.dmtime, ht.dset⟩

/-- The variables stay those of a reader, whoever takes the next step. -/
theorem Tracks.step (ht : Tracks w h.watch) (a : Action) :
    Tracks (w.step a) (h.step w a).watch := by
  cases a with
  | publish file => exact ht.publish file
  | tick now => exact ht.other
  | arrive f => exact ht.other
  | go =>
      have hlook := ht.look
      simp only [World.step, World.go, History.step]
      cases hphase : w.phase with
      | loading => exact ht.read
      | stating =>
          cases hfile : w.file with
          | none => simpa [hfile] using hlook .reading
          | some file => simpa [hfile] using hlook .reading
      | reading =>
          cases w.rx with
          | nil => exact ht
          | cons f rx => exact ht.other
      | timing f =>
          dsimp only
          split_ifs
          · exact ht.other
          · exact ht.other
      | checking f =>
          cases hfile : w.file with
          | none => simpa [hfile] using hlook (.judging f)
          | some file =>
              dsimp only
              split_ifs with hnew
              · simpa [hfile] using hlook (.reloading f)
              · simpa [hfile, not_not.mp hnew] using hlook (.judging f)
      | reloading f => exact ht.read
      | judging f =>
          dsimp only
          split_ifs
          · exact ht.other
          · exact ht.other
      | writing f => exact ht.other
  | lose =>
      simp only [World.step, World.lose, History.step]
      cases hphase : w.phase with
      | writing f => exact ht.other
      | _ => exact ht

/-- A list that is in use stays as new as the last look, if the stamps tell the versions
apart. -/
theorem Caught.step (hc : Caught w h.watch) (ht : Tracks w h.watch)
    (hfresh : h.watch.Fresh Version.stamp 0) {a : Action} (ha : Orderly w a) :
    Caught (w.step a) (h.step w a).watch := by
  cases a with
  | publish file =>
      unfold Caught at hc ⊢
      simp only [World.step, History.step, Watch.publish]
      cases hphase : w.phase with
      | stating => exact absurd hphase ha
      | reloading f => trivial
      | loading => simpa [hphase] using hc
      | reading => simpa [hphase] using hc
      | timing f => simpa [hphase] using hc
      | checking f => simpa [hphase] using hc
      | judging f => simpa [hphase] using hc
      | writing f => simpa [hphase] using hc
  | tick now => exact hc
  | arrive f => exact hc
  | go =>
      unfold Caught at hc ⊢
      simp only [World.step, World.go, History.step]
      cases hphase : w.phase with
      | loading => rfl
      | stating =>
          rw [hphase] at hc
          cases w.file with
          | none => exact hc.ge
          | some file => exact hc.ge
      | reading =>
          rw [hphase] at hc
          cases hrx : w.rx with
          | nil => simpa [hphase] using hc
          | cons f rx => exact hc
      | timing f =>
          rw [hphase] at hc
          dsimp only
          split_ifs
          · exact hc
          · exact hc
      | checking f =>
          rw [hphase] at hc
          -- nothing new on the disk: the last look saw it all
          have hsame : (∀ v, h.watch.current = some v → v.stamp = h.watch.stamp) →
              (h.watch.look Version.stamp).seen ≤ h.watch.held := by
            intro hsame
            have hseen := Watch.seen_of_unchanged hfresh ht.ok hsame
            exact hseen.ge.trans hc
          have hfile := ht.file
          cases hdisk : w.file with
          | none =>
              refine hsame fun v hv => ?_
              rw [hdisk, hv] at hfile
              cases hfile
          | some file =>
              dsimp only
              split_ifs with hnew
              · trivial
              · refine hsame fun v hv => ?_
                rw [hdisk, hv] at hfile
                rw [← ht.dmtime, ← not_not.mp hnew, Option.some.inj hfile]
                rfl
      | reloading f => exact ht.ok.seen
      | judging f =>
          rw [hphase] at hc
          dsimp only
          split_ifs
          · exact hc
          · exact hc
      | writing f =>
          rw [hphase] at hc
          exact hc
  | lose =>
      unfold Caught at hc ⊢
      simp only [World.step, World.lose, History.step]
      cases hphase : w.phase with
      | writing f =>
          rw [hphase] at hc
          exact hc
      | reloading f => trivial
      | _ => simpa [hphase] using hc

/-- The second of the last look, or of the one that is due. -/
theorem Timely.step (hm : Timely w h.watch) {a : Action} (ha : Orderly w a) :
    Timely (w.step a) (h.step w a).watch := by
  have hseen : ∀ i v, h.watch.versions[i]? = some v → i < h.watch.versions.length :=
    fun i v hv => (List.getElem?_eq_some_iff.mp hv).1
  cases a with
  | publish file =>
      refine ⟨hm.now, fun hphase i v hv hborn => ?_⟩
      simp only [History.step, Watch.publish] at hv ⊢
      by_cases hi : i < h.watch.versions.length
      · rw [List.getElem?_append_left hi] at hv
        exact hm.seen hphase i v hv hborn
      · -- the new version is not older than the last look
        have hlen := (List.getElem?_eq_some_iff.mp hv).1
        rw [List.length_append, List.length_singleton] at hlen
        have hlast : i = h.watch.versions.length := by omega
        rw [hlast, List.getElem?_concat_length] at hv
        rw [← Option.some.inj hv] at hborn
        exact absurd hborn (not_lt.mpr hm.now)
  | tick now => exact ⟨hm.now.trans ha, hm.seen⟩
  | arrive f => exact ⟨hm.now, hm.seen⟩
  | go =>
      simp only [World.step, World.go, History.step]
      cases hphase : w.phase with
      | loading => exact ⟨hm.now, fun _ => hm.seen (by simp [hphase])⟩
      | stating =>
          cases w.file with
          | none => exact ⟨hm.now, fun _ i v hv _ => hseen i v hv⟩
          | some file => exact ⟨hm.now, fun _ i v hv _ => hseen i v hv⟩
      | reading =>
          cases w.rx with
          | nil => exact hm
          | cons f rx => exact ⟨hm.now, fun _ => hm.seen (by simp [hphase])⟩
      | timing f =>
          dsimp only
          split_ifs
          · exact ⟨le_rfl, fun hno => absurd rfl (hno f)⟩
          · exact ⟨hm.now, fun _ => hm.seen (by simp [hphase])⟩
      | checking f =>
          cases w.file with
          | none => exact ⟨hm.now, fun _ i v hv _ => hseen i v hv⟩
          | some file =>
              dsimp only
              split_ifs
              · exact ⟨hm.now, fun _ i v hv _ => hseen i v hv⟩
              · exact ⟨hm.now, fun _ i v hv _ => hseen i v hv⟩
      | reloading f => exact ⟨hm.now, fun _ => hm.seen (by simp [hphase])⟩
      | judging f =>
          dsimp only
          split_ifs
          · exact ⟨hm.now, fun _ => hm.seen (by simp [hphase])⟩
          · exact ⟨hm.now, fun _ => hm.seen (by simp [hphase])⟩
      | writing f => exact ⟨hm.now, fun _ => hm.seen (by simp [hphase])⟩
  | lose =>
      simp only [World.step, World.lose, History.step]
      cases hphase : w.phase with
      | writing f => exact ⟨hm.now, fun _ => hm.seen (by simp [hphase])⟩
      | _ => exact hm

theorem Timed.step (hs : Timed w h) (a : Action) : Timed (w.step a) (h.step w a) := by
  cases a with
  | publish file => exact hs
  | tick now => exact hs
  | arrive f => exact hs
  | go =>
      unfold Timed at hs ⊢
      simp only [World.step, World.go, History.step]
      cases hphase : w.phase with
      | loading => trivial
      | stating => cases w.file <;> trivial
      | reading =>
          cases w.rx with
          | nil => simp [hphase]
          | cons f rx => trivial
      | timing f =>
          dsimp only
          split_ifs with hnew
          · rfl
          · exact not_not.mp hnew
      | checking f =>
          rw [hphase] at hs
          cases w.file with
          | none => exact hs
          | some file =>
              dsimp only
              split_ifs
              · exact hs
              · exact hs
      | reloading f =>
          rw [hphase] at hs
          exact hs
      | judging f =>
          dsimp only
          split_ifs
          · trivial
          · trivial
      | writing f => trivial
  | lose =>
      unfold Timed at hs ⊢
      simp only [World.step, World.lose, History.step]
      cases hphase : w.phase with
      | checking f => simpa [hphase] using hs
      | reloading f => simpa [hphase] using hs
      | judging f => simpa [hphase] using hs
      | _ => simp [hphase]

end Step

/-! ### The frames that were judged -/

/-- The list by which a frame was judged is that of a version which is not older than
the second of the frame. -/
structure Justified (h : Watch Version Int) (v : Verdict) : Prop where
  held : v.held ≤ h.versions.length
  recent : ∀ i p, h.versions[i]? = some p → p.born < v.second → i < v.held
  passed : v.passed = !dropHas (loadFile ((h.at? v.held).map Version.file))
    (pgnOf v.frame.id) (srcOf v.frame.id)

/-- What holds of the filter in every state of a run. -/
structure Sound (w : World) (h : History) : Prop where
  tracks : Tracks w h.watch
  caught : Caught w h.watch
  timely : Timely w h.watch
  timed : Timed w h
  second : ∀ v ∈ h.verdicts, v.second ≤ w.now
  justified : ∀ v ∈ h.verdicts, Justified h.watch v

section Verdicts

variable {w : World} {h : History}

theorem Justified.publish {x : Watch Version Int} {v : Verdict} (hv : Justified x v)
    {p : Version} (hborn : v.second ≤ p.born) :
    Justified (x.publish p) v := by
  refine ⟨hv.held.trans (by simp [Watch.publish]), fun i q hq hlt => ?_, ?_⟩
  · simp only [Watch.publish] at hq
    by_cases hi : i < x.versions.length
    · rw [List.getElem?_append_left hi] at hq
      exact hv.recent i q hq hlt
    · have hlen := (List.getElem?_eq_some_iff.mp hq).1
      rw [List.length_append, List.length_singleton] at hlen
      have hlast : i = x.versions.length := by omega
      rw [hlast, List.getElem?_concat_length] at hq
      rw [← Option.some.inj hq] at hlt
      omega
  · rw [hv.passed, Watch.at?_publish hv.held]

/-- Steps other than judging leave the frames that were judged. -/
theorem Sound.of_same (hs : Sound w h) {w' : World} {h' : History}
    (ht : Tracks w' h'.watch)
    (hc : Caught w' h'.watch)
    (hm : Timely w' h'.watch)
    (htimed : Timed w' h')
    (hnow : w.now ≤ w'.now)
    (hverdicts : h'.verdicts = h.verdicts)
    (hversions : h'.watch.versions = h.watch.versions) :
    Sound w' h' := by
  refine ⟨ht, hc, hm, htimed, fun v hv => ?_, fun v hv => ?_⟩
  · rw [hverdicts] at hv
    exact (hs.second v hv).trans hnow
  · rw [hverdicts] at hv
    have hj := hs.justified v hv
    have hat : h'.watch.at? v.held = h.watch.at? v.held := by
      rw [Watch.at?, Watch.at?, hversions]
    exact ⟨hversions ▸ hj.held, hversions ▸ hj.recent, hat ▸ hj.passed⟩

/-- A frame is judged by a list that is not older than its second. -/
theorem Sound.judge (hs : Sound w h) {f : Frame} (hphase : w.phase = .judging f) :
    Justified h.watch ⟨f, h.second, h.watch.held,
      !dropHas w.dset (pgnOf f.id) (srcOf f.id)⟩ := by
  have hc := hs.caught
  rw [Caught, hphase] at hc
  have hsecond := hs.timed
  rw [Timed, hphase] at hsecond
  refine ⟨hs.tracks.ok.held, fun i p hp hborn => ?_, ?_⟩
  · exact (hs.timely.seen (by simp [hphase]) i p hp (hsecond ▸ hborn)).trans_le hc
  · rw [← hs.tracks.dset]

/-- A frame was judged. -/
theorem Sound.of_verdict (hs : Sound w h) {w' : World} {h' : History} {v : Verdict}
    (ht : Tracks w' h'.watch)
    (hc : Caught w' h'.watch)
    (hm : Timely w' h'.watch)
    (htimed : Timed w' h')
    (hnow : w'.now = w.now)
    (hwatch : h'.watch = h.watch)
    (hverdicts : h'.verdicts = h.verdicts ++ [v])
    (hsecond : v.second ≤ w.now)
    (hv : Justified h.watch v) :
    Sound w' h' := by
  have hmem : ∀ u ∈ h'.verdicts, u ∈ h.verdicts ∨ u = v := by
    intro u hu
    rw [hverdicts] at hu
    exact (List.mem_append.mp hu).imp_right List.mem_singleton.mp
  refine ⟨ht, hc, hm, htimed, fun u hu => ?_, fun u hu => ?_⟩
  · rw [hnow]
    rcases hmem u hu with hu | rfl
    · exact hs.second u hu
    · exact hsecond
  · rw [hwatch]
    rcases hmem u hu with hu | rfl
    · exact hs.justified u hu
    · exact hv

/-- Every step of anybody keeps it. -/
theorem Sound.step (hs : Sound w h) (hfresh : h.watch.Fresh Version.stamp 0) {a : Action}
    (ha : Orderly w a) :
    Sound (w.step a) (h.step w a) := by
  have ht := hs.tracks.step a
  have hc := hs.caught.step hs.tracks hfresh ha
  have hm := hs.timely.step ha
  have htimed := hs.timed.step a
  cases a with
  | publish file =>
      refine ⟨ht, hc, hm, htimed, hs.second, fun v hv => ?_⟩
      exact (hs.justified v hv).publish (hs.second v hv)
  | tick now => exact hs.of_same ht hc hm htimed ha rfl rfl
  | arrive f => exact hs.of_same ht hc hm htimed le_rfl rfl rfl
  | go =>
      have hnow : w.go.now = w.now := by
        unfold World.go
        cases w.phase with
        | reading => cases w.rx <;> rfl
        | stating => cases w.file <;> rfl
        | timing f => dsimp only; split_ifs <;> rfl
        | checking f =>
            cases w.file with
            | none => rfl
            | some file => dsimp only; split_ifs <;> rfl
        | judging f => dsimp only; split_ifs <;> rfl
        | _ => rfl
      by_cases hjudging : ∃ f, w.phase = .judging f
      · obtain ⟨f, hphase⟩ := hjudging
        have hsecond := hs.timed
        rw [Timed, hphase] at hsecond
        refine hs.of_verdict ht hc hm htimed hnow ?_ ?_ (hsecond.trans_le hs.timely.now)
          (hs.judge hphase)
        · simp only [History.step, hphase]
        · simp only [History.step, hphase]
      · have hsame : (h.step w .go).verdicts = h.verdicts ∧
            (h.step w .go).watch.versions = h.watch.versions := by
          simp only [History.step]
          cases hphase : w.phase with
          | judging f => exact absurd ⟨f, hphase⟩ hjudging
          | _ => exact ⟨rfl, rfl⟩
        exact hs.of_same ht hc hm htimed hnow.ge hsame.1 hsame.2
  | lose =>
      have hsame : w.lose.now = w.now ∧ (h.step w .lose).verdicts = h.verdicts ∧
          (h.step w .lose).watch.versions = h.watch.versions := by
        simp only [World.lose, History.step]
        cases w.phase <;> exact ⟨rfl, rfl, rfl⟩
      obtain ⟨hnow, hverdicts, hversions⟩ := hsame
      exact hs.of_same ht hc hm htimed hnow.ge hverdicts hversions

end Verdicts

/-! ### The books -/

/-- Every frame that goes on is given to one call of `write`, in order, and the bus has
those that were taken; the counters count. -/
structure Balanced (w : World) (h : History) : Prop where
  passed : (h.verdicts.filter Verdict.passed).map Verdict.frame =
    h.writes.map Write.frame ++ w.phase.pending
  tx : w.tx = (h.writes.filter Write.taken).map Write.frame
  nOut : w.nOut = w.tx.length
  nDrop : w.nDrop = h.verdicts.countP fun v => !v.passed

section Books

variable {w : World} {h : History}

/-- Steps that judge and write nothing leave the books. -/
theorem Balanced.of_same (hb : Balanced w h) {w' : World} {h' : History}
    (hpending : w'.phase.pending = w.phase.pending)
    (hverdicts : h'.verdicts = h.verdicts)
    (hwrites : h'.writes = h.writes)
    (hbus : w'.tx = w.tx ∧ w'.nOut = w.nOut ∧ w'.nDrop = w.nDrop) :
    Balanced w' h' := by
  obtain ⟨htx, hout, hdrop⟩ := hbus
  refine ⟨?_, ?_, ?_, ?_⟩
  · rw [hverdicts, hwrites, hpending, hb.passed]
  · rw [htx, hwrites, hb.tx]
  · rw [hout, htx, hb.nOut]
  · rw [hdrop, hverdicts, hb.nDrop]

/-- A call of `write`. -/
theorem Balanced.write (hb : Balanced w h) {f : Frame} (hphase : w.phase = .writing f) :
    Balanced w.go { h with writes := h.writes ++ [⟨f, true⟩] } ∧
      Balanced w.lose { h with writes := h.writes ++ [⟨f, false⟩] } := by
  have hpassed : (h.verdicts.filter Verdict.passed).map Verdict.frame =
      h.writes.map Write.frame ++ [f] := by
    rw [hb.passed, hphase]
    rfl
  constructor
  · simp only [World.go, hphase]
    refine ⟨?_, ?_, ?_, hb.nDrop⟩
    · simp [hpassed, Phase.pending]
    · simp [hb.tx]
    · simp [hb.nOut]
  · simp only [World.lose, hphase]
    refine ⟨?_, ?_, hb.nOut, hb.nDrop⟩
    · simp [hpassed, Phase.pending]
    · simp [hb.tx]

/-- A frame is judged. -/
theorem Balanced.judge (hb : Balanced w h) {f : Frame} (hphase : w.phase = .judging f) :
    Balanced (w.step .go) (h.step w .go) := by
  have hpassed : (h.verdicts.filter Verdict.passed).map Verdict.frame =
      h.writes.map Write.frame := by
    rw [hb.passed, hphase]
    exact List.append_nil _
  simp only [World.step, World.go, History.step, hphase]
  cases hdrop : dropHas w.dset (pgnOf f.id) (srcOf f.id) with
  | true => exact ⟨by simp [hpassed, Phase.pending], hb.tx, hb.nOut, by simp [hb.nDrop]⟩
  | false => exact ⟨by simp [hpassed, Phase.pending], hb.tx, hb.nOut, by simp [hb.nDrop]⟩

/-- Every step of anybody keeps the books balanced. -/
theorem Balanced.step (hb : Balanced w h) (a : Action) :
    Balanced (w.step a) (h.step w a) := by
  cases a with
  | publish file => exact hb.of_same rfl rfl rfl ⟨rfl, rfl, rfl⟩
  | tick now => exact hb.of_same rfl rfl rfl ⟨rfl, rfl, rfl⟩
  | arrive f => exact hb.of_same rfl rfl rfl ⟨rfl, rfl, rfl⟩
  | lose =>
      cases hphase : w.phase with
      | writing f => simpa only [World.step, History.step, hphase] using (hb.write hphase).2
      | _ => simpa only [World.step, World.lose, History.step, hphase] using hb
  | go =>
      cases hphase : w.phase with
      | judging f => exact hb.judge hphase
      | writing f => simpa only [World.step, History.step, hphase] using (hb.write hphase).1
      | loading =>
          simp only [World.step, World.go, History.step, hphase]
          exact hb.of_same (by rw [hphase]; rfl) rfl rfl ⟨rfl, rfl, rfl⟩
      | stating =>
          simp only [World.step, World.go, History.step, hphase]
          cases w.file <;> exact hb.of_same (by rw [hphase]; rfl) rfl rfl ⟨rfl, rfl, rfl⟩
      | reading =>
          simp only [World.step, World.go, History.step, hphase]
          cases w.rx with
          | nil => exact hb
          | cons f rx => exact hb.of_same (by rw [hphase]; rfl) rfl rfl ⟨rfl, rfl, rfl⟩
      | timing f =>
          simp only [World.step, World.go, History.step, hphase]
          split_ifs <;> exact hb.of_same (by rw [hphase]; rfl) rfl rfl ⟨rfl, rfl, rfl⟩
      | checking f =>
          simp only [World.step, World.go, History.step, hphase]
          cases w.file with
          | none => exact hb.of_same (by rw [hphase]; rfl) rfl rfl ⟨rfl, rfl, rfl⟩
          | some file =>
              dsimp only
              split_ifs <;> exact hb.of_same (by rw [hphase]; rfl) rfl rfl ⟨rfl, rfl, rfl⟩
      | reloading f =>
          simp only [World.step, World.go, History.step, hphase]
          exact hb.of_same (by rw [hphase]; rfl) rfl rfl ⟨rfl, rfl, rfl⟩

end Books

/-! ### Runs -/

theorem runWith_fst (now : Int) (acts : List Action) :
    (runWith now acts).1 = run now acts := by
  have hfold : ∀ (acts : List Action) (p : World × History),
      (acts.foldl (fun p a => (p.1.step a, p.2.step p.1 a)) p).1 =
        acts.foldl World.step p.1 := by
    intro acts
    induction acts with
    | nil => exact fun p => rfl
    | cons a acts ih => exact fun p => ih _
  exact hfold acts _

theorem run_append_singleton (now : Int) (acts : List Action) (a : Action) :
    run now (acts ++ [a]) = (run now acts).step a := by
  simp [run]

theorem history_append_singleton (now : Int) (acts : List Action) (a : Action) :
    history now (acts ++ [a]) = (history now acts).step (run now acts) a := by
  rw [← runWith_fst]
  simp [history, runWith]

/-- A step publishes at most one version. -/
theorem versions_step (w : World) (h : History) (a : Action) :
    h.watch.versions <+: (h.step w a).watch.versions := by
  cases a with
  | publish file => exact List.prefix_append _ _
  | tick now => exact List.prefix_rfl
  | arrive f => exact List.prefix_rfl
  | go =>
      unfold History.step
      cases w.phase <;> exact List.prefix_rfl
  | lose =>
      unfold History.step
      cases w.phase <;> exact List.prefix_rfl

theorem Fresh.of_prefix {x y : Watch Version Int} (hy : y.Fresh Version.stamp 0)
    (h : x.versions <+: y.versions) :
    x.Fresh Version.stamp 0 :=
  List.Nodup.sublist ((h.map Version.stamp).sublist.cons_cons 0) hy

theorem orderlyFrom_append_singleton {w : World} {acts : List Action} {a : Action} :
    OrderlyFrom w (acts ++ [a]) ↔
      OrderlyFrom w acts ∧ Orderly (acts.foldl World.step w) a := by
  induction acts generalizing w with
  | nil => simp [OrderlyFrom]
  | cons b acts ih =>
      rw [List.cons_append, OrderlyFrom, OrderlyFrom, ih, List.foldl_cons, and_assoc]

/-- The invariant of every run. -/
theorem sound_run {now : Int} {acts : List Action}
    (hnow : 0 ≤ now)
    (hfresh : (history now acts).watch.Fresh Version.stamp 0)
    (horderly : OrderlyRun now acts) :
    Sound (run now acts) (history now acts) := by
  induction acts using List.reverseRecOn with
  | nil =>
      refine ⟨⟨Watch.ok_start, rfl, rfl, rfl⟩, Nat.le_refl 0, ⟨hnow, ?_⟩, trivial, ?_, ?_⟩
      · exact fun _ i v hv => by simp [history, runWith, History.start, Watch.start] at hv
      · exact fun v hv => absurd hv List.not_mem_nil
      · exact fun v hv => absurd hv List.not_mem_nil
  | append_singleton acts a ih =>
      rw [history_append_singleton] at hfresh ⊢
      have hbefore := Fresh.of_prefix hfresh (versions_step _ _ a)
      obtain ⟨hacts, ha⟩ := orderlyFrom_append_singleton.mp horderly
      rw [run_append_singleton]
      exact (ih hbefore hacts).step hbefore ha

/-- The books of every run balance. -/
theorem balanced_run (now : Int) (acts : List Action) :
    Balanced (run now acts) (history now acts) := by
  induction acts using List.reverseRecOn with
  | nil => exact ⟨rfl, rfl, rfl, rfl⟩
  | append_singleton acts a ih =>
      rw [run_append_singleton, history_append_singleton]
      exact ih.step a

/-- Every frame that was read is judged once, in order. -/
theorem arrived_eq (now : Int) (acts : List Action) :
    arrived acts = (history now acts).verdicts.map Verdict.frame ++
      ((run now acts).phase.inHand ++ (run now acts).rx) := by
  induction acts using List.reverseRecOn with
  | nil => rfl
  | append_singleton acts a ih =>
      have harrived : arrived (acts ++ [a]) = arrived acts ++ arrived [a] :=
        List.filterMap_append
      rw [harrived, ih, history_append_singleton, run_append_singleton]
      generalize run now acts = w
      generalize history now acts = h
      cases a with
      | publish file => simp [arrived, World.step, History.step]
      | tick now => simp [arrived, World.step, History.step]
      | arrive f => simp [arrived, World.step, History.step]
      | go =>
          simp only [World.step, World.go, History.step]
          cases hphase : w.phase with
          | loading => simp [arrived, Phase.inHand]
          | stating => cases w.file <;> simp [arrived, Phase.inHand]
          | reading => cases hrx : w.rx <;> simp [arrived, Phase.inHand, hphase, hrx]
          | timing f => dsimp only; split_ifs <;> simp [arrived, Phase.inHand]
          | checking f =>
              cases w.file with
              | none => simp [arrived, Phase.inHand]
              | some file => dsimp only; split_ifs <;> simp [arrived, Phase.inHand]
          | reloading f => simp [arrived, Phase.inHand]
          | judging f => dsimp only; split_ifs <;> simp [arrived, Phase.inHand]
          | writing f => simp [arrived, Phase.inHand]
      | lose =>
          simp only [World.step, World.lose, History.step]
          cases hphase : w.phase <;> simp [arrived, Phase.inHand, hphase]

/-- Whatever the order of the steps, if the clock does not go back, no list comes between
the first `drop_load` and the first `stat`, and each has a modification time of its own:
the frames that arrived are judged in order, those that go on are written in order, and
the bus has those that `write` took.  The list that judges a frame was published, and
every list from before the second of the frame is at least as old. -/
theorem forwarded_frames {now : Int} {acts : List Action} {listed : Version → LosersFile}
    (hnow : 0 ≤ now)
    (horderly : OrderlyRun now acts)
    (hfresh : (history now acts).watch.Fresh Version.stamp 0)
    (hlisted : ∀ v ∈ (history now acts).watch.versions,
      v.file.text = (listed v).text ∧ Agrees (listed v)) :
    arrived acts = (history now acts).verdicts.map Verdict.frame ++
        ((run now acts).phase.inHand ++ (run now acts).rx) ∧
      ((history now acts).verdicts.filter Verdict.passed).map Verdict.frame =
        (history now acts).writes.map Write.frame ++ (run now acts).phase.pending ∧
      (run now acts).tx =
        ((history now acts).writes.filter Write.taken).map Write.frame ∧
      ∀ v ∈ (history now acts).verdicts,
        (∀ i p, (history now acts).watch.versions[i]? = some p → p.born < v.second →
          i < v.held) ∧
        (v.passed = false ↔ ∃ p, (history now acts).watch.at? v.held = some p ∧
          ((pgnOf v.frame.id, srcOf v.frame.id) ∈ (listed p).losers ∨
            pgnOf v.frame.id ∈ (listed p).cut)) := by
  have hs := sound_run hnow hfresh horderly
  have hb := balanced_run now acts
  refine ⟨arrived_eq now acts, hb.passed, hb.tx, fun v hv => ?_⟩
  have hj := hs.justified v hv
  refine ⟨hj.recent, ?_⟩
  rw [hj.passed, Bool.not_eq_false']
  cases hat : (history now acts).watch.at? v.held with
  | none => simp [loadFile, dropHas, Table.empty]
  | some p =>
      have hmem : p ∈ (history now acts).watch.versions :=
        List.mem_of_mem_take (List.mem_of_getLast? hat)
      obtain ⟨htext, hagrees⟩ := hlisted p hmem
      have hload : loadFile ((some p).map Version.file) = dropLoad (listed p).text := by
        rw [← htext]
        rfl
      rw [hload, hagrees]
      simp

/-- The position PGN loses from address 5. -/
def positionList : LosersFile := { losers := [(129025, 5)], cut := [] }

/-- The list comes after the start; in the next second the position arrives from the
addresses 5, 6 and 7, and the bus does not take the one from 6. -/
def positionRun : List Action :=
  [.go, .go, .publish ⟨positionList.text, 10⟩, .tick 11, .arrive ⟨0x89F80105, []⟩,
    .arrive ⟨0x89F80106, []⟩, .arrive ⟨0x89F80107, []⟩] ++ List.replicate 8 .go ++
      [.lose] ++ List.replicate 4 .go

/-- The frame from 5 is dropped, and is in the list; the frame from 6 is lost. -/
theorem forwarded_frames_position :
    arrived positionRun = (history 10 positionRun).verdicts.map Verdict.frame ∧
      (run 10 positionRun).tx =
        ((history 10 positionRun).writes.filter Write.taken).map Write.frame ∧
      (run 10 positionRun).tx = [⟨0x89F80107, []⟩] ∧ (run 10 positionRun).nDrop = 1 ∧
      ∃ v ∈ (history 10 positionRun).verdicts, v.frame = ⟨0x89F80105, []⟩ ∧
        ∃ p, (history 10 positionRun).watch.at? v.held = some p ∧
          ((pgnOf v.frame.id, srcOf v.frame.id) ∈ positionList.losers ∨
            pgnOf v.frame.id ∈ positionList.cut) := by
  have hread : ∀ x ∈ entries positionList, Readable x := by
    intro x hx
    rw [List.mem_singleton.mp hx]
    exact ⟨by decide, by decide⟩
  have hagrees : Agrees positionList :=
    (agrees_iff_kept hread (by decide) (by decide)).mpr ⟨by decide, by simp [positionList]⟩
  have hversions : (history 10 positionRun).watch.versions =
      [⟨⟨positionList.text, 10⟩, 10⟩] := by
    decide +kernel
  have hfresh : (history 10 positionRun).watch.Fresh Version.stamp 0 := by
    rw [Watch.Fresh, hversions]
    decide
  obtain ⟨harrived, -, htx, hjudged⟩ :=
    @forwarded_frames 10 positionRun (fun _ => positionList) (by decide)
      (by decide +kernel) hfresh (by
        rw [hversions]
        intro v hv
        rw [List.mem_singleton.mp hv]
        exact ⟨rfl, hagrees⟩)
  have hempty : (run 10 positionRun).phase.inHand ++ (run 10 positionRun).rx = [] := by
    decide +kernel
  rw [hempty, List.append_nil] at harrived
  have hfirst : (⟨⟨0x89F80105, []⟩, 11, 1, false⟩ : Verdict) ∈
      (history 10 positionRun).verdicts := by
    decide +kernel
  exact ⟨harrived, htx, by decide +kernel, by decide +kernel, _, hfirst, rfl,
    (hjudged _ hfirst).2.mp rfl⟩

/-! ### The start -/

/-- Nothing is published. -/
def Action.quiet : Action → Bool
  | .publish _ => false
  | _ => true

/-- The filter has started, the list of that time is the file, and the set does not come
from it: the filter takes the file for the one that it had read. -/
structure Missed (new : DropFile) (dset : Table fdropMax (Int × Int)) (w : World) :
    Prop where
  file : w.file = some new
  dmtime : w.dmtime = new.mtime
  dset : w.dset = dset
  loaded : w.phase ≠ .loading
  stated : w.phase ≠ .stating
  keeps : ∀ f, w.phase ≠ .reloading f

/-- What does not come from the daemon or from the filter. -/
def Action.outside : Action → Bool
  | .tick _ => true
  | .arrive _ => true
  | _ => false

/-- The filter is about to look at the file, which is not the one that it has read. -/
structure Raced (new : DropFile) (dset : Table fdropMax (Int × Int)) (w : World) :
    Prop where
  file : w.file = some new
  dset : w.dset = dset
  phase : w.phase = .stating

theorem Raced.run {new : DropFile} {dset : Table fdropMax (Int × Int)} {w : World}
    (h : Raced new dset w)
    {acts : List Action}
    (hacts : ∀ a ∈ acts, a.outside = true) :
    Raced new dset (acts.foldl World.step w) := by
  induction acts generalizing w with
  | nil => exact h
  | cons a acts ih =>
      have ha : a.outside = true := hacts a List.mem_cons_self
      refine ih ?_ fun b hb => hacts b (List.mem_cons_of_mem a hb)
      cases a with
      | tick now => exact ⟨h.file, h.dset, h.phase⟩
      | arrive f => exact ⟨h.file, h.dset, h.phase⟩
      | publish file => cases ha
      | go => cases ha
      | lose => cases ha

/-- It takes the time of the file for that of the one it has read. -/
theorem Raced.missed {new : DropFile} {dset : Table fdropMax (Int × Int)} {w : World}
    (h : Raced new dset w) : Missed new dset (w.step .go) := by
  constructor
  all_goals simp [World.step, World.go, h.phase, h.file, h.dset]

theorem Missed.step {new : DropFile} {dset : Table fdropMax (Int × Int)} {w : World}
    (h : Missed new dset w)
    {a : Action}
    (ha : a.quiet = true) :
    Missed new dset (w.step a) := by
  obtain ⟨hfile, hmtime, hdset, hload, hstat, hreload⟩ := h
  cases a with
  | publish file => cases ha
  | tick now => exact ⟨hfile, hmtime, hdset, hload, hstat, hreload⟩
  | arrive f => exact ⟨hfile, hmtime, hdset, hload, hstat, hreload⟩
  | go =>
      -- the times agree, so that nothing is read again
      rw [World.step, World.go]
      cases hphase : w.phase with
      | loading => exact absurd hphase hload
      | stating => exact absurd hphase hstat
      | reloading f => exact absurd hphase (hreload f)
      | reading =>
          cases w.rx with
          | nil => exact ⟨hfile, hmtime, hdset, hload, hstat, hreload⟩
          | cons f rx => constructor <;> simp [hfile, hmtime, hdset]
      | timing f => dsimp only; split_ifs <;> constructor <;> simp [hfile, hmtime, hdset]
      | checking f => constructor <;> simp [hfile, hmtime, hdset]
      | judging f => dsimp only; split_ifs <;> constructor <;> simp [hfile, hmtime, hdset]
      | writing f => constructor <;> simp [hfile, hmtime, hdset]
  | lose =>
      rw [World.step, World.lose]
      cases hphase : w.phase with
      | writing f => constructor <;> simp [hfile, hmtime, hdset]
      | _ => exact ⟨hfile, hmtime, hdset, hload, hstat, hreload⟩

theorem Missed.run {new : DropFile} {dset : Table fdropMax (Int × Int)} {w : World}
    (h : Missed new dset w)
    {acts : List Action}
    (hquiet : ∀ a ∈ acts, a.quiet = true) :
    Missed new dset (acts.foldl World.step w) := by
  induction acts generalizing w with
  | nil => exact h
  | cons a acts ih =>
      exact ih (h.step (hquiet a List.mem_cons_self))
        fun b hb => hquiet b (List.mem_cons_of_mem a hb)

/-- A list that is published between the first `drop_load` and the first `stat` is not
used: until another one is published, the filter keeps the one that it had read. -/
theorem startup_race {now : Int} {before between after : List Action} {new : DropFile}
    (hphase : (run now before).phase = .stating)
    (hbetween : ∀ a ∈ between, a.outside = true)
    (hquiet : ∀ a ∈ after, a.quiet = true) :
    let w := run now (before ++ .publish new :: between ++ .go :: after)
    w.file = some new ∧ w.dset = (run now before).dset := by
  have hraced : Raced new (run now before).dset ((run now before).step (.publish new)) :=
    ⟨rfl, rfl, hphase⟩
  have hmissed := ((hraced.run hbetween).missed).run hquiet
  have hrun : run now (before ++ .publish new :: between ++ .go :: after) =
      after.foldl World.step ((between.foldl World.step
        ((run now before).step (.publish new))).step .go) := by
    simp [run]
  rw [hrun]
  exact ⟨hmissed.file, hmissed.dset⟩

/-- The position loses from address 5 while the filter starts. -/
theorem startup_race_position :
    let acts := [.go] ++ .publish ⟨positionList.text, 10⟩ :: [.tick 11] ++ .go ::
      .arrive ⟨0x89F80105, []⟩ :: List.replicate 5 .go
    (run 10 acts).file = some ⟨positionList.text, 10⟩ ∧
      (run 10 acts).dset = (run 10 [.go]).dset ∧
      (run 10 acts).tx = [⟨0x89F80105, []⟩] := by
  obtain ⟨hfile, hdset⟩ := @startup_race 10 [.go] [.tick 11]
    (.arrive ⟨0x89F80105, []⟩ :: List.replicate 5 .go) ⟨positionList.text, 10⟩ rfl
    (by decide) (by decide)
  exact ⟨hfile, hdset, by decide +kernel⟩

end CanFilter
end N2kMux
