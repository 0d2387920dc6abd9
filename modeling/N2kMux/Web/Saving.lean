import N2kMux.Config.EntryPoints
import N2kMux.IniMerge.Model
import N2kMux.Lib.Files
import N2kMux.Web.Client

/-!
# Saving the configuration (web.c, daemon.c)

The web server merges the posted configuration into the file, keeps a copy of the file,
writes a temporary file and renames it.  The daemon opens the file at any time, at its
start or after a SIGHUP, and reads it later.  The steps of both are interleaved here in
any order; every call that opens a file to write it, writes it or renames it may fail, and
the server may be killed anywhere.  What is there to read is read.

`saved_configs` says that the daemon only ever reads whole configurations that the parser
accepted.
-/

namespace N2kMux
namespace Web
namespace Saving

open Config (configLoad configParseString)
open Files (Disk Sealed Free)

/-! ### The server -/

/-- The names of the configuration, of its copy and of the temporary file. -/
inductive Name where
  | config
  | bak
  | tmp
deriving DecidableEq

/-- `FILE_MAX` -/
def fileMax : Nat := 65536

/-- `read_file`, into a buffer of `FILE_MAX` bytes. -/
def readFile (d : Disk Name) : Option Text := (d.read? .config).map (·.take (fileMax - 1))

/-- The merged text, if there is one and the parser accepts it. -/
def merged? (old body : Text) : Option Text :=
  match IniMerge.iniMerge (cstr old) body fileMax with
  | none => none
  | some m =>
      if m = [] then none
      else
        match configParseString m with
        | .ok _ => some m
        | .error _ => none

/-- What `handle_config_post` writes. -/
def toWrite (old : Option Text) (body : Text) : Text :=
  match old with
  | none => body
  | some old => if old = [] then body else (merged? old body).getD body

/-- Where `handle_config_post` is, with the text that it writes. -/
inductive Phase where
  | idle
  /-- before the copy is opened -/
  | backing (text : Text)
  /-- before more of the copy is written; `left` is what is left -/
  | copying (i : ℕ) (left text : Text)
  /-- before the temporary file is opened -/
  | opening (text : Text)
  /-- before more of the temporary file is written -/
  | writing (i : ℕ) (left text : Text)
  /-- before the rename -/
  | replacing (text : Text)

/-- The disk, the server, the configuration that the daemon uses if it runs, and the
file that it has opened. -/
structure World where
  disk : Disk Name
  phase : Phase
  daemon : Option Config
  opened : Option ℕ

/-- What happens: a body is posted; the next call of the server succeeds, a `write` with
`n + 1` bytes at most, or fails; the server is killed and starts again; the daemon opens
the file, reads what it has opened, or ends. -/
inductive Action where
  | post (body : Text)
  | go (n : ℕ)
  | fail
  | kill
  | opens
  | load
  | exit

/-- `handle_config_post` up to the copy. -/
def World.post (w : World) (body : Text) : World :=
  match w.phase with
  | .idle =>
      match configParseString body with
      | .error _ => w
      | .ok _ =>
          let old := readFile w.disk
          let text := toWrite old body
          -- there is no copy of a file that is not there, or empty
          if old.getD [] = [] then { w with phase := .opening text }
          else { w with phase := .backing text }
  | _ => w

/-- The next call of the server, when it succeeds. -/
def World.go (w : World) (n : ℕ) : World :=
  match w.phase with
  | .idle => w
  | .backing text =>
      let r := w.disk.truncate .bak
      { w with disk := r.2, phase := .copying r.1 ((readFile w.disk).getD []) text }
  | .copying i left text =>
      if left = [] then { w with phase := .opening text }
      else
        { w with
          disk := w.disk.append i (left.take (n + 1))
          phase := .copying i (left.drop (n + 1)) text }
  | .opening text =>
      let r := w.disk.truncate .tmp
      { w with disk := r.2, phase := .writing r.1 text text }
  | .writing i left text =>
      if left = [] then { w with phase := .replacing text }
      else
        { w with
          disk := w.disk.append i (left.take (n + 1))
          phase := .writing i (left.drop (n + 1)) text }
  | .replacing _ => { w with disk := w.disk.rename .tmp .config, phase := .idle }

/-- The next call of the server, when it fails: without the copy it goes on, otherwise it
removes the temporary file. -/
def World.fail (w : World) : World :=
  match w.phase with
  | .idle => w
  | .backing text => { w with phase := .opening text }
  | .copying _ _ text => { w with phase := .opening text }
  | .opening _ => { w with disk := w.disk.unlink .tmp, phase := .idle }
  | .writing _ _ _ => { w with disk := w.disk.unlink .tmp, phase := .idle }
  | .replacing _ => { w with disk := w.disk.unlink .tmp, phase := .idle }

/-- `config_load` of what the daemon has opened: `config_reload` keeps the configuration
in use when the parser rejects the text, and `main` ends. -/
def World.load (path : Text) (w : World) : World :=
  match w.opened with
  | none => w
  | some i =>
      match configLoad path (some (w.disk.data i)) with
      | .ok c => { w with daemon := some c, opened := none }
      | .error _ => { w with opened := none }

/-- One step of anybody. -/
def World.step (path : Text) (w : World) : Action → World
  | .post body => w.post body
  | .go n => w.go n
  | .fail => w.fail
  | .kill => { w with phase := .idle }
  | .opens => { w with opened := w.disk.names .config }
  | .load => w.load path
  | .exit => { w with daemon := none, opened := none }

/-- A disk with the configuration `text` and nothing else. -/
def World.start (text : Text) : World :=
  { disk := { names := fun m => if m = .config then some 0 else none
              data := fun _ => text, size := 1 }
    phase := .idle, daemon := none, opened := none }

/-- The text that a step installs under the name of the configuration. -/
def World.installs (w : World) : Action → List Text
  | .go _ =>
      match w.phase with
      | .replacing text => [text]
      | _ => []
  | _ => []

/-- The state after a run, and the versions of the configuration. -/
def runWith (path text : Text) (acts : List Action) : World × List Text :=
  acts.foldl (fun p a => (p.1.step path a, p.2 ++ p.1.installs a)) (.start text, [text])

/-- The state after a run. -/
def run (path text : Text) (acts : List Action) : World := (runWith path text acts).1

/-- The texts that were the configuration, one after the other. -/
def versions (path text : Text) (acts : List Action) : List Text :=
  (runWith path text acts).2

/-- The parser of the server accepts the text. -/
def Accepted (text : Text) : Prop := ∃ c, configParseString text = .ok c

/-- The text is what the server writes for an accepted body, over a version that it
read. -/
def Chosen (acts : List Action) (vs : List Text) (text : Text) : Prop :=
  ∃ body, .post body ∈ acts ∧ Accepted body ∧
    ∃ old ∈ vs, text = toWrite (some (old.take (fileMax - 1))) body

/-! ### The invariant -/

theorem accepted_merged {old body m : Text} (h : merged? old body = some m) :
    Accepted m := by
  rw [merged?] at h
  cases hmerge : IniMerge.iniMerge (cstr old) body fileMax with
  | none => rw [hmerge] at h; cases h
  | some m' =>
      rw [hmerge] at h
      simp only at h
      split_ifs at h
      cases hparse : configParseString m' with
      | error e => rw [hparse] at h; cases h
      | ok c =>
          rw [hparse] at h
          obtain rfl := Option.some.inj h
          exact ⟨c, hparse⟩

/-- What is written is accepted with the body. -/
theorem accepted_toWrite {old : Option Text} {body : Text} (h : Accepted body) :
    Accepted (toWrite old body) := by
  cases old with
  | none => exact h
  | some old =>
      rw [toWrite]
      split_ifs
      · exact h
      · cases hmerged : merged? old body with
        | none => exact h
        | some m => exact accepted_merged hmerged

/-- The text that the server is about to install. -/
def Phase.text? : Phase → Option Text
  | .idle => none
  | .backing text => some text
  | .copying _ _ text => some text
  | .opening text => some text
  | .writing _ _ text => some text
  | .replacing text => some text

/-- The server writes to no file that is kept, and the temporary file holds what was
written so far. -/
def Writing (kept : List (ℕ × Text)) (d : Disk Name) : Phase → Prop
  | .copying i _ _ => Free kept d i
  | .writing i left text => d.names .tmp = some i ∧ d.data i ++ left = text
  | .replacing text => ∃ i, d.names .tmp = some i ∧ d.data i = text
  | _ => True

/-- What holds of the state after every run; the versions are the texts of `kept`. -/
structure Safe (path : Text) (kept : List (ℕ × Text)) (w : World) : Prop where
  disk : Sealed .config kept w.disk
  writing : Writing kept w.disk w.phase
  opened : ∀ i, w.opened = some i → ∃ p ∈ kept, p.1 = i
  daemon : ∀ c, w.daemon = some c → ∃ p ∈ kept, configLoad path (some p.2) = .ok c

theorem safe_start (path text : Text) : Safe path [(0, text)] (.start text) where
  disk := {
    current := rfl
    holds := by simp [World.start]
    free := by
      intro m i hm hi
      simp [World.start, hm] at hi
    single := by
      intro m m' i hm hm'
      simp only [World.start] at hm hm'
      split_ifs at hm hm' with h h'
      rw [h, h'] }
  writing := trivial
  opened := by simp [World.start]
  daemon := by simp [World.start]

section Step

variable {path : Text} {kept : List (ℕ × Text)} {w : World}

/-- The server goes on, and the disk keeps the versions. -/
theorem Safe.goesOn (h : Safe path kept w) {d : Disk Name} {phase : Phase}
    (hd : Sealed .config kept d)
    (hwriting : Writing kept d phase) :
    Safe path kept { w with disk := d, phase := phase } :=
  ⟨hd, hwriting, h.opened, h.daemon⟩

theorem Safe.post (h : Safe path kept w) (body : Text) : Safe path kept (w.post body) := by
  rw [World.post]
  cases w.phase with
  | idle =>
      simp only
      cases configParseString body with
      | error e => exact h
      | ok c =>
          simp only
          split_ifs
          · exact h.goesOn h.disk trivial
          · exact h.goesOn h.disk trivial
  | backing text => exact h
  | copying i left text => exact h
  | opening text => exact h
  | writing i left text => exact h
  | replacing text => exact h

theorem Safe.fail (h : Safe path kept w) : Safe path kept w.fail := by
  have hunlink := h.disk.unlink (m := .tmp) (by decide)
  rw [World.fail]
  cases w.phase with
  | idle => exact h
  | backing text => exact h.goesOn h.disk trivial
  | copying i left text => exact h.goesOn h.disk trivial
  | opening text => exact h.goesOn hunlink trivial
  | writing i left text => exact h.goesOn hunlink trivial
  | replacing text => exact h.goesOn hunlink trivial

theorem Safe.load (h : Safe path kept w) : Safe path kept (w.load path) := by
  rw [World.load]
  cases hopened : w.opened with
  | none => exact h
  | some i =>
      obtain ⟨p, hp, rfl⟩ := h.opened i hopened
      simp only [(h.disk.holds p hp).2]
      cases hload : configLoad path (some p.2) with
      | error e => exact ⟨h.disk, h.writing, by simp, h.daemon⟩
      | ok c =>
          refine ⟨h.disk, h.writing, by simp, fun c' hc => ?_⟩
          rw [← Option.some.inj hc]
          exact ⟨p, hp, hload⟩

/-- The next call of the server. -/
theorem Safe.go (h : Safe path kept w) (n : ℕ) :
    ∃ more, (w.installs (.go n)) = more.map Prod.snd ∧
      Safe path (kept ++ more) (w.go n) := by
  have hwriting := h.writing
  have hsame : ∀ w', Safe path kept w' →
      ∃ more, ([] : List Text) = more.map Prod.snd ∧ Safe path (kept ++ more) w' :=
    fun w' h' => ⟨[], rfl, by rwa [List.append_nil]⟩
  simp only [World.go, World.installs]
  cases hphase : w.phase with
  | idle => exact hsame _ h
  | backing text =>
      obtain ⟨hdisk, hfree, -, -⟩ := h.disk.truncate (m := .bak) (by decide)
      exact hsame _ (h.goesOn hdisk hfree)
  | copying i left text =>
      rw [hphase] at hwriting
      refine hsame _ ?_
      dsimp only
      split_ifs
      · exact h.goesOn h.disk trivial
      · exact h.goesOn (h.disk.append hwriting _) hwriting
  | opening text =>
      obtain ⟨hdisk, -, hname, hdata⟩ := h.disk.truncate (m := .tmp) (by decide)
      exact hsame _ (h.goesOn hdisk ⟨hname, by rw [hdata, List.nil_append]⟩)
  | writing i left text =>
      rw [hphase] at hwriting
      obtain ⟨hname, hdata⟩ := hwriting
      refine hsame _ ?_
      dsimp only
      split_ifs with hleft
      · rw [hleft, List.append_nil] at hdata
        exact h.goesOn h.disk ⟨i, hname, hdata⟩
      · refine h.goesOn (h.disk.append (h.disk.free .tmp i (by decide) hname) _) ⟨hname, ?_⟩
        simp [Disk.append, ← hdata]
  | replacing text =>
      rw [hphase] at hwriting
      obtain ⟨i, hname, rfl⟩ := hwriting
      refine ⟨[(i, w.disk.data i)], rfl, ?_⟩
      refine ⟨h.disk.rename (by decide) hname, trivial, fun j hj => ?_, fun c hc => ?_⟩
      · obtain ⟨p, hp, hpj⟩ := h.opened j hj
        exact ⟨p, List.mem_append_left _ hp, hpj⟩
      · obtain ⟨p, hp, hload⟩ := h.daemon c hc
        exact ⟨p, List.mem_append_left _ hp, hload⟩

/-- One step of anybody. -/
theorem Safe.step (h : Safe path kept w) (a : Action) :
    ∃ more, w.installs a = more.map Prod.snd ∧
      Safe path (kept ++ more) (w.step path a) := by
  have hsame : ∀ w', Safe path kept w' →
      ∃ more, ([] : List Text) = more.map Prod.snd ∧ Safe path (kept ++ more) w' :=
    fun w' h' => ⟨[], rfl, by rwa [List.append_nil]⟩
  cases a with
  | post body => exact hsame _ (h.post body)
  | go n => exact h.go n
  | fail => exact hsame _ h.fail
  | kill => exact hsame _ (h.goesOn h.disk trivial)
  | opens => exact hsame _ ⟨h.disk, h.writing, fun i hi => h.disk.opened hi, h.daemon⟩
  | load => exact hsame _ h.load
  | exit =>
      exact hsame _ ⟨h.disk, h.writing, (fun i hi => by cases hi), fun c hc => by cases hc⟩

end Step

/-! ### Runs -/

theorem run_append_singleton (path text : Text) (acts : List Action) (a : Action) :
    run path text (acts ++ [a]) = (run path text acts).step path a := by
  simp [run, runWith]

theorem versions_append_singleton (path text : Text) (acts : List Action) (a : Action) :
    versions path text (acts ++ [a]) =
      versions path text acts ++ (run path text acts).installs a := by
  simp [versions, run, runWith]

theorem Chosen.mono {acts acts' : List Action} {vs vs' : List Text} {text : Text}
    (h : Chosen acts vs text)
    (hacts : acts ⊆ acts')
    (hvs : vs ⊆ vs') :
    Chosen acts' vs' text := by
  obtain ⟨body, hbody, haccepted, old, hold, htext⟩ := h
  exact ⟨body, hacts hbody, haccepted, old, hvs hold, htext⟩

/-- A body that is posted is installed when the parser accepts it, by an idle server. -/
theorem text?_post {w : World} {body text : Text}
    (h : (w.post body).phase.text? = some text) :
    w.phase.text? = some text ∨ Accepted body ∧ text = toWrite (readFile w.disk) body := by
  rw [World.post] at h
  cases hphase : w.phase with
  | idle =>
      rw [hphase] at h
      cases hparse : configParseString body with
      | error e => simp [hparse, hphase, Phase.text?] at h
      | ok c =>
          refine .inr ⟨⟨c, hparse⟩, ?_⟩
          simp only [hparse] at h
          split_ifs at h
          · exact (Option.some.inj h).symm
          · exact (Option.some.inj h).symm
  | backing text => rw [hphase] at h; exact .inl (hphase ▸ h)
  | copying i left text => rw [hphase] at h; exact .inl (hphase ▸ h)
  | opening text => rw [hphase] at h; exact .inl (hphase ▸ h)
  | writing i left text => rw [hphase] at h; exact .inl (hphase ▸ h)
  | replacing text => rw [hphase] at h; exact .inl (hphase ▸ h)

theorem text?_go {w : World} {n : ℕ} {text : Text}
    (h : (w.go n).phase.text? = some text) :
    w.phase.text? = some text := by
  rw [World.go] at h
  cases hphase : w.phase with
  | idle => rw [hphase] at h; simp [hphase, Phase.text?] at h
  | backing text => rw [hphase] at h; exact h
  | copying i left text =>
      rw [hphase] at h
      dsimp only at h
      split_ifs at h
      · exact h
      · exact h
  | opening text => rw [hphase] at h; exact h
  | writing i left text =>
      rw [hphase] at h
      dsimp only at h
      split_ifs at h
      · exact h
      · exact h
  | replacing text => rw [hphase] at h; cases h

theorem text?_fail {w : World} {text : Text} (h : w.fail.phase.text? = some text) :
    w.phase.text? = some text := by
  rw [World.fail] at h
  cases hphase : w.phase with
  | idle => rw [hphase] at h; simp [hphase, Phase.text?] at h
  | backing text => rw [hphase] at h; exact h
  | copying i left text => rw [hphase] at h; exact h
  | opening text => rw [hphase] at h; cases h
  | writing i left text => rw [hphase] at h; cases h
  | replacing text => rw [hphase] at h; cases h

/-- A load does not touch the server. -/
theorem phase_load (path : Text) (w : World) : (w.load path).phase = w.phase := by
  rw [World.load]
  cases w.opened with
  | none => rfl
  | some i =>
      dsimp only
      cases configLoad path (some (w.disk.data i)) with
      | ok c => rfl
      | error e => rfl

/-- What the server is about to install after a step, it was about to install before, or
it is chosen for a body that is posted. -/
theorem text?_step {path : Text} {w : World} {a : Action} {text : Text}
    (h : (w.step path a).phase.text? = some text) :
    w.phase.text? = some text ∨ ∃ body, a = .post body ∧ Accepted body ∧
      text = toWrite (readFile w.disk) body := by
  cases a with
  | post body =>
      rcases text?_post h with hkept | ⟨haccepted, htext⟩
      · exact .inl hkept
      · exact .inr ⟨body, rfl, haccepted, htext⟩
  | go n => exact .inl (text?_go h)
  | fail => exact .inl (text?_fail h)
  | kill => cases h
  | opens => exact .inl h
  | load =>
      rw [World.step, phase_load] at h
      exact .inl h
  | exit => exact .inl h

theorem mem_installs {w : World} {a : Action} {text : Text} (h : text ∈ w.installs a) :
    w.phase.text? = some text := by
  cases a with
  | go n =>
      rw [World.installs] at h
      cases hphase : w.phase with
      | replacing t =>
          rw [hphase] at h
          rw [List.mem_singleton.mp h]
          rfl
      | idle => rw [hphase] at h; cases h
      | backing t => rw [hphase] at h; cases h
      | copying i left t => rw [hphase] at h; cases h
      | opening t => rw [hphase] at h; cases h
      | writing i left t => rw [hphase] at h; cases h
  | post body => cases h
  | fail => cases h
  | kill => cases h
  | opens => cases h
  | load => cases h
  | exit => cases h

/-- The invariant of every run. -/
structure Holds (path text : Text) (acts : List Action) : Prop where
  safe : ∃ kept, kept.map Prod.snd = versions path text acts ∧
    Safe path kept (run path text acts)
  pending : ∀ t, (run path text acts).phase.text? = some t →
    Chosen acts (versions path text acts) t
  first : ∃ later, versions path text acts = text :: later ∧
    ∀ v ∈ later, Chosen acts (versions path text acts) v

theorem holds_run (path text : Text) (acts : List Action) : Holds path text acts := by
  induction acts using List.reverseRecOn with
  | nil =>
      exact ⟨⟨[(0, text)], rfl, safe_start path text⟩, by simp [run, runWith, World.start,
        Phase.text?], ⟨[], rfl, by simp⟩⟩
  | append_singleton acts a ih =>
      obtain ⟨⟨kept, hkept, hsafe⟩, hpending, later, hlater, hchosen⟩ := ih
      obtain ⟨more, hmore, hsafe'⟩ := hsafe.step a
      have hacts : acts ⊆ acts ++ [a] := List.subset_append_left acts [a]
      have hvs : versions path text acts ⊆ versions path text (acts ++ [a]) := by
        rw [versions_append_singleton]
        exact List.subset_append_left _ _
      refine ⟨⟨kept ++ more, ?_, ?_⟩, ?_, later ++ (run path text acts).installs a, ?_, ?_⟩
      · rw [List.map_append, hkept, ← hmore, versions_append_singleton]
      · rw [run_append_singleton]
        exact hsafe'
      · intro t ht
        rw [run_append_singleton] at ht
        rcases text?_step ht with hold | ⟨body, rfl, haccepted, htext⟩
        · exact (hpending t hold).mono hacts hvs
        · -- the server read the last version
          have hread := hsafe.disk.read?
          rw [← List.getLast?_map, hkept, hlater] at hread
          obtain ⟨old, hold⟩ : ∃ old, (text :: later).getLast? = some old :=
            Option.isSome_iff_exists.mp (by simp)
          rw [readFile, hread, hold, Option.map_some] at htext
          refine ⟨body, by simp, haccepted, old, hvs ?_, htext⟩
          rw [hlater]
          exact List.mem_of_getLast? hold
      · rw [versions_append_singleton, hlater, List.cons_append]
      · intro v hv
        rcases List.mem_append.mp hv with hv | hv
        · exact (hchosen v hv).mono hacts hvs
        · exact (hpending v (mem_installs hv)).mono hacts hvs

/-- `fgets` reads every line of the text whole. -/
def Short (text : Text) : Prop := ∀ l ∈ CText.lines text, l.length ≤ Config.lineLen - 1

/-- The two entry points of the parser agree on such a text. -/
theorem load_of_short {path text : Text} (h : Short text) (haccepted : Accepted text) :
    ∃ c, configParseString text = .ok c ∧ configLoad path (some text) = .ok c := by
  obtain ⟨c, hc⟩ := haccepted
  have hharmless := (Config.harmless_of_short (k := Config.lineLen - 1) (by decide) text).1
    Config.init .none 0 [] (by decide) h
  have hsame := (Config.head_overflow_same (k := Config.lineLen - 1) (by decide) text).1
    Config.init .none 0 0 [] (by decide) hharmless
  change Config.Same (configLoad path (some text)) (configParseString text) at hsame
  rw [hc] at hsame
  cases hload : configLoad path (some text) with
  | error e => rw [hload] at hsame; cases hsame
  | ok c' =>
      rw [hload] at hsame
      exact ⟨c, hc, congrArg _ hsame⟩

/--
Saving and loading, in every run.  The file of the configuration is always whole: it is
the first one, or one that an accepted body was merged into.  The daemon uses what it
read from one of these files, whenever it opened it.  If the parser accepts the first
file and the lines are short, no loading fails.
-/
theorem saved_configs (path text : Text) (acts : List Action) :
    (run path text acts).disk.read? .config = (versions path text acts).getLast? ∧
    (∃ later, versions path text acts = text :: later ∧
      ∀ v ∈ later, Accepted v ∧ Chosen acts (versions path text acts) v) ∧
    (∀ c, (run path text acts).daemon = some c →
      ∃ v ∈ versions path text acts, configLoad path (some v) = .ok c) ∧
    (Accepted text → (∀ v ∈ versions path text acts, Short v) →
      ∀ i, (run path text acts).opened = some i →
        ∃ v ∈ versions path text acts, ∃ c, configParseString v = .ok c ∧
          ((run path text acts).load path).daemon = some c) := by
  obtain ⟨⟨kept, hkept, hsafe⟩, -, later, hlater, hchosen⟩ := holds_run path text acts
  have haccepted : ∀ v ∈ later, Accepted v := by
    intro v hv
    obtain ⟨body, -, hbody, old, -, rfl⟩ := hchosen v hv
    exact accepted_toWrite hbody
  have hmem : ∀ p ∈ kept, p.2 ∈ versions path text acts := by
    intro p hp
    rw [← hkept]
    exact List.mem_map_of_mem hp
  refine ⟨?_, ⟨later, hlater, fun v hv => ⟨haccepted v hv, hchosen v hv⟩⟩, ?_, ?_⟩
  · rw [hsafe.disk.read?, ← hkept, List.getLast?_map]
  · intro c hc
    obtain ⟨p, hp, hload⟩ := hsafe.daemon c hc
    exact ⟨p.2, hmem p hp, hload⟩
  · intro hfirst hshort i hi
    obtain ⟨p, hp, rfl⟩ := hsafe.opened i hi
    have hv := hmem p hp
    have hok : Accepted p.2 := by
      rw [hlater] at hv
      rcases List.mem_cons.mp hv with heq | hv
      · rw [heq]
        exact hfirst
      · exact haccepted _ hv
    obtain ⟨c, hparse, hload⟩ := @load_of_short path _ (hshort _ hv) hok
    refine ⟨p.2, hv, c, hparse, ?_⟩
    rw [World.load, hi]
    simp [(hsafe.disk.holds p hp).2, hload]

/-- A configuration, and the one that is posted. -/
def firstText : Text := "[sources]\nA = 1\n".toList
def postedText : Text := "[sources]\nA = 2\n".toList

/-- The copy fails in the middle, the temporary file is written in two parts, and the
daemon opens the configuration between them, before the rename. -/
def savedRun : List Action :=
  [.post postedText, .go 0, .go 5, .fail, .go 0, .go 9, .opens, .go 99, .go 0, .go 0]

/-- The daemon reads the configuration that it opened, whole, and not the new one. -/
theorem saved_configs_between :
    (run [] firstText savedRun).disk.read? .config = some postedText ∧
      versions [] firstText savedRun = [firstText, postedText] ∧
      (∃ v ∈ versions [] firstText savedRun, ∃ c, configParseString v = .ok c ∧
        ((run [] firstText savedRun).load []).daemon = some c) ∧
      ((run [] firstText savedRun).load []).daemon =
        (configParseString firstText).toOption := by
  have hversions : versions [] firstText savedRun = [firstText, postedText] := by
    decide +kernel
  obtain ⟨hdisk, -, -, hload⟩ := saved_configs [] firstText savedRun
  have hfirst : Accepted firstText := ⟨_, rfl⟩
  have hshort : ∀ v ∈ versions [] firstText savedRun, Short v := by
    rw [hversions]
    unfold Short
    decide +kernel
  have hopened : (run [] firstText savedRun).opened = some 0 := by decide +kernel
  refine ⟨?_, hversions, hload hfirst hshort 0 hopened, by decide +kernel⟩
  rw [hdisk, hversions]
  rfl

end Saving
end Web
end N2kMux
