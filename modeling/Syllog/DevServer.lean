import Syllog.Manifest
import Syllog.Schedule
/-!
# DevServer — the development loop

`syllog-dev-server`: `run_loop` polls the sources of the targets, waits until a changed path is quiet, and builds.  The loop
is cut where its surroundings can come in between: before each file that is read, before each path that is built and at each
event that is sent.  A schedule says where files change, how time passes, which ticks come and which sends find the receiver
gone.

Bookkeeping is by path and builds are by target: `never_stale_iff` says that no target stays behind its source exactly when
no two targets share a path.
-/
namespace Syllog
namespace DevServer

open Paths (PathBuf)
open Project (Target Manifest)

abbrev Bytes := List UInt8

abbrev Digest := Vector UInt8 32

abbrev Instant := Nat

abbrev Files := PathBuf → Option Bytes

/-- The compiler and SHA-256; `Report` is an `EditorReport`. -/
structure Services (Report : Type) where
  success : PathBuf → String → Bool
  report : PathBuf → String → Report
  sha256 : Bytes → Digest

structure DevOptions where
  debounce : Nat

structure DevStats where
  totalBuilds : Nat
  byTarget : OrdMap String Nat

structure ArtifactId where
  target : String
  digest : String

inductive DevEvent (Report : Type) where
  | building (id : Nat)
  | diagnostics (report : Report)
  | ready (artifact : ArtifactId)
  | runtimeRestarted

/-- Where the loop stands; `ready` are the paths that the tick still has to build. -/
inductive Phase where
  /-- At the `select!`. -/
  | idle
  /-- In `observe_changes`, with these targets left. -/
  | observing (targets : List Target)
  /-- Before the next of the ready paths. -/
  | building (ready : List PathBuf)
  /-- At the four sends of `build_target`. -/
  | announcing (target : Target) (ready : List PathBuf)
  | reporting (target : Target) (source : String) (ready : List PathBuf)
  | publishing (target : Target) (source : String) (ready : List PathBuf)
  | restarting (ready : List PathBuf)
  /-- Out of the loop. -/
  | stopped

structure State (Report : Type) where
  files : Files
  now : Instant
  observed : OrdMap PathBuf (Option Digest)
  pending : OrdMap PathBuf Instant
  nextBuild : Nat
  stats : DevStats
  sent : List (DevEvent Report)
  phase : Phase

/-- What moves next. -/
inductive Label where
  | change (files : Files)
  | wait (duration : Nat)
  | shutdown
  | tick
  | observe
  /-- The paths that are quiet, each judged at the time read for it. -/
  | collect (clock : PathBuf → Instant)
  | build
  | send (accepted : Bool)

/-- What a run is judged by: a fingerprint was recorded, a build began. -/
inductive Entry where
  | recorded (path : PathBuf) (fingerprint : Option Digest)
  | built (target : Target)
deriving DecidableEq

section
variable {Report : Type} (targets : List Target) (options : DevOptions) (services : Services Report)

/-- Saturating addition on `u64`. -/
def saturatingAdd (a b : Nat) : Nat := min (a + b) (2 ^ 64 - 1)

def sourceFingerprint (files : Files) (path : PathBuf) : Option Digest := (files path).map services.sha256

/-- `read_to_string(..).unwrap_or_default()`. -/
def readSource (files : Files) (path : PathBuf) : String :=
  ((files path).bind fun bytes => String.fromUTF8? ⟨bytes.toArray⟩).getD ""

def hexDigit (n : Nat) : Char := (Nat.toDigits 16 n).headD '0'

/-- `{:x}` of a digest. -/
def lowerHex (digest : Digest) : String :=
  .ofList (digest.toList.flatMap fun byte => [hexDigit (byte.toNat / 16), hexDigit (byte.toNat % 16)])

def artifactOf (target : Target) (source : String) : ArtifactId where
  target := target.name
  digest := lowerHex (services.sha256 source.toUTF8.toList)

def DevStats.count (stats : DevStats) (name : String) : DevStats where
  totalBuilds := saturatingAdd stats.totalBuilds 1
  byTarget := stats.byTarget.insert name ((stats.byTarget.get? name).getD 0 + 1)

/-- One target of `observe_changes`. -/
def observeTarget (target : Target) (s : State Report) : State Report × List Entry :=
  let fingerprint := sourceFingerprint services s.files target.path
  if s.observed.get? target.path ≠ some fingerprint then
    ({ s with observed := s.observed.insert target.path fingerprint, pending := s.pending.insert target.path s.now },
      [.recorded target.path fingerprint])
  else (s, [])

/-- The pending paths that are quiet for the debounce time, in order. -/
def readyPaths (pending : OrdMap PathBuf Instant) (clock : PathBuf → Instant) : List PathBuf :=
  (pending.entries.filter fun e => options.debounce ≤ clock e.1 - e.2).map (·.1)

/-- The ready path leaves `pending` and its target is built up to the first send. -/
def beginBuild (path : PathBuf) (ready : List PathBuf) (s : State Report) : State Report × List Entry :=
  let s := { s with pending := s.pending.erase path }
  match targets.find? (·.path = path) with
  | none        => ({ s with phase := .building ready }, [])
  | some target => ({ s with stats := s.stats.count target.name, phase := .announcing target ready }, [.built target])

/-- The sends of `build_target`; a build that is through has used up its number. -/
def sendNext (s : State Report) : Option (State Report) :=
  match s.phase with
  | .announcing target ready        =>
    some { s with sent := s.sent ++ [.building s.nextBuild],
                  phase := .reporting target (readSource s.files target.path) ready }
  | .reporting target source ready  =>
    let s : State Report := { s with sent := s.sent ++ [.diagnostics (services.report target.path source)] }
    if services.success target.path source then some { s with phase := .publishing target source ready }
    else some { s with nextBuild := saturatingAdd s.nextBuild 1, phase := .building ready }
  | .publishing target source ready =>
    some { s with sent := s.sent ++ [.ready (artifactOf services target source)], phase := .restarting ready }
  | .restarting ready               =>
    some { s with sent := s.sent ++ [.runtimeRestarted], nextBuild := saturatingAdd s.nextBuild 1, phase := .building ready }
  | _                               => none

/-- `run_loop`, one label at a time, with what the step is judged by. -/
def step (s : State Report) : Label → Option (State Report × List Entry)
  | .change files   => some ({ s with files }, [])
  | .wait duration  => some ({ s with now := s.now + duration }, [])
  | .shutdown       =>
    match s.phase with
    | .idle => some ({ s with phase := .stopped }, [])
    | _     => none
  | .tick           =>
    match s.phase with
    | .idle => some ({ s with phase := .observing targets }, [])
    | _     => none
  | .observe        =>
    match s.phase with
    | .observing (target :: rest) => some (observeTarget services target { s with phase := .observing rest })
    | _                           => none
  | .collect clock  =>
    match s.phase with
    | .observing [] =>
      if s.pending.keys.all (fun path => s.now ≤ clock path) then
        some ({ s with phase := .building (readyPaths options s.pending clock) }, [])
      else none
    | _             => none
  | .build          =>
    match s.phase with
    | .building []              => some ({ s with phase := .idle }, [])
    | .building (path :: ready) => some (beginBuild targets path ready s)
    | _                         => none
  | .send accepted  =>
    match sendNext services s with
    | some s' => some (if accepted then s' else { s with phase := .stopped }, [])
    | none    => none

/-- The loop before its first tick. -/
def start (files : Files) : State Report where
  files
  now := 0
  observed := .empty
  pending := .empty
  nextBuild := 1
  stats := ⟨0, .empty⟩
  sent := []
  phase := .idle

/-- A state with the entries of the run that led to it. -/
abbrev Traced (Report : Type) := State Report × List Entry

def advance (run : Traced Report) (label : Label) : Option (Traced Report) :=
  (step targets options services run.1 label).map fun next => (next.1, run.2 ++ next.2)

/-- The run reaches this state with this trace. -/
def Reachable (run : Traced Report) : Prop :=
  ∃ files, Schedule.Reaches (advance targets options services) (start files, []) run

end

/-! ## Staleness -/

/-- The last fingerprint of the path is this one, and these entries came after. -/
def LastRecorded (log : List Entry) (path : PathBuf) (fingerprint : Option Digest) (after : List Entry) : Prop :=
  (∃ before, log = before ++ .recorded path fingerprint :: after) ∧ ∀ fingerprint', .recorded path fingerprint' ∉ after

/-- The target was built since its current fingerprint was recorded. -/
def BuiltSince (log : List Entry) (target : Target) (fingerprint : Option Digest) : Prop :=
  ∃ after, LastRecorded log target.path fingerprint after ∧ .built target ∈ after

/-- No target whose path is observed and not pending is behind. -/
def UpToDate {Report : Type} (targets : List Target) (run : Traced Report) : Prop :=
  ∀ target ∈ targets, ∀ fingerprint, run.1.observed.get? target.path = some fingerprint →
    run.1.pending.get? target.path = none → BuiltSince run.2 target fingerprint

/-! ## What a step can do -/

section
variable {Report : Type} {targets : List Target} {options : DevOptions} {services : Services Report}
variable {s s' : State Report} {log new : List Entry} {label : Label}

theorem sendNext_keeps (h : sendNext services s = some s') : s'.observed = s.observed ∧ s'.pending = s.pending := by
  unfold sendNext at h
  split at h
  · cases h
    exact ⟨rfl, rfl⟩
  · dsimp only at h
    split at h
    · cases h
      exact ⟨rfl, rfl⟩
    · cases h
      exact ⟨rfl, rfl⟩
  · cases h
    exact ⟨rfl, rfl⟩
  · cases h
    exact ⟨rfl, rfl⟩
  · cases h

/-- **The three kinds of step**: the books stay; a target's new fingerprint is recorded and its path becomes pending; a path
leaves `pending` and the first target that has it is built. -/
theorem step_cases (h : step targets options services s label = some (s', new)) :
    (s'.observed = s.observed ∧ s'.pending = s.pending ∧ new = []) ∨
    (∃ path fingerprint, s'.observed = s.observed.insert path fingerprint ∧ s'.pending = s.pending.insert path s.now ∧
      new = [.recorded path fingerprint]) ∨
    ∃ path, s'.observed = s.observed ∧ s'.pending = s.pending.erase path ∧
      new = ((targets.find? (·.path = path)).map Entry.built).toList := by
  cases label with
  | change files =>
    cases h
    exact .inl ⟨rfl, rfl, rfl⟩
  | wait duration =>
    cases h
    exact .inl ⟨rfl, rfl, rfl⟩
  | shutdown =>
    simp only [step] at h
    split at h
    · cases h
      exact .inl ⟨rfl, rfl, rfl⟩
    · cases h
  | tick =>
    simp only [step] at h
    split at h
    · cases h
      exact .inl ⟨rfl, rfl, rfl⟩
    · cases h
  | observe =>
    simp only [step] at h
    split at h
    · unfold observeTarget at h
      dsimp only at h
      split at h
      · cases h
        exact .inr (.inl ⟨_, _, rfl, rfl, rfl⟩)
      · cases h
        exact .inl ⟨rfl, rfl, rfl⟩
    · cases h
  | collect clock =>
    simp only [step] at h
    split at h
    · split at h
      · cases h
        exact .inl ⟨rfl, rfl, rfl⟩
      · cases h
    · cases h
  | build =>
    simp only [step] at h
    split at h
    · cases h
      exact .inl ⟨rfl, rfl, rfl⟩
    · rename_i path ready hphase
      unfold beginBuild at h
      dsimp only at h
      split at h
      · rename_i hfind
        cases h
        exact .inr (.inr ⟨path, rfl, rfl, by rw [hfind]; rfl⟩)
      · rename_i target hfind
        cases h
        exact .inr (.inr ⟨path, rfl, rfl, by rw [hfind]; rfl⟩)
    · cases h
  | send accepted =>
    simp only [step] at h
    split at h
    · rename_i next hnext
      obtain ⟨hobserved, hpending⟩ := sendNext_keeps hnext
      cases h
      refine .inl ⟨?_, ?_, rfl⟩
      · cases accepted
        · rfl
        · exact hobserved
      · cases accepted
        · rfl
        · exact hpending
    · cases h

/-- Where the paths are distinct, a target is found by its path. -/
theorem find?_path (hpaths : (targets.map (·.path)).Nodup) {target : Target} (ht : target ∈ targets) {path : PathBuf}
    (heq : target.path = path) : targets.find? (·.path = path) = some target := by
  cases hfind : targets.find? (·.path = path) with
  | none =>
    have hnot := List.find?_eq_none.mp hfind target ht
    simp [heq] at hnot
  | some found =>
    have hpath : found.path = path := by simpa using List.find?_some hfind
    rw [List.inj_on_of_nodup_map hpaths (List.mem_of_find?_eq_some hfind) ht (hpath.trans heq.symm)]

theorem LastRecorded.append {path : PathBuf} {fingerprint : Option Digest} {after : List Entry}
    (h : LastRecorded log path fingerprint after) (hnew : ∀ fingerprint', .recorded path fingerprint' ∉ new) :
    LastRecorded (log ++ new) path fingerprint (after ++ new) := by
  obtain ⟨⟨before, hlog⟩, hafter⟩ := h
  refine ⟨⟨before, by simp [hlog]⟩, fun fingerprint' hmem => ?_⟩
  rcases List.mem_append.mp hmem with hmem | hmem
  · exact hafter fingerprint' hmem
  · exact hnew fingerprint' hmem

theorem LastRecorded.last (log : List Entry) (path : PathBuf) (fingerprint : Option Digest) :
    LastRecorded (log ++ [.recorded path fingerprint]) path fingerprint [] :=
  ⟨⟨log, rfl⟩, fun _ h => by cases h⟩

theorem BuiltSince.append {target : Target} {fingerprint : Option Digest} (h : BuiltSince log target fingerprint)
    (hnew : ∀ fingerprint', .recorded target.path fingerprint' ∉ new) : BuiltSince (log ++ new) target fingerprint := by
  obtain ⟨after, hlast, hbuilt⟩ := h
  exact ⟨after ++ new, hlast.append hnew, List.mem_append_left _ hbuilt⟩

/-- What every run keeps when the paths are distinct: what is observed was recorded last, and no target is behind. -/
structure Kept (targets : List Target) (run : Traced Report) : Prop where
  recorded : ∀ path fingerprint, run.1.observed.get? path = some fingerprint →
    ∃ after, LastRecorded run.2 path fingerprint after
  upToDate : UpToDate targets run

theorem Kept.start (files : Files) : Kept targets ((start files : State Report), []) where
  recorded := fun _ _ h => by cases h
  upToDate := fun _ _ _ h => by cases h

theorem not_mem_built {path : PathBuf} {fingerprint : Option Digest} (found : Option Target) :
    .recorded path fingerprint ∉ (found.map Entry.built).toList := by
  cases found <;> simp

/-- **A step keeps it.** -/
theorem Kept.step (hpaths : (targets.map (·.path)).Nodup) (hkept : Kept targets (s, log))
    (h : DevServer.step targets options services s label = some (s', new)) : Kept targets (s', log ++ new) := by
  rcases step_cases h with ⟨hobserved, hpending, rfl⟩ | ⟨path, fingerprint, hobserved, hpending, rfl⟩ |
    ⟨path, hobserved, hpending, rfl⟩
  · rw [List.append_nil]
    refine ⟨?_, ?_⟩
    · intro path fingerprint hget
      rw [hobserved] at hget
      exact hkept.recorded path fingerprint hget
    · intro target ht fingerprint hget hnone
      rw [hobserved] at hget
      rw [hpending] at hnone
      exact hkept.upToDate target ht fingerprint hget hnone
  · -- the path that was recorded is pending, and no other path is touched
    have hother : ∀ {other : PathBuf}, path ≠ other → ∀ fingerprint', .recorded other fingerprint' ∉
        [Entry.recorded path fingerprint] := by
      intro other hne fingerprint' hmem
      simp only [List.mem_singleton, Entry.recorded.injEq] at hmem
      exact hne hmem.1.symm
    refine ⟨?_, ?_⟩
    · intro other fingerprint' hget
      simp only [hobserved, OrdMap.get?_insert] at hget
      by_cases heq : path = other
      · rw [if_pos heq] at hget
        cases hget
        subst heq
        exact ⟨[], .last log path fingerprint⟩
      · rw [if_neg heq] at hget
        obtain ⟨after, hlast⟩ := hkept.recorded other fingerprint' hget
        exact ⟨_, hlast.append (hother heq)⟩
    · intro target ht fingerprint' hget hnone
      simp only [hobserved, OrdMap.get?_insert] at hget
      simp only [hpending, OrdMap.get?_insert] at hnone
      by_cases heq : path = target.path
      · rw [if_pos heq] at hnone
        cases hnone
      · rw [if_neg heq] at hget hnone
        exact (hkept.upToDate target ht fingerprint' hget hnone).append (hother heq)
  · -- the target built is the only one with the path
    refine ⟨?_, ?_⟩
    · intro other fingerprint hget
      rw [hobserved] at hget
      obtain ⟨after, hlast⟩ := hkept.recorded other fingerprint hget
      exact ⟨_, hlast.append fun _ => not_mem_built _⟩
    · intro target ht fingerprint hget hnone
      rw [hobserved] at hget
      simp only [hpending, OrdMap.get?_erase] at hnone
      by_cases heq : path = target.path
      · obtain ⟨after, hlast⟩ := hkept.recorded target.path fingerprint hget
        refine ⟨_, hlast.append fun _ => not_mem_built _, List.mem_append_right _ ?_⟩
        rw [find?_path hpaths ht heq.symm]
        exact List.mem_singleton_self _
      · rw [if_neg heq] at hnone
        exact (hkept.upToDate target ht fingerprint hget hnone).append fun _ => not_mem_built _

theorem advance_eq {run run' : Traced Report} (h : advance targets options services run label = some run') :
    ∃ new, step targets options services run.1 label = some (run'.1, new) ∧ run'.2 = run.2 ++ new := by
  obtain ⟨next, hnext, rfl⟩ := Option.map_eq_some_iff.mp h
  exact ⟨next.2, hnext, rfl⟩

/-- **Where the paths are distinct, no target is behind in any run.** -/
theorem upToDate_of_nodup (hpaths : (targets.map (·.path)).Nodup) {run : Traced Report}
    (hrun : Reachable targets options services run) : UpToDate targets run := by
  obtain ⟨files, hreach⟩ := hrun
  have hkept : Kept targets run := by
    refine hreach.keeps (fun run label run' hrun hstep => ?_) (Kept.start files)
    obtain ⟨new, hnew, hlog⟩ := advance_eq hstep
    have := hrun.step hpaths hnew
    rwa [← hlog] at this
  exact hkept.upToDate

/-! ## Only the first target of a path is built -/

theorem built_first {run : Traced Report} (hrun : Reachable targets options services run) {target : Target}
    (h : .built target ∈ run.2) : targets.find? (·.path = target.path) = some target := by
  obtain ⟨files, hreach⟩ := hrun
  revert target
  refine hreach.keeps (P := fun run => ∀ {target : Target}, .built target ∈ run.2 →
    targets.find? (·.path = target.path) = some target) (fun run label run' hrun hstep => ?_) (fun h => by cases h)
  intro target hbuilt
  obtain ⟨new, hnew, hlog⟩ := advance_eq hstep
  rw [hlog, List.mem_append] at hbuilt
  rcases hbuilt with hbuilt | hbuilt
  · exact hrun hbuilt
  · rcases step_cases hnew with ⟨-, -, rfl⟩ | ⟨path, fingerprint, -, -, rfl⟩ | ⟨path, -, -, rfl⟩
    · cases hbuilt
    · simp at hbuilt
    · simp only [Option.mem_toList, Option.map_eq_some_iff, Entry.built.injEq, exists_eq_right] at hbuilt
      have hpath : target.path = path := by simpa using List.find?_some hbuilt
      rw [hpath]
      exact hbuilt

variable (targets options services) in
/-- Observing the targets that are left: their paths are observed then, and what is observed is pending as before. -/
theorem observing_reaches : ∀ (l : List Target) (s : State Report) (log : List Entry), s.phase = .observing l →
    (∀ path, s.pending.get? path = none → s.observed.get? path = none) →
    ∃ run : Traced Report, Schedule.Reaches (advance targets options services) (s, log) run ∧ run.1.phase = .observing [] ∧
      (∀ path, run.1.pending.get? path = none → run.1.observed.get? path = none) ∧
      (∀ path, s.observed.get? path ≠ none → run.1.observed.get? path ≠ none) ∧
      ∀ target ∈ l, run.1.observed.get? target.path ≠ none
  | [], s, log, hphase, hpending => ⟨(s, log), .refl _, hphase, hpending, fun _ h => h, fun _ h => by cases h⟩
  | target :: rest, s, log, hphase, hpending => by
    have hstep : advance targets options services (s, log) .observe = some
        ((observeTarget services target { s with phase := .observing rest }).1,
          log ++ (observeTarget services target { s with phase := .observing rest }).2) := by
      simp only [advance, step, hphase, Option.map_some]
    have hbooks : ∃ s' new, observeTarget services target { s with phase := .observing rest } = (s', new) ∧
        s'.phase = .observing rest ∧ (∀ path, s'.pending.get? path = none → s'.observed.get? path = none) ∧
        (∀ path, s.observed.get? path ≠ none → s'.observed.get? path ≠ none) ∧ s'.observed.get? target.path ≠ none := by
      unfold observeTarget
      dsimp only
      split
      · refine ⟨_, _, rfl, rfl, fun path hnone => ?_, fun path hsome => ?_, by simp⟩
        · simp only [OrdMap.get?_insert] at hnone ⊢
          split at hnone
          · cases hnone
          · rename_i hne
            rw [if_neg hne]
            exact hpending path hnone
        · simp only [OrdMap.get?_insert]
          split
          · simp
          · exact hsome
      · rename_i hsame
        refine ⟨_, _, rfl, rfl, hpending, fun _ h => h, ?_⟩
        rw [not_not.mp hsame]
        simp
    obtain ⟨s', new, hobserve, hphase', hpending', hkeeps, htarget⟩ := hbooks
    rw [hobserve] at hstep
    obtain ⟨run, hreach, hend, hpend, hkeeps', hall⟩ := observing_reaches rest s' (log ++ new) hphase' hpending'
    refine ⟨run, (Schedule.Reaches.single hstep).trans hreach, hend, hpend, fun path h => hkeeps' path (hkeeps path h), ?_⟩
    intro t ht
    rcases List.mem_cons.mp ht with rfl | ht
    · exact hkeeps' _ htarget
    · exact hall t ht

theorem send_advance (h : sendNext services s = some s') :
    Schedule.Reaches (advance targets options services) (s, log) (s', log) := by
  refine .single (l := .send true) ?_
  simp only [advance, step, h, if_true, Option.map_some, List.append_nil]

/-- Some run goes on to the next of the ready paths. -/
def GoesOn (targets : List Target) (options : DevOptions) (services : Services Report) (ready : List PathBuf)
    (s : State Report) (log : List Entry) : Prop :=
  ∃ s', Schedule.Reaches (advance targets options services) (s, log) (s', log) ∧ s'.phase = .building ready ∧
    s'.observed = s.observed

theorem GoesOn.send {ready : List PathBuf} (s' : State Report) (hsend : sendNext services s = some s')
    (h : GoesOn targets options services ready s' log) : GoesOn targets options services ready s log := by
  obtain ⟨u, hreach, hphase, hobserved⟩ := h
  exact ⟨u, (send_advance hsend).trans hreach, hphase, hobserved.trans (sendNext_keeps hsend).1⟩

theorem GoesOn.building {ready : List PathBuf} (hphase : s.phase = .building ready) :
    GoesOn targets options services ready s log := ⟨s, .refl _, hphase, rfl⟩

theorem goesOn_restarting {ready : List PathBuf} (hphase : s.phase = .restarting ready) :
    GoesOn targets options services ready s log := by
  refine .send { s with
    sent := s.sent ++ [.runtimeRestarted]
    nextBuild := saturatingAdd s.nextBuild 1
    phase := .building ready } ?_ (.building rfl)
  unfold sendNext
  rw [hphase]

theorem goesOn_publishing {target : Target} {source : String} {ready : List PathBuf}
    (hphase : s.phase = .publishing target source ready) : GoesOn targets options services ready s log := by
  refine .send { s with
    sent := s.sent ++ [.ready (artifactOf services target source)]
    phase := .restarting ready } ?_ (goesOn_restarting rfl)
  unfold sendNext
  rw [hphase]

theorem goesOn_reporting {target : Target} {source : String} {ready : List PathBuf}
    (hphase : s.phase = .reporting target source ready) : GoesOn targets options services ready s log := by
  by_cases hsuccess : services.success target.path source = true
  · refine .send { s with
      sent := s.sent ++ [.diagnostics (services.report target.path source)]
      phase := .publishing target source ready } ?_ (goesOn_publishing rfl)
    unfold sendNext
    simp only [hphase, if_pos hsuccess]
  · refine .send { s with
      sent := s.sent ++ [.diagnostics (services.report target.path source)]
      nextBuild := saturatingAdd s.nextBuild 1
      phase := .building ready } ?_ (.building rfl)
    unfold sendNext
    simp only [hphase, if_neg hsuccess]

/-- A build that finds its receiver gets through its sends. -/
theorem goesOn_announcing {target : Target} {ready : List PathBuf} (hphase : s.phase = .announcing target ready) :
    GoesOn targets options services ready s log := by
  refine .send { s with
    sent := s.sent ++ [.building s.nextBuild]
    phase := .reporting target (readSource s.files target.path) ready } ?_ (goesOn_reporting rfl)
  unfold sendNext
  rw [hphase]

/-- A path that is ready leaves `pending`. -/
theorem building_reaches {path : PathBuf} : ∀ (ready : List PathBuf) (s : State Report) (log : List Entry),
    s.phase = .building ready → path ∈ ready →
    ∃ run : Traced Report, Schedule.Reaches (advance targets options services) (s, log) run ∧
      run.1.observed = s.observed ∧ run.1.pending.get? path = none
  | [], _, _, _, hmem => by cases hmem
  | next :: ready, s, log, hphase, hmem => by
    obtain ⟨s', new, hbegin⟩ : ∃ s' new, beginBuild targets next ready s = (s', new) := ⟨_, _, rfl⟩
    have hstep : advance targets options services (s, log) .build = some (s', log ++ new) := by
      simp only [advance, step, hphase, hbegin, Option.map_some]
    have hbooks : s'.observed = s.observed ∧ s'.pending = s.pending.erase next ∧
        (s'.phase = .building ready ∨ ∃ target, s'.phase = .announcing target ready) := by
      unfold beginBuild at hbegin
      dsimp only at hbegin
      split at hbegin
      · cases hbegin
        exact ⟨rfl, rfl, .inl rfl⟩
      · cases hbegin
        exact ⟨rfl, rfl, .inr ⟨_, rfl⟩⟩
    obtain ⟨hobserved, hpending, hnext⟩ := hbooks
    by_cases heq : next = path
    · refine ⟨(s', log ++ new), .single hstep, hobserved, ?_⟩
      rw [hpending, heq]
      simp
    · have hmem : path ∈ ready := (List.mem_cons.mp hmem).resolve_left fun h => heq h.symm
      rcases hnext with hphase' | ⟨target, hphase'⟩
      · obtain ⟨run, hreach, hsame, hnone⟩ := building_reaches ready s' (log ++ new) hphase' hmem
        exact ⟨run, (Schedule.Reaches.single hstep).trans hreach, hsame.trans hobserved, hnone⟩
      · obtain ⟨u, hsent, hphase'', hkept⟩ := @goesOn_announcing _ targets options services _ (log ++ new) _ _ hphase'
        obtain ⟨run, hreach, hsame, hnone⟩ := building_reaches ready u (log ++ new) hphase'' hmem
        exact ⟨run, (Schedule.Reaches.single hstep).trans (hsent.trans hreach),
          hsame.trans (hkept.trans hobserved), hnone⟩

/-- **The path of every target is observed and leaves `pending` in some run.** -/
theorem exists_settled (options : DevOptions) (services : Services Report) {target : Target} (ht : target ∈ targets) :
    ∃ run : Traced Report, Reachable targets options services run ∧ run.1.observed.get? target.path ≠ none ∧
      run.1.pending.get? target.path = none := by
  have htick : advance targets options services ((start fun _ => none), []) .tick =
      some ({ start (fun _ => none) with phase := .observing targets }, []) := rfl
  obtain ⟨⟨s, log⟩, hobserve, hphase, hpending, -, hall⟩ := observing_reaches targets options services
    targets { start (fun _ => none) with phase := .observing targets } [] rfl (fun _ _ => rfl)
  dsimp only at hphase hpending hall
  have hobserved := hall target ht
  -- late enough for every path that is pending
  let clock : PathBuf → Instant := fun path => s.now + options.debounce + (s.pending.get? path).getD 0
  have hcollect : advance targets options services (s, log) (.collect clock) =
      some ({ s with phase := .building (readyPaths options s.pending clock) }, log) := by
    have hlate : s.pending.keys.all (fun path => decide (s.now ≤ clock path)) = true := by
      rw [List.all_eq_true]
      intro path _
      simp only [decide_eq_true_eq, clock]
      exact Nat.le_add_right_of_le (Nat.le_add_right _ _)
    simp only [advance, step, hphase, hlate, if_true, Option.map_some, List.append_nil]
  have hready : target.path ∈ readyPaths options s.pending clock := by
    cases hget : s.pending.get? target.path with
    | none => exact absurd (hpending _ hget) hobserved
    | some changed =>
      refine List.mem_map.mpr ⟨(target.path, changed), List.mem_filter.mpr ⟨OrdMap.get?_eq_some_iff.mp hget, ?_⟩, rfl⟩
      simp only [decide_eq_true_eq, clock, hget, Option.getD_some]
      rw [Nat.add_sub_cancel]
      exact Nat.le_add_left _ _
  obtain ⟨run, hbuild, hsame, hnone⟩ := building_reaches _
    { s with phase := .building (readyPaths options s.pending clock) } log rfl hready
  refine ⟨run, ⟨fun _ => none, ?_⟩, ?_, hnone⟩
  · exact (Schedule.Reaches.single htick).trans (hobserve.trans ((Schedule.Reaches.single hcollect).trans hbuild))
  · rw [hsame]
    exact hobserved

end

/-- **No target stays behind its source, in any run, exactly when no two accepted targets share a path.** -/
theorem never_stale_iff {Report : Type} {file source : String} {raw : Project.RawManifest} {manifest : Manifest}
    (h : Project.validate file source raw = .ok manifest) (options : DevOptions) (services : Services Report) :
    (∀ run : Traced Report, Reachable manifest.targets options services run → UpToDate manifest.targets run) ↔
      (manifest.targets.map (·.path)).Nodup := by
  constructor
  · intro hall
    refine List.Nodup.map_on (fun target ht other ho hpath => ?_) (List.Nodup.of_map _ (Project.targets_nodup h))
    -- both are the one target that is built for the path
    obtain ⟨run, hrun, hobserved, hnone⟩ := exists_settled options services ht
    obtain ⟨fingerprint, hget⟩ := Option.ne_none_iff_exists'.mp hobserved
    have hfirst : ∀ t ∈ manifest.targets, t.path = target.path →
        manifest.targets.find? (·.path = target.path) = some t := by
      intro t hmem heq
      rw [← heq] at hget hnone ⊢
      obtain ⟨after, ⟨⟨before, hlog⟩, -⟩, hbuilt⟩ := hall run hrun t hmem fingerprint hget hnone
      exact built_first hrun (by rw [hlog]; simp [hbuilt])
    exact Option.some.inj ((hfirst target ht rfl).symm.trans (hfirst other ho hpath.symm))
  · intro hpaths run hrun
    exact upToDate_of_nodup hpaths hrun

/-! ## Two targets -/

/-- A project of an application and a library, which is at `second`. -/
def demoSource (second : String) : String :=
  "[package]\nname = \"demo\"\nversion = \"0.1.0\"\nedition = \"2026\"\n\n[[targets]]\nname = \"app\"\nkind = \"bin\"\n" ++
  "path = \"src/main.syl\"\n\n[[targets]]\nname = \"core\"\nkind = \"lib\"\npath = \"" ++ second ++
  "\"\n\n[capabilities]\nprofile = \"none\"\nmax_memory_bytes = 65536\n"

def demoRaw (second : String) : Project.RawManifest where
  package := ⟨"demo", "0.1.0", "2026"⟩
  targets := [
    ⟨⟨"app", 79, 84⟩, .bin, ⟨"src/main.syl", 105, 119⟩⟩,
    ⟨⟨"core", 140, 146⟩, .lib, ⟨second, 167, 181⟩⟩]
  dependencies := .empty
  capabilities := ⟨⟨"none", 208, 214⟩, [], [], 65536⟩

def sourcePath (name : String) : PathBuf := [.normal "src".toList, .normal name.toList]

def app : Target := ⟨"app", .bin, sourcePath "main.syl"⟩

def demoManifest (core : Target) : Manifest where
  package := ⟨"demo", "0.1.0", "2026"⟩
  targets := [app, core]
  dependencies := .empty
  capabilities := ⟨"none", [], [], 65536⟩

/-- An empty source compiles; its digest is SHA-256 of nothing. -/
def emptyServices : Services Unit where
  success := fun _ _ => true
  report := fun _ _ => ()
  sha256 := fun _ => #v[
    0xe3, 0xb0, 0xc4, 0x42, 0x98, 0xfc, 0x1c, 0x14, 0x9a, 0xfb, 0xf4, 0xc8, 0x99, 0x6f, 0xb9, 0x24,
    0x27, 0xae, 0x41, 0xe4, 0x64, 0x9b, 0x93, 0x4c, 0xa4, 0x95, 0x99, 0x1b, 0x78, 0x52, 0xb8, 0x55]

/-- With a path of its own, the library is never behind. -/
theorem demo_never_stale :
    Project.validate "Syllog.toml" (demoSource "src/core.syl") (demoRaw "src/core.syl") =
      .ok (demoManifest ⟨"core", .lib, sourcePath "core.syl"⟩) ∧
    ∀ run : Traced Unit, Reachable [app, ⟨"core", .lib, sourcePath "core.syl"⟩] ⟨100⟩ emptyServices run →
      UpToDate [app, ⟨"core", .lib, sourcePath "core.syl"⟩] run := by
  have hvalid : Project.validate "Syllog.toml" (demoSource "src/core.syl") (demoRaw "src/core.syl") =
      .ok (demoManifest ⟨"core", .lib, sourcePath "core.syl"⟩) := rfl
  exact ⟨hvalid, (never_stale_iff hvalid ⟨100⟩ emptyServices).mpr (by decide)⟩

def sharingCore : Target := ⟨"core", .lib, sourcePath "main.syl"⟩

/-- The first tick of the two, and the build of the path that is ready. -/
def firstBuild : List Label := [.tick, .observe, .observe, .collect (fun _ => 100), .build]

/-- With the path of the application, the library is observed, no longer pending and was never built. -/
theorem sharingCore_stale :
    Project.validate "Syllog.toml" (demoSource "src/main.syl") (demoRaw "src/main.syl") = .ok (demoManifest sharingCore) ∧
    ∃ run : Traced Unit, Reachable [app, sharingCore] ⟨100⟩ emptyServices run ∧ ¬ UpToDate [app, sharingCore] run := by
  refine ⟨rfl, ?_⟩
  obtain ⟨run, hrun, hlog, hobserved, hpending⟩ : ∃ run : Traced Unit,
      Schedule.play (advance [app, sharingCore] ⟨100⟩ emptyServices) (start fun _ => none, []) firstBuild = some run ∧
      run.2 = [.recorded app.path none, .built app] ∧ run.1.observed.get? sharingCore.path = some none ∧
      run.1.pending.get? sharingCore.path = none := ⟨_, rfl, by decide, by decide, by decide⟩
  refine ⟨run, ⟨fun _ => none, firstBuild, hrun⟩, fun hup => ?_⟩
  obtain ⟨after, ⟨⟨before, hsplit⟩, -⟩, hbuilt⟩ := hup sharingCore (by decide) none hobserved hpending
  have hmem : .built sharingCore ∈ run.2 := by simp [hsplit, hbuilt]
  rw [hlog] at hmem
  exact absurd hmem (by decide)

end DevServer
end Syllog
