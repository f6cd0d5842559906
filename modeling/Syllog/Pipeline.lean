import Syllog.OrdMap
import Syllog.Schedule
import Mathlib.Data.String.Basic
/-!
# Pipeline — the production pipeline executor

`pipeline.rs` of `syllog-runtime`.  One executor runs any number of pipelines; each has a root task that goes through the
groups of its plan, child tasks for the branches of a fan-out, a caller that waits, one cancellation flag and one bounded
log.  Stage invocations of all pipelines share the circuits, by stage name.

Every await point is a state, and one step moves one task from a state to the next; a label says which task moves and what
its surroundings answer: what an operation returned, that a sleep or a deadline or the grace has elapsed, which child a
join finds.  Stage operations are the surroundings' own; semaphores are never closed.  `history` is the audit trail of what
invocations did, in order, and `handed` what each group was handed.
-/
namespace Syllog
namespace Pipeline

/-! ## Policies, errors and events -/

structure RetryPolicy where
  maxAttempts : Nat
  backoff : Nat
deriving DecidableEq, Repr

structure CircuitPolicy where
  failureThreshold : Nat
  resetAfter : Nat
deriving DecidableEq, Repr

inductive JoinPolicy where
  | preserveInputOrder
  | completionOrder
deriving DecidableEq, Repr

/-- A named stage.  `with_retry` and `with_circuit` raise a zero to one; a threshold is a 32-bit number. -/
structure Stage where
  name : String
  retry : RetryPolicy
  deadline : Option Nat
  circuit : Option CircuitPolicy
  attempts_pos : 0 < retry.maxAttempts
  threshold_range : ∀ policy ∈ circuit, 0 < policy.failureThreshold ∧ policy.failureThreshold < 2 ^ 32

namespace Stage

def new (name : String) : Stage := ⟨name, ⟨1, 0⟩, none, none, Nat.one_pos, by simp⟩

def withRetry (stage : Stage) (policy : RetryPolicy) : Stage :=
  { stage with
    retry := ⟨max policy.maxAttempts 1, policy.backoff⟩
    attempts_pos := Nat.lt_of_lt_of_le Nat.one_pos (Nat.le_max_right _ _) }

def withDeadline (stage : Stage) (deadline : Nat) : Stage := { stage with deadline := some deadline }

def withCircuit (stage : Stage) (policy : CircuitPolicy) (h : policy.failureThreshold < 2 ^ 32) : Stage :=
  { stage with
    circuit := some ⟨max policy.failureThreshold 1, policy.resetAfter⟩
    threshold_range := by
      intro p hp
      cases hp
      exact ⟨Nat.lt_of_lt_of_le Nat.one_pos (Nat.le_max_right _ _), Nat.max_lt.mpr ⟨h, by decide⟩⟩ }

end Stage

inductive PipelineGroup where
  | serial (stages : List Stage)
  | fanOut (stages : List Stage) (join : JoinPolicy)

inductive StageErrorKind where
  | retryable | fatal | cancelled | deadline | circuitOpen | join
deriving DecidableEq, Repr

inductive StageError where
  | retryable (message : String)
  | fatal (message : String)
  | cancelled
  | deadline (stage : String)
  | circuitOpen (stage : String)
  | join
deriving DecidableEq, Repr

def StageError.kind : StageError → StageErrorKind
  | .retryable _   => .retryable
  | .fatal _       => .fatal
  | .cancelled     => .cancelled
  | .deadline _    => .deadline
  | .circuitOpen _ => .circuitOpen
  | .join          => .join

abbrev StageResult := Except StageError String

inductive PipelineEvent where
  | started
  | stageAttempt (stage : String) (attempt : Nat)
  | stageSucceeded (stage : String)
  | stageFailed (stage : String) (kind : StageErrorKind)
  | fanOutStarted (width : Nat)
  | joined (count : Nat)
  | cancelled
  | cancellationGraceElapsed (graceMillis : Nat)
  | taskDetached
  | completed
deriving DecidableEq, Repr

/-- The newest events, at most `capacity` of them. -/
structure LifecycleLog where
  capacity : Nat
  events : List PipelineEvent
deriving DecidableEq, Repr

namespace LifecycleLog

def push (log : LifecycleLog) (event : PipelineEvent) : LifecycleLog :=
  { log with events := (if log.events.length = log.capacity then log.events.drop 1 else log.events) ++ [event] }

def extend (log : LifecycleLog) (incoming : List PipelineEvent) : LifecycleLog := incoming.foldl push log

def cancelled (log : LifecycleLog) : LifecycleLog :=
  if .cancelled ∈ log.events then log else log.push .cancelled

end LifecycleLog

structure PipelineOutcome where
  output : List String
  events : List PipelineEvent
deriving DecidableEq, Repr

structure PipelineFailure where
  error : StageError
  events : List PipelineEvent
deriving DecidableEq, Repr

abbrev PipelineResult := Except PipelineFailure PipelineOutcome

/-! ## Circuits -/

structure CircuitState where
  failures : Nat
  openedAt : Option Nat
deriving DecidableEq, Repr

abbrev Circuits := OrdMap String CircuitState

/-- The state of a circuit, closed when it has none yet. -/
def circuitOf (circuits : Circuits) (name : String) : CircuitState := (circuits.get? name).getD ⟨0, none⟩

/-- What a check answers. -/
inductive Verdict where
  | rejected
  | admitted (rearmed : Bool)
deriving DecidableEq, Repr

def checkCircuit (stage : Stage) (now : Nat) (circuits : Circuits) : Verdict × Circuits :=
  match stage.circuit with
  | none        => (.admitted false, circuits)
  | some policy =>
    let state := circuitOf circuits stage.name
    let circuits := circuits.insert stage.name state
    match state.openedAt with
    | none          => (.admitted false, circuits)
    | some openedAt =>
      if now - openedAt < policy.resetAfter then (.rejected, circuits)
      else (.admitted true, circuits.insert stage.name ⟨0, none⟩)

def recordCircuitSuccess (stage : Stage) (circuits : Circuits) : Circuits :=
  match stage.circuit, circuits.get? stage.name with
  | some _, some _ => circuits.insert stage.name ⟨0, none⟩
  | _, _           => circuits

def recordCircuitFailure (stage : Stage) (now : Nat) (circuits : Circuits) : Circuits :=
  match stage.circuit with
  | none        => circuits
  | some policy =>
    let state := circuitOf circuits stage.name
    let failures := min (state.failures + 1) (2 ^ 32 - 1)
    circuits.insert stage.name ⟨failures, if policy.failureThreshold ≤ failures then some now else state.openedAt⟩

/-! ## Stage invocations -/

/-- Where an invocation of a stage stands. -/
inductive Phase where
  | entering
  | looping (attempt : Nat)
  | calling (attempt : Nat)
  | backingOff (attempt : Nat)
  | settling (result : StageResult)
  | recorded (result : StageResult)
  | ended (result : StageResult)
  | panicked

/-- What the surroundings answer an invocation. -/
inductive Choice where
  | proceed
  | returns (result : StageResult)
  | panics
  | slept
  | expires

/-- What an invocation does to what it shares. -/
inductive Act where
  | checked (verdict : Verdict)
  | logged (event : PipelineEvent)
  | recorded (success : Bool)
deriving DecidableEq, Repr

def StageError.isRetryable : StageError → Bool
  | .retryable _ => true
  | _            => false

/-- A new result is settled; a retryable error before the last attempt is not. -/
def answered (stage : Stage) (attempt : Nat) : StageResult → Phase
  | .ok output => .settling (.ok output)
  | .error e   => if e.isRetryable ∧ attempt < stage.retry.maxAttempts then .backingOff attempt else .settling (.error e)

def exhausted : StageError := .fatal "retry policy exhausted without terminal result"

/-- The record a result leaves in the circuit. -/
def recordResult (stage : Stage) (now : Nat) (circuits : Circuits) : StageResult → Circuits × List Act
  | .ok _    => (recordCircuitSuccess stage circuits, if stage.circuit.isSome then [.recorded true] else [])
  | .error _ => (recordCircuitFailure stage now circuits, if stage.circuit.isSome then [.recorded false] else [])

def resultEvent (stage : Stage) : StageResult → PipelineEvent
  | .ok _    => .stageSucceeded stage.name
  | .error e => .stageFailed stage.name e.kind

/-- `run_stage` and `run_stage_attempts`, from one await point to the next. -/
def advance (stage : Stage) (cancelled : Bool) (now : Nat) (circuits : Circuits) (phase : Phase) (choice : Choice) :
    Option (Phase × Circuits × List Act) :=
  match phase, choice with
  | .entering, .proceed =>
    match checkCircuit stage now circuits with
    | (.rejected, circuits) => some (.ended (.error (.circuitOpen stage.name)), circuits, [.checked .rejected])
    | (.admitted rearmed, circuits) => some (.looping 1, circuits, [.checked (.admitted rearmed)])
  | .looping attempt, .proceed =>
    if stage.retry.maxAttempts < attempt then some (.settling (.error exhausted), circuits, [])
    else if cancelled then some (.settling (.error .cancelled), circuits, [])
    else some (.calling attempt, circuits, [.logged (.stageAttempt stage.name attempt)])
  | .calling attempt, .returns result => some (answered stage attempt result, circuits, [])
  | .calling _, .panics => some (.panicked, circuits, [])
  -- The select is biased: a raised flag is seen before a sleep that is over.
  | .backingOff _, .proceed => if cancelled then some (.settling (.error .cancelled), circuits, []) else none
  | .backingOff attempt, .slept =>
    if cancelled then some (.settling (.error .cancelled), circuits, []) else some (.looping (attempt + 1), circuits, [])
  | .settling result, .proceed =>
    let (circuits, acts) := recordResult stage now circuits result
    some (.recorded result, circuits, acts)
  | .recorded result, .proceed => some (.ended result, circuits, [.logged (resultEvent stage result)])
  -- The elapsed deadline leaves `run_stage` through `?`.
  | .looping _, .expires | .calling _, .expires | .backingOff _, .expires =>
    if stage.deadline.isSome then some (.ended (.error (.deadline stage.name)), circuits, []) else none
  | _, _ => none

def loggedEvents (acts : List Act) : List PipelineEvent :=
  acts.filterMap fun act => match act with
    | .logged event => some event
    | _             => none

structure Invocation where
  pipeline : Nat
  child : Bool
  stage : Stage
  input : String
  phase : Phase
  log : LifecycleLog

/-! ## Fan-out -/

/-- How a child task ended. -/
inductive Outcome where
  | returned (result : StageResult)
  | panicked

inductive BranchStatus where
  | spawned
  | running (invocation : Nat)
  | finished (outcome : Outcome) (events : List PipelineEvent)
  | joined (outcome : Outcome)

def BranchStatus.holdsPermit : BranchStatus → Bool
  | .running _ => true
  | _          => false

def BranchStatus.isJoined : BranchStatus → Bool
  | .joined _ => true
  | _         => false

structure Branch where
  stage : Stage
  status : BranchStatus

/-- The children of `run_fan_out` and the state of its join loop. -/
structure FanOut where
  policy : JoinPolicy
  input : String
  branches : List Branch
  results : List (Nat × String)
  failure : Option StageError

namespace FanOut

def spawn (stages : List Stage) (policy : JoinPolicy) (input : String) : FanOut :=
  ⟨policy, input, stages.map (⟨·, .spawned⟩), [], none⟩

def permitsHeld (f : FanOut) : Nat := f.branches.countP fun b => b.status.holdsPermit

def setStatus (f : FanOut) (i : Nat) (status : BranchStatus) : FanOut :=
  { f with branches := f.branches.modify i fun b => { b with status := status } }

/-- A child gets a permit of the semaphore and starts its invocation. -/
def acquire (f : FanOut) (maxFanOut i invocation : Nat) : Option FanOut :=
  match (f.branches[i]?).map Branch.status with
  | some .spawned => if f.permitsHeld < maxFanOut then some (f.setStatus i (.running invocation)) else none
  | _             => none

/-- A child gives its permit back and returns, or unwinds. -/
def finish (f : FanOut) (i : Nat) (outcome : Outcome) (events : List PipelineEvent) : Option FanOut :=
  match (f.branches[i]?).map Branch.status with
  | some (.running _) => some (f.setStatus i (.finished outcome events))
  | _                 => none

/-- What the join loop makes of a child's result; whether it cancels the others. -/
def absorb (f : FanOut) (i : Nat) : Outcome → FanOut × Bool
  | .returned (.ok output) =>
    (if f.failure.isNone then { f with results := f.results ++ [(i, output)] } else f, false)
  | .returned (.error e)   => ({ f with failure := f.failure.or (some e) }, true)
  | .panicked              => ({ f with failure := f.failure.or (some .join) }, true)

/-- `join_next` finds a finished child. -/
def join (f : FanOut) (i : Nat) : Option (FanOut × List PipelineEvent × Bool) :=
  match (f.branches[i]?).map Branch.status with
  | some (.finished outcome events) =>
    let (f, cancels) := (f.setStatus i (.joined outcome)).absorb i outcome
    some (f, events, cancels)
  | _ => none

/-- The end of the join loop, once no child is left. -/
def returns (f : FanOut) : Option (Except StageError (List String)) :=
  if f.branches.all fun b => b.status.isJoined then
    match f.failure with
    | some e => some (.error e)
    | none   =>
      let results := if f.policy = .preserveInputOrder then f.results.insertionSort (fun a b => a.1 ≤ b.1) else f.results
      some (.ok (results.map (·.2)))
  else none

end FanOut

/-! ## Pipelines -/

/-- The root task. -/
inductive Root where
  | ready (groups : List PipelineGroup) (input : String)
  | between (groups : List PipelineGroup) (outputs : List String)
  | serial (invocation : Nat) (rest : List Stage) (groups : List PipelineGroup)
  | fanOut (children : FanOut) (groups : List PipelineGroup)
  | returned (result : PipelineResult)
  | panicked

/-- The caller of `wait`. -/
inductive Handle where
  | waiting
  | gracing
  | returned (result : PipelineResult)

structure Execution where
  cancelled : Bool
  log : LifecycleLog
  root : Root
  handle : Handle
  handed : List (List String × String)

structure Config where
  eventCapacity : Nat
  maxFanOut : Nat
  cancellationGrace : Nat
  capacity_pos : 0 < eventCapacity
  fanOut_pos : 0 < maxFanOut

/-- An entry of the audit trail. -/
structure Entry where
  invocation : Nat
  stage : Stage
  time : Nat
  act : Act

structure Executor where
  config : Config
  now : Nat
  circuits : Circuits
  history : List Entry
  invocations : List Invocation
  pipelines : List Execution

inductive Label where
  | tick (elapsed : Nat)
  | execute (plan : List PipelineGroup) (input : String)
  | invocation (index : Nat) (choice : Choice)
  | root (pipeline : Nat)
  | acquire (pipeline branch : Nat)
  | finish (pipeline branch : Nat)
  | join (pipeline branch : Nat)
  | cancel (pipeline : Nat)
  | observe (pipeline : Nat)
  | collect (pipeline : Nat)
  | graceElapsed (pipeline : Nat)

namespace Execution

def start (capacity : Nat) (plan : List PipelineGroup) (input : String) : Execution :=
  ⟨false, ⟨capacity, []⟩, .ready plan input, .waiting, []⟩

def push (e : Execution) (event : PipelineEvent) : Execution := { e with log := e.log.push event }

/-- The end of `run`. -/
def complete (e : Execution) (output : List String) : Execution :=
  let e := e.push .completed
  { e with root := .returned (.ok ⟨output, e.log.events⟩) }

def fail (e : Execution) (error : StageError) : Execution :=
  let e := if error = .cancelled then { e with log := e.log.cancelled } else e
  { e with root := .returned (.error ⟨error, e.log.events⟩) }

/-- Hands a group its input. -/
def hand (e : Execution) (outputs : List String) (input : String) : Execution :=
  { e with handed := e.handed ++ [(outputs, input)] }

/-- The stages of a serial group from here on: the next is invoked, or the group is done. -/
def continueSerial (e : Execution) (next : Nat) (input : String) (groups : List PipelineGroup) :
    List Stage → Execution × Option (Stage × String)
  | []            => ({ e with root := .between groups [input] }, none)
  | stage :: rest => ({ e with root := .serial next rest groups }, some (stage, input))

/-- The head of the loop of `run_groups`. -/
def nextGroup (e : Execution) (next : Nat) (outputs : List String) :
    List PipelineGroup → Execution × Option (Stage × String)
  | []              => (e.complete outputs, none)
  | group :: groups =>
    if e.cancelled then (e.fail .cancelled, none)
    else match group, outputs.getLast? with
      | .serial _, none            => (e.fail (.fatal "serial stage has no input"), none)
      | .serial stages, some input => (e.hand outputs input).continueSerial next input groups stages
      | .fanOut _ _, none          => (e.fail (.fatal "fan-out has no input"), none)
      | .fanOut stages policy, some input =>
        let e := (e.hand outputs input).push (.fanOutStarted stages.length)
        ({ e with root := .fanOut (.spawn stages policy input) groups }, none)

/-- One step of the root task; the stage it invokes, if it does, gets the number `next`. -/
def stepRoot (e : Execution) (invocations : List Invocation) : Option (Execution × Option (Stage × String)) :=
  match e.root with
  | .ready groups input => some ({ e.push .started with root := .between groups [input] }, none)
  | .between groups outputs => some (e.nextGroup invocations.length outputs groups)
  | .serial index rest groups =>
    match (invocations[index]?).map Invocation.phase with
    | some (.ended (.ok output)) => some (e.continueSerial invocations.length output groups rest)
    | some (.ended (.error error)) => some (e.fail error, none)
    | some .panicked => some ({ e with root := .panicked }, none)
    | _ => none
  | .fanOut children groups =>
    match children.returns with
    | some (.ok outputs) => some ({ e.push (.joined outputs.length) with root := .between groups outputs }, none)
    | some (.error error) => some (e.fail error, none)
    | none => none
  | .returned _ | .panicked => none

/-- The result of the root task as `wait` gets it. -/
def taskResult (e : Execution) : Option PipelineResult :=
  match e.root with
  | .returned result => some result
  | .panicked        => some (.error ⟨.join, e.log.events⟩)
  | _                => none

end Execution

namespace Executor

def new (config : Config) : Executor := ⟨config, 0, OrdMap.empty, [], [], []⟩

def setPipeline (x : Executor) (k : Nat) (e : Execution) : Executor := { x with pipelines := x.pipelines.set k e }

def invoke (x : Executor) (k : Nat) (child : Bool) (stage : Stage) (input : String) : Executor :=
  { x with invocations := x.invocations ++ [⟨k, child, stage, input, .entering, ⟨x.config.eventCapacity, []⟩⟩] }

/-- An invocation moves; its events go to the log of its child task, or to the pipeline's. -/
def stepInvocation (x : Executor) (i : Nat) (choice : Choice) : Option Executor := do
  let invocation ← x.invocations[i]?
  let e ← x.pipelines[invocation.pipeline]?
  let (phase, circuits, acts) ← advance invocation.stage e.cancelled x.now x.circuits invocation.phase choice
  let events := loggedEvents acts
  let log := if invocation.child then invocation.log.extend events else invocation.log
  let x := { x with
    circuits := circuits
    history := x.history ++ acts.map fun act => ⟨i, invocation.stage, x.now, act⟩
    invocations := x.invocations.set i { invocation with phase := phase, log := log } }
  some (if invocation.child then x else x.setPipeline invocation.pipeline { e with log := e.log.extend events })

def stepRoot (x : Executor) (k : Nat) : Option Executor := do
  let e ← x.pipelines[k]?
  let (e, invoked) ← e.stepRoot x.invocations
  let x := x.setPipeline k e
  some (match invoked with
    | some (stage, input) => x.invoke k false stage input
    | none                => x)

/-- The children of a pipeline that is in a fan-out. -/
def children (x : Executor) (k : Nat) : Option (Execution × FanOut × List PipelineGroup) := do
  let e ← x.pipelines[k]?
  match e.root with
  | .fanOut children groups => some (e, children, groups)
  | _                       => none

def acquire (x : Executor) (k i : Nat) : Option Executor := do
  let (e, children, groups) ← x.children k
  let branch ← children.branches[i]?
  let children' ← children.acquire x.config.maxFanOut i x.invocations.length
  some ((x.setPipeline k { e with root := .fanOut children' groups }).invoke k true branch.stage children.input)

/-- The outcome of the invocation a child runs. -/
def outcomeOf (phase : Phase) : Option Outcome :=
  match phase with
  | .ended result => some (.returned result)
  | .panicked     => some .panicked
  | _             => none

def finish (x : Executor) (k i : Nat) : Option Executor := do
  let (e, children, groups) ← x.children k
  match (← children.branches[i]?).status with
  | .running index =>
    let invocation ← x.invocations[index]?
    let outcome ← outcomeOf invocation.phase
    let children ← children.finish i outcome invocation.log.events
    some (x.setPipeline k { e with root := .fanOut children groups })
  | _ => none

def join (x : Executor) (k i : Nat) : Option Executor := do
  let (e, children, groups) ← x.children k
  let (children, events, cancels) ← children.join i
  some (x.setPipeline k
    { e with log := e.log.extend events, cancelled := e.cancelled || cancels, root := .fanOut children groups })

/-- The cancellation arm of the select of `wait`. -/
def observe (x : Executor) (k : Nat) : Option Executor := do
  let e ← x.pipelines[k]?
  match e.handle with
  | .waiting => if e.cancelled then some (x.setPipeline k { e with log := e.log.cancelled, handle := .gracing }) else none
  | _        => none

/-- `wait` gets the result of the root task. -/
def collect (x : Executor) (k : Nat) : Option Executor := do
  let e ← x.pipelines[k]?
  let result ← e.taskResult
  match e.handle with
  | .waiting | .gracing => some (x.setPipeline k { e with handle := .returned result })
  | .returned _         => none

/-- The grace is over and the root task has not ended. -/
def graceElapsed (x : Executor) (k : Nat) : Option Executor := do
  let e ← x.pipelines[k]?
  match e.handle, e.taskResult with
  | .gracing, none =>
    let e := (e.push (.cancellationGraceElapsed (min x.config.cancellationGrace (2 ^ 64 - 1)))).push .taskDetached
    some (x.setPipeline k { e with handle := .returned (.error ⟨.cancelled, e.log.events⟩) })
  | _, _ => none

def step (x : Executor) (label : Label) : Option Executor :=
  match label with
  | .tick elapsed          => some { x with now := x.now + elapsed }
  | .execute plan input    =>
    some { x with pipelines := x.pipelines ++ [Execution.start x.config.eventCapacity plan input] }
  | .invocation i choice   => x.stepInvocation i choice
  | .root k                => x.stepRoot k
  | .acquire k i           => x.acquire k i
  | .finish k i            => x.finish k i
  | .join k i              => x.join k i
  | .cancel k              => (x.pipelines[k]?).map fun e => x.setPipeline k { e with cancelled := true }
  | .observe k             => x.observe k
  | .collect k             => x.collect k
  | .graceElapsed k        => x.graceElapsed k

end Executor

end Pipeline
end Syllog
