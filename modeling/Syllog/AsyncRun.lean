import Syllog.Async
import Syllog.Runs
/-!
# AsyncRun — executing async state machines

`task.rs`.  A runner stands at a state of the machine and remembers the last await point it was woken at.  `advance` is one
turn of the loop that runs to the next suspension; the deterministic scheduler wakes at once, and the Tokio one yields to
its executor first.
-/
namespace Syllog
namespace Async

open Runs

abbrev ParentScopeId := UInt64

inductive TaskControl where
  | complete
  | cancelAt (awaitIndex : UInt32)
  | panicAt (awaitIndex : UInt32)
deriving DecidableEq, Repr

inductive TaskEvent where
  | started (parent : ParentScopeId)
  | suspended (awaitIndex : UInt32)
  | woken (awaitIndex : UInt32)
  | resumed (awaitIndex : UInt32)
  | cancelled
  | panicked
  | dropped (locals : List DefId)
  | completed
deriving DecidableEq, Repr

inductive TaskFailure where
  | invalidMachine (errors : List AsyncVerificationError)
  | invalidRuntimeState (state : AsyncStateId)
  | panicked (events : List TaskEvent)
deriving DecidableEq, Repr

inductive Step where
  | pending (awaitIndex : UInt32) (resume : AsyncStateId)
  | complete
deriving DecidableEq, Repr

structure Runner where
  machine : AsyncStateMachine
  state : AsyncStateId
  control : TaskControl
  lastAwait : Option UInt32
  events : List TaskEvent
  panicked : Bool
deriving DecidableEq, Repr

def AsyncStateMachine.transition (m : AsyncStateMachine) (state : AsyncStateId) : Option AsyncTransition :=
  m.states[state.toNat]?.map (·.transition)

namespace Runner

/-- The runner before its first step, its machine already verified. -/
def init (machine : AsyncStateMachine) (parent : ParentScopeId) (control : TaskControl) : Runner :=
  { machine, control, state := 0, lastAwait := none, events := [.started parent], panicked := false }

def new (machine : AsyncStateMachine) (parent : ParentScopeId) (control : TaskControl) : Except TaskFailure Runner :=
  match verifyAsyncMachine machine with
  | .ok _         => .ok (init machine parent control)
  | .error errors => .error (.invalidMachine errors)

def push (r : Runner) (event : TaskEvent) : Runner := { r with events := r.events ++ [event] }

/-- One turn of the loop of `advance`: go on at another state, or leave the loop with a step. -/
def advance (r : Runner) : Except TaskFailure (Runner ⊕ Runner × Step) :=
  match r.machine.transition r.state with
  | none => .error (.invalidRuntimeState r.state)
  | some (.start next) => .ok (.inl { r with state := next })
  | some (.suspend awaitIndex resume cancel) =>
    let suspended := r.push (.suspended awaitIndex)
    if r.control = .cancelAt awaitIndex then .ok (.inl { suspended.push .cancelled with state := cancel })
    else .ok (.inr (suspended, .pending awaitIndex resume))
  | some (.resume next panic) =>
    match r.lastAwait with
    | none => .error (.invalidRuntimeState r.state)
    | some awaitIndex =>
      let resumed := r.push (.resumed awaitIndex)
      if r.control = .panicAt awaitIndex then
        .ok (.inl { resumed.push .panicked with panicked := true, state := panic })
      else .ok (.inl { resumed with state := next })
  | some .complete => .ok (.inr (r.push .completed, .complete))
  | some (.cancel dropLocals) =>
    let dropped := r.push (.dropped dropLocals)
    if r.panicked then .error (.panicked dropped.events) else .ok (.inr (dropped, .complete))

def wake (r : Runner) (awaitIndex : UInt32) (resume : AsyncStateId) : Runner :=
  { r.push (.woken awaitIndex) with lastAwait := some awaitIndex, state := resume }

/-- One turn of the two loops of the deterministic scheduler. -/
def turn (r : Runner) : Except TaskFailure (Runner ⊕ List TaskEvent) :=
  match r.advance with
  | .error failure                             => .error failure
  | .ok (.inl r')                              => .ok (.inl r')
  | .ok (.inr (r', .pending awaitIndex resume)) => .ok (.inl (r'.wake awaitIndex resume))
  | .ok (.inr (r', .complete))                 => .ok (.inr r'.events)

end Runner

/-- At most `fuel` turns; `none` when they are not enough. -/
def runDeterministicTask (fuel : Nat) (machine : AsyncStateMachine) (parent : ParentScopeId) (control : TaskControl) :
    Option (Except TaskFailure (List TaskEvent)) :=
  match Runner.new machine parent control with
  | .error failure => some (.error failure)
  | .ok r          => run Runner.turn fuel r

/-- A Tokio task: polled and inside `advance`, or yielded to the executor before its wake. -/
inductive TokioTask where
  | polled (runner : Runner)
  | yielded (runner : Runner) (awaitIndex : UInt32) (resume : AsyncStateId)

/-- A yielded task is polled again, and then wakes. -/
def TokioTask.turn : TokioTask → Except TaskFailure (TokioTask ⊕ List TaskEvent)
  | .polled r =>
    match r.advance with
    | .error failure                             => .error failure
    | .ok (.inl r')                              => .ok (.inl (.polled r'))
    | .ok (.inr (r', .pending awaitIndex resume)) => .ok (.inl (.yielded r' awaitIndex resume))
    | .ok (.inr (r', .complete))                 => .ok (.inr r'.events)
  | .yielded r awaitIndex resume => .ok (.inl (.polled (r.wake awaitIndex resume)))

def runTokioTask (fuel : Nat) (machine : AsyncStateMachine) (parent : ParentScopeId) (control : TaskControl) :
    Option (Except TaskFailure (List TaskEvent)) :=
  match Runner.new machine parent control with
  | .error failure => some (.error failure)
  | .ok r          => run TokioTask.turn fuel (.polled r)

/-! ## What a turn does -/

namespace Runner

variable {r : Runner} {next woken cancelled panic : AsyncStateId} {i : UInt32} {locals : List DefId}

theorem turn_of_start (h : r.machine.transition r.state = some (.start next)) :
    r.turn = .ok (.inl { r with state := next }) := by
  simp only [turn, advance, h]

theorem turn_of_suspend (h : r.machine.transition r.state = some (.suspend i woken cancelled))
    (hc : r.control ≠ .cancelAt i) : r.turn = .ok (.inl ((r.push (.suspended i)).wake i woken)) := by
  simp only [turn, advance, h, if_neg hc]

theorem turn_of_cancelAt (h : r.machine.transition r.state = some (.suspend i woken cancelled))
    (hc : r.control = .cancelAt i) :
    r.turn = .ok (.inl { (r.push (.suspended i)).push .cancelled with state := cancelled }) := by
  simp only [turn, advance, h, if_pos hc]

theorem turn_of_resume (h : r.machine.transition r.state = some (.resume next panic)) (hl : r.lastAwait = some i)
    (hc : r.control ≠ .panicAt i) : r.turn = .ok (.inl { r.push (.resumed i) with state := next }) := by
  simp only [turn, advance, h, hl, if_neg hc]

theorem turn_of_panicAt (h : r.machine.transition r.state = some (.resume next panic)) (hl : r.lastAwait = some i)
    (hc : r.control = .panicAt i) :
    r.turn = .ok (.inl { (r.push (.resumed i)).push .panicked with panicked := true, state := panic }) := by
  simp only [turn, advance, h, hl, if_pos hc]

theorem turn_of_lost (h : r.machine.transition r.state = some (.resume next panic)) (hl : r.lastAwait = none) :
    r.turn = .error (.invalidRuntimeState r.state) := by
  simp only [turn, advance, h, hl]

theorem turn_of_complete (h : r.machine.transition r.state = some .complete) :
    r.turn = .ok (.inr (r.events ++ [.completed])) := by
  simp only [turn, advance, h, push]

theorem turn_of_cancel (h : r.machine.transition r.state = some (.cancel locals)) :
    r.turn = if r.panicked then .error (.panicked (r.events ++ [.dropped locals]))
      else .ok (.inr (r.events ++ [.dropped locals])) := by
  cases hp : r.panicked <;> simp [turn, advance, h, push, hp]

end Runner

/-! ## The two schedulers agree -/

theorem tokio_reaches_of_turn {r r' : Runner} (h : r.turn = .ok (.inl r')) :
    Reaches TokioTask.turn (.polled r) (.polled r') := by
  unfold Runner.turn at h
  split at h
  · cases h
  · rename_i r1 hadv
    cases h
    exact Reaches.single (by simp [TokioTask.turn, hadv])
  · rename_i r1 awaitIndex resume hadv
    cases h
    have hyield : (TokioTask.polled r).turn = .ok (.inl (.yielded r1 awaitIndex resume)) := by
      simp [TokioTask.turn, hadv]
    exact Reaches.head hyield (Reaches.single rfl)
  · cases h

theorem tokio_reaches {r r' : Runner} (h : Reaches Runner.turn r r') :
    Reaches TokioTask.turn (.polled r) (.polled r') := by
  induction h with
  | refl => exact Reaches.refl _ _
  | tail _ hn ih => exact ih.trans (tokio_reaches_of_turn hn)

theorem tokio_ends {r : Runner} {o : Except TaskFailure (List TaskEvent)} (h : Ends Runner.turn r o) :
    Ends TokioTask.turn (.polled r) o := by
  cases o with
  | ok events =>
    simp only [Ends, Runner.turn] at h
    split at h <;> simp_all [Ends, TokioTask.turn]
  | error failure =>
    simp only [Ends, Runner.turn] at h
    split at h <;> simp_all [Ends, TokioTask.turn]

/-- **What the deterministic scheduler ends with, Tokio ends with.** -/
theorem runTokioTask_of_deterministic {fuel : Nat} {m : AsyncStateMachine} {parent : ParentScopeId} {c : TaskControl}
    {o : Except TaskFailure (List TaskEvent)} (h : runDeterministicTask fuel m parent c = some o) :
    ∃ fuel', runTokioTask fuel' m parent c = some o := by
  unfold runDeterministicTask at h
  unfold runTokioTask
  cases hnew : Runner.new m parent c with
  | error failure =>
    simp only [hnew] at h
    exact ⟨0, h⟩
  | ok r =>
    simp only [hnew] at h
    obtain ⟨r', hr, he⟩ := run_eq_some fuel r o h
    exact run_of_reaches (tokio_reaches hr) (tokio_ends he)

end Async
end Syllog
