import Syllog.PipelineStep
/-!
# PipelineCancel — who hears of a cancellation

One flag serves the caller's `cancel` and the fail-fast of a fan-out.  Where nobody cancels, the flag is raised only by the
join loop, and only after it has noted the failure it will return; so the root task returns a stage's own error.  The caller
is the exception: the select of `wait` may see the raised flag before the root task has ended, and then it logs and may
return a cancellation that nobody asked for.
-/
namespace Syllog
namespace Pipeline

open Schedule

/-! ## The law -/

/-- A stage of the pipeline ended with an error, or panicked. -/
def StageFailed (x : Executor) (k : Nat) (child : Bool) (error : StageError) : Prop :=
  ∃ (i : Nat) (invocation : Invocation), x.invocations[i]? = some invocation ∧ invocation.pipeline = k ∧
    invocation.child = child ∧
    (invocation.phase = .ended (.error error) ∨ (invocation.phase = .panicked ∧ error = .join))

/-- An error of one of its stages, or of the loop over its groups. -/
def OwnError (x : Executor) (k : Nat) (error : StageError) : Prop :=
  error = .fatal "serial stage has no input" ∨ error = .fatal "fan-out has no input" ∨ ∃ child, StageFailed x k child error

/-- A result without a cancellation, in its events or as its error, which is the pipeline's own. -/
def CalmResult (x : Executor) (k : Nat) : PipelineResult → Prop
  | .ok outcome    => .cancelled ∉ outcome.events
  | .error failure => failure.error ≠ .cancelled ∧ OwnError x k failure.error ∧ .cancelled ∉ failure.events

/-- **No cancellation is logged or returned to the caller of `wait`**, who gets the pipeline's own error. -/
def Calm (x : Executor) (k : Nat) : Prop :=
  ∀ e, x.pipelines[k]? = some e → .cancelled ∉ e.log.events ∧ ∀ result, e.handle = .returned result → CalmResult x k result

/-! ## The invariant -/

/-- An invocation that is about to end cancelled, or has. -/
def Phase.isCancelled : Phase → Prop
  | .settling r | .recorded r | .ended r => r = .error .cancelled
  | _                                    => False

def QuietOutcome (x : Executor) (k : Nat) (flag : Bool) (outcome : Outcome) : Prop :=
  ∀ error, outcome.error = some error → StageFailed x k true error ∧ (error = .cancelled → flag = true)

def QuietBranch (x : Executor) (k : Nat) (flag : Bool) : BranchStatus → Prop
  | .running i               => Owned x k true i
  | .finished outcome events => .cancelled ∉ events ∧ QuietOutcome x k flag outcome
  | _                        => True

/-- What the root task is up to while nobody has cancelled. -/
def QuietRoot (x : Executor) (k : Nat) (flag : Bool) : Root → Prop
  | .ready _ _ | .between _ _ => flag = false
  | .serial index _ _         => flag = false ∧ Owned x k false index
  | .fanOut children _        => (flag = true → children.failure.isSome = true) ∧
    (∀ error, children.failure = some error → error ≠ .cancelled ∧ OwnError x k error) ∧
    ∀ i status, children.statusAt i = some status → QuietBranch x k flag status
  | .returned result          => CalmResult x k result
  | .panicked                 => OwnError x k .join

def QuietHandle (x : Executor) (k : Nat) : Handle → Prop
  | .waiting         => True
  | .gracing         => False
  | .returned result => CalmResult x k result

structure Quiet (x : Executor) (k : Nat) (e : Execution) : Prop where
  log : .cancelled ∉ e.log.events
  logs : ∀ (i : Nat) (invocation : Invocation), x.invocations[i]? = some invocation → invocation.pipeline = k → .cancelled ∉ invocation.log.events
  phases : ∀ (i : Nat) (invocation : Invocation), x.invocations[i]? = some invocation → invocation.pipeline = k → invocation.phase.isCancelled →
    e.cancelled = true
  raised : e.cancelled = true → ∃ error, StageFailed x k true error
  root : QuietRoot x k e.cancelled e.root
  handle : QuietHandle x k e.handle

theorem Quiet.calm {x : Executor} {k : Nat} {e : Execution} (h : Quiet x k e) :
    .cancelled ∉ e.log.events ∧ ∀ result, e.handle = .returned result → CalmResult x k result := by
  refine ⟨h.log, fun result hr => ?_⟩
  have := h.handle
  rw [hr] at this
  exact this

/-! ## Logs -/

theorem mem_push {log : LifecycleLog} {event event' : PipelineEvent} (h : event' ∈ (log.push event).events) :
    event' ∈ log.events ∨ event' = event := by
  simp only [LifecycleLog.push, List.mem_append, List.mem_singleton] at h
  rcases h with h | h
  · split_ifs at h
    · exact .inl (List.mem_of_mem_drop h)
    · exact .inl h
  · exact .inr h

theorem mem_extend {event : PipelineEvent} : ∀ {incoming : List PipelineEvent} {log : LifecycleLog},
    event ∈ (log.extend incoming).events → event ∈ log.events ∨ event ∈ incoming
  | [], _, h => .inl h
  | new :: incoming, log, h => by
    rcases @mem_extend event incoming (log.push new) h with h | h
    · rcases mem_push h with h | rfl
      · exact .inl h
      · exact .inr List.mem_cons_self
    · exact .inr (List.mem_cons_of_mem _ h)

/-- What an invocation logs is about its stage. -/
theorem cancelled_not_logged {stage : Stage} {cancelled : Bool} {now : Nat} {circuits circuits' : Circuits} {phase phase' : Phase}
    {choice : Choice} {acts : List Act}
    (h : advance stage cancelled now circuits phase choice = some (phase', circuits', acts)) :
    .cancelled ∉ loggedEvents acts := by
  cases advance_move h with
  | @records result =>
    cases result with
    | ok output =>
      simp only [recordResult]
      split <;> simp [loggedEvents]
    | error e =>
      simp only [recordResult]
      split <;> simp [loggedEvents]
  | @logs result => cases result <;> simp [loggedEvents, resultEvent]
  | _ => simp [loggedEvents]

/-- An invocation ends cancelled when it has seen the flag, or its operation says so. -/
theorem advance_isCancelled {stage : Stage} {cancelled : Bool} {now : Nat} {circuits circuits' : Circuits} {phase phase' : Phase}
    {choice : Choice} {acts : List Act}
    (h : advance stage cancelled now circuits phase choice = some (phase', circuits', acts)) (hc : phase'.isCancelled) :
    cancelled = true ∨ phase.isCancelled ∨ choice = .returns (.error .cancelled) := by
  cases advance_move h with
  | stops flag => exact .inl flag
  | wakes flag => exact .inl flag
  | settles => exact .inr (.inr (congrArg Choice.returns hc))
  | records => exact .inr (.inl hc)
  | logs => exact .inr (.inl hc)
  | _ => simp [Phase.isCancelled, exhausted] at hc

/-! ## What a step keeps -/

section Frame
variable {x x' : Executor} {label : Label} {k : Nat}

theorem StageFailed.step {child : Bool} {error : StageError} (h : StageFailed x k child error)
    (hstep : x.step label = some x') : StageFailed x' k child error := by
  obtain ⟨i, invocation, hi, hk, hchild, hphase⟩ := h
  obtain ⟨invocation', hi', hp, hc, hover⟩ := step_keeps hstep hi
  have hsame : invocation'.phase = invocation.phase := by
    rcases hphase with hphase | ⟨hphase, -⟩
    · exact hover (by rw [hphase]; rfl)
    · exact hover (by rw [hphase]; rfl)
  exact ⟨i, invocation', hi', hp.trans hk, hc.trans hchild, by rw [hsame]; exact hphase⟩

theorem OwnError.step {error : StageError} (h : OwnError x k error) (hstep : x.step label = some x') : OwnError x' k error := by
  rcases h with h | h | ⟨child, h⟩
  · exact .inl h
  · exact .inr (.inl h)
  · exact .inr (.inr ⟨child, h.step hstep⟩)

theorem CalmResult.step {result : PipelineResult} (h : CalmResult x k result) (hstep : x.step label = some x') :
    CalmResult x' k result := by
  cases result with
  | ok outcome => exact h
  | error failure => exact ⟨h.1, h.2.1.step hstep, h.2.2⟩

theorem QuietBranch.step {flag : Bool} {status : BranchStatus} (h : QuietBranch x k flag status)
    (hstep : x.step label = some x') : QuietBranch x' k flag status := by
  cases status with
  | running i => exact Owned.step h hstep
  | finished outcome events => exact ⟨h.1, fun error he => ⟨(h.2 error he).1.step hstep, (h.2 error he).2⟩⟩
  | _ => trivial

theorem QuietRoot.step {flag : Bool} {root : Root} (h : QuietRoot x k flag root) (hstep : x.step label = some x') :
    QuietRoot x' k flag root := by
  cases root with
  | serial index rest groups => exact ⟨h.1, Owned.step h.2 hstep⟩
  | fanOut children groups =>
    obtain ⟨hflag, hfailure, hbranches⟩ := h
    exact ⟨hflag, fun error he => ⟨(hfailure error he).1, (hfailure error he).2.step hstep⟩,
      fun i status hs => (hbranches i status hs).step hstep⟩
  | returned result => exact CalmResult.step h hstep
  | panicked => exact OwnError.step h hstep
  | _ => exact h

theorem QuietHandle.step {handle : Handle} (h : QuietHandle x k handle) (hstep : x.step label = some x') :
    QuietHandle x' k handle := by
  cases handle with
  | returned result => exact CalmResult.step h hstep
  | _ => exact h

end Frame

/-! ## The root task -/

theorem not_mem_push {log : LifecycleLog} {event : PipelineEvent} (h : .cancelled ∉ log.events) (hne : event ≠ .cancelled) :
    .cancelled ∉ (log.push event).events := by
  intro hin
  rcases mem_push hin with hin | heq
  · exact h hin
  · exact hne heq.symm

/-- The parts of the invariant that a root step touches. -/
structure QuietTask (x : Executor) (k : Nat) (e e' : Execution) : Prop where
  flag : e'.cancelled = e.cancelled
  handle : e'.handle = e.handle
  log : .cancelled ∉ e'.log.events
  root : QuietRoot x k e'.cancelled e'.root

theorem quietTask_fail {x : Executor} {k : Nat} {e : Execution} {error : StageError} (hlog : .cancelled ∉ e.log.events)
    (hne : error ≠ .cancelled) (hown : OwnError x k error) : QuietTask x k e (e.fail error) := by
  unfold Execution.fail
  rw [if_neg hne]
  exact ⟨rfl, rfl, hlog, hne, hown, hlog⟩

theorem quietTask_continueSerial {x : Executor} {k next : Nat} {e : Execution} {input : String} {groups : List PipelineGroup}
    (hlog : .cancelled ∉ e.log.events) (hflag : e.cancelled = false) : ∀ (stages : List Stage),
    ((e.continueSerial next input groups stages).2.isSome = true → Owned x k false next) →
    QuietTask x k e (e.continueSerial next input groups stages).1
  | [], _ => ⟨rfl, rfl, hlog, hflag⟩
  | _ :: _, howned => ⟨rfl, rfl, hlog, hflag, howned rfl⟩

theorem quietTask_nextGroup {x : Executor} {k next : Nat} {e : Execution} {outputs : List String}
    (hlog : .cancelled ∉ e.log.events) (hflag : e.cancelled = false) (groups : List PipelineGroup)
    (howned : (e.nextGroup next outputs groups).2.isSome = true → Owned x k false next) :
    QuietTask x k e (e.nextGroup next outputs groups).1 := by
  cases groups with
  | nil =>
    have hpush := @not_mem_push _ .completed hlog (by simp)
    exact ⟨rfl, rfl, hpush, hpush⟩
  | cons group groups =>
    simp only [Execution.nextGroup, hflag, Bool.false_eq_true, if_false] at howned ⊢
    cases group with
    | serial stages =>
      cases hlast : outputs.getLast? with
      | none => exact quietTask_fail hlog (by simp) (.inl rfl)
      | some input =>
        simp only [hlast] at howned
        obtain ⟨hf, hh, hl, hr⟩ := quietTask_continueSerial (x := x) (k := k) (e := e.hand outputs input) hlog hflag stages howned
        exact ⟨hf, hh, hl, hr⟩
    | fanOut stages policy =>
      cases hlast : outputs.getLast? with
      | none => exact quietTask_fail hlog (by simp) (.inr (.inl rfl))
      | some input =>
        refine ⟨rfl, rfl, not_mem_push hlog (by simp), ?_, ?_, ?_⟩
        · intro htrue
          rw [show e.cancelled = true from htrue] at hflag
          cases hflag
        · intro error he
          cases he
        · intro i status hs
          have hspawned : status = .spawned := by
            simp only [FanOut.statusAt, FanOut.spawn, List.getElem?_map, Option.map_map] at hs
            obtain ⟨stage, -, rfl⟩ := Option.map_eq_some_iff.mp hs
            rfl
          rw [hspawned]
          trivial

/-- **A step of the root task** over invocations that are quiet. -/
theorem quietTask_stepRoot {x x' : Executor} {label : Label} {k : Nat} {e e' : Execution} {invoked : Option (Stage × String)}
    (h : Quiet x k e) (hstep : x.step label = some x') (hroot : e.stepRoot x.invocations = some (e', invoked))
    (howned : invoked.isSome = true → Owned x' k false x.invocations.length) : QuietTask x' k e e' := by
  have hquiet := h.root.step hstep
  unfold Execution.stepRoot at hroot
  split at hroot
  · rename_i groups input hr
    rw [hr] at hquiet
    cases hroot
    exact ⟨rfl, rfl, not_mem_push h.log (by simp), hquiet⟩
  · rename_i groups outputs hr
    rw [hr] at hquiet
    obtain ⟨rfl, rfl⟩ := Prod.mk.inj (Option.some.inj hroot)
    exact quietTask_nextGroup h.log hquiet groups howned
  · rename_i index rest groups hr
    have hserial := h.root
    rw [hr] at hquiet hserial
    obtain ⟨invocation, hi, hk, hchild⟩ := hserial.2
    -- The flag is down, so the stage did not end cancelled.
    have hnot : ¬ invocation.phase.isCancelled := by
      intro hc
      have := h.phases index invocation hi hk hc
      rw [hserial.1] at this
      cases this
    rw [hi, Option.map_some] at hroot
    split at hroot
    · obtain ⟨rfl, rfl⟩ := Prod.mk.inj (Option.some.inj hroot)
      exact quietTask_continueSerial h.log hquiet.1 rest howned
    · rename_i error hphase
      obtain ⟨rfl, rfl⟩ := Prod.mk.inj (Option.some.inj hroot)
      have hphase := Option.some.inj hphase
      refine quietTask_fail h.log ?_ (OwnError.step (.inr (.inr ⟨false, index, invocation, hi, hk, hchild, .inl hphase⟩)) hstep)
      rintro rfl
      exact hnot (by rw [hphase]; rfl)
    · rename_i hphase
      cases hroot
      have hfailed : StageFailed x k false .join := ⟨index, invocation, hi, hk, hchild, .inr ⟨Option.some.inj hphase, rfl⟩⟩
      exact ⟨rfl, rfl, h.log, .inr (.inr ⟨false, hfailed.step hstep⟩)⟩
    · cases hroot
  · rename_i children groups hr
    rw [hr] at hquiet
    obtain ⟨hflag, hfailure, -⟩ := hquiet
    split at hroot
    · rename_i outputs hreturns
      cases hroot
      refine ⟨rfl, rfl, not_mem_push h.log (by simp), ?_⟩
      show e.cancelled = false
      obtain ⟨-, ⟨error, -, herr⟩ | ⟨hnone, -⟩⟩ := FanOut.returns_eq_some hreturns
      · cases herr
      · rw [hnone] at hflag
        exact Bool.eq_false_iff.mpr fun htrue => Bool.false_ne_true (hflag htrue)
    · rename_i error hreturns
      cases hroot
      obtain ⟨-, ⟨error', hsome, herr⟩ | ⟨-, herr⟩⟩ := FanOut.returns_eq_some hreturns
      · cases herr
        exact quietTask_fail h.log (hfailure error hsome).1 (hfailure error hsome).2
      · cases herr
    · cases hroot
  · cases hroot
  · cases hroot

/-! ## One step -/

theorem turn_cancelled {x x' : Executor} {k : Nat} {label : Label} {e e' : Execution} (h : Quiet x k e)
    (hstep : x.step label = some x') (ht : Turn x x' k label e e') : e.cancelled = true → e'.cancelled = true := by
  intro htrue
  cases ht with
  | root step owned =>
    rw [(quietTask_stepRoot h hstep step owned).flag]
    exact htrue
  | join at_root joins => simp [htrue]
  | cancel is_cancel => rfl
  | detach at_handle =>
    have := h.handle
    rw [at_handle] at this
    cases this
  | _ => exact htrue

theorem quietOutcome_outcomeOf {x : Executor} {k i : Nat} {e : Execution} (h : Quiet x k e) {invocation : Invocation}
    (hi : x.invocations[i]? = some invocation) (hk : invocation.pipeline = k) (hchild : invocation.child = true)
    {outcome : Outcome} (ho : Executor.outcomeOf invocation.phase = some outcome) : QuietOutcome x k e.cancelled outcome := by
  intro error herror
  unfold Executor.outcomeOf at ho
  split at ho
  · rename_i result hphase
    cases ho
    cases result with
    | ok output => cases herror
    | error error' =>
      cases herror
      refine ⟨⟨i, invocation, hi, hk, hchild, .inl hphase⟩, fun heq => ?_⟩
      refine h.phases i invocation hi hk ?_
      rw [hphase, heq]
      rfl
  · rename_i hphase
    cases ho
    cases herror
    exact ⟨⟨i, invocation, hi, hk, hchild, .inr ⟨hphase, rfl⟩⟩, by simp⟩
  · cases ho

theorem quietBranches_setStatus {x : Executor} {k i : Nat} {flag : Bool} {children : FanOut} {new : BranchStatus}
    (h : ∀ j status, children.statusAt j = some status → QuietBranch x k flag status) (hnew : QuietBranch x k flag new) :
    ∀ j status, (children.setStatus i new).statusAt j = some status → QuietBranch x k flag status := by
  intro j status hs
  rw [FanOut.statusAt_setStatus] at hs
  split_ifs at hs
  · obtain ⟨_, -, rfl⟩ := Option.map_eq_some_iff.mp hs
    exact hnew
  · exact h j status hs

theorem QuietBranch.raise {x : Executor} {k : Nat} {flag : Bool} {status : BranchStatus} (h : QuietBranch x k flag status)
    (raised : Bool) : QuietBranch x k (flag || raised) status := by
  cases status with
  | finished outcome events =>
    refine ⟨h.1, fun error herror => ⟨(h.2 error herror).1, fun heq => ?_⟩⟩
    rw [(h.2 error herror).2 heq]
    rfl
  | _ => exact h

/-- What a turn leaves of the log, the root task and the caller. -/
theorem quiet_turn {x x' : Executor} {k : Nat} {label : Label} {e e' : Execution} (h : Quiet x k e)
    (hstep : x.step label = some x') (ht : Turn x x' k label e e') (hcancel : label ≠ .cancel k) (hobserve : label ≠ .observe k) :
    .cancelled ∉ e'.log.events ∧ (e'.cancelled = true → ∃ error, StageFailed x' k true error) ∧
      QuietRoot x' k e'.cancelled e'.root ∧ QuietHandle x' k e'.handle := by
  have hraised : e.cancelled = true → ∃ error, StageFailed x' k true error := by
    intro htrue
    obtain ⟨error, hfailed⟩ := h.raised htrue
    exact ⟨error, hfailed.step hstep⟩
  have hroot := h.root.step hstep
  have hhandle := h.handle.step hstep
  cases ht with
  | other => exact ⟨h.log, hraised, hroot, hhandle⟩
  | logged moves =>
    refine ⟨fun hin => ?_, hraised, hroot, hhandle⟩
    rcases mem_extend hin with hin | hin
    · exact h.log hin
    · exact cancelled_not_logged moves hin
  | root step owned =>
    have hq := quietTask_stepRoot h hstep step owned
    exact ⟨hq.log, by rw [hq.flag]; exact hraised, hq.root, by rw [hq.handle]; exact hhandle⟩
  | @acquire children children' groups i at_root acquires owned =>
    rw [at_root] at hroot
    obtain ⟨hflag, hfailure, hbranches⟩ := hroot
    obtain ⟨-, -, rfl⟩ := FanOut.acquire_eq_some acquires
    exact ⟨h.log, hraised, ⟨hflag, hfailure, quietBranches_setStatus hbranches owned⟩, hhandle⟩
  | @finish children children' groups branch i index invocation outcome at_root found running invoked ended finishes =>
    have hbefore := h.root
    rw [at_root] at hroot hbefore
    obtain ⟨hflag, hfailure, hbranches⟩ := hroot
    obtain ⟨inv, hinv, hk, hchild⟩ : Owned x k true index := hbefore.2.2 i (.running index) (by simp [FanOut.statusAt, found, running])
    obtain rfl : invocation = inv := Option.some.inj (invoked.symm.trans hinv)
    obtain ⟨-, -, rfl⟩ := FanOut.finish_eq_some finishes
    have hfinished : QuietBranch x' k e.cancelled (.finished outcome invocation.log.events) :=
      QuietBranch.step ⟨h.logs index invocation hinv hk, quietOutcome_outcomeOf h hinv hk hchild ended⟩ hstep
    exact ⟨h.log, hraised, ⟨hflag, hfailure, quietBranches_setStatus hbranches hfinished⟩, hhandle⟩
  | @join children children' groups i events cancels at_root joins =>
    rw [at_root] at hroot
    obtain ⟨hflag, hfailure, hbranches⟩ := hroot
    obtain ⟨outcome, hs, rfl, rfl⟩ := FanOut.join_eq_some joins
    obtain ⟨hevents, houtcome⟩ := hbranches i _ hs
    refine ⟨fun hin => ?_, fun htrue => ?_, ⟨?_, ?_, ?_⟩, hhandle⟩
    · rcases mem_extend hin with hin | hin
      · exact h.log hin
      · exact hevents hin
    · rcases Bool.or_eq_true_iff.mp htrue with htrue | htrue
      · exact hraised htrue
      · obtain ⟨error, herror⟩ := Option.isSome_iff_exists.mp htrue
        exact ⟨error, (houtcome error herror).1⟩
    · intro htrue
      rw [FanOut.absorb_failure, Option.isSome_or, Bool.or_eq_true]
      exact (Bool.or_eq_true_iff.mp htrue).imp hflag id
    · intro error herror
      rw [FanOut.absorb_failure, Option.or_eq_some_iff] at herror
      rcases herror with herror | ⟨hnone, herror⟩
      · exact hfailure error herror
      · refine ⟨fun heq => ?_, .inr (.inr ⟨true, (houtcome error herror).1⟩)⟩
        -- A cancelled branch has seen the flag, and the flag comes after a failure.
        have := hflag ((houtcome error herror).2 heq)
        rw [show children.failure = none from hnone] at this
        cases this
    · intro j status hj
      have hj' : (children.setStatus i (.joined outcome)).statusAt j = some status := by
        unfold FanOut.statusAt at hj ⊢
        rw [(FanOut.absorb_branches _ _ _).1] at hj
        exact hj
      have hjoined : QuietBranch x' k e.cancelled (.joined outcome) := trivial
      exact (quietBranches_setStatus hbranches hjoined j status hj').raise _
  | cancel is_cancel => exact absurd is_cancel hcancel
  | observe is_observe => exact absurd is_observe hobserve
  | @collect result task =>
    refine ⟨h.log, hraised, hroot, ?_⟩
    unfold Execution.taskResult at task
    split at task
    · rename_i hr
      cases task
      rw [hr] at hroot
      exact hroot
    · rename_i hr
      cases task
      rw [hr] at hroot
      exact ⟨by simp, hroot, h.log⟩
    · cases task
  | detach at_handle =>
    rw [at_handle] at hhandle
    cases hhandle

/-- **One step keeps a pipeline quiet** when it is neither the caller's `cancel` nor the caller's look at the flag, and no
operation of its stages returns `Cancelled`. -/
theorem quiet_step {x x' : Executor} {k : Nat} {label : Label} {e e' : Execution} (h : Quiet x k e)
    (hstep : x.step label = some x') (he : x.pipelines[k]? = some e) (ht : Turn x x' k label e e') (hcancel : label ≠ .cancel k)
    (hobserve : label ≠ .observe k) (hops : ∀ i child, label = .invocation i (.returns (.error .cancelled)) → ¬ Owned x k child i) :
    Quiet x' k e' := by
  obtain ⟨hlog, hraised, hroot, hhandle⟩ := quiet_turn h hstep ht hcancel hobserve
  refine ⟨hlog, ?_, ?_, hraised, hroot, hhandle⟩
  · intro i invocation' hi hk
    rcases step_invocation hstep hi with hi | ⟨choice, invocation, cancelled, phase, acts, log, -, hm, rfl⟩ | ⟨-, hnil⟩
    · exact h.logs i invocation' hi hk
    · have hold := h.logs i invocation hm.found hk
      show .cancelled ∉ log.events
      rw [hm.logs]
      split_ifs
      · intro hin
        rcases mem_extend hin with hin | hin
        · exact hold hin
        · exact cancelled_not_logged hm.moves hin
      · exact hold
    · rw [hnil]
      exact List.not_mem_nil
  · intro i invocation' hi hk hcancelled
    refine turn_cancelled h hstep ht ?_
    rcases step_invocation hstep hi with hi | ⟨choice, invocation, cancelled, phase, acts, log, hlabel, hm, rfl⟩ | ⟨hentering, -⟩
    · exact h.phases i invocation' hi hk hcancelled
    · have hk : invocation.pipeline = k := hk
      have hcancelled : phase.isCancelled := hcancelled
      have hflag : e.cancelled = cancelled := by
        obtain ⟨e₁, he₁, hflag⟩ := hm.flag
        rw [hk, he] at he₁
        cases he₁
        exact hflag
      rcases advance_isCancelled hm.moves hcancelled with htrue | hold | rfl
      · rw [hflag, htrue]
      · exact h.phases i invocation hm.found hk hold
      · exact absurd ⟨invocation, hm.found, hk, rfl⟩ (hops i invocation.child hlabel)
    · rw [hentering] at hcancelled
      cases hcancelled

/-! ## Whole runs -/

theorem quiet_start {x : Executor} {capacity k : Nat} {plan : List PipelineGroup} {input : String}
    (h : ∀ invocation ∈ x.invocations, invocation.pipeline ≠ k) : Quiet x k (.start capacity plan input) where
  log := by simp [Execution.start]
  logs i invocation hi heq := absurd heq (h invocation (List.mem_of_getElem? hi))
  phases i invocation hi heq := absurd heq (h invocation (List.mem_of_getElem? hi))
  raised := by simp [Execution.start]
  root := rfl
  handle := trivial

/-- What a label may be while a pipeline is to stay quiet. -/
def Uneventful (k : Nat) (x : Executor) (label : Label) : Prop :=
  label ≠ .cancel k ∧ label ≠ .observe k ∧
    ∀ i child, label = .invocation i (.returns (.error .cancelled)) → ¬ Owned x k child i

theorem quiet_all_step {x x' : Executor} {k : Nat} {label : Label}
    (h : InRange x ∧ ∀ e, x.pipelines[k]? = some e → Quiet x k e) (hlabel : Uneventful k x label)
    (hstep : x.step label = some x') : InRange x' ∧ ∀ e, x'.pipelines[k]? = some e → Quiet x' k e := by
  obtain ⟨hrange, hquiet⟩ := h
  obtain ⟨hcancel, hobserve, hops⟩ := hlabel
  refine ⟨hrange.step hstep, fun e' he' => ?_⟩
  rcases step_turn hstep he' with ⟨e, he, ht⟩ | ⟨hk, plan, input, rfl, rfl⟩
  · exact quiet_step (hquiet e he) hstep he ht hcancel hobserve hops
  · cases hstep
    refine quiet_start fun invocation hin heq => ?_
    have := hrange invocation hin
    omega

/-- **Without the caller's look at the flag, a run keeps the pipeline quiet.** -/
theorem quiet_play {config : Config} {labels : List Label} {x : Executor} {k : Nat}
    (hplay : play Executor.step (.new config) labels = some x) (hcancel : .cancel k ∉ labels) (hobserve : .observe k ∉ labels)
    (hops : ∀ i child, Owned x k child i → .invocation i (.returns (.error .cancelled)) ∉ labels) :
    ∀ e, x.pipelines[k]? = some e → Quiet x k e := by
  have hstart : InRange (.new config) ∧ ∀ e, (Executor.new config).pipelines[k]? = some e → Quiet (.new config) k e :=
    ⟨by simp [InRange, Executor.new], by simp [Executor.new]⟩
  refine (@play_invariant _ _ _ _ (Uneventful k) (fun s l s' hs hl => quiet_all_step hs hl) _ _ _ hstart hplay ?_).2
  intro before label after t hsplit hbefore
  refine ⟨?_, ?_, ?_⟩
  · rintro rfl
    exact hcancel (by simp [hsplit])
  · rintro rfl
    exact hobserve (by simp [hsplit])
  · rintro i child rfl howned
    rw [hsplit, play_append, hbefore] at hplay
    exact hops i child (play_keeps (fun _ _ _ h hs => Owned.step h hs) howned hplay) (by simp [hsplit])

theorem mem_cancelled (log : LifecycleLog) : .cancelled ∈ log.cancelled.events := by
  unfold LifecycleLog.cancelled
  split_ifs with h
  · exact h
  · simp [LifecycleLog.push]

theorem not_calm_observe {x x' : Executor} {k : Nat} (h : x.observe k = some x') : ¬ Calm x' k := by
  obtain ⟨e, he, -, -, rfl⟩ := observe_eq_some h
  intro hcalm
  have hlt := (List.getElem?_eq_some_iff.mp he).1
  exact (hcalm _ (List.getElem?_set_self hlt)).1 (mem_cancelled e.log)

/-- **Where nobody cancels, a run is free of cancellations exactly when the caller's select never takes its cancellation
arm**; and that arm is open only once a child of a fan-out has failed. -/
theorem calm_iff_unobserved {config : Config} {labels : List Label} {x : Executor} {k : Nat}
    (hplay : play Executor.step (.new config) labels = some x) (hcancel : .cancel k ∉ labels)
    (hops : ∀ i child, Owned x k child i → .invocation i (.returns (.error .cancelled)) ∉ labels) :
    ((∀ before after t, labels = before ++ after → play Executor.step (.new config) before = some t → Calm t k) ↔
      .observe k ∉ labels) ∧
    (.observe k ∈ labels → ∃ error, StageFailed x k true error) := by
  have hquiet : ∀ before after t, labels = before ++ after → play Executor.step (.new config) before = some t →
      .observe k ∉ before → ∀ e, t.pipelines[k]? = some e → Quiet t k e := by
    intro before after t hsplit hbefore hobserve
    refine quiet_play hbefore (fun hin => hcancel (by simp [hsplit, hin])) hobserve ?_
    intro i child howned hin
    rw [hsplit, play_append, hbefore] at hplay
    exact hops i child (play_keeps (fun _ _ _ h hs => Owned.step h hs) howned hplay) (by simp [hsplit, hin])
  refine ⟨⟨fun hcalm hin => ?_, fun hobserve before after t hsplit hbefore e he => ?_⟩, fun hin => ?_⟩
  · obtain ⟨before, after, hsplit⟩ := List.append_of_mem hin
    rw [hsplit] at hplay
    obtain ⟨t, t', hbefore, hstep, -⟩ := play_split hplay
    exact not_calm_observe hstep (hcalm (before ++ [.observe k]) after t' (by simp [hsplit]) ((play_snoc hbefore).trans hstep))
  · refine Quiet.calm (hquiet before after t hsplit hbefore (fun hin => hobserve ?_) e he)
    rw [hsplit]
    exact List.mem_append_left _ hin
  · -- At the first look at the flag the pipeline has been quiet so far.
    obtain ⟨before, after, hsplit, hfirst⟩ := List.eq_append_cons_of_mem hin
    rw [hsplit] at hplay
    obtain ⟨t, t', hbefore, hstep, hafter⟩ := play_split hplay
    obtain ⟨e, he, -, hflag, -⟩ := observe_eq_some hstep
    obtain ⟨error, hfailed⟩ := (hquiet before _ t hsplit hbefore hfirst e he).raised hflag
    exact ⟨error, play_keeps (fun _ _ _ h hs => StageFailed.step h hs) (hfailed.step hstep) hafter⟩

/-- Two branches; the first fails and is joined while the second still runs. -/
def failOneBranch : List Label :=
  [.execute [.fanOut [.new "a", .new "b"] .preserveInputOrder] "x", .root 0, .root 0, .acquire 0 0, .acquire 0 1,
    .invocation 0 .proceed, .invocation 1 .proceed, .invocation 0 .proceed, .invocation 1 .proceed,
    .invocation 0 (.returns (.error (.fatal "down"))), .invocation 0 .proceed, .invocation 0 .proceed, .finish 0 0, .join 0 0]

/-- The second branch ends, and the caller gets the result of the root task. -/
def joinAndCollect : List Label :=
  [.invocation 1 (.returns (.ok "y")), .invocation 1 .proceed, .invocation 1 .proceed, .finish 0 1, .join 0 1, .root 0, .collect 0]

def pairConfig : Config := ⟨8, 2, 0, Nat.le_add_left 1 7, Nat.two_pos⟩

theorem joinAndCollect_calm : ∃ x e, play Executor.step (.new pairConfig) (failOneBranch ++ joinAndCollect) = some x ∧
    x.pipelines[0]? = some e ∧ (∃ events, e.handle = .returned (.error ⟨.fatal "down", events⟩)) ∧ Calm x 0 := by
  refine ⟨_, _, rfl, rfl, ⟨_, rfl⟩, ?_⟩
  have h := @calm_iff_unobserved pairConfig (failOneBranch ++ joinAndCollect) _ 0 rfl
    (by simp [failOneBranch, joinAndCollect]) (by simp [failOneBranch, joinAndCollect])
  exact h.1.mpr (by simp [failOneBranch, joinAndCollect]) _ [] _ (List.append_nil _).symm rfl

/-- The caller sees the flag that the failed branch raised, and the grace is over before the second branch ends: `wait`
returns a cancellation that nobody asked for. -/
theorem failOneBranch_cancelled : ∃ x e events,
    play Executor.step (.new pairConfig) (failOneBranch ++ [.observe 0, .graceElapsed 0]) = some x ∧
    x.pipelines[0]? = some e ∧ e.handle = .returned (.error ⟨.cancelled, events⟩) ∧ .cancelled ∈ events ∧
    (∀ k, .cancel k ∉ failOneBranch) ∧ (∀ i, .invocation i (.returns (.error .cancelled)) ∉ failOneBranch) ∧ ¬ Calm x 0 := by
  refine ⟨_, _, _, rfl, rfl, rfl, by decide, by simp [failOneBranch], by simp [failOneBranch], fun hcalm => ?_⟩
  exact ((hcalm _ rfl).2 _ rfl).1 rfl

end Pipeline
end Syllog
