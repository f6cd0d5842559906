import Syllog.PipelineFanOut
/-!
# PipelineStep — what one step of the executor does

The step of every label read backwards, once.  Two views follow: what a step does to what all invocations share (`Moved`,
`Kept`), and what it does to one pipeline (`Turn`).
-/
namespace Syllog
namespace Pipeline

/-! ## The moves of an invocation -/

/-- The phases under a stage's deadline. -/
def Phase.isTimed : Phase → Bool
  | .looping _ | .calling _ | .backingOff _ => true
  | _                                       => false

/-- The moves of an invocation, one for each way through `advance`. -/
inductive Move (stage : Stage) (cancelled : Bool) (now : Nat) (circuits : Circuits) :
    Phase → Choice → Phase → Circuits → List Act → Prop
  | rejected (verdict : (checkCircuit stage now circuits).1 = .rejected) :
      Move stage cancelled now circuits .entering .proceed (.ended (.error (.circuitOpen stage.name)))
        (checkCircuit stage now circuits).2 [.checked .rejected]
  | admitted {rearmed : Bool} (verdict : (checkCircuit stage now circuits).1 = .admitted rearmed) :
      Move stage cancelled now circuits .entering .proceed (.looping 1) (checkCircuit stage now circuits).2
        [.checked (.admitted rearmed)]
  | exhausts {attempt : Nat} : Move stage cancelled now circuits (.looping attempt) .proceed (.settling (.error exhausted)) circuits []
  | stops {attempt : Nat} (flag : cancelled = true) :
      Move stage cancelled now circuits (.looping attempt) .proceed (.settling (.error .cancelled)) circuits []
  | attempts {attempt : Nat} : Move stage cancelled now circuits (.looping attempt) .proceed (.calling attempt) circuits
      [.logged (.stageAttempt stage.name attempt)]
  | settles {attempt : Nat} {result : StageResult} :
      Move stage cancelled now circuits (.calling attempt) (.returns result) (.settling result) circuits []
  | backsOff {attempt : Nat} {result : StageResult} :
      Move stage cancelled now circuits (.calling attempt) (.returns result) (.backingOff attempt) circuits []
  | panics {attempt : Nat} : Move stage cancelled now circuits (.calling attempt) .panics .panicked circuits []
  | wakes {attempt : Nat} {choice : Choice} (flag : cancelled = true) (waits : choice ≠ .expires) :
      Move stage cancelled now circuits (.backingOff attempt) choice (.settling (.error .cancelled)) circuits []
  | retries {attempt : Nat} : Move stage cancelled now circuits (.backingOff attempt) .slept (.looping (attempt + 1)) circuits []
  | records {result : StageResult} : Move stage cancelled now circuits (.settling result) .proceed (.recorded result)
      (recordResult stage now circuits result).1 (recordResult stage now circuits result).2
  | logs {result : StageResult} : Move stage cancelled now circuits (.recorded result) .proceed (.ended result) circuits
      [.logged (resultEvent stage result)]
  | expires {phase : Phase} (timed : phase.isTimed = true) :
      Move stage cancelled now circuits phase .expires (.ended (.error (.deadline stage.name))) circuits []

theorem answered_cases (stage : Stage) (attempt : Nat) (result : StageResult) :
    answered stage attempt result = .settling result ∨ answered stage attempt result = .backingOff attempt := by
  cases result with
  | ok output => exact .inl rfl
  | error e =>
    by_cases hretry : e.isRetryable ∧ attempt < stage.retry.maxAttempts
    · exact .inr (if_pos hretry)
    · exact .inl (if_neg hretry)

/-- **`advance` makes one of the moves.** -/
theorem advance_move {stage : Stage} {cancelled : Bool} {now : Nat} {circuits circuits' : Circuits} {phase phase' : Phase}
    {choice : Choice} {acts : List Act} (h : advance stage cancelled now circuits phase choice = some (phase', circuits', acts)) :
    Move stage cancelled now circuits phase choice phase' circuits' acts := by
  cases phase with
  | entering =>
    cases choice with
    | proceed =>
      simp only [advance] at h
      split at h
      · rename_i hcheck
        cases h
        have := @Move.rejected stage cancelled now circuits (congrArg Prod.fst hcheck)
        rwa [hcheck] at this
      · rename_i hcheck
        cases h
        have := @Move.admitted stage cancelled now circuits _ (congrArg Prod.fst hcheck)
        rwa [hcheck] at this
    | _ => simp [advance] at h
  | looping attempt =>
    cases choice with
    | proceed =>
      simp only [advance] at h
      split_ifs at h with hmax hflag
      · cases h
        exact .exhausts
      · cases h
        exact .stops hflag
      · cases h
        exact .attempts
    | expires =>
      simp only [advance] at h
      split_ifs at h
      cases h
      exact .expires rfl
    | _ => simp [advance] at h
  | calling attempt =>
    cases choice with
    | returns result =>
      cases h
      rcases answered_cases stage attempt result with hanswer | hanswer
      · rw [hanswer]
        exact .settles
      · rw [hanswer]
        exact .backsOff
    | panics =>
      cases h
      exact .panics
    | expires =>
      simp only [advance] at h
      split_ifs at h
      cases h
      exact .expires rfl
    | _ => simp [advance] at h
  | backingOff attempt =>
    cases choice with
    | proceed =>
      simp only [advance] at h
      split_ifs at h with hflag
      cases h
      exact .wakes hflag (by simp)
    | slept =>
      simp only [advance] at h
      split_ifs at h with hflag
      · cases h
        exact .wakes hflag (by simp)
      · cases h
        exact .retries
    | expires =>
      simp only [advance] at h
      split_ifs at h
      cases h
      exact .expires rfl
    | _ => simp [advance] at h
  | settling result =>
    cases choice with
    | proceed =>
      cases h
      exact .records
    | _ => simp [advance] at h
  | recorded result =>
    cases choice with
    | proceed =>
      cases h
      exact .logs
    | _ => simp [advance] at h
  | ended result => cases choice <;> simp [advance] at h
  | panicked => cases choice <;> simp [advance] at h

/-! ## The operations, read backwards -/

theorem stepInvocation_eq_some {x x' : Executor} {i : Nat} {choice : Choice} (h : x.stepInvocation i choice = some x') :
    ∃ invocation e phase circuits acts, x.invocations[i]? = some invocation ∧ x.pipelines[invocation.pipeline]? = some e ∧
      advance invocation.stage e.cancelled x.now x.circuits invocation.phase choice = some (phase, circuits, acts) ∧
      x' =
        let log := if invocation.child then invocation.log.extend (loggedEvents acts) else invocation.log
        let x := { x with
          circuits := circuits
          history := x.history ++ acts.map fun act => ⟨i, invocation.stage, x.now, act⟩
          invocations := x.invocations.set i { invocation with phase := phase, log := log } }
        if invocation.child then x
        else x.setPipeline invocation.pipeline { e with log := e.log.extend (loggedEvents acts) } := by
  unfold Executor.stepInvocation at h
  obtain ⟨invocation, hi, h⟩ := Option.bind_eq_some_iff.mp h
  obtain ⟨e, he, h⟩ := Option.bind_eq_some_iff.mp h
  obtain ⟨⟨phase, circuits, acts⟩, ha, h⟩ := Option.bind_eq_some_iff.mp h
  exact ⟨invocation, e, phase, circuits, acts, hi, he, ha, (Option.some.inj h).symm⟩

theorem stepRoot_eq_some {x x' : Executor} {k : Nat} (h : x.stepRoot k = some x') :
    ∃ e e' invoked, x.pipelines[k]? = some e ∧ e.stepRoot x.invocations = some (e', invoked) ∧
      x' = match invoked with
        | some (stage, input) => (x.setPipeline k e').invoke k false stage input
        | none                => x.setPipeline k e' := by
  unfold Executor.stepRoot at h
  obtain ⟨e, he, h⟩ := Option.bind_eq_some_iff.mp h
  obtain ⟨⟨e', invoked⟩, hroot, h⟩ := Option.bind_eq_some_iff.mp h
  exact ⟨e, e', invoked, he, hroot, (Option.some.inj h).symm⟩

theorem children_eq_some {x : Executor} {k : Nat} {e : Execution} {children : FanOut} {groups : List PipelineGroup}
    (h : x.children k = some (e, children, groups)) : x.pipelines[k]? = some e ∧ e.root = .fanOut children groups := by
  unfold Executor.children at h
  obtain ⟨e', he, h⟩ := Option.bind_eq_some_iff.mp h
  split at h
  · rename_i hroot
    cases h
    exact ⟨he, hroot⟩
  · cases h

theorem acquire_eq_some {x x' : Executor} {k i : Nat} (h : x.acquire k i = some x') :
    ∃ e children groups branch children', x.pipelines[k]? = some e ∧ e.root = .fanOut children groups ∧
      children.branches[i]? = some branch ∧
      children.acquire x.config.maxFanOut i x.invocations.length = some children' ∧
      x' = (x.setPipeline k { e with root := .fanOut children' groups }).invoke k true branch.stage children.input := by
  unfold Executor.acquire at h
  obtain ⟨⟨e, children, groups⟩, he, h⟩ := Option.bind_eq_some_iff.mp h
  obtain ⟨branch, hb, h⟩ := Option.bind_eq_some_iff.mp h
  obtain ⟨children', hc, h⟩ := Option.bind_eq_some_iff.mp h
  obtain ⟨he, hroot⟩ := children_eq_some he
  exact ⟨e, children, groups, branch, children', he, hroot, hb, hc, (Option.some.inj h).symm⟩

theorem finish_eq_some {x x' : Executor} {k i : Nat} (h : x.finish k i = some x') :
    ∃ e children groups branch index invocation outcome children', x.pipelines[k]? = some e ∧
      e.root = .fanOut children groups ∧ children.branches[i]? = some branch ∧ branch.status = .running index ∧
      x.invocations[index]? = some invocation ∧ Executor.outcomeOf invocation.phase = some outcome ∧
      children.finish i outcome invocation.log.events = some children' ∧
      x' = x.setPipeline k { e with root := .fanOut children' groups } := by
  unfold Executor.finish at h
  obtain ⟨⟨e, children, groups⟩, he, h⟩ := Option.bind_eq_some_iff.mp h
  obtain ⟨branch, hb, h⟩ := Option.bind_eq_some_iff.mp h
  obtain ⟨he, hroot⟩ := children_eq_some he
  split at h
  · rename_i index hstatus
    obtain ⟨invocation, hi, h⟩ := Option.bind_eq_some_iff.mp h
    obtain ⟨outcome, ho, h⟩ := Option.bind_eq_some_iff.mp h
    obtain ⟨children', hc, h⟩ := Option.bind_eq_some_iff.mp h
    exact ⟨e, children, groups, branch, index, invocation, outcome, children', he, hroot, hb, hstatus, hi, ho, hc,
      (Option.some.inj h).symm⟩
  · cases h

theorem join_eq_some {x x' : Executor} {k i : Nat} (h : x.join k i = some x') :
    ∃ e children groups children' events cancels, x.pipelines[k]? = some e ∧ e.root = .fanOut children groups ∧
      children.join i = some (children', events, cancels) ∧
      x' = x.setPipeline k
        { e with log := e.log.extend events, cancelled := e.cancelled || cancels, root := .fanOut children' groups } := by
  unfold Executor.join at h
  obtain ⟨⟨e, children, groups⟩, he, h⟩ := Option.bind_eq_some_iff.mp h
  obtain ⟨⟨children', events, cancels⟩, hj, h⟩ := Option.bind_eq_some_iff.mp h
  obtain ⟨he, hroot⟩ := children_eq_some he
  exact ⟨e, children, groups, children', events, cancels, he, hroot, hj, (Option.some.inj h).symm⟩

theorem observe_eq_some {x x' : Executor} {k : Nat} (h : x.observe k = some x') :
    ∃ e, x.pipelines[k]? = some e ∧ e.handle = .waiting ∧ e.cancelled = true ∧
      x' = x.setPipeline k { e with log := e.log.cancelled, handle := .gracing } := by
  unfold Executor.observe at h
  obtain ⟨e, he, h⟩ := Option.bind_eq_some_iff.mp h
  split at h
  · rename_i hhandle
    split_ifs at h with hcancelled
    exact ⟨e, he, hhandle, hcancelled, (Option.some.inj h).symm⟩
  · cases h

theorem collect_eq_some {x x' : Executor} {k : Nat} (h : x.collect k = some x') :
    ∃ e result, x.pipelines[k]? = some e ∧ e.taskResult = some result ∧
      x' = x.setPipeline k { e with handle := .returned result } := by
  unfold Executor.collect at h
  obtain ⟨e, he, h⟩ := Option.bind_eq_some_iff.mp h
  obtain ⟨result, hr, h⟩ := Option.bind_eq_some_iff.mp h
  split at h
  · exact ⟨e, result, he, hr, (Option.some.inj h).symm⟩
  · exact ⟨e, result, he, hr, (Option.some.inj h).symm⟩
  · cases h

theorem graceElapsed_eq_some {x x' : Executor} {k : Nat} (h : x.graceElapsed k = some x') :
    ∃ e e', x.pipelines[k]? = some e ∧ e.handle = .gracing ∧ x' = x.setPipeline k e' ∧
      e' = { (e.push (.cancellationGraceElapsed (min x.config.cancellationGrace (2 ^ 64 - 1)))).push .taskDetached with
        handle := e'.handle } := by
  unfold Executor.graceElapsed at h
  obtain ⟨e, he, h⟩ := Option.bind_eq_some_iff.mp h
  split at h
  · rename_i hhandle _
    exact ⟨e, _, he, hhandle, (Option.some.inj h).symm, rfl⟩
  · cases h

/-! ## What is shared -/

/-- The invocation of a label, moved: its phase, the circuits and the trail. -/
structure Moved (x x' : Executor) (i : Nat) (choice : Choice) (invocation : Invocation) (cancelled : Bool) (phase : Phase)
    (acts : List Act) (log : LifecycleLog) : Prop where
  config : x'.config = x.config
  found : x.invocations[i]? = some invocation
  flag : ∃ e, x.pipelines[invocation.pipeline]? = some e ∧ e.cancelled = cancelled
  moves : advance invocation.stage cancelled x.now x.circuits invocation.phase choice = some (phase, x'.circuits, acts)
  now : x'.now = x.now
  history : x'.history = x.history ++ acts.map fun act => ⟨i, invocation.stage, x.now, act⟩
  invocations : x'.invocations = x.invocations.set i { invocation with phase := phase, log := log }
  logs : log = if invocation.child then invocation.log.extend (loggedEvents acts) else invocation.log
  pipelines : x'.pipelines.length = x.pipelines.length

/-- Nothing shared changes but the time; new invocations are at their entry. -/
structure Kept (x x' : Executor) : Prop where
  config : x'.config = x.config
  now : x.now ≤ x'.now
  circuits : x'.circuits = x.circuits
  history : x'.history = x.history
  pipelines : x.pipelines.length ≤ x'.pipelines.length
  invocations : ∃ new, x'.invocations = x.invocations ++ new ∧ ∀ invocation ∈ new,
    invocation.phase = .entering ∧ invocation.log.events = [] ∧ invocation.pipeline < x'.pipelines.length

theorem kept_setPipeline (x : Executor) (k : Nat) (e : Execution) : Kept x (x.setPipeline k e) :=
  ⟨rfl, Nat.le_refl _, rfl, rfl, by simp [Executor.setPipeline], [], by simp [Executor.setPipeline], by simp⟩

theorem kept_invoke {x : Executor} {k : Nat} {e : Execution} (h : x.pipelines[k]? = some e) (e' : Execution) (child : Bool)
    (stage : Stage) (input : String) : Kept x ((x.setPipeline k e').invoke k child stage input) := by
  have hlt := (List.getElem?_eq_some_iff.mp h).1
  exact ⟨rfl, Nat.le_refl _, rfl, rfl, by simp [Executor.setPipeline, Executor.invoke], _, rfl,
    by simpa [Executor.setPipeline, Executor.invoke] using hlt⟩

theorem stepInvocation_moved {x x' : Executor} {i : Nat} {choice : Choice} (h : x.stepInvocation i choice = some x') :
    ∃ invocation cancelled phase acts log, Moved x x' i choice invocation cancelled phase acts log := by
  obtain ⟨invocation, e, phase, circuits, acts, hi, he, ha, rfl⟩ := stepInvocation_eq_some h
  refine ⟨invocation, e.cancelled, phase, acts, if invocation.child then invocation.log.extend (loggedEvents acts) else invocation.log,
    ?_, hi, ⟨e, he, rfl⟩, ?_, ?_, ?_, ?_, rfl, ?_⟩
  · cases invocation.child <;> rfl
  · rw [ha]
    cases invocation.child <;> rfl
  · cases invocation.child <;> rfl
  · cases invocation.child <;> rfl
  · cases invocation.child <;> rfl
  · cases invocation.child <;> simp [Executor.setPipeline]

/-- **A step moves one invocation, or changes nothing that invocations share.** -/
theorem step_shared {x x' : Executor} {label : Label} (h : x.step label = some x') :
    (∃ i choice invocation cancelled phase acts log, label = .invocation i choice ∧
      Moved x x' i choice invocation cancelled phase acts log) ∨
    ((∀ i choice, label ≠ .invocation i choice) ∧ Kept x x') := by
  cases label with
  | invocation i choice =>
    obtain ⟨invocation, cancelled, phase, acts, log, hm⟩ := stepInvocation_moved h
    exact .inl ⟨i, choice, invocation, cancelled, phase, acts, log, rfl, hm⟩
  | tick elapsed =>
    cases h
    exact .inr ⟨by simp, rfl, Nat.le_add_right _ _, rfl, rfl, Nat.le_refl _, [], by simp, by simp⟩
  | execute plan input =>
    cases h
    exact .inr ⟨by simp, rfl, Nat.le_refl _, rfl, rfl, by simp, [], by simp, by simp⟩
  | root k =>
    obtain ⟨e, e', invoked, he, -, rfl⟩ := stepRoot_eq_some h
    cases invoked with
    | none => exact .inr ⟨by simp, kept_setPipeline x k e'⟩
    | some invoked => exact .inr ⟨by simp, kept_invoke he e' false _ _⟩
  | acquire k i =>
    obtain ⟨e, children, groups, branch, children', he, -, -, -, rfl⟩ := acquire_eq_some h
    exact .inr ⟨by simp, kept_invoke he _ true _ _⟩
  | finish k i =>
    obtain ⟨e, children, groups, branch, index, invocation, outcome, children', -, -, -, -, -, -, -, rfl⟩ := finish_eq_some h
    exact .inr ⟨by simp, kept_setPipeline x k _⟩
  | join k i =>
    obtain ⟨e, children, groups, children', events, cancels, -, -, -, rfl⟩ := join_eq_some h
    exact .inr ⟨by simp, kept_setPipeline x k _⟩
  | cancel k =>
    obtain ⟨e, -, rfl⟩ := Option.map_eq_some_iff.mp h
    exact .inr ⟨by simp, kept_setPipeline x k _⟩
  | observe k =>
    obtain ⟨e, -, -, -, rfl⟩ := observe_eq_some h
    exact .inr ⟨by simp, kept_setPipeline x k _⟩
  | collect k =>
    obtain ⟨e, result, -, -, rfl⟩ := collect_eq_some h
    exact .inr ⟨by simp, kept_setPipeline x k _⟩
  | graceElapsed k =>
    obtain ⟨e, e', -, -, rfl, -⟩ := graceElapsed_eq_some h
    exact .inr ⟨by simp, kept_setPipeline x k _⟩

theorem step_config {x x' : Executor} {label : Label} (h : x.step label = some x') : x'.config = x.config := by
  rcases step_shared h with ⟨i, choice, invocation, cancelled, phase, acts, log, -, hm⟩ | ⟨-, hk⟩
  · exact hm.config
  · exact hk.config

/-! ## One pipeline -/

/-- An invocation of a pipeline: of its root task, or of a child. -/
def Owned (x : Executor) (k : Nat) (child : Bool) (i : Nat) : Prop :=
  ∃ invocation, x.invocations[i]? = some invocation ∧ invocation.pipeline = k ∧ invocation.child = child

/-- What a step may do to the pipeline `k`. -/
inductive Turn (x x' : Executor) (k : Nat) (label : Label) (e : Execution) : Execution → Prop
  | other : Turn x x' k label e e
  | logged {choice : Choice} {invocation : Invocation} {phase : Phase} {circuits : Circuits} {acts : List Act}
      (moves : advance invocation.stage e.cancelled x.now x.circuits invocation.phase choice = some (phase, circuits, acts)) :
      Turn x x' k label e { e with log := e.log.extend (loggedEvents acts) }
  | root {e' : Execution} {invoked : Option (Stage × String)} (step : e.stepRoot x.invocations = some (e', invoked))
      (owned : invoked.isSome = true → Owned x' k false x.invocations.length) : Turn x x' k label e e'
  | acquire {children children' : FanOut} {groups : List PipelineGroup} {i : Nat} (at_root : e.root = .fanOut children groups)
      (acquires : children.acquire x.config.maxFanOut i x.invocations.length = some children')
      (owned : Owned x' k true x.invocations.length) : Turn x x' k label e { e with root := .fanOut children' groups }
  | finish {children children' : FanOut} {groups : List PipelineGroup} {branch : Branch} {i index : Nat}
      {invocation : Invocation} {outcome : Outcome} (at_root : e.root = .fanOut children groups)
      (found : children.branches[i]? = some branch) (running : branch.status = .running index)
      (invoked : x.invocations[index]? = some invocation) (ended : Executor.outcomeOf invocation.phase = some outcome)
      (finishes : children.finish i outcome invocation.log.events = some children') :
      Turn x x' k label e { e with root := .fanOut children' groups }
  | join {children children' : FanOut} {groups : List PipelineGroup} {i : Nat} {events : List PipelineEvent} {cancels : Bool}
      (at_root : e.root = .fanOut children groups) (joins : children.join i = some (children', events, cancels)) :
      Turn x x' k label e
        { e with log := e.log.extend events, cancelled := e.cancelled || cancels, root := .fanOut children' groups }
  | cancel (is_cancel : label = .cancel k) : Turn x x' k label e { e with cancelled := true }
  | observe (is_observe : label = .observe k) (flag : e.cancelled = true) :
      Turn x x' k label e { e with log := e.log.cancelled, handle := .gracing }
  | collect {result : PipelineResult} (task : e.taskResult = some result) :
      Turn x x' k label e { e with handle := .returned result }
  | detach {e' : Execution} (at_handle : e.handle = .gracing) (same_root : e'.root = e.root) (same_handed : e'.handed = e.handed) :
      Turn x x' k label e e'

theorem setPipeline_getElem? {x : Executor} {k l : Nat} {e e' : Execution}
    (h : (x.setPipeline l e).pipelines[k]? = some e') : (k = l ∧ e' = e) ∨ (k ≠ l ∧ x.pipelines[k]? = some e') := by
  rw [Executor.setPipeline, List.getElem?_set] at h
  split_ifs at h with heq hlt
  · cases h
    exact .inl ⟨heq.symm, rfl⟩
  · exact .inr ⟨Ne.symm heq, h⟩

/-- A step that sets one pipeline is a turn of that one, and of no other. -/
theorem turn_setPipeline {x x' : Executor} {k l : Nat} {label : Label} {e e₁ e' : Execution} (he : x.pipelines[l]? = some e)
    (h : (x.setPipeline l e₁).pipelines[k]? = some e') (hturn : k = l → Turn x x' k label e e₁) :
    ∃ e, x.pipelines[k]? = some e ∧ Turn x x' k label e e' := by
  rcases setPipeline_getElem? h with ⟨rfl, rfl⟩ | ⟨-, h⟩
  · exact ⟨e, he, hturn rfl⟩
  · exact ⟨e', h, .other⟩

theorem owned_invoke (x : Executor) (k l : Nat) (e : Execution) (child : Bool) (stage : Stage) (input : String) :
    Owned ((x.setPipeline l e).invoke k child stage input) k child x.invocations.length :=
  ⟨_, List.getElem?_concat_length, rfl, rfl⟩

/-- **A step takes a turn of every pipeline there was**, and may start a new one. -/
theorem step_turn {x x' : Executor} {label : Label} (h : x.step label = some x') {k : Nat} {e' : Execution}
    (hk : x'.pipelines[k]? = some e') :
    (∃ e, x.pipelines[k]? = some e ∧ Turn x x' k label e e') ∨
    (k = x.pipelines.length ∧ ∃ plan input, label = .execute plan input ∧ e' = .start x.config.eventCapacity plan input) := by
  cases label with
  | tick elapsed =>
    cases h
    exact .inl ⟨e', hk, .other⟩
  | execute plan input =>
    cases h
    by_cases hlt : k < x.pipelines.length
    · rw [List.getElem?_append_left hlt] at hk
      exact .inl ⟨e', hk, .other⟩
    · rw [List.getElem?_append_right (Nat.le_of_not_lt hlt)] at hk
      rw [List.getElem?_singleton] at hk
      split_ifs at hk with hzero
      cases hk
      exact .inr ⟨by omega, plan, input, rfl, rfl⟩
  | invocation i choice =>
    obtain ⟨invocation, e, phase, circuits, acts, hi, he, ha, rfl⟩ := stepInvocation_eq_some h
    left
    dsimp only at hk
    split_ifs at hk
    · exact ⟨e', hk, .other⟩
    · exact turn_setPipeline (x := x) he hk fun _ => .logged ha
  | root l =>
    obtain ⟨e, e₁, invoked, he, hroot, rfl⟩ := stepRoot_eq_some h
    left
    cases invoked with
    | none => exact turn_setPipeline he hk fun _ => .root hroot (by simp)
    | some invoked =>
      refine turn_setPipeline he hk fun heq => .root hroot fun _ => ?_
      subst heq
      exact owned_invoke x k k e₁ false _ _
  | acquire l i =>
    obtain ⟨e, children, groups, branch, children', he, hroot, -, hacquire, rfl⟩ := acquire_eq_some h
    left
    refine turn_setPipeline he hk fun heq => .acquire hroot hacquire ?_
    subst heq
    exact owned_invoke x k k _ true _ _
  | finish l i =>
    obtain ⟨e, children, groups, branch, index, invocation, outcome, children', he, hroot, hb, hrun, hi, ho, hf, rfl⟩ :=
      finish_eq_some h
    exact .inl (turn_setPipeline he hk fun _ => .finish hroot hb hrun hi ho hf)
  | join l i =>
    obtain ⟨e, children, groups, children', events, cancels, he, hroot, hj, rfl⟩ := join_eq_some h
    exact .inl (turn_setPipeline he hk fun _ => .join hroot hj)
  | cancel l =>
    obtain ⟨e, he, rfl⟩ := Option.map_eq_some_iff.mp h
    exact .inl (turn_setPipeline he hk fun heq => .cancel (by rw [heq]))
  | observe l =>
    obtain ⟨e, he, -, hflag, rfl⟩ := observe_eq_some h
    exact .inl (turn_setPipeline he hk fun heq => .observe (by rw [heq]) hflag)
  | collect l =>
    obtain ⟨e, result, he, hr, rfl⟩ := collect_eq_some h
    exact .inl (turn_setPipeline he hk fun _ => .collect hr)
  | graceElapsed l =>
    obtain ⟨e, e₁, he, hhandle, rfl, heq⟩ := graceElapsed_eq_some h
    exact .inl (turn_setPipeline he hk fun _ => .detach hhandle (by rw [heq]; rfl) (by rw [heq]; rfl))

/-! ## One invocation -/

/-- **An invocation after a step** is as it was, was moved, or is at its entry. -/
theorem step_invocation {x x' : Executor} {label : Label} (h : x.step label = some x') {i : Nat} {invocation' : Invocation}
    (hi : x'.invocations[i]? = some invocation') :
    x.invocations[i]? = some invocation' ∨
    (∃ choice invocation cancelled phase acts log, label = .invocation i choice ∧
      Moved x x' i choice invocation cancelled phase acts log ∧
      invocation' = { invocation with phase := phase, log := log }) ∨
    (invocation'.phase = .entering ∧ invocation'.log.events = []) := by
  rcases step_shared h with ⟨j, choice, invocation, cancelled, phase, acts, log, hlabel, hm⟩ | ⟨-, hk⟩
  · rw [hm.invocations, List.getElem?_set] at hi
    split_ifs at hi with hij
    · subst hij
      cases hi
      exact .inr (.inl ⟨choice, invocation, cancelled, phase, acts, log, hlabel, hm, rfl⟩)
    · exact .inl hi
  · obtain ⟨new, hnew, hentering⟩ := hk.invocations
    rw [hnew] at hi
    by_cases hlt : i < x.invocations.length
    · rw [List.getElem?_append_left hlt] at hi
      exact .inl hi
    · rw [List.getElem?_append_right (Nat.le_of_not_lt hlt)] at hi
      obtain ⟨hphase, hlog, -⟩ := hentering invocation' (List.mem_of_getElem? hi)
      exact .inr (.inr ⟨hphase, hlog⟩)

def Phase.isOver : Phase → Bool
  | .ended _ | .panicked => true
  | _                    => false

theorem advance_isOver {stage : Stage} {cancelled : Bool} {now : Nat} {circuits : Circuits} {phase : Phase} (choice : Choice)
    (h : phase.isOver = true) : advance stage cancelled now circuits phase choice = none := by
  cases phase with
  | ended result => cases choice <;> rfl
  | panicked => cases choice <;> rfl
  | _ => cases h

/-- **A step keeps every invocation**: whose it is, and its phase once it is over. -/
theorem step_keeps {x x' : Executor} {label : Label} (h : x.step label = some x') {i : Nat} {invocation : Invocation}
    (hi : x.invocations[i]? = some invocation) : ∃ invocation', x'.invocations[i]? = some invocation' ∧
      invocation'.pipeline = invocation.pipeline ∧ invocation'.child = invocation.child ∧
      (invocation.phase.isOver = true → invocation'.phase = invocation.phase) := by
  rcases step_shared h with ⟨j, choice, moved, cancelled, phase, acts, log, -, hm⟩ | ⟨-, hk⟩
  · rw [hm.invocations, List.getElem?_set]
    split_ifs with hij hlt
    · subst hij
      obtain rfl : invocation = moved := Option.some.inj (hi.symm.trans hm.found)
      refine ⟨_, rfl, rfl, rfl, fun hover => ?_⟩
      have := hm.moves
      rw [advance_isOver choice hover] at this
      cases this
    · subst hij
      exact absurd (List.getElem?_eq_some_iff.mp hi).1 hlt
    · exact ⟨invocation, hi, rfl, rfl, fun _ => rfl⟩
  · obtain ⟨new, hnew, -⟩ := hk.invocations
    rw [hnew, List.getElem?_append_left (List.getElem?_eq_some_iff.mp hi).1]
    exact ⟨invocation, hi, rfl, rfl, fun _ => rfl⟩

theorem Owned.step {x x' : Executor} {label : Label} {k i : Nat} {child : Bool} (ho : Owned x k child i)
    (h : x.step label = some x') : Owned x' k child i := by
  obtain ⟨invocation, hi, hpipeline, hchild⟩ := ho
  obtain ⟨invocation', hi', hp, hc, -⟩ := step_keeps h hi
  exact ⟨invocation', hi', hp.trans hpipeline, hc.trans hchild⟩

/-! ## The pipelines of the invocations -/

/-- Every invocation is of a pipeline there is. -/
def InRange (x : Executor) : Prop := ∀ invocation ∈ x.invocations, invocation.pipeline < x.pipelines.length

theorem Moved.inRange {x x' : Executor} {i : Nat} {choice : Choice} {invocation : Invocation} {cancelled : Bool} {phase : Phase}
    {acts : List Act} {log : LifecycleLog} (hm : Moved x x' i choice invocation cancelled phase acts log) (h : InRange x) :
    InRange x' := by
  intro inv hinv
  rw [hm.pipelines]
  rw [hm.invocations] at hinv
  rcases List.mem_or_eq_of_mem_set hinv with hinv | rfl
  · exact h inv hinv
  · exact h invocation (List.mem_of_getElem? hm.found)

theorem Kept.inRange {x x' : Executor} (hk : Kept x x') (h : InRange x) : InRange x' := by
  obtain ⟨new, hnew, hentering⟩ := hk.invocations
  intro invocation hin
  rw [hnew] at hin
  rcases List.mem_append.mp hin with hin | hin
  · exact Nat.lt_of_lt_of_le (h invocation hin) hk.pipelines
  · exact (hentering invocation hin).2.2

theorem InRange.step {x x' : Executor} {label : Label} (h : InRange x) (hstep : x.step label = some x') : InRange x' := by
  rcases step_shared hstep with ⟨i, choice, invocation, cancelled, phase, acts, log, -, hm⟩ | ⟨-, hk⟩
  · exact hm.inRange h
  · exact hk.inRange h

end Pipeline
end Syllog
