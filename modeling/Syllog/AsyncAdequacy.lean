import Syllog.AsyncTrace
/-!
# AsyncAdequacy — what the verifier leaves to the graph

The verifier looks at numbers, ranges and counts.  Whether a run ends also depends on the way the control takes through the
transition graph: on a cycle it never does, and at a resume state with no suspension behind it the runner fails.  These are
the only two ways (`finishes_iff`).
-/
namespace Syllog
namespace Async

open Runs

/-! ## The graph under a control -/

/-- A state, with the await point of the last wake. -/
abbrev Position := AsyncStateId × Option UInt32

/-- Where the control leads from a position: a suspension to its cancel state or to its resume state, a resume state to its
panic state or onwards. -/
def follow (m : AsyncStateMachine) (c : TaskControl) : Position → Option Position
  | (state, lastAwait) =>
    match m.transition state, lastAwait with
    | some (.start next), _                 => some (next, lastAwait)
    | some (.suspend i woken cancelled), _  => if c = .cancelAt i then some (cancelled, lastAwait) else some (woken, some i)
    | some (.resume next panic), some i     => if c = .panicAt i then some (panic, lastAwait) else some (next, lastAwait)
    | _, _                                  => none

/-- `q` is on the way of the control from state zero. -/
def OnTheWay (m : AsyncStateMachine) (c : TaskControl) (q : Position) : Prop :=
  Relation.ReflTransGen (Leads (follow m c)) (0, none) q

/-- **The condition**: on the way of the control there is no cycle, and no resume state without a wake behind it. -/
def Passable (m : AsyncStateMachine) (c : TaskControl) : Prop :=
  (∀ q, OnTheWay m c q → ¬ Relation.TransGen (Leads (follow m c)) q q) ∧
  ∀ state next panic, OnTheWay m c (state, none) → m.transition state ≠ some (.resume next panic)

/-- The runner stands at a Complete or a Cancel state. -/
def Runner.Terminal (r : Runner) : Prop :=
  r.machine.transition r.state = some .complete ∨ ∃ locals, r.machine.transition r.state = some (.cancel locals)

/-- The run reaches a terminal state, and it does not end with an invalid runtime state. -/
def Finishes (m : AsyncStateMachine) (parent : ParentScopeId) (c : TaskControl) : Prop :=
  (∃ r, Reaches Runner.turn (Runner.init m parent c) r ∧ r.Terminal) ∧
  ∀ fuel state, runDeterministicTask fuel m parent c ≠ some (.error (.invalidRuntimeState state))

def Runner.position (r : Runner) : Position := (r.state, r.lastAwait)

/-! ## Runs follow the graph -/

/-- A runner of this machine under this control. -/
def Runner.Of (m : AsyncStateMachine) (c : TaskControl) (r : Runner) : Prop := r.machine = m ∧ r.control = c

/-- **Every edge is a turn.** -/
theorem turn_of_follow {m : AsyncStateMachine} {c : TaskControl} {r : Runner} {q : Position} (hr : r.Of m c)
    (h : follow m c r.position = some q) : ∃ r', r.turn = .ok (.inl r') ∧ r'.Of m c ∧ r'.position = q := by
  obtain ⟨rfl, rfl⟩ := hr
  unfold follow Runner.position at h
  simp only at h
  split at h
  · rename_i next ht
    cases h
    exact ⟨_, Runner.turn_of_start ht, ⟨rfl, rfl⟩, rfl⟩
  · rename_i i woken cancelled ht
    by_cases hc : r.control = .cancelAt i
    · rw [if_pos hc] at h
      cases h
      exact ⟨_, Runner.turn_of_cancelAt ht hc, ⟨rfl, rfl⟩, rfl⟩
    · rw [if_neg hc] at h
      cases h
      exact ⟨_, Runner.turn_of_suspend ht hc, ⟨rfl, rfl⟩, rfl⟩
  · rename_i next panic i ht hl
    by_cases hc : r.control = .panicAt i
    · rw [if_pos hc] at h
      cases h
      exact ⟨_, Runner.turn_of_panicAt ht hl hc, ⟨rfl, rfl⟩, rfl⟩
    · rw [if_neg hc] at h
      cases h
      exact ⟨_, Runner.turn_of_resume ht hl hc, ⟨rfl, rfl⟩, rfl⟩
  · cases h

theorem reaches_of_onTheWay (parent : ParentScopeId) {m : AsyncStateMachine} {c : TaskControl} {q : Position}
    (h : OnTheWay m c q) : ∃ r, Reaches Runner.turn (Runner.init m parent c) r ∧ r.Of m c ∧ r.position = q := by
  induction h with
  | refl => exact ⟨_, Reaches.refl _ _, ⟨rfl, rfl⟩, rfl⟩
  | tail _ hstep ih =>
    obtain ⟨r, hr, hof, rfl⟩ := ih
    obtain ⟨r', hturn, hof', hq⟩ := turn_of_follow hof hstep
    exact ⟨r', hr.trans (Reaches.single hturn), hof', hq⟩

theorem advances_of_transGen {m : AsyncStateMachine} {c : TaskControl} {r : Runner} {q : Position} (hr : r.Of m c)
    (h : Relation.TransGen (Leads (follow m c)) r.position q) :
    ∃ r', Advances Runner.turn r r' ∧ r'.Of m c ∧ r'.position = q := by
  induction h with
  | single hstep =>
    obtain ⟨r', hturn, hof, hq⟩ := turn_of_follow hr hstep
    exact ⟨r', ⟨r', hturn, Reaches.refl _ _⟩, hof, hq⟩
  | tail _ hstep ih =>
    obtain ⟨r1, hadv, hof, rfl⟩ := ih
    obtain ⟨r', hturn, hof', hq⟩ := turn_of_follow hof hstep
    exact ⟨r', hadv.trans (Reaches.single hturn), hof', hq⟩

/-- **On a cycle no budget is enough.** -/
theorem cycle_never_ends {m : AsyncStateMachine} {c : TaskControl} {q : Position}
    (hcycle : Relation.TransGen (Leads (follow m c)) q q) :
    ∀ (n : Nat) (r : Runner) (o : Except TaskFailure (List TaskEvent)), r.Of m c → r.position = q →
      run Runner.turn n r ≠ some o := by
  intro n
  induction n using Nat.strongRecOn with
  | ind n ih =>
    intro r o hof hq hrun
    subst hq
    obtain ⟨r', hadv, hof', hq'⟩ := advances_of_transGen hof hcycle
    obtain ⟨k, hk, hrun'⟩ := run_advances hadv hrun
    exact ih k hk r' o hof' hq' hrun'

/-! ## Targets stay inside the table -/

theorem verified_errors {m : AsyncStateMachine} (h : verifyAsyncMachine m = .ok ()) : verificationErrors m = [] := by
  unfold verifyAsyncMachine at h
  split_ifs at h with he
  exact he

theorem verified_target {m : AsyncStateMachine} (h : verifyAsyncMachine m = .ok ()) {state : AsyncStateId}
    {t : AsyncTransition} (ht : m.transition state = some t) {target : AsyncStateId} (hm : target ∈ t.targets) :
    target.toNat < m.states.length := by
  have he := verified_errors h
  simp only [verificationErrors, List.append_eq_nil_iff, List.flatMap_eq_nil_iff, List.map_eq_nil_iff,
    List.filter_eq_nil_iff, decide_eq_true_eq, Nat.not_le] at he
  obtain ⟨s, hs, rfl⟩ := Option.map_eq_some_iff.mp ht
  exact he.1.2 s (List.mem_of_getElem? hs) target hm

theorem verified_nonempty {m : AsyncStateMachine} (h : verifyAsyncMachine m = .ok ()) : 0 < m.states.length := by
  have he := verified_errors h
  simp only [verificationErrors, List.append_eq_nil_iff] at he
  by_cases hc : contiguous m.states = true
  · simp only [contiguous, Bool.and_eq_true, Bool.not_eq_true', List.isEmpty_eq_false_iff] at hc
    exact List.length_pos_iff.mpr hc.1
  · simp [hc] at he

theorem follow_target {m : AsyncStateMachine} {c : TaskControl} {a b : Position} (h : follow m c a = some b) :
    ∃ t, m.transition a.1 = some t ∧ b.1 ∈ t.targets := by
  obtain ⟨state, lastAwait⟩ := a
  simp only [follow] at h
  split at h
  · rename_i next ht
    cases h
    exact ⟨_, ht, by simp [AsyncTransition.targets]⟩
  · rename_i i woken cancelled ht
    split_ifs at h <;> cases h <;> exact ⟨_, ht, by simp [AsyncTransition.targets]⟩
  · rename_i next panic i ht
    split_ifs at h <;> cases h <;> exact ⟨_, ht, by simp [AsyncTransition.targets]⟩
  · cases h

/-- Every position on the way is a state of a verified table. -/
theorem verified_onTheWay {m : AsyncStateMachine} {c : TaskControl} (h : verifyAsyncMachine m = .ok ()) {q : Position}
    (hq : OnTheWay m c q) : ∃ t, m.transition q.1 = some t := by
  have hlt : q.1.toNat < m.states.length := by
    induction hq with
    | refl => exact verified_nonempty h
    | tail _ hstep _ =>
      obtain ⟨t, ht, hmem⟩ := follow_target hstep
      exact verified_target h ht hmem
  exact ⟨_, by simp [AsyncStateMachine.transition, List.getElem?_eq_getElem hlt]; rfl⟩

/-! ## Adequacy -/

theorem terminal_ends {r : Runner} (h : r.Terminal) :
    ∃ o, Ends Runner.turn r o ∧ ∀ state, o ≠ .error (.invalidRuntimeState state) := by
  rcases h with h | ⟨locals, h⟩
  · exact ⟨.ok _, Runner.turn_of_complete h, by simp⟩
  · have hturn := Runner.turn_of_cancel h
    cases hp : r.panicked with
    | true => exact ⟨.error _, by simp only [Ends]; rw [hturn, hp, if_pos rfl], by simp⟩
    | false => exact ⟨.ok _, by simp only [Ends]; rw [hturn, hp]; rfl, by simp⟩

/-- A walk that cannot go on, in a passable graph, stands at a terminal state. -/
theorem terminal_of_end {m : AsyncStateMachine} {c : TaskControl} (h : verifyAsyncMachine m = .ok ()) (hp : Passable m c)
    {r : Runner} (hof : r.Of m c) (hway : OnTheWay m c r.position) (hend : follow m c r.position = none) : r.Terminal := by
  obtain ⟨rfl, rfl⟩ := hof
  obtain ⟨t, ht⟩ := verified_onTheWay h hway
  have ht' : r.machine.transition r.state = some t := ht
  cases t with
  | complete => exact .inl ht'
  | cancel locals => exact .inr ⟨locals, ht'⟩
  | start next => simp [follow, Runner.position, ht'] at hend
  | suspend i woken cancelled =>
    by_cases hc : r.control = .cancelAt i <;> simp [follow, Runner.position, ht', hc] at hend
  | resume next panic =>
    cases hl : r.lastAwait with
    | none =>
      rw [show r.position = (r.state, none) from Prod.ext rfl hl] at hway
      exact absurd ht' (hp.2 r.state next panic hway)
    | some i => by_cases hc : r.control = .panicAt i <;> simp [follow, Runner.position, ht', hl, hc] at hend

theorem runDeterministicTask_verified {m : AsyncStateMachine} (h : verifyAsyncMachine m = .ok ()) (fuel : Nat)
    (parent : ParentScopeId) (c : TaskControl) :
    runDeterministicTask fuel m parent c = run Runner.turn fuel (Runner.init m parent c) := by
  simp [runDeterministicTask, Runner.new, h]

theorem finishes_of_passable {m : AsyncStateMachine} {c : TaskControl} (h : verifyAsyncMachine m = .ok ())
    (hp : Passable m c) (parent : ParentScopeId) : Finishes m parent c := by
  have : Finite UInt32 := Finite.of_injective (fun x : UInt32 => x.toBitVec.toFin)
    (fun x y hxy => UInt32.toBitVec_inj.mp (BitVec.toFin_inj.mp hxy))
  obtain ⟨q, hway, hend⟩ := exists_end_of_acyclic hp.1
  obtain ⟨r, hr, hof, rfl⟩ := reaches_of_onTheWay parent hway
  have hterminal := terminal_of_end h hp hof hway hend
  refine ⟨⟨r, hr, hterminal⟩, fun fuel state hrun => ?_⟩
  rw [runDeterministicTask_verified h] at hrun
  obtain ⟨o, he, hne⟩ := terminal_ends hterminal
  obtain ⟨n, hn⟩ := run_of_reaches hr he
  exact hne state (run_unique hn hrun)

theorem passable_of_finishes {m : AsyncStateMachine} {c : TaskControl} (h : verifyAsyncMachine m = .ok ())
    {parent : ParentScopeId} (hf : Finishes m parent c) : Passable m c := by
  obtain ⟨⟨r, hr, hterminal⟩, hvalid⟩ := hf
  obtain ⟨o, he, _⟩ := terminal_ends hterminal
  obtain ⟨n, hn⟩ := run_of_reaches hr he
  refine ⟨fun q hway hcycle => ?_, fun state next panic hway ht => ?_⟩
  · obtain ⟨r1, hr1, hof, hq⟩ := reaches_of_onTheWay parent hway
    obtain ⟨k, _, hrun⟩ := run_after hr1 hn
    exact cycle_never_ends hcycle k r1 o hof hq hrun
  · obtain ⟨r1, hr1, hof, hq⟩ := reaches_of_onTheWay parent hway
    obtain ⟨hmachine, _⟩ := hof
    have hstate : r1.state = state := congrArg Prod.fst hq
    have hlast : r1.lastAwait = none := congrArg Prod.snd hq
    have hturn := Runner.turn_of_lost (r := r1) (by rw [hmachine, hstate]; exact ht) hlast
    have hends : Ends Runner.turn r1 (.error (.invalidRuntimeState r1.state)) := hturn
    obtain ⟨k, hk⟩ := run_of_reaches hr1 hends
    exact hvalid k r1.state (by rw [runDeterministicTask_verified h, hk])

/-- **A verified machine finishes exactly when its graph is passable** for the control: no cycle on the way, and a wake
before every resume. -/
theorem verified_finishes_iff (m : AsyncStateMachine) (parent : ParentScopeId) (c : TaskControl)
    (h : verifyAsyncMachine m = .ok ()) : Finishes m parent c ↔ Passable m c :=
  ⟨passable_of_finishes h, fun hp => finishes_of_passable h hp parent⟩

/-- A table of one await point: its run finishes. -/
theorem fetchMachine_finishes : verifyAsyncMachine (buildMachine ⟨0, 1⟩ 1 [⟨0, 2⟩]) = .ok () ∧
    Passable (buildMachine ⟨0, 1⟩ 1 [⟨0, 2⟩]) .complete := by
  have hv : verifyAsyncMachine (buildMachine ⟨0, 1⟩ 1 [⟨0, 2⟩]) = .ok () := rfl
  refine ⟨hv, (verified_finishes_iff _ 7 .complete hv).mp ⟨?_, ?_⟩⟩
  · exact ⟨_, .head rfl (.head rfl (.head rfl (.refl _ _))), .inl rfl⟩
  · intro fuel state hrun
    have hends : runDeterministicTask 4 (buildMachine ⟨0, 1⟩ 1 [⟨0, 2⟩]) 7 .complete =
      some (.ok [.started 7, .suspended 0, .woken 0, .resumed 0, .completed]) := rfl
    rw [runDeterministicTask_verified hv] at hends hrun
    cases run_unique hends hrun

/-- The start state leads to itself. -/
def spinMachine : AsyncStateMachine where
  function := ⟨0, 1⟩
  parentScopeRequired := true
  liveLocals := []
  states := [⟨0, .start 0⟩, ⟨1, .complete⟩, ⟨2, .cancel []⟩]

/-- **The verifier accepts a machine that runs for ever.** -/
theorem spinMachine_never_finishes :
    verifyAsyncMachine spinMachine = .ok () ∧ ¬ Finishes spinMachine 7 .complete ∧
      ∀ fuel, runDeterministicTask fuel spinMachine 7 .complete = none := by
  have hv : verifyAsyncMachine spinMachine = .ok () := rfl
  have hnone : ∀ fuel, runDeterministicTask fuel spinMachine 7 .complete = none := by
    intro fuel
    rw [runDeterministicTask_verified hv]
    induction fuel with
    | zero => rfl
    | succ fuel ih => exact ih
  refine ⟨hv, fun hf => ?_, hnone⟩
  obtain ⟨⟨r, hr, hterminal⟩, _⟩ := hf
  obtain ⟨o, he, _⟩ := terminal_ends hterminal
  obtain ⟨n, hn⟩ := run_of_reaches hr he
  rw [← runDeterministicTask_verified hv, hnone n] at hn
  cases hn

/-- The start state leads to a resume state. -/
def lostMachine : AsyncStateMachine where
  function := ⟨0, 1⟩
  parentScopeRequired := true
  liveLocals := []
  states := [⟨0, .start 1⟩, ⟨1, .resume 2 3⟩, ⟨2, .complete⟩, ⟨3, .cancel []⟩]

example : verifyAsyncMachine lostMachine = .ok () ∧
    runDeterministicTask 2 lostMachine 7 .complete = some (.error (.invalidRuntimeState 1)) := ⟨rfl, rfl⟩

end Async
end Syllog
