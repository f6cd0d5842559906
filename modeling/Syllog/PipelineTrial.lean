import Syllog.PipelineCircuit
/-!
# PipelineTrial — half-open circuits

Once the reset time of an open circuit is over, the next check re-arms it: it lets its caller in, the trial, and closes the
circuit, with no mark that a trial is under way.  So whoever asks before the trial's outcome is recorded is let in as well,
and a failure of the trial counts as the first of a new row.  The trail says exactly which runs keep the half-open law.
-/
namespace Syllog
namespace Pipeline

open Schedule

/-! ## The law -/

/-- An invocation that a check let in because the reset time was over. -/
def Entry.IsTrial (name : String) (e : Entry) : Prop := e.stage.name = name ∧ e.act = .checked (.admitted true)

def Entry.Admits (e : Entry) : Prop := e.stage.circuit.isSome ∧ ∃ rearmed, e.act = .checked (.admitted rearmed)

def Entry.Records (i : Nat) (e : Entry) : Prop := e.invocation = i ∧ ∃ success, e.act = .recorded success

/-- A trial is under way: its outcome is not recorded yet. -/
def TrialPending (name : String) (history : List Entry) : Prop :=
  ∃ pre trial post, history = pre ++ trial :: post ∧ trial.IsTrial name ∧ ∀ e ∈ post, ¬ e.Records trial.invocation

/-- The failure of a trial. -/
def Entry.FailsTrial (history : List Entry) (e : Entry) : Prop :=
  e.act = .recorded false ∧ ∃ trial ∈ history, trial.invocation = e.invocation ∧ trial.IsTrial e.stage.name

/-- No check lets a caller in while a trial is under way. -/
def OneTrial (history : List Entry) : Prop :=
  Audited (fun pre e => e.Admits → ¬ TrialPending e.stage.name pre) history

/-- The failure of a trial leaves the circuit open. -/
def Reopens (history : List Entry) : Prop :=
  Audited (fun pre e => e.FailsTrial pre → (circuitAfter e.stage.name (pre ++ [e])).openedAt.isSome) history

/-- The circuit of a stage turns callers away. -/
def TurnsAway (x : Executor) (name : String) (policy : CircuitPolicy) : Prop :=
  ∃ openedAt, (circuitOf x.circuits name).openedAt = some openedAt ∧ x.now - openedAt < policy.resetAfter

/-- Before a check: no trial is under way, or others have opened the circuit again.  Before a trial's failure is recorded:
the circuit is open or this failure reaches the threshold. -/
def MayProceed (x : Executor) (i : Nat) (invocation : Invocation) (policy : CircuitPolicy) : Prop :=
  match invocation.phase with
  | .entering => TrialPending invocation.stage.name x.history → TurnsAway x invocation.stage.name policy
  | .settling (.error _) => (∃ trial ∈ x.history, trial.invocation = i ∧ trial.IsTrial invocation.stage.name) →
    (circuitOf x.circuits invocation.stage.name).openedAt.isSome ∨
      policy.failureThreshold ≤ (circuitOf x.circuits invocation.stage.name).failures + 1
  | _ => True

def KeepsHalfOpen (x : Executor) : Label → Prop
  | .invocation i .proceed => ∀ invocation policy, x.invocations[i]? = some invocation →
    invocation.stage.circuit = some policy → MayProceed x i invocation policy
  | _ => True

theorem keepsHalfOpen_none {x : Executor} {i : Nat} {invocation : Invocation} (hi : x.invocations[i]? = some invocation)
    (hnone : invocation.stage.circuit = none) : KeepsHalfOpen x (.invocation i .proceed) := by
  intro inv policy hinv hpolicy
  rw [hi] at hinv
  cases hinv
  rw [hnone] at hpolicy
  cases hpolicy

theorem keepsHalfOpen_some {x : Executor} {i : Nat} {invocation : Invocation} {policy : CircuitPolicy}
    (hi : x.invocations[i]? = some invocation) (hpolicy : invocation.stage.circuit = some policy) :
    KeepsHalfOpen x (.invocation i .proceed) ↔ MayProceed x i invocation policy := by
  refine ⟨fun h => h invocation policy hi hpolicy, fun h inv policy' hinv hpolicy' => ?_⟩
  rw [hi] at hinv
  cases hinv
  rw [hpolicy] at hpolicy'
  cases hpolicy'
  exact h

theorem checkCircuit_admits_iff {x : Executor} {stage : Stage} {policy : CircuitPolicy} (h : stage.circuit = some policy) :
    (∃ rearmed, (checkCircuit stage x.now x.circuits).1 = .admitted rearmed) ↔ ¬ TurnsAway x stage.name policy := by
  unfold checkCircuit TurnsAway
  rw [h]
  dsimp only
  split
  · rename_i hnone
    simp [hnone]
  · rename_i openedAt hopen
    split_ifs with hrecent
    · simp [hopen, hrecent]
    · simp [hopen, hrecent]

theorem audited_check {x : Executor} {i : Nat} {invocation : Invocation} (hi : x.invocations[i]? = some invocation)
    (hphase : invocation.phase = .entering) :
    let e : Entry := ⟨i, invocation.stage, x.now, .checked (checkCircuit invocation.stage x.now x.circuits).1⟩
    (OneTrial (x.history ++ [e]) ∧ Reopens (x.history ++ [e])) ↔
      (OneTrial x.history ∧ Reopens x.history) ∧ KeepsHalfOpen x (.invocation i .proceed) := by
  intro e
  have hreopens : Reopens (x.history ++ [e]) ↔ Reopens x.history := by
    unfold Reopens
    rw [audited_snoc]
    refine and_iff_left fun hfails => ?_
    cases hfails.1
  have hkeeps : KeepsHalfOpen x (.invocation i .proceed) ↔ (e.Admits → ¬ TrialPending e.stage.name x.history) := by
    cases hpolicy : invocation.stage.circuit with
    | none =>
      refine iff_of_true (keepsHalfOpen_none hi hpolicy) fun hadmits => ?_
      simp [Entry.Admits, e, hpolicy] at hadmits
    | some policy =>
      have hadmits : e.Admits ↔ ¬ TurnsAway x invocation.stage.name policy := by
        rw [← checkCircuit_admits_iff hpolicy]
        simp [Entry.Admits, e, hpolicy]
      rw [hadmits, keepsHalfOpen_some hi hpolicy]
      simp only [MayProceed, hphase]
      exact not_imp_not.symm
  have hone : OneTrial (x.history ++ [e]) ↔ OneTrial x.history ∧ (e.Admits → ¬ TrialPending e.stage.name x.history) :=
    audited_snoc
  rw [hreopens, hone, hkeeps]
  tauto

theorem audited_record {x : Executor} {i : Nat} {invocation : Invocation} {result : StageResult} {policy : CircuitPolicy}
    (hcircuits : ∀ name, circuitOf x.circuits name = circuitAfter name x.history) (hi : x.invocations[i]? = some invocation)
    (hphase : invocation.phase = .settling result) (hpolicy : invocation.stage.circuit = some policy) :
    let e : Entry := ⟨i, invocation.stage, x.now, .recorded result.toBool⟩
    (OneTrial (x.history ++ [e]) ∧ Reopens (x.history ++ [e])) ↔
      (OneTrial x.history ∧ Reopens x.history) ∧ KeepsHalfOpen x (.invocation i .proceed) := by
  intro e
  have hone : OneTrial (x.history ++ [e]) ↔ OneTrial x.history := by
    unfold OneTrial
    rw [audited_snoc]
    refine and_iff_left fun hadmits => ?_
    obtain ⟨-, rearmed, hact⟩ := hadmits
    cases hact
  have hreopens : Reopens (x.history ++ [e]) ↔ Reopens x.history ∧
      (e.FailsTrial x.history → (circuitAfter e.stage.name (x.history ++ [e])).openedAt.isSome) := audited_snoc
  have hkeeps : KeepsHalfOpen x (.invocation i .proceed) ↔
      (e.FailsTrial x.history → (circuitAfter e.stage.name (x.history ++ [e])).openedAt.isSome) := by
    rw [keepsHalfOpen_some hi hpolicy]
    simp only [MayProceed, hphase]
    cases result with
    | ok output => simp [Entry.FailsTrial, e, Except.toBool]
    | error error =>
      have hlt := (invocation.stage.threshold_range policy hpolicy).2
      rw [circuitAfter_append, ← hcircuits, List.foldl_cons, List.foldl_nil, apply_failure _ rfl rfl hpolicy]
      simp only [Entry.FailsTrial, e, Except.toBool, true_and]
      refine forall_congr' fun _ => ?_
      split_ifs with hthreshold
      · exact iff_of_true (.inr (by omega)) rfl
      · exact or_iff_left (by omega)
  rw [hone, hreopens, hkeeps]
  tauto

theorem audited_logged {history : List Entry} {i now : Nat} {stage : Stage} {event : PipelineEvent} :
    let e : Entry := ⟨i, stage, now, .logged event⟩
    (OneTrial (history ++ [e]) ∧ Reopens (history ++ [e])) ↔ (OneTrial history ∧ Reopens history) := by
  intro e
  unfold OneTrial Reopens
  rw [audited_snoc, audited_snoc]
  refine and_congr (and_iff_left fun hadmits => ?_) (and_iff_left fun hfails => ?_)
  · obtain ⟨-, rearmed, hact⟩ := hadmits
    cases hact
  · cases hfails.1

/-- **One step keeps the half-open law exactly when it may proceed.** -/
theorem halfOpen_step {x x' : Executor} {label : Label}
    (hcircuits : ∀ name, circuitOf x.circuits name = circuitAfter name x.history) (h : x.step label = some x') :
    (OneTrial x'.history ∧ Reopens x'.history) ↔ (OneTrial x.history ∧ Reopens x.history) ∧ KeepsHalfOpen x label := by
  rcases step_shared h with ⟨i, choice, invocation, cancelled, phase, acts, log, rfl, hm⟩ | ⟨hlabel, hk⟩
  · rw [hm.history]
    rcases advance_acts hm.moves with ⟨hphase, rfl, -, rfl⟩ | ⟨result, hphase, rfl, hrecord⟩ | ⟨hsettling, hentering, -, hacts⟩
    · exact audited_check hm.found hphase
    · cases hpolicy : invocation.stage.circuit with
      | none =>
        have hnil : acts = [] := by
          rw [show acts = (recordResult invocation.stage x.now x.circuits result).2 by rw [hrecord]]
          cases result <;> simp [recordResult, hpolicy]
        rw [hnil]
        simp only [List.map_nil, List.append_nil]
        exact (and_iff_left (keepsHalfOpen_none hm.found hpolicy)).symm
      | some policy =>
        have hone : acts = [.recorded result.toBool] := by
          rw [show acts = (recordResult invocation.stage x.now x.circuits result).2 by rw [hrecord]]
          cases result <;> simp [recordResult, hpolicy, Except.toBool]
        rw [hone]
        exact audited_record hcircuits hm.found hphase hpolicy
    · have hkeeps : KeepsHalfOpen x (.invocation i choice) := by
        cases choice with
        | proceed =>
          intro inv policy hinv _
          rw [hm.found] at hinv
          cases hinv
          unfold MayProceed
          split
          · rename_i hphase
            exact absurd hphase hentering
          · rename_i e hphase
            exact absurd hphase (hsettling (.error e))
          · trivial
        | _ => trivial
      rw [and_iff_left hkeeps]
      rcases hacts with rfl | ⟨event, rfl⟩
      · simp
      · exact audited_logged
  · rw [hk.history]
    refine (and_iff_left ?_).symm
    unfold KeepsHalfOpen
    split
    · rename_i i
      exact absurd rfl (hlabel i .proceed)
    · trivial

/-- **A half-open circuit admits one trial, and the trial's failure opens it again, exactly in the runs whose every step may
proceed**: the code keeps no mark of the trial, so whoever asks meanwhile is let in, and starts the count of failures anew. -/
theorem halfOpen_one_trial {config : Config} : ∀ {labels : List Label} {x : Executor},
    play Executor.step (.new config) labels = some x →
    (∀ name, circuitOf x.circuits name = circuitAfter name x.history) ∧
    ((OneTrial x.history ∧ Reopens x.history) ↔
      Audited (fun before label => ∀ t, play Executor.step (.new config) before = some t → KeepsHalfOpen t label) labels) := by
  intro labels
  induction labels using List.reverseRecOn with
  | nil =>
    intro x hplay
    cases hplay
    exact ⟨fun _ => rfl, iff_of_true ⟨audited_nil, audited_nil⟩ audited_nil⟩
  | append_singleton labels label ih =>
    intro x hplay
    obtain ⟨t, t', hbefore, hstep, hrest⟩ := play_split hplay
    cases hrest
    have hl := ledger_play (ledger_new config) hplay
    obtain ⟨hcircuits, hiff⟩ := ih hbefore
    refine ⟨hl.circuits, ?_⟩
    rw [halfOpen_step hcircuits hstep, hiff, audited_snoc]
    simp only [hbefore, Option.some.injEq, forall_eq']

/-- Up to its first trial, a trail keeps the law. -/
theorem halfOpen_of_no_trial {history : List Entry} (h : ∀ e ∈ history, e.act ≠ .checked (.admitted true)) (last : Entry) :
    OneTrial (history ++ [last]) ∧ Reopens (history ++ [last]) := by
  have hpre : ∀ pre e post, history ++ [last] = pre ++ e :: post → ∀ e' ∈ pre, e' ∈ history := by
    intro pre e post hsplit e' he'
    rcases List.eq_nil_or_concat post with rfl | ⟨post', last', rfl⟩
    · rw [(List.append_inj' hsplit rfl).1]
      exact he'
    · rw [List.concat_eq_append, ← List.cons_append, ← List.append_assoc] at hsplit
      rw [(List.append_inj' hsplit rfl).1]
      exact List.mem_append_left _ he'
  constructor
  · rintro pre e post hsplit - ⟨before, trial, after, rfl, htrial, -⟩
    exact h trial (hpre _ e post hsplit trial (by simp)) htrial.2
  · rintro pre e post hsplit ⟨-, trial, hin, -, htrial⟩
    exact absurd htrial.2 (h trial (hpre pre e post hsplit trial hin))

/-- The reset time is over and one caller asks. -/
theorem lone_trial_admitted : ∃ x,
    play Executor.step (.new smallConfig) (admitGuarded 0 0 ++ failGuarded 0 ++ [.tick 10] ++ admitGuarded 1 1) = some x ∧
    TrialPending "s" x.history ∧
    Audited (fun before label => ∀ t, play Executor.step (.new smallConfig) before = some t → KeepsHalfOpen t label)
      (admitGuarded 0 0 ++ failGuarded 0 ++ [.tick 10] ++ admitGuarded 1 1) := by
  refine ⟨_, rfl, ⟨_, _, [], rfl, ⟨rfl, rfl⟩, by simp⟩, ?_⟩
  refine (halfOpen_one_trial rfl).2.mp (halfOpen_of_no_trial ?_ _)
  decide

/-- The reset time is over, and two callers are let in. -/
theorem two_trials_admitted : ∃ x, play Executor.step (.new smallConfig)
      (admitGuarded 0 0 ++ failGuarded 0 ++ [.tick 10] ++ admitGuarded 1 1 ++ admitGuarded 2 2) = some x ∧
    ¬ OneTrial x.history := by
  refine ⟨_, rfl, fun h => ?_⟩
  refine h _ _ [] rfl ⟨rfl, false, rfl⟩ ⟨_, _, [], rfl, ⟨rfl, rfl⟩, by simp⟩

end Pipeline
end Syllog
