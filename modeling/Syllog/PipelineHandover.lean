import Syllog.PipelineStep
import Mathlib.Data.List.Induction
/-!
# PipelineHandover — what one group hands to the next

A fan-out of `n` stages has `n` outputs, and the loop over the groups hands the next one a single input, `outputs.pop()`.
The outputs of the last group are all in the outcome; between groups, an output is kept exactly where there is only one.
-/
namespace Syllog
namespace Pipeline

open Schedule

/-! ## Handovers -/

/-- The number of outputs of a group that ends well. -/
def PipelineGroup.width : PipelineGroup → Nat
  | .serial _        => 1
  | .fanOut stages _ => stages.length

/-- The groups that are done, what was handed to each of them, and the outputs of the last. -/
inductive Handed (input : String) : List PipelineGroup → List (List String × String) → List String → Prop
  | start : Handed input [] [] [input]
  | group {done : List PipelineGroup} {handed : List (List String × String)} {outputs outputs' : List String} {given : String}
      {group : PipelineGroup} (before : Handed input done handed outputs) (last : outputs.getLast? = some given)
      (width : outputs'.length = group.width) : Handed input (done ++ [group]) (handed ++ [(outputs, given)]) outputs'

/-- Whatever a group hands over is all there is. -/
def Lossless (handed : List (List String × String)) : Prop := ∀ p ∈ handed, p.1 = [p.2]

theorem eq_singleton_iff {outputs : List String} {given : String} (h : outputs.getLast? = some given) :
    outputs = [given] ↔ outputs.length ≤ 1 := by
  constructor
  · rintro rfl
    exact Nat.le_refl 1
  · intro hle
    match outputs, h, hle with
    | [output], h, _ => simpa using h

theorem Handed.width {input : String} {done : List PipelineGroup} {handed : List (List String × String)} {outputs : List String}
    (h : Handed input done handed outputs) : outputs.length = (done.getLast?.map PipelineGroup.width).getD 1 := by
  cases h with
  | start => rfl
  | group before last width => simpa using width

/-- **A chain of groups loses nothing exactly when every group but the last has at most one output.** -/
theorem Handed.lossless_iff {input : String} {done : List PipelineGroup} {handed : List (List String × String)}
    {outputs : List String} (h : Handed input done handed outputs) :
    Lossless handed ↔ ∀ group ∈ done.dropLast, group.width ≤ 1 := by
  induction h with
  | start => simp [Lossless]
  | @group done handed outputs outputs' given group before last width ih =>
    have hsnoc : Lossless (handed ++ [(outputs, given)]) ↔ Lossless handed ∧ outputs.length ≤ 1 := by
      rw [← eq_singleton_iff last]
      simp [Lossless, or_imp, forall_and]
    rw [hsnoc, ih, List.dropLast_concat, before.width]
    rcases List.eq_nil_or_concat done with rfl | ⟨front, last', rfl⟩
    · simp
    · rw [List.concat_eq_append]
      simp [or_imp, forall_and]

/-! ## The invariant -/

/-- A group has been handed its input, with `groups` still to come. -/
def Underway (plan : List PipelineGroup) (input : String) (handed : List (List String × String)) (group : PipelineGroup)
    (groups : List PipelineGroup) : Prop :=
  ∃ done before outputs given, plan = done ++ group :: groups ∧ handed = before ++ [(outputs, given)] ∧
    Handed input done before outputs ∧ outputs.getLast? = some given

/-- How far the root task is through its plan. -/
def Progress (maxFanOut : Nat) (plan : List PipelineGroup) (input : String) (handed : List (List String × String)) :
    Root → Prop
  | .ready groups input'     => groups = plan ∧ input' = input ∧ handed = []
  | .between groups outputs  => ∃ done, plan = done ++ groups ∧ Handed input done handed outputs
  | .serial _ _ groups       => ∃ stages, Underway plan input handed (.serial stages) groups
  | .fanOut children groups  => ∃ stages policy given labels, Underway plan input handed (.fanOut stages policy) groups ∧
    play (FanOut.step maxFanOut) (.spawn stages policy given) labels = some children
  | .returned (.ok outcome)  => Handed input plan handed outcome.output
  | .returned (.error _)     => True
  | .panicked                => True

theorem Underway.over {plan groups : List PipelineGroup} {input : String} {handed : List (List String × String)}
    {group : PipelineGroup} (h : Underway plan input handed group groups) {outputs : List String}
    (hwidth : outputs.length = group.width) : ∃ done, plan = done ++ groups ∧ Handed input done handed outputs := by
  obtain ⟨done, before, outputs', given, rfl, rfl, hbefore, hlast⟩ := h
  exact ⟨done ++ [group], by simp, .group hbefore hlast hwidth⟩

theorem progress_continueSerial {maxFanOut next : Nat} {plan groups : List PipelineGroup} {input given : String}
    {stages : List Stage} {e : Execution} (h : Underway plan input e.handed (.serial stages) groups) (rest : List Stage) :
    Progress maxFanOut plan input (e.continueSerial next given groups rest).1.handed
      (e.continueSerial next given groups rest).1.root := by
  cases rest with
  | nil => exact h.over rfl
  | cons stage rest => exact ⟨stages, h⟩

theorem progress_fail {maxFanOut : Nat} {plan : List PipelineGroup} {input : String} {handed : List (List String × String)}
    (e : Execution) (error : StageError) : Progress maxFanOut plan input handed (e.fail error).root := trivial

theorem progress_nextGroup {maxFanOut next : Nat} {plan groups : List PipelineGroup} {input : String} {outputs : List String}
    {e : Execution} (h : Progress maxFanOut plan input e.handed (.between groups outputs)) :
    Progress maxFanOut plan input (e.nextGroup next outputs groups).1.handed (e.nextGroup next outputs groups).1.root := by
  obtain ⟨done, rfl, hdone⟩ := h
  cases groups with
  | nil =>
    simp only [List.append_nil]
    exact hdone
  | cons group groups =>
    unfold Execution.nextGroup
    split_ifs
    · exact progress_fail _ _
    · cases hlast : outputs.getLast? with
      | none => cases group <;> exact progress_fail _ _
      | some given =>
        have hunder : Underway (done ++ group :: groups) input (e.hand outputs given).handed group groups :=
          ⟨done, e.handed, outputs, given, rfl, rfl, hdone, hlast⟩
        cases group with
        | serial stages => exact progress_continueSerial hunder stages
        | fanOut stages policy => exact ⟨stages, policy, given, [], hunder, rfl⟩

/-- A fan-out that ends well has one output for each stage. -/
theorem returns_length {maxFanOut : Nat} {stages : List Stage} {policy : JoinPolicy} {given : String} {labels : List FanOut.Label}
    {children : FanOut} {outputs : List String}
    (h : play (FanOut.step maxFanOut) (.spawn stages policy given) labels = some children)
    (hr : children.returns = some (.ok outputs)) : outputs.length = stages.length := by
  have hj := FanOut.joins_play (FanOut.joins_spawn stages policy given) h
  obtain ⟨hall, ⟨error, -, herr⟩ | ⟨hnone, hok⟩⟩ := FanOut.returns_eq_some hr
  · cases herr
  · have hlength := (hj.perm hall).length_eq
    rw [← hj.results hnone, List.length_map, List.length_range] at hlength
    rw [Except.ok.inj hok, List.length_map, ← hlength]
    split_ifs
    · exact List.length_insertionSort _ _
    · rfl

/-- **A step of the root task keeps its place in the plan.** -/
theorem progress_stepRoot {maxFanOut : Nat} {plan : List PipelineGroup} {input : String} {e e' : Execution}
    {invocations : List Invocation} {invoked : Option (Stage × String)} (h : Progress maxFanOut plan input e.handed e.root)
    (hroot : e.stepRoot invocations = some (e', invoked)) : Progress maxFanOut plan input e'.handed e'.root := by
  unfold Execution.stepRoot at hroot
  split at hroot
  · rename_i groups input' hr
    rw [hr] at h
    obtain ⟨rfl, rfl, hnil⟩ := h
    cases hroot
    refine ⟨[], rfl, ?_⟩
    show Handed input' [] e.handed [input']
    rw [hnil]
    exact .start
  · rename_i groups outputs hr
    rw [hr] at h
    obtain ⟨rfl, rfl⟩ := Prod.mk.inj (Option.some.inj hroot)
    exact progress_nextGroup h
  · rename_i index rest groups hr
    rw [hr] at h
    obtain ⟨stages, hunder⟩ := h
    split at hroot
    · obtain ⟨rfl, rfl⟩ := Prod.mk.inj (Option.some.inj hroot)
      exact progress_continueSerial hunder rest
    · cases hroot
      exact progress_fail _ _
    · cases hroot
      trivial
    · cases hroot
  · rename_i children groups hr
    rw [hr] at h
    obtain ⟨stages, policy, given, labels, hunder, hplay⟩ := h
    split at hroot
    · rename_i outputs hreturns
      cases hroot
      exact hunder.over (returns_length hplay hreturns)
    · cases hroot
      exact progress_fail _ _
    · cases hroot
  · cases hroot
  · cases hroot

theorem progress_children {maxFanOut : Nat} {plan groups : List PipelineGroup} {input : String}
    {handed : List (List String × String)} {children children' : FanOut} (label : FanOut.Label)
    (h : Progress maxFanOut plan input handed (.fanOut children groups))
    (hstep : FanOut.step maxFanOut children label = some children') :
    Progress maxFanOut plan input handed (.fanOut children' groups) := by
  obtain ⟨stages, policy, given, labels, hunder, hplay⟩ := h
  exact ⟨stages, policy, given, labels ++ [label], hunder, (play_snoc hplay).trans hstep⟩

/-- **A turn keeps it.** -/
theorem progress_turn {x x' : Executor} {k : Nat} {label : Label} {e e' : Execution} {plan : List PipelineGroup} {input : String}
    (h : Progress x.config.maxFanOut plan input e.handed e.root) (ht : Turn x x' k label e e') :
    Progress x.config.maxFanOut plan input e'.handed e'.root := by
  cases ht with
  | root step owned => exact progress_stepRoot h step
  | @acquire children children' groups i at_root acquires owned =>
    rw [at_root] at h
    exact progress_children (.acquire i x.invocations.length) h acquires
  | @finish children children' groups branch i index invocation outcome at_root found running invoked ended finishes =>
    rw [at_root] at h
    exact progress_children (.finish i outcome invocation.log.events) h finishes
  | @join children children' groups i events cancels at_root joins =>
    rw [at_root] at h
    exact progress_children (.join i) h (by simp [FanOut.step, joins])
  | detach at_handle same_root same_handed =>
    rw [same_root, same_handed]
    exact h
  | _ => exact h

/-! ## Whole runs -/

/-- The `execute` of a run that started the pipeline `k`. -/
def Started (config : Config) (labels : List Label) (k : Nat) (plan : List PipelineGroup) (input : String) : Prop :=
  ∃ before after t, labels = before ++ .execute plan input :: after ∧
    play Executor.step (.new config) before = some t ∧ t.pipelines.length = k

theorem progress_play {config : Config} {labels : List Label} : ∀ {x : Executor},
    play Executor.step (.new config) labels = some x → x.config = config ∧ ∀ k e, x.pipelines[k]? = some e →
      ∃ plan input, Started config labels k plan input ∧ Progress config.maxFanOut plan input e.handed e.root := by
  induction labels using List.reverseRecOn with
  | nil =>
    intro x hplay
    cases hplay
    exact ⟨rfl, by simp [Executor.new]⟩
  | append_singleton labels label ih =>
    intro x hplay
    obtain ⟨t, t', hbefore, hstep, hrest⟩ := play_split hplay
    cases hrest
    obtain ⟨hconfig, hall⟩ := ih hbefore
    refine ⟨(step_config hstep).trans hconfig, fun k e' he' => ?_⟩
    rcases step_turn hstep he' with ⟨e, he, ht⟩ | ⟨rfl, plan, input, rfl, rfl⟩
    · obtain ⟨plan, input, ⟨before, after, s, rfl, hs, hk⟩, hprogress⟩ := hall k e he
      refine ⟨plan, input, ⟨before, after ++ [label], s, by simp, hs, hk⟩, ?_⟩
      rw [← hconfig] at hprogress ⊢
      exact progress_turn hprogress ht
    · exact ⟨plan, input, ⟨labels, [], t, rfl, hbefore, rfl⟩, rfl, rfl, rfl⟩

/-- **A run that ends well has lost no output between its groups exactly when every fan-out but a last one has at most one
stage**; the last group's outputs are the outcome's. -/
theorem handover_lossless_iff {config : Config} {labels : List Label} {x : Executor} {k : Nat} {e : Execution}
    {outcome : PipelineOutcome} (hplay : play Executor.step (.new config) labels = some x) (he : x.pipelines[k]? = some e)
    (hroot : e.root = .returned (.ok outcome)) :
    ∃ plan input, Started config labels k plan input ∧ Handed input plan e.handed outcome.output ∧
      (Lossless e.handed ↔ ∀ stages policy, .fanOut stages policy ∈ plan.dropLast → stages.length ≤ 1) := by
  obtain ⟨plan, input, hstarted, hprogress⟩ := (progress_play hplay).2 k e he
  rw [hroot] at hprogress
  refine ⟨plan, input, hstarted, hprogress, ?_⟩
  rw [Handed.lossless_iff hprogress]
  constructor
  · intro h stages policy hin
    exact h _ hin
  · intro h group hin
    cases group with
    | serial stages => exact Nat.le_refl 1
    | fanOut stages policy => exact h stages policy hin

def succeed (i : Nat) (output : String) : List Label :=
  [.invocation i .proceed, .invocation i .proceed, .invocation i (.returns (.ok output)), .invocation i .proceed,
    .invocation i .proceed]

/-- Two branches, then a serial stage. -/
def pairThenOne : List Label :=
  [.execute [.fanOut [.new "a", .new "b"] .preserveInputOrder, .serial [.new "c"]] "x", .root 0, .root 0, .acquire 0 0,
    .acquire 0 1] ++ succeed 0 "1" ++ succeed 1 "2" ++ [.finish 0 0, .join 0 0, .finish 0 1, .join 0 1, .root 0, .root 0] ++
    succeed 2 "3" ++ [.root 0, .root 0]

/-- What a pipeline that ended well has handed over, and its outputs. -/
def handoversOf (x : Executor) (k : Nat) : Option (List (List String × String) × List String) := do
  match (← x.pipelines[k]?) with
  | ⟨_, _, .returned (.ok outcome), _, handed⟩ => some (handed, outcome.output)
  | _                                          => none

theorem handoversOf_eq_some {x : Executor} {k : Nat} {handed : List (List String × String)} {output : List String}
    (h : handoversOf x k = some (handed, output)) : ∃ e outcome, x.pipelines[k]? = some e ∧
      e.root = .returned (.ok outcome) ∧ e.handed = handed ∧ outcome.output = output := by
  obtain ⟨e, he, h⟩ := Option.bind_eq_some_iff.mp h
  split at h
  · cases h
    exact ⟨_, _, he, rfl, rfl, rfl⟩
  · cases h

theorem pairThenOne_handovers : ∃ x, play Executor.step (.new ⟨8, 2, 0, by decide, by decide⟩) pairThenOne = some x ∧
    handoversOf x 0 = some ([(["x"], "x"), (["1", "2"], "2")], ["3"]) := by
  have h : (play Executor.step (.new ⟨8, 2, 0, by decide, by decide⟩) pairThenOne).bind (fun x => handoversOf x 0) =
      some ([(["x"], "x"), (["1", "2"], "2")], ["3"]) := by
    decide +kernel
  exact Option.bind_eq_some_iff.mp h

theorem not_lossless_pair : ¬ Lossless [(["x"], "x"), (["1", "2"], "2")] := by
  intro h
  exact absurd (h (["1", "2"], "2") (by simp)) (by decide)

theorem pairThenOne_wide : ∃ x e outcome,
    play Executor.step (.new ⟨8, 2, 0, by decide, by decide⟩) pairThenOne = some x ∧ x.pipelines[0]? = some e ∧
    e.root = .returned (.ok outcome) ∧ ∃ plan input, Handed input plan e.handed outcome.output ∧
      ∃ stages policy, .fanOut stages policy ∈ plan.dropLast ∧ 1 < stages.length := by
  obtain ⟨x, hplay, hover⟩ := pairThenOne_handovers
  obtain ⟨e, outcome, he, hroot, hhanded, -⟩ := handoversOf_eq_some hover
  obtain ⟨plan, input, -, hplan, hiff⟩ := handover_lossless_iff hplay he hroot
  refine ⟨x, e, outcome, hplay, he, hroot, plan, input, hplan, ?_⟩
  by_contra hnone
  simp only [not_exists, not_and, Nat.not_lt] at hnone
  exact not_lossless_pair (hhanded ▸ hiff.mpr hnone)

/-- The outputs of both branches reach the next group as the second one alone, and the run ends well. -/
theorem pairThenOne_lossy : ∃ x e outcome,
    play Executor.step (.new ⟨8, 2, 0, by decide, by decide⟩) pairThenOne = some x ∧ x.pipelines[0]? = some e ∧
    e.root = .returned (.ok outcome) ∧ outcome.output = ["3"] ∧ (["1", "2"], "2") ∈ e.handed ∧ ¬ Lossless e.handed := by
  obtain ⟨x, hplay, hover⟩ := pairThenOne_handovers
  obtain ⟨e, outcome, he, hroot, hhanded, houtput⟩ := handoversOf_eq_some hover
  refine ⟨x, e, outcome, hplay, he, hroot, houtput, ?_, ?_⟩
  · simp [hhanded]
  · rw [hhanded]
    exact not_lossless_pair

end Pipeline
end Syllog
