import Syllog.PipelineStep
import Mathlib.Data.List.Induction
import Mathlib.Data.List.Perm.Basic
/-!
# PipelineCircuit — invocations, their records and the circuits

What the invocations of all pipelines share is the circuits, and the audit trail says who did what to them.  Over every
schedule: the circuits are what the trail says, an invocation that was admitted and ended without its deadline elapsing has
logged and recorded its outcome once, and enough failures in a row keep callers out.  The elapsed deadline skips both the
log and the record.
-/
namespace Syllog
namespace Pipeline

open Schedule

/-! ## What an invocation has logged and recorded -/

/-- What an invocation did, in order. -/
def actsOf (x : Executor) (i : Nat) : List Act := (x.history.filter fun e => e.invocation = i).map Entry.act

def PipelineEvent.isOutcome : PipelineEvent → Bool
  | .stageSucceeded _ | .stageFailed _ _ => true
  | _                                    => false

/-- The outcomes an invocation has logged. -/
def outcomesOf (acts : List Act) : List PipelineEvent := (loggedEvents acts).filter PipelineEvent.isOutcome

/-- The outcomes it has recorded in its circuit. -/
def recordsOf (acts : List Act) : List Bool :=
  acts.filterMap fun act => match act with
    | .recorded success => some success
    | _                 => none

def Admitted (acts : List Act) : Prop := ∃ rearmed, .checked (.admitted rearmed) ∈ acts

/-- The records a result is to leave. -/
def recordOf (stage : Stage) (result : StageResult) : List Bool :=
  if stage.circuit.isSome then [result.toBool] else []

/-- **An invocation whose outcome is on record**: logged once, and recorded once in the circuit it has. -/
def OnRecord (stage : Stage) (result : StageResult) (acts : List Act) : Prop :=
  outcomesOf acts = [resultEvent stage result] ∧ recordsOf acts = recordOf stage result

/-- What the trail of an invocation holds at each phase; `expired` says that its deadline has elapsed. -/
def Accounted (stage : Stage) (expired : Prop) (acts : List Act) : Phase → Prop
  | .entering     => acts = [] ∧ ¬ expired
  | .recorded r   => outcomesOf acts = [] ∧ recordsOf acts = recordOf stage r ∧ ¬ expired
  | .ended r      => (expired ∧ outcomesOf acts = []) ∨
    (¬ expired ∧ (OnRecord stage r acts ∨ ¬ Admitted acts))
  | _             => outcomesOf acts = [] ∧ recordsOf acts = [] ∧ ¬ expired

theorem outcomesOf_append (acts acts' : List Act) : outcomesOf (acts ++ acts') = outcomesOf acts ++ outcomesOf acts' := by
  simp [outcomesOf, loggedEvents]

theorem recordsOf_append (acts acts' : List Act) : recordsOf (acts ++ acts') = recordsOf acts ++ recordsOf acts' := by
  simp [recordsOf]

theorem outcomesOf_result (stage : Stage) (result : StageResult) :
    outcomesOf [.logged (resultEvent stage result)] = [resultEvent stage result] := by
  cases result <;> rfl

theorem recordResult_acts (stage : Stage) (now : Nat) (circuits : Circuits) (result : StageResult) :
    outcomesOf (recordResult stage now circuits result).2 = [] ∧
      recordsOf (recordResult stage now circuits result).2 = recordOf stage result := by
  cases result with
  | ok output =>
    simp only [recordResult, recordOf, Except.toBool]
    split <;> exact ⟨rfl, rfl⟩
  | error e =>
    simp only [recordResult, recordOf, Except.toBool]
    split <;> exact ⟨rfl, rfl⟩

/-- **One move keeps the account**; the elapsed deadline leaves it open. -/
theorem accounted_advance {stage : Stage} {cancelled : Bool} {now : Nat} {circuits circuits' : Circuits} {phase phase' : Phase}
    {choice : Choice} {acts new : List Act} {expired : Prop} (h : Accounted stage expired acts phase)
    (hmove : advance stage cancelled now circuits phase choice = some (phase', circuits', new)) :
    Accounted stage (expired ∨ choice = .expires) (acts ++ new) phase' := by
  have hkept : outcomesOf acts = [] → recordsOf acts = [] → ¬ expired → choice ≠ .expires → outcomesOf new = [] →
      recordsOf new = [] → outcomesOf (acts ++ new) = [] ∧ recordsOf (acts ++ new) = [] ∧ ¬ (expired ∨ choice = .expires) := by
    intro hout hrec hexp hchoice hout' hrec'
    exact ⟨by rw [outcomesOf_append, hout, hout']; rfl, by rw [recordsOf_append, hrec, hrec']; rfl, not_or.mpr ⟨hexp, hchoice⟩⟩
  cases advance_move hmove with
  | rejected verdict =>
    obtain ⟨rfl, hexp⟩ := h
    exact .inr ⟨by simpa using hexp, .inr (by rintro ⟨b, hb⟩; simp at hb)⟩
  | admitted verdict =>
    obtain ⟨rfl, hexp⟩ := h
    exact hkept rfl rfl hexp (by simp) rfl rfl
  | exhausts | stops | attempts | settles | backsOff | panics | retries =>
    obtain ⟨hout, hrec, hexp⟩ := h
    exact hkept hout hrec hexp (by simp) rfl rfl
  | wakes flag waits =>
    obtain ⟨hout, hrec, hexp⟩ := h
    exact hkept hout hrec hexp waits rfl rfl
  | @records result =>
    obtain ⟨hout, hrec, hexp⟩ := h
    obtain ⟨hout', hrec'⟩ := recordResult_acts stage now circuits result
    exact ⟨by rw [outcomesOf_append, hout, hout']; rfl, by rw [recordsOf_append, hrec, hrec']; rfl, by simpa using hexp⟩
  | logs =>
    obtain ⟨hout, hrec, hexp⟩ := h
    refine .inr ⟨by simpa using hexp, .inl ⟨?_, ?_⟩⟩
    · rw [outcomesOf_append, hout, outcomesOf_result]
      rfl
    · rw [recordsOf_append, hrec]
      simp [recordsOf]
  | expires timed =>
    refine .inl ⟨.inr rfl, ?_⟩
    have hout : outcomesOf acts = [] := by
      cases phase with
      | looping | calling | backingOff => exact h.1
      | _ => cases timed
    rw [outcomesOf_append, hout]
    rfl

/-! ## What the trail says of the circuits -/

/-- A circuit after one entry of the trail. -/
def Entry.apply (name : String) (state : CircuitState) (entry : Entry) : CircuitState :=
  if entry.stage.name = name then
    match entry.act, entry.stage.circuit with
    | .checked (.admitted true), _ | .recorded true, _ => ⟨0, none⟩
    | .recorded false, some policy =>
      let failures := min (state.failures + 1) (2 ^ 32 - 1)
      ⟨failures, if policy.failureThreshold ≤ failures then some entry.time else state.openedAt⟩
    | _, _ => state
  else state

def circuitAfter (name : String) (history : List Entry) : CircuitState := history.foldl (Entry.apply name) ⟨0, none⟩

theorem circuitAfter_append (name : String) (history rest : List Entry) :
    circuitAfter name (history ++ rest) = rest.foldl (Entry.apply name) (circuitAfter name history) := List.foldl_append

theorem circuitOf_insert (circuits : Circuits) (name name' : String) (state : CircuitState) :
    circuitOf (circuits.insert name state) name' = if name = name' then state else circuitOf circuits name' := by
  unfold circuitOf
  rw [OrdMap.get?_insert]
  by_cases h : name = name'
  · subst h
    simp
  · simp [h]

theorem checkCircuit_apply (stage : Stage) (now i : Nat) (circuits : Circuits) (name : String) :
    circuitOf (checkCircuit stage now circuits).2 name =
      Entry.apply name (circuitOf circuits name) ⟨i, stage, now, .checked (checkCircuit stage now circuits).1⟩ := by
  unfold checkCircuit
  split
  · simp [Entry.apply]
  · dsimp only
    split
    · simp only [circuitOf_insert, Entry.apply]
      split_ifs with h <;> simp [h]
    · split_ifs with hopen
      · simp only [circuitOf_insert, Entry.apply]
        split_ifs with h <;> simp [h]
      · simp only [circuitOf_insert, Entry.apply]
        split_ifs <;> rfl

theorem recordCircuitSuccess_apply (stage : Stage) (now i : Nat) (circuits : Circuits) (name : String)
    (h : stage.circuit.isSome) : circuitOf (recordCircuitSuccess stage circuits) name =
      Entry.apply name (circuitOf circuits name) ⟨i, stage, now, .recorded true⟩ := by
  obtain ⟨policy, hp⟩ := Option.isSome_iff_exists.mp h
  unfold recordCircuitSuccess
  rw [hp]
  cases hget : circuits.get? stage.name with
  | some state => simp only [circuitOf_insert, Entry.apply]
  | none =>
    simp only [Entry.apply]
    split_ifs with hname
    · subst hname
      simp [circuitOf, hget]
    · rfl

theorem recordCircuitFailure_apply (stage : Stage) (now i : Nat) (circuits : Circuits) (name : String)
    (h : stage.circuit.isSome) : circuitOf (recordCircuitFailure stage now circuits) name =
      Entry.apply name (circuitOf circuits name) ⟨i, stage, now, .recorded false⟩ := by
  obtain ⟨policy, hp⟩ := Option.isSome_iff_exists.mp h
  unfold recordCircuitFailure
  simp only [hp, circuitOf_insert, Entry.apply]
  by_cases hname : stage.name = name
  · subst hname
    simp
  · simp [hname]

/-- The act of a move, if it has one. -/
theorem advance_acts {stage : Stage} {cancelled : Bool} {now : Nat} {circuits circuits' : Circuits} {phase phase' : Phase}
    {choice : Choice} {acts : List Act} (h : advance stage cancelled now circuits phase choice = some (phase', circuits', acts)) :
    (phase = .entering ∧ choice = .proceed ∧ (checkCircuit stage now circuits).2 = circuits' ∧
      acts = [.checked (checkCircuit stage now circuits).1]) ∨
    (∃ result, phase = .settling result ∧ choice = .proceed ∧ (recordResult stage now circuits result) = (circuits', acts)) ∨
    ((∀ result, phase ≠ .settling result) ∧ phase ≠ .entering ∧ circuits' = circuits ∧
      (acts = [] ∨ ∃ event, acts = [.logged event])) := by
  cases advance_move h with
  | rejected verdict | admitted verdict => exact .inl ⟨rfl, rfl, rfl, by rw [verdict]⟩
  | records => exact .inr (.inl ⟨_, rfl, rfl, rfl⟩)
  | attempts | logs => exact .inr (.inr ⟨by simp, by simp, rfl, .inr ⟨_, rfl⟩⟩)
  | expires timed =>
    refine .inr (.inr ⟨?_, ?_, rfl, .inl rfl⟩)
    · rintro result rfl
      cases timed
    · rintro rfl
      cases timed
  | exhausts | stops | settles | backsOff | panics | wakes | retries => exact .inr (.inr ⟨by simp, by simp, rfl, .inl rfl⟩)

/-- **The circuits change as the trail says.** -/
theorem advance_circuits {stage : Stage} {cancelled : Bool} {now : Nat} {circuits circuits' : Circuits} {phase phase' : Phase}
    {choice : Choice} {acts : List Act} (h : advance stage cancelled now circuits phase choice = some (phase', circuits', acts))
    (i : Nat) (name : String) : circuitOf circuits' name =
      (acts.map fun act => (⟨i, stage, now, act⟩ : Entry)).foldl (Entry.apply name) (circuitOf circuits name) := by
  rcases advance_acts h with ⟨-, -, rfl, rfl⟩ | ⟨result, -, -, hrecord⟩ | ⟨-, -, rfl, hacts⟩
  · exact checkCircuit_apply stage now i circuits name
  · by_cases hcircuit : stage.circuit.isSome
    · cases result with
      | ok output =>
        simp only [recordResult, hcircuit, if_true, Prod.mk.injEq] at hrecord
        obtain ⟨rfl, rfl⟩ := hrecord
        exact recordCircuitSuccess_apply stage now i circuits name hcircuit
      | error e =>
        simp only [recordResult, hcircuit, if_true, Prod.mk.injEq] at hrecord
        obtain ⟨rfl, rfl⟩ := hrecord
        exact recordCircuitFailure_apply stage now i circuits name hcircuit
    · have hnone : stage.circuit = none := Option.not_isSome_iff_eq_none.mp hcircuit
      cases result with
      | ok output =>
        simp [recordResult, recordCircuitSuccess, hnone] at hrecord
        obtain ⟨rfl, rfl⟩ := hrecord
        rfl
      | error e =>
        simp [recordResult, recordCircuitFailure, hnone] at hrecord
        obtain ⟨rfl, rfl⟩ := hrecord
        rfl
  · rcases hacts with rfl | ⟨event, rfl⟩
    · rfl
    · simp only [List.map_cons, List.map_nil, List.foldl_cons, List.foldl_nil, Entry.apply]
      split_ifs <;> rfl

/-! ## The ledger of a run -/

/-- What holds of the executor after the labels of a run. -/
structure Ledger (labels : List Label) (x : Executor) : Prop where
  started : ∀ i choice, .invocation i choice ∈ labels → i < x.invocations.length
  entries : ∀ e ∈ x.history, ∃ invocation, x.invocations[e.invocation]? = some invocation ∧ invocation.stage = e.stage
  accounted : ∀ i invocation, x.invocations[i]? = some invocation →
    Accounted invocation.stage (.invocation i .expires ∈ labels) (actsOf x i) invocation.phase
  times : x.history.Pairwise fun e e' => e.time ≤ e'.time
  past : ∀ e ∈ x.history, e.time ≤ x.now
  circuits : ∀ name, circuitOf x.circuits name = circuitAfter name x.history
  owned : InRange x

theorem ledger_new (config : Config) : Ledger [] (.new config) where
  started := by simp
  entries := by simp [Executor.new]
  accounted := by simp [Executor.new]
  times := List.Pairwise.nil
  past := by simp [Executor.new]
  circuits _ := rfl
  owned := by simp [InRange, Executor.new]

theorem accounted_congr {stage : Stage} {expired expired' : Prop} {acts : List Act} {phase : Phase} (h : expired ↔ expired') :
    Accounted stage expired acts phase ↔ Accounted stage expired' acts phase := by
  rw [propext h]

theorem actsOf_append {x x' : Executor} {i j : Nat} {stage : Stage} {now : Nat} {acts : List Act}
    (h : x'.history = x.history ++ acts.map fun act => ⟨i, stage, now, act⟩) :
    actsOf x' j = actsOf x j ++ if i = j then acts else [] := by
  unfold actsOf
  rw [h, List.filter_append, List.map_append]
  congr 1
  split_ifs with hij
  · subst hij
    simp [List.filter_map, Function.comp_def]
  · simp [List.filter_map, Function.comp_def, hij]

theorem ledger_moved {labels : List Label} {x x' : Executor} {i : Nat} {choice : Choice} {invocation : Invocation}
    {cancelled : Bool} {phase : Phase} {acts : List Act} {log : LifecycleLog} (h : Ledger labels x)
    (hm : Moved x x' i choice invocation cancelled phase acts log) : Ledger (labels ++ [.invocation i choice]) x' := by
  have hlt : i < x.invocations.length := (List.getElem?_eq_some_iff.mp hm.found).1
  have hlength : x'.invocations.length = x.invocations.length := by rw [hm.invocations, List.length_set]
  have hget : ∀ j, x'.invocations[j]? = if i = j then some { invocation with phase := phase, log := log } else x.invocations[j]? := by
    intro j
    rw [hm.invocations, List.getElem?_set]
    split_ifs <;> rfl
  constructor
  · intro j choice' hin
    rw [hlength]
    rcases List.mem_append.mp hin with hin | hin
    · exact h.started j choice' hin
    · simp only [List.mem_singleton, Label.invocation.injEq] at hin
      rw [hin.1]
      exact hlt
  · intro e he
    rw [hm.history] at he
    rw [hget]
    rcases List.mem_append.mp he with he | he
    · obtain ⟨inv, hinv, hstage⟩ := h.entries e he
      split_ifs with hi
      · rw [← hi, hm.found] at hinv
        cases hinv
        exact ⟨_, rfl, hstage⟩
      · exact ⟨inv, hinv, hstage⟩
    · obtain ⟨act, -, rfl⟩ := List.mem_map.mp he
      rw [if_pos rfl]
      exact ⟨_, rfl, rfl⟩
  · intro j inv hinv
    rw [hget] at hinv
    rw [actsOf_append hm.history]
    split_ifs at hinv ⊢ with hi
    · subst hi
      cases hinv
      refine (accounted_congr ?_).mp (accounted_advance (h.accounted i invocation hm.found) hm.moves)
      simp [eq_comm]
    · rw [List.append_nil]
      refine (accounted_congr ?_).mp (h.accounted j inv hinv)
      simp [Ne.symm hi]
  · rw [hm.history, List.pairwise_append]
    refine ⟨h.times, ?_, ?_⟩
    · rw [List.pairwise_map]
      exact List.pairwise_of_forall fun _ _ => Nat.le_refl _
    · intro e he e' he'
      obtain ⟨act, -, rfl⟩ := List.mem_map.mp he'
      exact h.past e he
  · intro e he
    rw [hm.history] at he
    rw [hm.now]
    rcases List.mem_append.mp he with he | he
    · exact h.past e he
    · obtain ⟨act, -, rfl⟩ := List.mem_map.mp he
      exact Nat.le_refl _
  · intro name
    rw [hm.history, circuitAfter_append, ← h.circuits]
    exact advance_circuits hm.moves i name
  · exact hm.inRange h.owned

theorem ledger_kept {labels : List Label} {x x' : Executor} {label : Label} (h : Ledger labels x) (hk : Kept x x')
    (hlabel : ∀ i choice, label ≠ .invocation i choice) : Ledger (labels ++ [label]) x' := by
  obtain ⟨new, hnew, hentering⟩ := hk.invocations
  have hin : ∀ i choice, .invocation i choice ∈ labels ++ [label] ↔ .invocation i choice ∈ labels := by
    intro i choice
    rw [List.mem_append, List.mem_singleton]
    exact or_iff_left (Ne.symm (hlabel i choice))
  have hacts : ∀ i, actsOf x' i = actsOf x i := fun i => by unfold actsOf; rw [hk.history]
  constructor
  · intro i choice hmem
    have := h.started i choice ((hin i choice).mp hmem)
    rw [hnew, List.length_append]
    omega
  · intro e he
    rw [hk.history] at he
    obtain ⟨invocation, hi, hstage⟩ := h.entries e he
    refine ⟨invocation, ?_, hstage⟩
    rw [hnew, List.getElem?_append_left (List.getElem?_eq_some_iff.mp hi).1]
    exact hi
  · intro i invocation hi
    rw [hacts, accounted_congr (hin i .expires)]
    by_cases hlt : i < x.invocations.length
    · rw [hnew, List.getElem?_append_left hlt] at hi
      exact h.accounted i invocation hi
    · -- A new invocation has done nothing yet.
      rw [hnew, List.getElem?_append_right (Nat.le_of_not_lt hlt)] at hi
      rw [(hentering invocation (List.mem_of_getElem? hi)).1]
      refine ⟨?_, fun hmem => hlt (h.started i .expires hmem)⟩
      unfold actsOf
      rw [List.map_eq_nil_iff, List.filter_eq_nil_iff]
      intro e he heq
      obtain ⟨inv, hinv, -⟩ := h.entries e he
      rw [decide_eq_true_eq] at heq
      exact hlt (heq ▸ (List.getElem?_eq_some_iff.mp hinv).1)
  · rw [hk.history]
    exact h.times
  · intro e he
    rw [hk.history] at he
    exact Nat.le_trans (h.past e he) hk.now
  · intro name
    rw [hk.circuits, hk.history]
    exact h.circuits name
  · exact hk.inRange h.owned

/-- **The ledger of every run.** -/
theorem ledger_play : ∀ {labels before : List Label} {x x' : Executor}, Ledger before x →
    play Executor.step x labels = some x' → Ledger (before ++ labels) x'
  | [], before, x, x', h, hplay => by
    cases hplay
    rw [List.append_nil]
    exact h
  | label :: labels, before, x, x', h, hplay => by
    obtain ⟨t, hstep, hplay⟩ := play_cons hplay
    have ht : Ledger (before ++ [label]) t := by
      rcases step_shared hstep with ⟨i, choice, invocation, cancelled, phase, acts, log, rfl, hm⟩ | ⟨hlabel, hk⟩
      · exact ledger_moved h hm
      · exact ledger_kept h hk hlabel
    have := ledger_play ht hplay
    rwa [List.append_assoc] at this

/-! ## Failures in a row -/

/-- The failures of a stage that a part of the trail records. -/
def failuresOf (name : String) (window : List Entry) : List Entry :=
  window.filter fun e => e.stage.name = name ∧ e.act = .recorded false

theorem mem_failuresOf {name : String} {window : List Entry} {e : Entry} :
    e ∈ failuresOf name window ↔ e ∈ window ∧ e.stage.name = name ∧ e.act = .recorded false := by
  simp [failuresOf]

/-- An entry that is neither a success nor a re-arming check. -/
def Entry.keepsCount (name : String) (e : Entry) : Prop :=
  e.stage.name = name → e.act ≠ .recorded true ∧ e.act ≠ .checked (.admitted true)

theorem apply_failure {name : String} {policy : CircuitPolicy} {e : Entry} (state : CircuitState) (hname : e.stage.name = name)
    (hact : e.act = .recorded false) (hpolicy : e.stage.circuit = some policy) : Entry.apply name state e =
      ⟨min (state.failures + 1) (2 ^ 32 - 1),
        if policy.failureThreshold ≤ min (state.failures + 1) (2 ^ 32 - 1) then some e.time else state.openedAt⟩ := by
  simp only [Entry.apply, hname, hact, hpolicy, if_true]

theorem apply_other {name : String} {e : Entry} (state : CircuitState) (hkeeps : e.keepsCount name)
    (hother : ¬ (e.stage.name = name ∧ e.act = .recorded false)) : Entry.apply name state e = state := by
  unfold Entry.apply
  split_ifs with hname
  · obtain ⟨hsuccess, hrearm⟩ := hkeeps hname
    split
    · rename_i hact
      exact absurd hact hrearm
    · rename_i hact
      exact absurd hact hsuccess
    · rename_i hact _
      exact absurd ⟨hname, hact⟩ hother
    · rfl
  · rfl

/-- **Failures in a row open a circuit**, at the last of them. -/
theorem foldl_failures {name : String} {policy : CircuitPolicy} (hrange : policy.failureThreshold < 2 ^ 32) (state : CircuitState)
    (window : List Entry) (hkeeps : ∀ e ∈ window, e.keepsCount name)
    (hpolicy : ∀ e ∈ failuresOf name window, e.stage.circuit = some policy)
    (htimes : window.Pairwise fun e e' => e.time ≤ e'.time) :
    min (failuresOf name window).length (2 ^ 32 - 1) ≤ (window.foldl (Entry.apply name) state).failures ∧
    (policy.failureThreshold ≤ (failuresOf name window).length → 0 < (failuresOf name window).length →
      ∃ t, (window.foldl (Entry.apply name) state).openedAt = some t ∧ ∀ e ∈ failuresOf name window, e.time ≤ t) := by
  induction window using List.reverseRecOn with
  | nil => simp [failuresOf]
  | append_singleton window e ih =>
    have happend : failuresOf name (window ++ [e]) = failuresOf name window ++ failuresOf name [e] := List.filter_append ..
    obtain ⟨htimes, -, hlast⟩ := List.pairwise_append.mp htimes
    obtain ⟨hcount, hopen⟩ := ih (fun e' he' => hkeeps e' (List.mem_append_left _ he'))
      (fun e' he' => hpolicy e' (by rw [happend]; exact List.mem_append_left _ he')) htimes
    rw [List.foldl_append, List.foldl_cons, List.foldl_nil, happend, List.length_append]
    by_cases hfail : e.stage.name = name ∧ e.act = .recorded false
    · have hone : failuresOf name [e] = [e] := by simp [failuresOf, hfail]
      have hmem : e ∈ failuresOf name (window ++ [e]) := by simp [happend, hone]
      rw [apply_failure _ hfail.1 hfail.2 (hpolicy e hmem), hone, List.length_singleton]
      refine ⟨by dsimp only; omega, fun hthreshold _ => ⟨e.time, if_pos (by omega), ?_⟩⟩
      intro e' he'
      rcases List.mem_append.mp he' with he' | he'
      · exact hlast e' (mem_failuresOf.mp he').1 e (List.mem_singleton_self e)
      · rw [List.mem_singleton.mp he']
    · have hnone : failuresOf name [e] = [] := by
        simp only [failuresOf, List.filter_cons, List.filter_nil, decide_eq_true_eq, if_neg hfail]
      rw [apply_other _ (hkeeps e (by simp)) hfail, hnone, List.length_nil, Nat.add_zero, List.append_nil]
      exact ⟨hcount, hopen⟩

/-- Invocations of one stage that all ended in failure since the start of a part of the trail, with no success in it. -/
structure FailuresInARow (x : Executor) (name : String) (policy : CircuitPolicy) (failed : List Nat) (window : List Entry) :
    Prop where
  distinct : failed.Nodup
  ended : ∀ i ∈ failed, ∃ invocation e, x.invocations[i]? = some invocation ∧ invocation.stage.name = name ∧
    invocation.stage.circuit = some policy ∧ Admitted (actsOf x i) ∧ invocation.phase = .ended (.error e)
  since : ∃ pre, x.history = pre ++ window ∧ ∀ e ∈ pre, e.invocation ∉ failed
  noSuccess : ∀ e ∈ window, e.stage.name = name → e.act ≠ .recorded true
  onePolicy : ∀ e ∈ failuresOf name window, e.stage.circuit = some policy

/-- The next move of an invocation ends it with `CircuitOpen`. -/
def RejectedNext (x : Executor) (j : Nat) : Prop :=
  ∃ x' invocation, x.step (.invocation j .proceed) = some x' ∧ x'.invocations[j]? = some invocation ∧
    invocation.phase = .ended (.error (.circuitOpen invocation.stage.name))

theorem mem_recordsOf {acts : List Act} {success : Bool} : success ∈ recordsOf acts ↔ .recorded success ∈ acts := by
  unfold recordsOf
  rw [List.mem_filterMap]
  constructor
  · rintro ⟨act, hact, h⟩
    split at h
    · cases h
      exact hact
    · cases h
  · exact fun h => ⟨_, h, rfl⟩

/-- What an invocation on record has failed with is in the trail. -/
theorem failure_mem_history {labels : List Label} {x : Executor} {i : Nat} {invocation : Invocation} {e : StageError}
    {policy : CircuitPolicy} (hl : Ledger labels x) (hi : x.invocations[i]? = some invocation)
    (hpolicy : invocation.stage.circuit = some policy) (hrecord : OnRecord invocation.stage (.error e) (actsOf x i)) :
    ∃ entry ∈ x.history, entry.invocation = i ∧ entry.stage = invocation.stage ∧ entry.act = .recorded false := by
  have hmem : false ∈ recordsOf (actsOf x i) := by
    rw [hrecord.2]
    simp [recordOf, hpolicy, Except.toBool]
  obtain ⟨entry, hentry, hact⟩ := List.mem_map.mp (mem_recordsOf.mp hmem)
  rw [List.mem_filter, decide_eq_true_eq] at hentry
  obtain ⟨inv, hinv, hstage⟩ := hl.entries entry hentry.1
  rw [hentry.2, hi] at hinv
  cases hinv
  exact ⟨entry, hentry.1, hentry.2, hstage.symm, hact⟩

theorem onRecord_iff {labels : List Label} {x : Executor} (hl : Ledger labels x) {i : Nat} {invocation : Invocation}
    {r : StageResult} (hi : x.invocations[i]? = some invocation) (hadmitted : Admitted (actsOf x i))
    (hphase : invocation.phase = .ended r) :
    OnRecord invocation.stage r (actsOf x i) ↔ .invocation i .expires ∉ labels := by
  have hacc := hl.accounted i invocation hi
  rw [hphase] at hacc
  rcases hacc with ⟨hexp, hout⟩ | ⟨hexp, hrecord | hnot⟩
  · refine iff_of_false (fun hrecord => ?_) (fun h => h hexp)
    rw [hrecord.1] at hout
    cases hout
  · exact iff_of_true hrecord hexp
  · exact absurd hadmitted hnot

theorem length_le_failuresOf {labels : List Label} {x : Executor} (hl : Ledger labels x) {name : String} {policy : CircuitPolicy}
    {failed : List Nat} {window : List Entry} (h : FailuresInARow x name policy failed window)
    (hexp : ∀ i ∈ failed, .invocation i .expires ∉ labels) : failed.length ≤ (failuresOf name window).length := by
  have hsubset : failed ⊆ (failuresOf name window).map Entry.invocation := by
    intro i hi
    obtain ⟨invocation, e, hget, hname, hpolicy, hadmitted, hphase⟩ := h.ended i hi
    obtain ⟨entry, hentry, hindex, hstage, hact⟩ := failure_mem_history hl hget hpolicy
      ((onRecord_iff hl hget hadmitted hphase).mpr (hexp i hi))
    obtain ⟨pre, hsplit, hpre⟩ := h.since
    rw [hsplit] at hentry
    rcases List.mem_append.mp hentry with hentry | hentry
    · exact absurd (hindex ▸ hi) (hpre entry hentry)
    · exact List.mem_map.mpr ⟨entry, mem_failuresOf.mpr ⟨hentry, by rw [hstage, hname], hact⟩, hindex⟩
  have := (List.subperm_of_subset h.distinct hsubset).length_le
  rwa [List.length_map] at this

theorem advance_rejected {stage : Stage} {now : Nat} {circuits : Circuits}
    (h : (checkCircuit stage now circuits).1 = .rejected) (cancelled : Bool) :
    advance stage cancelled now circuits .entering .proceed =
      some (.ended (.error (.circuitOpen stage.name)), (checkCircuit stage now circuits).2, [.checked .rejected]) := by
  simp only [advance]
  split
  · rename_i hc
    rw [hc]
  · rename_i hc
    rw [hc] at h
    cases h

theorem rejectedNext_of_open {labels : List Label} {x : Executor} (hl : Ledger labels x) {j openedAt : Nat} {next : Invocation}
    {policy : CircuitPolicy} (hj : x.invocations[j]? = some next) (hphase : next.phase = .entering)
    (hpolicy : next.stage.circuit = some policy) (hopen : (circuitOf x.circuits next.stage.name).openedAt = some openedAt)
    (hrecent : x.now - openedAt < policy.resetAfter) : RejectedNext x j := by
  have howned := hl.owned next (List.mem_of_getElem? hj)
  have hcheck : (checkCircuit next.stage x.now x.circuits).1 = .rejected := by
    simp [checkCircuit, hpolicy, hopen, hrecent]
  obtain ⟨x', hstep⟩ : ∃ x', x.stepInvocation j .proceed = some x' := by
    simp [Executor.stepInvocation, hj, List.getElem?_eq_getElem howned, hphase, advance_rejected hcheck]
  obtain ⟨invocation, cancelled, phase, acts, log, hm⟩ := stepInvocation_moved hstep
  obtain rfl : next = invocation := Option.some.inj (hj.symm.trans hm.found)
  have hmoves := hm.moves
  rw [hphase, advance_rejected hcheck] at hmoves
  refine ⟨x', { next with phase := phase, log := log }, hstep, ?_, ?_⟩
  · rw [hm.invocations, List.getElem?_set_self (List.getElem?_eq_some_iff.mp hj).1]
  · simp only [Option.some.injEq, Prod.mk.injEq] at hmoves
    exact hmoves.1.symm

/-- **Every admitted invocation that ended has its outcome on record exactly when its deadline has not elapsed**, and then
failures in a row that no check re-armed keep the next caller out. -/
theorem outcomes_recorded {config : Config} {labels : List Label} {x : Executor}
    (hplay : play Executor.step (.new config) labels = some x) :
    (∀ i invocation r, x.invocations[i]? = some invocation → Admitted (actsOf x i) → invocation.phase = .ended r →
      (OnRecord invocation.stage r (actsOf x i) ↔ .invocation i .expires ∉ labels)) ∧
    (∀ name policy failed window, FailuresInARow x name policy failed window → policy.failureThreshold ≤ failed.length →
      (∀ i ∈ failed, .invocation i .expires ∉ labels) →
      (∀ e ∈ window, e.stage.name = name → e.act ≠ .checked (.admitted true)) →
      ∀ j next, x.invocations[j]? = some next → next.phase = .entering → next.stage.name = name →
        next.stage.circuit = some policy → (∃ e ∈ failuresOf name window, x.now - e.time < policy.resetAfter) →
        RejectedNext x j) := by
  have hl := ledger_play (ledger_new config) hplay
  rw [List.nil_append] at hl
  refine ⟨fun i invocation r hi hadmitted hphase => onRecord_iff hl hi hadmitted hphase, ?_⟩
  intro name policy failed window hrow hthreshold hexp hrearm j next hj hphase hname hpolicy hrecent
  obtain ⟨pre, hsplit, -⟩ := hrow.since
  have htimes : window.Pairwise fun e e' => e.time ≤ e'.time := by
    have := hl.times
    rw [hsplit] at this
    exact (List.pairwise_append.mp this).2.1
  obtain ⟨hpos, hrange⟩ := next.stage.threshold_range policy hpolicy
  have hcount := length_le_failuresOf hl hrow hexp
  obtain ⟨t, hopen, hlast⟩ := (foldl_failures hrange (circuitAfter name pre) window
    (fun e he hn => ⟨hrow.noSuccess e he hn, hrearm e he hn⟩) hrow.onePolicy htimes).2 (by omega) (by omega)
  obtain ⟨e, he, hlt⟩ := hrecent
  have hopened : (circuitOf x.circuits next.stage.name).openedAt = some t := by
    rw [hname, hl.circuits, hsplit, circuitAfter_append]
    exact hopen
  exact rejectedNext_of_open hl hj hphase hpolicy hopened (by have := hlast e he; omega)

def smallConfig : Config := ⟨8, 1, 0, by decide, by decide⟩

/-- A stage with a deadline, whose circuit opens at its first failure. -/
def guardedStage : Stage := ((Stage.new "s").withDeadline 5).withCircuit ⟨1, 10⟩ (by decide)

/-- A pipeline of that stage, up to its check. -/
def admitGuarded (k i : Nat) : List Label := [.execute [.serial [guardedStage]] "x", .root k, .root k, .invocation i .proceed]

/-- It fails at its first attempt. -/
def failGuarded (i : Nat) : List Label := [.invocation i .proceed, .invocation i (.returns (.error (.fatal "down"))),
  .invocation i .proceed, .invocation i .proceed]

/-- The next pipeline of that stage stands before its check. -/
def failThenNext : List Label := admitGuarded 0 0 ++ failGuarded 0 ++ (admitGuarded 1 1).dropLast

theorem failThenNext_rejected : ∃ x invocation, play Executor.step (.new smallConfig) failThenNext = some x ∧
    x.invocations[0]? = some invocation ∧ OnRecord invocation.stage (.error (.fatal "down")) (actsOf x 0) ∧
    RejectedNext x 1 := by
  have h := @outcomes_recorded smallConfig failThenNext _ rfl
  have hexp : ∀ i, Label.invocation i .expires ∉ failThenNext := by
    intro i
    simp [failThenNext, admitGuarded, failGuarded]
  refine ⟨_, _, rfl, rfl, (h.1 0 _ _ rfl ⟨false, by decide⟩ rfl).mpr (hexp 0), ?_⟩
  refine h.2 "s" ⟨1, 10⟩ [0] _ ⟨by simp, ?_, ⟨[], rfl, by simp⟩, by decide, ?_⟩ (Nat.le_refl 1) (fun i _ => hexp i) (by decide)
    1 _ rfl rfl rfl rfl ?_
  · intro i hi
    rw [List.mem_singleton.mp hi]
    exact ⟨_, _, rfl, rfl, rfl, ⟨false, by decide⟩, rfl⟩
  · intro e he
    obtain rfl : e = ⟨0, guardedStage, 0, .recorded false⟩ := List.mem_singleton.mp he
    rfl
  · exact ⟨_, List.mem_singleton_self _, by decide⟩

/-- The deadline elapses on an admitted invocation: nothing is logged of its outcome, and its circuit never hears of it. -/
theorem deadline_unrecorded : ∃ x invocation,
    play Executor.step (.new smallConfig) (admitGuarded 0 0 ++ [.tick 5, .invocation 0 .expires]) = some x ∧
    x.invocations[0]? = some invocation ∧ Admitted (actsOf x 0) ∧ invocation.phase = .ended (.error (.deadline "s")) ∧
    ¬ OnRecord invocation.stage (.error (.deadline "s")) (actsOf x 0) := by
  refine ⟨_, _, rfl, rfl, ⟨false, by decide⟩, rfl, ?_⟩
  rintro ⟨h, -⟩
  revert h
  decide

end Pipeline
end Syllog
