import Syllog.Pipeline
import Mathlib.Algebra.GroupWithZero.Nat
/-!
# PipelineFanOut — what a fan-out joins to

The children of one fan-out as a machine of their own: a child gets a permit, ends in any way its stage may end, is joined.
Over every schedule of these steps, the join order is a permutation of the branches, the results are those of the branches,
and the first failure in join order is the failure of the whole.
-/
namespace Syllog
namespace Pipeline
/-- The error a failed child gives the loop. -/
def Outcome.error : Outcome → Option StageError
  | .returned (.ok _)    => none
  | .returned (.error e) => some e
  | .panicked            => some .join

namespace FanOut

open Schedule

inductive Label where
  | acquire (branch invocation : Nat)
  | finish (branch : Nat) (outcome : Outcome) (events : List PipelineEvent)
  | join (branch : Nat)

def step (maxFanOut : Nat) (f : FanOut) (label : Label) : Option FanOut :=
  match label with
  | .acquire i invocation     => f.acquire maxFanOut i invocation
  | .finish i outcome events  => f.finish i outcome events
  | .join i                   => (f.join i).map (·.1)

/-- The branches in the order in which the loop joined them. -/
def joinOrder (labels : List Label) : List Nat :=
  labels.filterMap fun label => match label with
    | .join i => some i
    | _       => none

def statusAt (f : FanOut) (i : Nat) : Option BranchStatus := (f.branches[i]?).map Branch.status

/-- The outcome of a joined branch. -/
def outcomeAt (f : FanOut) (i : Nat) : Option Outcome :=
  match f.statusAt i with
  | some (.joined outcome) => some outcome
  | _                      => none

/-- The error of a joined branch that failed. -/
def errorAt (f : FanOut) (i : Nat) : Option StageError := (f.outcomeAt i).bind Outcome.error

/-! ## One step -/

theorem statusAt_setStatus (f : FanOut) (i j : Nat) (status : BranchStatus) :
    (f.setStatus i status).statusAt j = if i = j then (f.statusAt j).map fun _ => status else f.statusAt j := by
  simp only [statusAt, setStatus, List.getElem?_modify]
  by_cases h : i = j
  · cases f.branches[j]? <;> simp [h]
  · cases f.branches[j]? <;> simp [h]

theorem acquire_eq_some {maxFanOut i invocation : Nat} {f f' : FanOut} (h : f.acquire maxFanOut i invocation = some f') :
    f.statusAt i = some .spawned ∧ f.permitsHeld < maxFanOut ∧ f' = f.setStatus i (.running invocation) := by
  unfold acquire at h
  split at h
  · rename_i hs
    split_ifs at h with hp
    exact ⟨hs, hp, (Option.some.inj h).symm⟩
  · cases h

theorem finish_eq_some {i : Nat} {outcome : Outcome} {events : List PipelineEvent} {f f' : FanOut}
    (h : f.finish i outcome events = some f') :
    ∃ invocation, f.statusAt i = some (.running invocation) ∧ f' = f.setStatus i (.finished outcome events) := by
  unfold finish at h
  split at h
  · rename_i invocation hs
    exact ⟨invocation, hs, (Option.some.inj h).symm⟩
  · cases h

theorem absorb_branches (f : FanOut) (i : Nat) (outcome : Outcome) :
    (f.absorb i outcome).1.branches = f.branches ∧ (f.absorb i outcome).1.policy = f.policy := by
  unfold absorb
  split
  · split <;> exact ⟨rfl, rfl⟩
  · exact ⟨rfl, rfl⟩
  · exact ⟨rfl, rfl⟩

theorem absorb_cancels (f : FanOut) (i : Nat) (outcome : Outcome) : (f.absorb i outcome).2 = outcome.error.isSome := by
  unfold absorb
  split <;> rfl

theorem absorb_failure (f : FanOut) (i : Nat) (outcome : Outcome) :
    (f.absorb i outcome).1.failure = f.failure.or outcome.error := by
  unfold absorb
  split
  · split <;> simp [Outcome.error]
  · rfl
  · rfl

theorem absorb_results {f : FanOut} {i : Nat} {outcome : Outcome} (h : (f.absorb i outcome).1.failure = none) :
    ∃ output, outcome = .returned (.ok output) ∧ (f.absorb i outcome).1.results = f.results ++ [(i, output)] := by
  rw [absorb_failure, Option.or_eq_none_iff] at h
  obtain ⟨hf, he⟩ := h
  cases outcome with
  | panicked => cases he
  | returned result =>
    cases result with
    | error e => cases he
    | ok output => exact ⟨output, rfl, by simp [absorb, hf]⟩

theorem join_eq_some {f f' : FanOut} {i : Nat} {events : List PipelineEvent} {cancels : Bool}
    (h : f.join i = some (f', events, cancels)) : ∃ outcome, f.statusAt i = some (.finished outcome events) ∧
      f' = ((f.setStatus i (.joined outcome)).absorb i outcome).1 ∧ cancels = outcome.error.isSome := by
  unfold join at h
  split at h
  · rename_i outcome events' hs
    cases h
    exact ⟨outcome, hs, rfl, absorb_cancels _ _ _⟩
  · cases h

/-- **What one step does**: a branch runs, a branch is finished, or a finished branch is joined. -/
theorem step_cases {maxFanOut : Nat} {f f' : FanOut} {label : Label} (h : step maxFanOut f label = some f') :
    (∃ i invocation, label = .acquire i invocation ∧ f.statusAt i = some .spawned ∧ f.permitsHeld < maxFanOut ∧
      f' = f.setStatus i (.running invocation)) ∨
    (∃ i outcome events invocation, label = .finish i outcome events ∧ f.statusAt i = some (.running invocation) ∧
      f' = f.setStatus i (.finished outcome events)) ∨
    (∃ i outcome events, label = .join i ∧ f.statusAt i = some (.finished outcome events) ∧
      f' = ((f.setStatus i (.joined outcome)).absorb i outcome).1) := by
  cases label with
  | acquire i invocation => exact .inl ⟨i, invocation, rfl, acquire_eq_some h⟩
  | finish i outcome events =>
    obtain ⟨invocation, hs, hf⟩ := finish_eq_some h
    exact .inr (.inl ⟨i, outcome, events, invocation, rfl, hs, hf⟩)
  | join i =>
    obtain ⟨⟨f₁, events, cancels⟩, hjoin, rfl⟩ := Option.map_eq_some_iff.mp h
    obtain ⟨outcome, hs, hf, -⟩ := join_eq_some hjoin
    exact .inr (.inr ⟨i, outcome, events, rfl, hs, hf⟩)

theorem findSome?_of_agree {α β : Type} {g g' : α → Option β} : ∀ {l : List α}, (∀ a ∈ l, g a = g' a) →
    l.findSome? g = l.findSome? g'
  | [], _ => rfl
  | a :: l, h => by
    rw [List.findSome?_cons, List.findSome?_cons, h a List.mem_cons_self,
      findSome?_of_agree fun b hb => h b (List.mem_cons_of_mem _ hb)]

/-! ## The join loop -/

/-- **What the join loop holds after joining the branches of `order`.** -/
structure Joins (n : Nat) (policy : JoinPolicy) (f : FanOut) (order : List Nat) : Prop where
  width : f.branches.length = n
  policy_eq : f.policy = policy
  nodup : order.Nodup
  mem_iff : ∀ i, i ∈ order ↔ (f.outcomeAt i).isSome = true
  failure : f.failure = order.findSome? f.errorAt
  results : f.failure = none → f.results.map Prod.fst = order
  outputs : ∀ i output, (i, output) ∈ f.results → f.outcomeAt i = some (.returned (.ok output))

theorem joins_spawn (stages : List Stage) (policy : JoinPolicy) (input : String) :
    Joins stages.length policy (spawn stages policy input) [] := by
  have hnone : ∀ i, (spawn stages policy input).outcomeAt i = none := by
    intro i
    have : (spawn stages policy input).statusAt i = (stages[i]?).map fun _ => .spawned := by
      simp only [statusAt, spawn, List.getElem?_map, Option.map_map]
      rfl
    simp only [outcomeAt, this]
    cases stages[i]? <;> rfl
  refine ⟨by simp [spawn], rfl, List.nodup_nil, fun i => by simp [hnone i], rfl, fun _ => rfl, ?_⟩
  intro i output h
  cases h

/-- Setting the status of a branch that is not joined to one that is not either. -/
theorem Joins.setStatus {n : Nat} {policy : JoinPolicy} {f : FanOut} {order : List Nat} (h : Joins n policy f order) {i : Nat}
    {old : BranchStatus} (new : BranchStatus) (hold : f.statusAt i = some old) (ho : ∀ outcome, old ≠ .joined outcome)
    (hn : ∀ outcome, new ≠ .joined outcome) : Joins n policy (f.setStatus i new) order := by
  have hsame : ∀ j, (f.setStatus i new).outcomeAt j = f.outcomeAt j := by
    intro j
    simp only [outcomeAt, statusAt_setStatus]
    by_cases hj : i = j
    · subst hj
      simp only [if_true, hold, Option.map_some]
      cases old <;> cases new <;> simp_all
    · simp only [if_neg hj]
  have herror : (f.setStatus i new).errorAt = f.errorAt := by
    funext j
    simp only [errorAt, hsame]
  refine ⟨by simp [FanOut.setStatus, h.width], h.policy_eq, h.nodup, fun j => by rw [hsame]; exact h.mem_iff j, ?_, h.results,
    fun j output hj => by rw [hsame]; exact h.outputs j output hj⟩
  rw [herror]
  exact h.failure

/-- **Joining a branch appends it to the order.** -/
theorem Joins.join {n : Nat} {policy : JoinPolicy} {f : FanOut} {order : List Nat} (h : Joins n policy f order) {i : Nat}
    {outcome : Outcome} {events : List PipelineEvent} (hi : f.statusAt i = some (.finished outcome events)) :
    Joins n policy ((f.setStatus i (.joined outcome)).absorb i outcome).1 (order ++ [i]) := by
  obtain ⟨hbranches, hpolicy⟩ := absorb_branches (f.setStatus i (.joined outcome)) i outcome
  have hat : ∀ j, ((f.setStatus i (.joined outcome)).absorb i outcome).1.outcomeAt j =
      if i = j then some outcome else f.outcomeAt j := by
    intro j
    simp only [outcomeAt, statusAt, hbranches]
    rw [show ((f.setStatus i (.joined outcome)).branches[j]?).map Branch.status =
      (f.setStatus i (.joined outcome)).statusAt j from rfl, statusAt_setStatus]
    by_cases hj : i = j
    · subst hj
      simp only [if_true, hi, Option.map_some]
    · simp only [if_neg hj, statusAt]
  have hnot : i ∉ order := by
    intro hin
    rw [h.mem_iff] at hin
    simp [outcomeAt, hi] at hin
  have hbefore : ∀ j ∈ order, ((f.setStatus i (.joined outcome)).absorb i outcome).1.outcomeAt j = f.outcomeAt j := by
    intro j hj
    have hne : i ≠ j := by
      rintro rfl
      exact hnot hj
    rw [hat, if_neg hne]
  have hfailure : (f.setStatus i (.joined outcome)).failure = order.findSome? f.errorAt := h.failure
  refine ⟨?_, hpolicy.trans h.policy_eq, ?_, ?_, ?_, ?_, ?_⟩
  · rw [hbranches]
    simp [FanOut.setStatus, h.width]
  · refine List.nodup_append.mpr ⟨h.nodup, List.nodup_singleton i, ?_⟩
    rintro a ha b hb rfl
    rw [List.mem_singleton] at hb
    exact hnot (hb ▸ ha)
  · intro j
    rw [hat, List.mem_append, List.mem_singleton, h.mem_iff]
    by_cases hj : i = j
    · simp [hj]
    · simp only [if_neg hj]
      constructor
      · rintro (hin | rfl)
        · exact hin
        · exact absurd rfl hj
      · exact .inl
  · rw [absorb_failure, hfailure, List.findSome?_append]
    have hold : order.findSome? ((f.setStatus i (.joined outcome)).absorb i outcome).1.errorAt = order.findSome? f.errorAt := by
      refine findSome?_of_agree ?_
      intro j hj
      simp only [errorAt, hbefore j hj]
    rw [hold]
    congr 1
    simp [errorAt, hat]
  · intro hnone
    obtain ⟨output, -, hresults⟩ := absorb_results hnone
    rw [absorb_failure, Option.or_eq_none_iff] at hnone
    rw [hresults, List.map_append, show (f.setStatus i (.joined outcome)).results = f.results from rfl, h.results hnone.1]
    rfl
  · intro j output hj
    by_cases hnone : ((f.setStatus i (.joined outcome)).absorb i outcome).1.failure = none
    · obtain ⟨o, ho, hresults⟩ := absorb_results hnone
      rw [hresults, List.mem_append, List.mem_singleton] at hj
      rcases hj with hj | hj
      · have hin : j ∈ order := by
          rw [h.mem_iff, h.outputs j output hj]
          rfl
        rw [hbefore j hin]
        exact h.outputs j output hj
      · cases hj
        rw [hat, if_pos rfl, ho]
    · have hj' : (j, output) ∈ f.results := by
        unfold absorb at hj hnone
        split at hj
        · split at hj
          · rename_i hn
            simp only [Option.isNone_iff_eq_none] at hn
            simp [hn] at hnone
          · exact hj
        · exact hj
        · exact hj
      have hin : j ∈ order := by
        rw [h.mem_iff, h.outputs j output hj']
        rfl
      rw [hbefore j hin]
      exact h.outputs j output hj'

/-- **Every schedule keeps the loop's account of what it joined.** -/
theorem joins_play {maxFanOut n : Nat} {policy : JoinPolicy} : ∀ {labels : List Label} {f f' : FanOut} {order : List Nat},
    Joins n policy f order → play (step maxFanOut) f labels = some f' → Joins n policy f' (order ++ joinOrder labels)
  | [], f, f', order, h, hplay => by
    cases hplay
    simpa [joinOrder] using h
  | label :: labels, f, f', order, h, hplay => by
    obtain ⟨t, ht, hplay⟩ := play_cons hplay
    obtain ⟨i, invocation, rfl, hi, -, rfl⟩ | ⟨i, outcome, events, invocation, rfl, hi, rfl⟩ |
      ⟨i, outcome, events, rfl, hi, rfl⟩ := step_cases ht
    · have hset := h.setStatus (.running invocation) hi (by simp) (by simp)
      have := joins_play hset hplay
      exact this
    · have hset := h.setStatus (.finished outcome events) hi (by simp) (by simp)
      have := joins_play hset hplay
      exact this
    · have := joins_play (h.join hi) hplay
      rw [List.append_assoc] at this
      exact this

/-! ## What the loop returns -/

/-- The loop has returned: every branch is joined, and the result is read off the failure and the results. -/
theorem returns_eq_some {f : FanOut} {r : Except StageError (List String)} (h : f.returns = some r) :
    (∀ i < f.branches.length, (f.outcomeAt i).isSome = true) ∧
    ((∃ e, f.failure = some e ∧ r = .error e) ∨
      (f.failure = none ∧ r = .ok ((if f.policy = .preserveInputOrder then
        f.results.insertionSort (fun a b => a.1 ≤ b.1) else f.results).map (·.2)))) := by
  unfold returns at h
  by_cases hall : (f.branches.all fun b => b.status.isJoined) = true
  · rw [if_pos hall] at h
    refine ⟨fun i hi => ?_, ?_⟩
    · have hb : f.branches[i]? = some f.branches[i] := List.getElem?_eq_getElem hi
      have hjoined := List.all_eq_true.mp hall _ (List.getElem_mem hi)
      simp only [outcomeAt, statusAt, hb, Option.map_some]
      revert hjoined
      cases f.branches[i].status <;> simp [BranchStatus.isJoined]
    · cases hf : f.failure with
      | some e =>
        simp only [hf, Option.some.injEq] at h
        exact .inl ⟨e, rfl, h.symm⟩
      | none =>
        simp only [hf, Option.some.injEq] at h
        exact .inr ⟨rfl, h.symm⟩
  · rw [if_neg hall] at h
    cases h

variable {n : Nat} {policy : JoinPolicy} {f : FanOut} {order : List Nat}

/-- Once every branch is joined, the order is a permutation of the branches. -/
theorem Joins.perm (h : Joins n policy f order) (hall : ∀ i < f.branches.length, (f.outcomeAt i).isSome = true) :
    order.Perm (List.range n) := by
  refine (List.perm_ext_iff_of_nodup h.nodup List.nodup_range).mpr fun i => ?_
  rw [h.mem_iff, List.mem_range]
  constructor
  · intro hi
    rw [← h.width]
    by_contra hge
    have hnone : f.branches[i]? = none := List.getElem?_eq_none (Nat.not_lt.mp hge)
    simp [outcomeAt, statusAt, hnone] at hi
  · intro hi
    exact hall i (h.width ▸ hi)

/-- The results in declaration order: one for each branch, the branch's own. -/
theorem Joins.sorted (h : Joins n policy f order) (hall : ∀ i < f.branches.length, (f.outcomeAt i).isSome = true)
    (hf : f.failure = none) :
    f.branches.map Branch.status =
      ((f.results.insertionSort (fun a b => a.1 ≤ b.1)).map (·.2)).map fun output => .joined (.returned (.ok output)) := by
  let sorted := f.results.insertionSort (fun a b => a.1 ≤ b.1)
  have hperm : sorted.Perm f.results := List.perm_insertionSort _ _
  have hkeys : sorted.map Prod.fst = List.range n := by
    have hp : (sorted.map Prod.fst).Perm (List.range n) := by
      have := (hperm.map Prod.fst)
      rw [h.results hf] at this
      exact this.trans (h.perm hall)
    have hs : (sorted.map Prod.fst).Pairwise (· ≤ ·) := by
      rw [List.pairwise_map]
      have := List.pairwise_insertionSort (fun a b : Nat × String => a.1 ≤ b.1) f.results
      exact this
    exact hp.eq_of_pairwise (fun a b _ _ hab hba => Nat.le_antisymm hab hba) hs
      (List.pairwise_lt_range.imp fun hlt => Nat.le_of_lt hlt)
  have hlength : sorted.length = n := by
    have := congrArg List.length hkeys
    simpa using this
  refine List.ext_getElem? fun i => ?_
  by_cases hi : i < n
  · have his : i < sorted.length := hlength ▸ hi
    have hkey : (sorted.get ⟨i, his⟩).1 = i := by
      have := congrArg (fun l => l[i]?) hkeys
      simpa [his, hi] using this
    have hmem : (i, (sorted.get ⟨i, his⟩).2) ∈ f.results := by
      have hpair : (i, (sorted.get ⟨i, his⟩).2) = sorted.get ⟨i, his⟩ := Prod.ext hkey.symm rfl
      rw [hpair]
      exact hperm.mem_iff.mp (List.get_mem _ _)
    have hout := h.outputs _ _ hmem
    have hstatus : f.statusAt i = some (.joined (.returned (.ok (sorted.get ⟨i, his⟩).2))) := by
      unfold outcomeAt at hout
      split at hout
      · rename_i outcome hs
        rw [hs, Option.some.inj hout]
      · cases hout
    rw [List.getElem?_map]
    show f.statusAt i = _
    rw [hstatus, List.getElem?_map, List.getElem?_map, show (f.results.insertionSort _)[i]? = some (sorted.get ⟨i, his⟩) from
      List.getElem?_eq_getElem his]
    rfl
  · have h1 : f.branches[i]? = none := List.getElem?_eq_none (by rw [h.width]; omega)
    have h2 : (f.results.insertionSort (fun a b => a.1 ≤ b.1))[i]? = none :=
      List.getElem?_eq_none (by show sorted.length ≤ i; omega)
    simp [h1, h2]

/-- The first failure of a list of branches, and what is in front of it. -/
theorem findSome?_split {α β : Type} {g : α → Option β} {b : β} : ∀ {l : List α}, l.findSome? g = some b →
    ∃ pre a post, l = pre ++ a :: post ∧ (∀ c ∈ pre, g c = none) ∧ g a = some b
  | [], h => by cases h
  | a :: l, h => by
    rw [List.findSome?_cons] at h
    cases ha : g a with
    | some b' =>
      rw [ha] at h
      exact ⟨[], a, l, rfl, by simp, ha.trans h⟩
    | none =>
      rw [ha] at h
      obtain ⟨pre, c, post, rfl, hpre, hc⟩ := findSome?_split h
      refine ⟨a :: pre, c, post, rfl, fun d hd => ?_, hc⟩
      rcases List.mem_cons.mp hd with rfl | hd
      · exact ha
      · exact hpre d hd

/-! ## The loop comes to its end -/

/-- The steps a branch has still to take. -/
def BranchStatus.work : BranchStatus → Nat
  | .spawned      => 3
  | .running _    => 2
  | .finished _ _ => 1
  | .joined _     => 0

def work (f : FanOut) : Nat := (f.branches.map fun b => BranchStatus.work b.status).sum

theorem sum_modify_lt {α : Type} {w : α → Nat} {g : α → α} : ∀ {l : List α} {i : Nat} {a : α}, l[i]? = some a →
    w (g a) < w a → ((l.modify i g).map w).sum < (l.map w).sum
  | [], _, _, h, _ => by cases h
  | b :: l, 0, a, h, hlt => by
    cases h
    simp only [List.modify_zero_cons, List.map_cons, List.sum_cons]
    omega
  | b :: l, i + 1, a, h, hlt => by
    have := sum_modify_lt (l := l) (i := i) h hlt
    simp only [List.modify_succ_cons, List.map_cons, List.sum_cons]
    omega

theorem work_setStatus {i : Nat} {old : BranchStatus} (new : BranchStatus) (h : f.statusAt i = some old)
    (hlt : BranchStatus.work new < BranchStatus.work old) : (f.setStatus i new).work < f.work := by
  obtain ⟨b, hb, rfl⟩ := Option.map_eq_some_iff.mp h
  exact sum_modify_lt (w := fun b => BranchStatus.work b.status) (g := fun b => { b with status := new }) hb hlt

theorem work_join {i : Nat} {outcome : Outcome} {events : List PipelineEvent}
    (h : f.statusAt i = some (.finished outcome events)) :
    ((f.setStatus i (.joined outcome)).absorb i outcome).1.work < f.work := by
  have := work_setStatus (.joined outcome) h (by simp [BranchStatus.work])
  unfold work at this ⊢
  rw [(absorb_branches _ _ _).1]
  exact this

theorem exists_status {P : BranchStatus → Prop} (h : ∃ b ∈ f.branches, P b.status) :
    ∃ i status, f.statusAt i = some status ∧ P status := by
  obtain ⟨b, hb, hp⟩ := h
  obtain ⟨i, hi⟩ := List.mem_iff_getElem?.mp hb
  exact ⟨i, b.status, by simp [statusAt, hi], hp⟩

/-- **The loop never gets stuck**: whatever the branches that still run come to, some schedule joins them all. -/
theorem exists_return {maxFanOut : Nat} (hpos : 0 < maxFanOut) (outcomes : Nat → Outcome) : ∀ (k : Nat) (f : FanOut),
    f.work ≤ k → ∃ labels f' r, play (step maxFanOut) f labels = some f' ∧ f'.returns = some r ∧
      ∀ i outcome events, .finish i outcome events ∈ labels → outcome = outcomes i := by
  intro k
  induction k with
  | zero =>
    intro f hk
    have hall : (f.branches.all fun b => b.status.isJoined) = true := by
      rw [List.all_eq_true]
      intro b hb
      have hzero := List.sum_eq_zero_iff_forall_eq_nat.mp (Nat.le_zero.mp hk) _ (List.mem_map.mpr ⟨b, hb, rfl⟩)
      revert hzero
      cases b.status <;> simp [BranchStatus.work, BranchStatus.isJoined]
    obtain ⟨r, hr⟩ : ∃ r, f.returns = some r := by
      unfold returns
      rw [if_pos hall]
      cases f.failure with
      | some e => exact ⟨_, rfl⟩
      | none => exact ⟨_, rfl⟩
    exact ⟨[], f, r, rfl, hr, by simp⟩
  | succ k ih =>
    intro f hk
    have hgo : ∀ label f', step maxFanOut f label = some f' → f'.work < f.work →
        (∀ i outcome events, label = .finish i outcome events → outcome = outcomes i) →
        ∃ labels f' r, play (step maxFanOut) f labels = some f' ∧ f'.returns = some r ∧
          ∀ i outcome events, .finish i outcome events ∈ labels → outcome = outcomes i := by
      intro label f' hstep hlt hlabel
      obtain ⟨labels, t, r, hplay, hr, hfinish⟩ := ih f' (by omega)
      refine ⟨label :: labels, t, r, by simp [play, hstep, hplay], hr, ?_⟩
      intro i outcome events hin
      rcases List.mem_cons.mp hin with heq | hin
      · exact hlabel i outcome events heq.symm
      · exact hfinish i outcome events hin
    by_cases hfin : ∃ b ∈ f.branches, ∃ outcome events, b.status = .finished outcome events
    · obtain ⟨i, status, hi, outcome, events, rfl⟩ := exists_status (P := fun s => ∃ outcome events, s = .finished outcome events) hfin
      refine hgo (.join i) _ ?_ (work_join hi) (by simp)
      have hi' : (f.branches[i]?).map Branch.status = some (.finished outcome events) := hi
      simp [step, join, hi']
    by_cases hrun : ∃ b ∈ f.branches, ∃ invocation, b.status = .running invocation
    · obtain ⟨i, status, hi, invocation, rfl⟩ := exists_status (P := fun s => ∃ invocation, s = .running invocation) hrun
      refine hgo (.finish i (outcomes i) []) _ ?_ (work_setStatus (.finished (outcomes i) []) hi (by simp [BranchStatus.work])) ?_
      · have hi' : (f.branches[i]?).map Branch.status = some (.running invocation) := hi
        simp [step, finish, hi']
      · intro j outcome events heq
        cases heq
        rfl
    by_cases hspawn : ∃ b ∈ f.branches, b.status = .spawned
    · obtain ⟨i, status, hi, rfl⟩ := exists_status (P := fun s => s = .spawned) hspawn
      have hpermits : f.permitsHeld = 0 := by
        unfold permitsHeld
        rw [List.countP_eq_zero]
        intro b hb hholds
        cases hstatus : b.status with
        | running invocation => exact hrun ⟨b, hb, invocation, hstatus⟩
        | _ => simp [hstatus, BranchStatus.holdsPermit] at hholds
      refine hgo (.acquire i 0) _ ?_ (work_setStatus (.running 0) hi (by decide)) (by simp)
      have hi' : (f.branches[i]?).map Branch.status = some .spawned := hi
      simp [step, acquire, hi', hpermits, hpos]
    · -- Every branch is joined.
      refine ih f ?_
      have hzero : f.work = 0 := by
        refine List.sum_eq_zero_iff_forall_eq_nat.mpr ?_
        intro w hw
        obtain ⟨b, hb, rfl⟩ := List.mem_map.mp hw
        cases hstatus : b.status with
        | spawned => exact absurd ⟨b, hb, hstatus⟩ hspawn
        | running invocation => exact absurd ⟨b, hb, invocation, hstatus⟩ hrun
        | finished outcome events => exact absurd ⟨b, hb, outcome, events, hstatus⟩ hfin
        | joined outcome => rfl
      omega

/-! ## Deterministic and lossless -/

/-- **A fan-out joins every branch before it returns, loses and repeats no output, and fails with the first failure in join
order**; and it can always be joined to its end. -/
theorem fanOut_joins {maxFanOut : Nat} {stages : List Stage} {policy : JoinPolicy} {input : String} {labels : List Label}
    {f : FanOut} (hplay : play (step maxFanOut) (spawn stages policy input) labels = some f) :
    (∀ r, f.returns = some r → (joinOrder labels).Perm (List.range stages.length) ∧
      (∀ i < stages.length, (f.outcomeAt i).isSome = true) ∧
      ((∀ i < stages.length, f.errorAt i = none) →
        ∃ outputs, f.branches.map Branch.status = outputs.map (fun output => .joined (.returned (.ok output))) ∧
          (policy = .preserveInputOrder → r = .ok outputs) ∧
          (policy = .completionOrder → ∃ merged, r = .ok merged ∧ merged.Perm outputs)) ∧
      ((∃ i < stages.length, f.errorAt i ≠ none) →
        ∃ before i after e, joinOrder labels = before ++ i :: after ∧ (∀ j ∈ before, f.errorAt j = none) ∧
          f.errorAt i = some e ∧ r = .error e)) ∧
    (0 < maxFanOut → ∀ outcomes : Nat → Outcome, ∃ rest f' r, play (step maxFanOut) f rest = some f' ∧ f'.returns = some r ∧
      ∀ i outcome events, .finish i outcome events ∈ rest → outcome = outcomes i) := by
  have hj := joins_play (joins_spawn stages policy input) hplay
  rw [List.nil_append] at hj
  refine ⟨fun r hr => ?_, fun hpos outcomes => exists_return hpos outcomes f.work f (Nat.le_refl _)⟩
  obtain ⟨hall, hcases⟩ := returns_eq_some hr
  have hperm := hj.perm hall
  have hall' : ∀ i < stages.length, (f.outcomeAt i).isSome = true := fun i hi => hall i (by rw [hj.width]; exact hi)
  refine ⟨hperm, hall', ?_, ?_⟩
  · intro hok
    have hnone : f.failure = none := by
      rw [hj.failure, List.findSome?_eq_none_iff]
      intro i hi
      exact hok i (List.mem_range.mp (hperm.mem_iff.mp hi))
    obtain ⟨e, he, -⟩ | ⟨-, rfl⟩ := hcases
    · rw [hnone] at he
      cases he
    refine ⟨_, hj.sorted hall hnone, ?_, ?_⟩
    · intro hp
      rw [hj.policy_eq, if_pos hp]
    · intro hp
      rw [hj.policy_eq, if_neg (by rw [hp]; decide)]
      exact ⟨_, rfl, ((List.perm_insertionSort _ _).map _).symm⟩
  · rintro ⟨i, hi, hne⟩
    have hsome : f.failure ≠ none := by
      intro hnone
      rw [hj.failure, List.findSome?_eq_none_iff] at hnone
      exact hne (hnone i (hperm.mem_iff.mpr (List.mem_range.mpr hi)))
    obtain ⟨e, he, rfl⟩ | ⟨hnone, -⟩ := hcases
    · rw [hj.failure] at he
      obtain ⟨before, j, after, hsplit, hbefore, hjerr⟩ := findSome?_split he
      exact ⟨before, j, after, e, hsplit, hbefore, hjerr, rfl⟩
    · exact absurd hnone hsome

/-- Two branches joined in the other order. -/
theorem twoBranches_join : ∃ f, play (step 1) (spawn [.new "a", .new "b"] .preserveInputOrder "x")
      [.acquire 1 0, .finish 1 (.returned (.ok "2")) [], .acquire 0 1, .join 1, .finish 0 (.returned (.ok "1")) [], .join 0] =
        some f ∧
    f.returns = some (.ok ["1", "2"]) ∧ ([1, 0] : List Nat).Perm (List.range 2) := by
  refine ⟨_, rfl, rfl, ?_⟩
  exact ((@fanOut_joins 1 [.new "a", .new "b"] .preserveInputOrder "x"
    [.acquire 1 0, .finish 1 (.returned (.ok "2")) [], .acquire 0 1, .join 1,
      .finish 0 (.returned (.ok "1")) [], .join 0] _ rfl).1 _ rfl).1

end FanOut
end Pipeline
end Syllog
