import Syllog.AsyncRun
import Mathlib.Data.List.Range
import Mathlib.Data.List.Forall2
/-!
# AsyncTrace — lowered machines run exactly as scheduled

The machine of a function with `n` await points is a table in which state `1 + 2i` suspends at await point `i` and the
state after it resumes (`transitionAt`).  The runner therefore passes the await points in order, and the scheduler's control
decides at which of them it leaves the table (`scheduled`).
-/
namespace Syllog
namespace Async

open Hir Lower Runs

/-- The await points of a function: one for each await expression of its body. -/
def awaitPoints (f : HirFunction) : Nat := (walkStatements f.body).countP TypedExpr.isAwait

/-- What passing one await point leaves in the trace. -/
def awaitTrace (i : Nat) : List TaskEvent :=
  [.suspended (UInt32.ofNat i), .woken (UInt32.ofNat i), .resumed (UInt32.ofNat i)]

def awaitTraces (k : Nat) : List TaskEvent := (List.range k).flatMap awaitTrace

def completedTrace (n : Nat) (parent : ParentScopeId) : List TaskEvent :=
  .started parent :: awaitTraces n ++ [.completed]

def cancelledTrace (k : Nat) (locals : List DefId) (parent : ParentScopeId) : List TaskEvent :=
  .started parent :: awaitTraces k ++ [.suspended (UInt32.ofNat k), .cancelled, .dropped locals]

def panickedTrace (k : Nat) (locals : List DefId) (parent : ParentScopeId) : List TaskEvent :=
  .started parent :: awaitTraces (k + 1) ++ [.panicked, .dropped locals]

/-- The outcome of a task with `n` await points. -/
def scheduled (n : Nat) (locals : List DefId) (parent : ParentScopeId) :
    TaskControl → Except TaskFailure (List TaskEvent)
  | .complete   => .ok (completedTrace n parent)
  | .cancelAt k =>
    if k.toNat < n then .ok (cancelledTrace k.toNat locals parent) else .ok (completedTrace n parent)
  | .panicAt k  =>
    if k.toNat < n then .error (.panicked (panickedTrace k.toNat locals parent)) else .ok (completedTrace n parent)

/-- The control meets one of the first `n` await points. -/
def TaskControl.interrupts (n : Nat) : TaskControl → Bool
  | .complete   => false
  | .cancelAt k => k.toNat < n
  | .panicAt k  => k.toNat < n

def TaskEvent.isDropped : TaskEvent → Bool
  | .dropped _ => true
  | _          => false

/-- The events an outcome carries. -/
def outcomeEvents : Except TaskFailure (List TaskEvent) → List TaskEvent
  | .ok events                => events
  | .error (.panicked events) => events
  | .error _                  => []

/-- Some budget gives the outcome, and every larger one. -/
def EndsWith {α : Type} (run : Nat → Option α) (outcome : α) : Prop := ∃ fuel, ∀ more, fuel ≤ more → run more = some outcome

/-! ## Counting await points -/

theorem toNat_saturatingAdd (a b : UInt32) : (saturatingAdd a b).toNat = min (a.toNat + b.toNat) (2 ^ 32 - 1) := by
  unfold saturatingAdd
  rw [UInt32.toNat_ofNat']
  omega

theorem toNat_foldl_awaits (l : List TypedExpr) : ∀ count : UInt32,
    (l.foldl (fun count e => if TypedExpr.isAwait e then saturatingAdd count 1 else count) count).toNat =
      min (count.toNat + l.countP TypedExpr.isAwait) (2 ^ 32 - 1) := by
  induction l with
  | nil =>
    intro count
    have hlt := count.toNat_lt
    simp only [List.foldl_nil, List.countP_nil]
    omega
  | cons e l ih =>
    intro count
    rw [List.foldl_cons, ih]
    by_cases he : TypedExpr.isAwait e = true
    · rw [if_pos he, toNat_saturatingAdd, List.countP_cons_of_pos he]
      simp only [UInt32.toNat_one]
      omega
    · rw [if_neg he, List.countP_cons_of_neg he]

theorem toNat_countStatementAwaits (s : HirStatement) (count : UInt32) :
    (countStatementAwaits s count).toNat =
      min (count.toNat + (walkStatements [s]).countP TypedExpr.isAwait) (2 ^ 32 - 1) := by
  have hlt := count.toNat_lt
  cases s with
  | let_ definition ty value => simp [countStatementAwaits, countExpressionAwaits, toNat_foldl_awaits, walkStatements]
  | expression value => simp [countStatementAwaits, countExpressionAwaits, toNat_foldl_awaits, walkStatements]
  | return_ value =>
    cases value with
    | some value => simp [countStatementAwaits, countExpressionAwaits, toNat_foldl_awaits, walkStatements]
    | none =>
      simp only [countStatementAwaits, walkStatements, List.countP_nil]
      omega

theorem walkStatements_cons (s : HirStatement) (ss : List HirStatement) :
    walkStatements (s :: ss) = walkStatements [s] ++ walkStatements ss := by
  cases s with
  | let_ definition ty value => simp [walkStatements]
  | expression value => simp [walkStatements]
  | return_ value => cases value <;> simp [walkStatements]

theorem toNat_countAwaits (f : HirFunction) : (countAwaits f).toNat = min (awaitPoints f) (2 ^ 32 - 1) := by
  have hfold : ∀ (ss : List HirStatement) (count : UInt32),
      (ss.foldl (fun count s => countStatementAwaits s count) count).toNat =
        min (count.toNat + (walkStatements ss).countP TypedExpr.isAwait) (2 ^ 32 - 1) := by
    intro ss
    induction ss with
    | nil =>
      intro count
      have hlt := count.toNat_lt
      simp only [List.foldl_nil, walkStatements, List.countP_nil]
      omega
    | cons s ss ih =>
      intro count
      rw [List.foldl_cons, ih, toNat_countStatementAwaits, walkStatements_cons s ss, List.countP_append]
      omega
  unfold countAwaits awaitPoints
  rw [hfold]
  simp

/-! ## The table of states -/

/-- The transition at position `k` of a table for `n` await points. -/
def transitionAt (n : Nat) (locals : List DefId) (k : Nat) : AsyncTransition :=
  if k = 0 then .start 1
  else if k = 2 * n + 1 then .complete
  else if k = 2 * n + 2 then .cancel locals
  else if k % 2 = 1 then .suspend (UInt32.ofNat (k / 2)) (UInt32.ofNat (k + 1)) (UInt32.ofNat (2 * n + 2))
  else .resume (UInt32.ofNat (k + 1)) (UInt32.ofNat (2 * n + 2))

def tableState (n : Nat) (locals : List DefId) (k : Nat) : AsyncState := ⟨UInt32.ofNat k, transitionAt n locals k⟩

theorem flatMap_range_pairs {α : Type} (g : Nat → α) (n : Nat) :
    (List.range n).flatMap (fun i => [g (2 * i), g (2 * i + 1)]) = (List.range (2 * n)).map g := by
  induction n with
  | zero => rfl
  | succ n ih =>
    rw [List.range_succ, List.flatMap_append, ih, Nat.mul_succ, List.range_succ, List.range_succ]
    simp

theorem buildMachine_complete {n : UInt32} (hn : n.toNat < 2 ^ 31 - 1) :
    1 + saturatingMul n 2 = UInt32.ofNat (2 * n.toNat + 1) := by
  apply UInt32.toNat_inj.mp
  simp only [saturatingMul, UInt32.toNat_add, UInt32.toNat_ofNat', UInt32.toNat_ofNat]
  omega

theorem awaitStates_eq {n : UInt32} (hn : n.toNat < 2 ^ 31 - 1) (locals : List DefId) {i : Nat} (hi : i < n.toNat) :
    awaitStates n (UInt32.ofNat (2 * n.toNat + 1)) (UInt32.ofNat (2 * n.toNat + 2)) (UInt32.ofNat i) =
      [tableState n.toNat locals (2 * i + 1), tableState n.toNat locals (2 * i + 1 + 1)] := by
  have hsuspend : 1 + UInt32.ofNat i * 2 = UInt32.ofNat (2 * i + 1) := by
    apply UInt32.toNat_inj.mp
    simp only [UInt32.toNat_add, UInt32.toNat_mul, UInt32.toNat_ofNat', UInt32.toNat_ofNat]
    omega
  have hresume : UInt32.ofNat (2 * i + 1) + 1 = UInt32.ofNat (2 * i + 1 + 1) := by
    apply UInt32.toNat_inj.mp
    simp only [UInt32.toNat_add, UInt32.toNat_ofNat', UInt32.toNat_ofNat]
    omega
  have hnext : (if UInt32.ofNat i + 1 = n then UInt32.ofNat (2 * n.toNat + 1) else UInt32.ofNat (2 * i + 1) + 2) =
      UInt32.ofNat (2 * i + 1 + 1 + 1) := by
    have hlast : UInt32.ofNat i + 1 = n ↔ i + 1 = n.toNat := by
      rw [← UInt32.toNat_inj]
      simp only [UInt32.toNat_add, UInt32.toNat_ofNat', UInt32.toNat_ofNat]
      omega
    by_cases h : i + 1 = n.toNat
    · rw [if_pos (hlast.mpr h)]
      congr 1
      omega
    · rw [if_neg (fun hc => h (hlast.mp hc))]
      apply UInt32.toNat_inj.mp
      simp only [UInt32.toNat_add, UInt32.toNat_ofNat', UInt32.toNat_ofNat]
      omega
  have h1 : transitionAt n.toNat locals (2 * i + 1) =
      .suspend (UInt32.ofNat i) (UInt32.ofNat (2 * i + 1 + 1)) (UInt32.ofNat (2 * n.toNat + 2)) := by
    unfold transitionAt
    rw [if_neg (by omega), if_neg (by omega), if_neg (by omega), if_pos (by omega), show (2 * i + 1) / 2 = i by omega]
  have h2 : transitionAt n.toNat locals (2 * i + 1 + 1) =
      .resume (UInt32.ofNat (2 * i + 1 + 1 + 1)) (UInt32.ofNat (2 * n.toNat + 2)) := by
    unfold transitionAt
    rw [if_neg (by omega), if_neg (by omega), if_neg (by omega), if_neg (by omega)]
  simp only [awaitStates, tableState, hsuspend, hresume, hnext, h1, h2]

/-- **The states of a lowered machine are the table**, in order and numbered by their position. -/
theorem buildMachine_states (function : DefId) {n : UInt32} (hn : n.toNat < 2 ^ 31 - 1) (locals : List DefId) :
    (buildMachine function n locals).states = (List.range (2 * n.toNat + 3)).map (tableState n.toNat locals) := by
  have hcancel : UInt32.ofNat (2 * n.toNat + 1) + 1 = UInt32.ofNat (2 * n.toNat + 2) := by
    apply UInt32.toNat_inj.mp
    simp only [UInt32.toNat_add, UInt32.toNat_ofNat', UInt32.toNat_ofNat]
    omega
  have hstart : (if n = 0 then UInt32.ofNat (2 * n.toNat + 1) else 1) = 1 := by
    by_cases h : n = 0
    · subst h; rfl
    · rw [if_neg h]
  have hpairs : ((List.range n.toNat).flatMap fun i =>
      awaitStates n (UInt32.ofNat (2 * n.toNat + 1)) (UInt32.ofNat (2 * n.toNat + 2)) (UInt32.ofNat i)) =
      (List.range (2 * n.toNat)).map (fun k => tableState n.toNat locals (k + 1)) := by
    rw [← flatMap_range_pairs]
    exact List.flatMap_congr fun i hi => awaitStates_eq hn locals (List.mem_range.mp hi)
  have h0 : transitionAt n.toNat locals 0 = .start 1 := rfl
  have h1 : transitionAt n.toNat locals (2 * n.toNat + 1) = .complete := by simp [transitionAt]
  have h2 : transitionAt n.toNat locals (2 * n.toNat + 2) = .cancel locals := by simp [transitionAt]
  simp only [buildMachine, buildMachine_complete hn, hcancel, hstart, hpairs]
  rw [List.range_succ, List.range_succ, List.range_succ_eq_map]
  simp [tableState, h0, h1, h2, Function.comp_def]

theorem toNat_ofNat_state {n k : Nat} (hn : n < 2 ^ 31 - 1) (hk : k < 2 * n + 3) : (UInt32.ofNat k).toNat = k := by
  rw [UInt32.toNat_ofNat']
  omega

theorem buildMachine_transition (function : DefId) {n : UInt32} (hn : n.toNat < 2 ^ 31 - 1) (locals : List DefId) {k : Nat}
    (hk : k < 2 * n.toNat + 3) :
    (buildMachine function n locals).transition (UInt32.ofNat k) = some (transitionAt n.toNat locals k) := by
  unfold AsyncStateMachine.transition
  rw [buildMachine_states function hn, toNat_ofNat_state hn hk]
  simp [hk, tableState]

theorem isComplete_transitionAt (n : Nat) (locals : List DefId) (k : Nat) :
    (transitionAt n locals k).isComplete = (k == 2 * n + 1) := by
  unfold transitionAt
  by_cases h0 : k = 0
  · simp [h0, AsyncTransition.isComplete]
  by_cases h1 : k = 2 * n + 1
  · simp [h1, AsyncTransition.isComplete]
  · rw [if_neg h0, if_neg h1, beq_false_of_ne h1]
    split_ifs <;> rfl

theorem isCancel_transitionAt (n : Nat) (locals : List DefId) (k : Nat) :
    (transitionAt n locals k).isCancel = (k == 2 * n + 2) := by
  unfold transitionAt
  by_cases h0 : k = 0
  · simp [h0, AsyncTransition.isCancel]
  by_cases h1 : k = 2 * n + 1
  · simp [h1, AsyncTransition.isCancel]
  by_cases h2 : k = 2 * n + 2
  · simp [h2, AsyncTransition.isCancel]
  · rw [if_neg h0, if_neg h1, if_neg h2, beq_false_of_ne h2]
    split_ifs <;> rfl

theorem targets_transitionAt {n : Nat} (hn : n < 2 ^ 31 - 1) (locals : List DefId) {k : Nat} (hk : k < 2 * n + 3)
    {t : AsyncStateId} (ht : t ∈ (transitionAt n locals k).targets) : t.toNat < 2 * n + 3 := by
  have hone : (1 : UInt32).toNat < 2 * n + 3 := by rw [UInt32.toNat_one]; omega
  have hcancel : (UInt32.ofNat (2 * n + 2)).toNat < 2 * n + 3 := by rw [UInt32.toNat_ofNat']; omega
  unfold transitionAt at ht
  by_cases h0 : k = 0
  · simp only [h0, if_pos, AsyncTransition.targets, List.mem_singleton] at ht
    exact ht ▸ hone
  by_cases h1 : k = 2 * n + 1
  · simp [h1, AsyncTransition.targets] at ht
  by_cases h2 : k = 2 * n + 2
  · simp [h2, AsyncTransition.targets] at ht
  have hnext : (UInt32.ofNat (k + 1)).toNat < 2 * n + 3 := by rw [UInt32.toNat_ofNat']; omega
  rw [if_neg h0, if_neg h1, if_neg h2] at ht
  split_ifs at ht <;> simp only [AsyncTransition.targets, List.mem_cons, List.not_mem_nil, or_false] at ht <;>
    rcases ht with rfl | rfl <;> assumption

theorem countP_range_eq {n k : Nat} (hk : k < n) : (List.range n).countP (· == k) = 1 :=
  List.count_eq_one_of_mem List.nodup_range (List.mem_range.mpr hk)

/-- **The verifier accepts what the lowering builds.** -/
theorem buildMachine_verified (function : DefId) {n : UInt32} (hn : n.toNat < 2 ^ 31 - 1) (locals : List DefId) :
    verifyAsyncMachine (buildMachine function n locals) = .ok () := by
  have hstates := buildMachine_states function hn locals
  have hcontiguous : contiguous (buildMachine function n locals).states = true := by
    rw [hstates]
    unfold contiguous
    rw [Bool.and_eq_true]
    refine ⟨by simp, List.all_eq_true.mpr ?_⟩
    rintro ⟨state, index⟩ hmem
    have hget := List.mem_zipIdx_iff_getElem?.mp hmem
    simp only [List.getElem?_map, Option.map_eq_some_iff] at hget
    obtain ⟨k, hk, hstate⟩ := hget
    obtain ⟨hlt, hval⟩ := List.getElem?_eq_some_iff.mp hk
    simp only [List.getElem_range] at hval
    simp only [List.length_range] at hlt
    rw [← hstate, ← hval]
    simp only [tableState, stateId, if_pos (show index < 2 ^ 32 by omega), beq_self_eq_true]
  have htargets : ((buildMachine function n locals).states.flatMap fun state => (state.transition.targets.filter
      ((buildMachine function n locals).states.length ≤ ·.toNat)).map (AsyncVerificationError.invalidTarget state.id ·)) =
      [] := by
    rw [List.flatMap_eq_nil_iff]
    intro state hmem
    rw [List.map_eq_nil_iff, List.filter_eq_nil_iff]
    intro t ht
    rw [hstates] at hmem
    obtain ⟨k, hk, rfl⟩ := List.mem_map.mp hmem
    have hlt := targets_transitionAt hn locals (List.mem_range.mp hk) ht
    rw [hstates]
    simp only [List.length_map, List.length_range, decide_eq_true_eq]
    omega
  have hcomplete : (buildMachine function n locals).states.countP (·.transition.isComplete) = 1 := by
    rw [hstates, List.countP_map]
    simp only [Function.comp_def, tableState, isComplete_transitionAt]
    exact countP_range_eq (by omega)
  have hcancel : (buildMachine function n locals).states.countP (·.transition.isCancel) = 1 := by
    rw [hstates, List.countP_map]
    simp only [Function.comp_def, tableState, isCancel_transitionAt]
    exact countP_range_eq (by omega)
  have herrors : verificationErrors (buildMachine function n locals) = [] := by
    unfold verificationErrors
    rw [if_pos hcontiguous, if_pos (show (buildMachine function n locals).parentScopeRequired = true from rfl), htargets,
      if_pos ⟨hcomplete, hcancel⟩]
    rfl
  unfold verifyAsyncMachine
  rw [if_pos herrors]

/-! ## Running the table -/

section
variable (m : AsyncStateMachine) (n : Nat) (locals : List DefId) (parent : ParentScopeId) (c : TaskControl)

/-- The machine holds the table for `n` await points. -/
def Tabled : Prop := n < 2 ^ 31 - 1 ∧ ∀ k < 2 * n + 3, m.transition (UInt32.ofNat k) = some (transitionAt n locals k)

/-- The runner about to suspend at await point `i`, or to complete behind the last one. -/
def atAwait (i : Nat) : Runner :=
  { machine := m, control := c, state := UInt32.ofNat (2 * i + 1), panicked := false
    lastAwait := if i = 0 then none else some (UInt32.ofNat (i - 1))
    events := .started parent :: awaitTraces i }

/-- The runner woken at await point `i`. -/
def wokenAt (i : Nat) : Runner :=
  { machine := m, control := c, state := UInt32.ofNat (2 * i + 2), panicked := false
    lastAwait := some (UInt32.ofNat i)
    events := .started parent :: awaitTraces i ++ [.suspended (UInt32.ofNat i), .woken (UInt32.ofNat i)] }

variable {m n locals parent c}

theorem awaitTraces_succ (i : Nat) : awaitTraces (i + 1) = awaitTraces i ++ awaitTrace i := by
  simp [awaitTraces, List.range_succ]

theorem transitionAt_suspend {i : Nat} (hi : i < n) : transitionAt n locals (2 * i + 1) =
    .suspend (UInt32.ofNat i) (UInt32.ofNat (2 * i + 2)) (UInt32.ofNat (2 * n + 2)) := by
  unfold transitionAt
  rw [if_neg (by omega), if_neg (by omega), if_neg (by omega), if_pos (by omega), show (2 * i + 1) / 2 = i by omega]

theorem transitionAt_resume {i : Nat} (hi : i < n) : transitionAt n locals (2 * i + 2) =
    .resume (UInt32.ofNat (2 * (i + 1) + 1)) (UInt32.ofNat (2 * n + 2)) := by
  unfold transitionAt
  rw [if_neg (by omega), if_neg (by omega), if_neg (by omega), if_neg (by omega)]
  rfl

theorem turn_init (h : Tabled m n locals) : (Runner.init m parent c).turn = .ok (.inl (atAwait m parent c 0)) := by
  have h0 : (Runner.init m parent c).machine.transition (Runner.init m parent c).state = some (.start 1) :=
    h.2 0 (by omega)
  rw [Runner.turn_of_start h0]
  rfl

theorem turn_suspend (h : Tabled m n locals) {i : Nat} (hi : i < n) (hc : c ≠ .cancelAt (UInt32.ofNat i)) :
    (atAwait m parent c i).turn = .ok (.inl (wokenAt m parent c i)) := by
  have hs := h.2 (2 * i + 1) (by omega)
  rw [transitionAt_suspend hi] at hs
  rw [Runner.turn_of_suspend (r := atAwait m parent c i) hs hc]
  simp [atAwait, Runner.wake, Runner.push, wokenAt]

theorem turn_resume (h : Tabled m n locals) {i : Nat} (hi : i < n) (hc : c ≠ .panicAt (UInt32.ofNat i)) :
    (wokenAt m parent c i).turn = .ok (.inl (atAwait m parent c (i + 1))) := by
  have hs := h.2 (2 * i + 2) (by omega)
  rw [transitionAt_resume hi] at hs
  rw [Runner.turn_of_resume (r := wokenAt m parent c i) hs rfl hc]
  simp [wokenAt, Runner.push, atAwait, awaitTraces_succ, awaitTrace]

variable (parent) in
/-- **The await points before an interruption are passed in order.** -/
theorem reaches_atAwait (h : Tabled m n locals) : ∀ k ≤ n,
    (∀ i < k, c ≠ .cancelAt (UInt32.ofNat i) ∧ c ≠ .panicAt (UInt32.ofNat i)) →
      Reaches Runner.turn (Runner.init m parent c) (atAwait m parent c k) := by
  intro k
  induction k with
  | zero =>
    intro _ _
    exact Reaches.single (turn_init h)
  | succ k ih =>
    intro hk hc
    have hbefore := ih (by omega) (fun i hi => hc i (by omega))
    obtain ⟨hcancel, hpanic⟩ := hc k (by omega)
    exact (hbefore.trans (Reaches.single (turn_suspend h (by omega) hcancel))).trans
      (Reaches.single (turn_resume h (by omega) hpanic))

theorem ends_complete (h : Tabled m n locals) : Ends Runner.turn (atAwait m parent c n) (.ok (completedTrace n parent)) := by
  have hs := h.2 (2 * n + 1) (by omega)
  have ht : transitionAt n locals (2 * n + 1) = .complete := by simp [transitionAt]
  rw [ht] at hs
  exact Runner.turn_of_complete (r := atAwait m parent c n) hs

theorem transition_cancel (h : Tabled m n locals) : m.transition (UInt32.ofNat (2 * n + 2)) = some (.cancel locals) := by
  have ht : transitionAt n locals (2 * n + 2) = .cancel locals := by simp [transitionAt]
  rw [h.2 (2 * n + 2) (by omega), ht]

/-- The runs that complete. -/
theorem completes (h : Tabled m n locals)
    (hc : ∀ i < n, c ≠ .cancelAt (UInt32.ofNat i) ∧ c ≠ .panicAt (UInt32.ofNat i)) :
    ∃ r, Reaches Runner.turn (Runner.init m parent c) r ∧ Ends Runner.turn r (.ok (completedTrace n parent)) :=
  ⟨_, reaches_atAwait parent h n (Nat.le_refl n) hc, ends_complete h⟩

theorem ofNat_inj_await (hn : n < 2 ^ 31 - 1) {i k : Nat} (hi : i < n) (hk : k < n)
    (h : UInt32.ofNat i = UInt32.ofNat k) : i = k := by
  have hnat := congrArg UInt32.toNat h
  rw [toNat_ofNat_state hn (by omega), toNat_ofNat_state hn (by omega)] at hnat
  exact hnat

variable (parent) in
/-- The runs that are cancelled. -/
theorem cancels (h : Tabled m n locals) {k : Nat} (hk : k < n) :
    ∃ r, Reaches Runner.turn (Runner.init m parent (.cancelAt (UInt32.ofNat k))) r ∧
      Ends Runner.turn r (.ok (cancelledTrace k locals parent)) := by
  have hbefore := reaches_atAwait parent (c := .cancelAt (UInt32.ofNat k)) h k (by omega) (by
    intro i hi
    refine ⟨fun hc => ?_, by simp⟩
    have := ofNat_inj_await h.1 hk (by omega) (TaskControl.cancelAt.inj hc)
    omega)
  have hs := h.2 (2 * k + 1) (by omega)
  rw [transitionAt_suspend hk] at hs
  refine ⟨_, hbefore.trans (Reaches.single (Runner.turn_of_cancelAt (r := atAwait m parent _ k) hs rfl)), ?_⟩
  simp only [Ends]
  rw [Runner.turn_of_cancel (transition_cancel h)]
  simp [Runner.push, atAwait, cancelledTrace]

variable (parent) in
/-- The runs that panic. -/
theorem panics (h : Tabled m n locals) {k : Nat} (hk : k < n) :
    ∃ r, Reaches Runner.turn (Runner.init m parent (.panicAt (UInt32.ofNat k))) r ∧
      Ends Runner.turn r (.error (.panicked (panickedTrace k locals parent))) := by
  have hbefore := reaches_atAwait parent (c := .panicAt (UInt32.ofNat k)) h k (by omega) (by
    intro i hi
    refine ⟨by simp, fun hc => ?_⟩
    have := ofNat_inj_await h.1 hk (by omega) (TaskControl.panicAt.inj hc)
    omega)
  have hwoken := hbefore.trans (Reaches.single (turn_suspend h hk (by simp)))
  have hs := h.2 (2 * k + 2) (by omega)
  rw [transitionAt_resume hk] at hs
  refine ⟨_, hwoken.trans (Reaches.single (Runner.turn_of_panicAt (r := wokenAt m parent _ k) hs rfl rfl)), ?_⟩
  simp only [Ends]
  rw [Runner.turn_of_cancel (transition_cancel h)]
  simp [Runner.push, wokenAt, panickedTrace, awaitTraces_succ, awaitTrace]

/-- **Every control ends the run of a table as scheduled.** -/
theorem tabled_ends (h : Tabled m n locals) (parent : ParentScopeId) (c : TaskControl) :
    ∃ r, Reaches Runner.turn (Runner.init m parent c) r ∧ Ends Runner.turn r (scheduled n locals parent c) := by
  cases c with
  | complete => exact completes h (by simp)
  | cancelAt k =>
    simp only [scheduled]
    by_cases hk : k.toNat < n
    · rw [if_pos hk]
      have := cancels parent h hk
      rwa [UInt32.ofNat_toNat] at this
    · rw [if_neg hk]
      refine completes h (fun i hi => ⟨fun hc => hk ?_, by simp⟩)
      rw [TaskControl.cancelAt.inj hc, toNat_ofNat_state h.1 (by omega)]
      exact hi
  | panicAt k =>
    simp only [scheduled]
    by_cases hk : k.toNat < n
    · rw [if_pos hk]
      have := panics parent h hk
      rwa [UInt32.ofNat_toNat] at this
    · rw [if_neg hk]
      refine completes h (fun i hi => ⟨by simp, fun hc => hk ?_⟩)
      rw [TaskControl.panicAt.inj hc, toNat_ofNat_state h.1 (by omega)]
      exact hi

end

theorem lowerAsyncFunction_ok {definition : DefId} {f : HirFunction} {m : AsyncStateMachine}
    (h : lowerAsyncFunction definition f = .ok m) : m = buildMachine definition (countAwaits f) (liveLocals f) := by
  unfold lowerAsyncFunction at h
  split_ifs at h
  · cases hv : verifyAsyncMachine (buildMachine definition (countAwaits f) (liveLocals f)) with
    | ok u =>
      simp only [hv, Except.ok.injEq] at h
      exact h.symm
    | error errors =>
      simp only [hv] at h
      cases h

theorem runDeterministicTask_of_ends {m : AsyncStateMachine} {parent : ParentScopeId} {c : TaskControl}
    {o : Except TaskFailure (List TaskEvent)} (hv : verifyAsyncMachine m = .ok ())
    (h : ∃ r, Reaches Runner.turn (Runner.init m parent c) r ∧ Ends Runner.turn r o) :
    ∃ fuel, runDeterministicTask fuel m parent c = some o := by
  obtain ⟨r, hr, he⟩ := h
  obtain ⟨fuel, hrun⟩ := run_of_reaches hr he
  exact ⟨fuel, by simp [runDeterministicTask, Runner.new, hv, hrun]⟩

theorem endsWith_deterministic {m : AsyncStateMachine} {parent : ParentScopeId} {c : TaskControl}
    {o : Except TaskFailure (List TaskEvent)} {fuel : Nat} (h : runDeterministicTask fuel m parent c = some o) :
    EndsWith (runDeterministicTask · m parent c) o := by
  refine ⟨fuel, fun more hmore => ?_⟩
  unfold runDeterministicTask at h ⊢
  split at h
  · exact h
  · exact run_mono hmore h

theorem endsWith_tokio {m : AsyncStateMachine} {parent : ParentScopeId} {c : TaskControl}
    {o : Except TaskFailure (List TaskEvent)} {fuel : Nat} (h : runTokioTask fuel m parent c = some o) :
    EndsWith (runTokioTask · m parent c) o := by
  refine ⟨fuel, fun more hmore => ?_⟩
  unfold runTokioTask at h ⊢
  split at h
  · exact h
  · exact run_mono hmore h

theorem countP_dropped_awaitTraces (k : Nat) : (awaitTraces k).countP TaskEvent.isDropped = 0 := by
  rw [List.countP_eq_zero]
  intro e he
  obtain ⟨i, _, hi⟩ := List.mem_flatMap.mp he
  simp only [awaitTrace, List.mem_cons, List.not_mem_nil, or_false] at hi
  rcases hi with rfl | rfl | rfl <;> simp [TaskEvent.isDropped]

/-- The drop path runs once when the control interrupts the task, and never when it does not. -/
theorem scheduled_drops (n : Nat) (locals : List DefId) (parent : ParentScopeId) (c : TaskControl) :
    (outcomeEvents (scheduled n locals parent c)).countP TaskEvent.isDropped = if c.interrupts n then 1 else 0 := by
  have hcompleted : (completedTrace n parent).countP TaskEvent.isDropped = 0 := by
    simp [completedTrace, countP_dropped_awaitTraces, TaskEvent.isDropped]
  have hcancelled : ∀ k, (cancelledTrace k locals parent).countP TaskEvent.isDropped = 1 := by
    intro k
    simp [cancelledTrace, List.countP_cons, countP_dropped_awaitTraces, TaskEvent.isDropped]
  have hpanicked : ∀ k, (panickedTrace k locals parent).countP TaskEvent.isDropped = 1 := by
    intro k
    simp [panickedTrace, List.countP_cons, countP_dropped_awaitTraces, TaskEvent.isDropped]
  cases c with
  | complete => simp [scheduled, outcomeEvents, TaskControl.interrupts, hcompleted]
  | cancelAt k =>
    by_cases hk : k.toNat < n <;>
      simp [scheduled, outcomeEvents, TaskControl.interrupts, hk, hcompleted, hcancelled]
  | panicAt k =>
    by_cases hk : k.toNat < n <;>
      simp [scheduled, outcomeEvents, TaskControl.interrupts, hk, hcompleted, hpanicked]

/-- What a machine does that runs as a function with `n` await points and these live locals is scheduled to. -/
def RunsAsScheduled (n : Nat) (locals : List DefId) (m : AsyncStateMachine) : Prop :=
  verifyAsyncMachine m = .ok () ∧ ∀ parent c,
    EndsWith (runDeterministicTask · m parent c) (scheduled n locals parent c) ∧
    EndsWith (runTokioTask · m parent c) (scheduled n locals parent c) ∧
    (outcomeEvents (scheduled n locals parent c)).countP TaskEvent.isDropped = if c.interrupts n then 1 else 0

theorem buildMachine_runsAsScheduled (function : DefId) {n : UInt32} (hn : n.toNat < 2 ^ 31 - 1) (locals : List DefId) :
    RunsAsScheduled n.toNat locals (buildMachine function n locals) := by
  have hv := buildMachine_verified function hn locals
  refine ⟨hv, fun parent c => ?_⟩
  have htable : Tabled (buildMachine function n locals) n.toNat locals :=
    ⟨hn, fun k hk => buildMachine_transition function hn locals hk⟩
  obtain ⟨fuel, hrun⟩ := runDeterministicTask_of_ends hv (tabled_ends htable parent c)
  obtain ⟨fuel', htokio⟩ := runTokioTask_of_deterministic hrun
  exact ⟨endsWith_deterministic hrun, endsWith_tokio htokio, scheduled_drops n.toNat locals parent c⟩

/-- **Async machines run exactly as scheduled**: where the lowering of a program succeeds, the machine of every async
function with fewer than `2 ^ 31 - 1` await points is accepted by the verifier, and both schedulers end with the trace its
await points, its live locals and the control fix. -/
theorem lowered_machines_run_as_scheduled (p : HirProgram) (machines : List AsyncStateMachine)
    (h : lowerAsyncStateMachines p = .ok machines) :
    List.Forall₂ (fun (df : HirDefinition × HirFunction) m =>
      awaitPoints df.2 < 2 ^ 31 - 1 → RunsAsScheduled (awaitPoints df.2) (liveLocals df.2) m)
      (asyncFunctions p) machines := by
  unfold lowerAsyncStateMachines at h
  have hall := mapM_eq_ok h
  refine hall.imp ?_
  rintro ⟨d, f⟩ m hm hpoints
  have hcount := toNat_countAwaits f
  have hn : (countAwaits f).toNat = awaitPoints f := by
    rw [hcount]
    simp only at hpoints
    omega
  rw [lowerAsyncFunction_ok hm]
  simp only at hpoints ⊢
  rw [← hn] at hpoints ⊢
  exact buildMachine_runsAsScheduled d.id hpoints (liveLocals f)

/-- `async fn fetch(id: U64) { let reply = await id; }`. -/
def fetchFunction : HirFunction where
  parameters := [⟨⟨0, 2⟩, .primitive (.unsigned "U64"), default⟩]
  result := .unit
  body := [.let_ ⟨0, 3⟩ (.primitive (.unsigned "U64")) (.mk (.await (.mk (.reference ⟨0, 2⟩)
    (.primitive (.unsigned "U64")) default)) (.primitive (.unsigned "U64")) default)]
  asynchronous := true
  declaredEffects := none

def fetchProgram : HirProgram where
  modules := [⟨0, [⟨⟨0, 1⟩, "fetch", .function fetchFunction, default⟩]⟩]
  entry := none

theorem fetchProgram_runs_as_scheduled :
    lowerAsyncStateMachines fetchProgram = .ok [buildMachine ⟨0, 1⟩ 1 [⟨0, 2⟩, ⟨0, 3⟩]] ∧
      RunsAsScheduled 1 [⟨0, 2⟩, ⟨0, 3⟩] (buildMachine ⟨0, 1⟩ 1 [⟨0, 2⟩, ⟨0, 3⟩]) := by
  have hlower : lowerAsyncStateMachines fetchProgram = .ok [buildMachine ⟨0, 1⟩ 1 [⟨0, 2⟩, ⟨0, 3⟩]] := rfl
  refine ⟨hlower, ?_⟩
  have hall := lowered_machines_run_as_scheduled fetchProgram _ hlower
  cases hall with
  | cons hhead _ => exact hhead (by decide)

end Async
end Syllog
