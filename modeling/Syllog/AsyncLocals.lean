import Syllog.AsyncTrace
import Syllog.HirEval
/-!
# AsyncLocals — what a resumable frame holds, and what a cancelled one drops

The frame of an async function is its parameters and the `let`s of its outermost block.  A type that holds a borrow is kept
out of a frame unless the borrow is a reference; what is bound in a nested block or by a pattern is in no frame.
-/
namespace Syllog
namespace Async

open Hir Lower Runs

/-! ## Types that hold a borrow -/

mutual
/-- `Str` or a reference, at any depth. -/
def holdsBorrow : ResolvedType → Bool
  | .primitive .str             => true
  | .reference _ _ _            => true
  | .option inner               => holdsBorrow inner
  | .array inner                => holdsBorrow inner
  | .result ok err              => holdsBorrow ok || holdsBorrow err
  | .tuple items                => anyHoldsBorrow items
  | .function parameters result => anyHoldsBorrow parameters || holdsBorrow result
  | _                           => false
def anyHoldsBorrow : List ResolvedType → Bool
  | []      => false
  | t :: ts => holdsBorrow t || anyHoldsBorrow ts
end

mutual
/-- A reference, at any depth. -/
def holdsReference : ResolvedType → Bool
  | .reference _ _ _            => true
  | .option inner               => holdsReference inner
  | .array inner                => holdsReference inner
  | .result ok err              => holdsReference ok || holdsReference err
  | .tuple items                => anyHoldsReference items
  | .function parameters result => anyHoldsReference parameters || holdsReference result
  | _                           => false
def anyHoldsReference : List ResolvedType → Bool
  | []      => false
  | t :: ts => holdsReference t || anyHoldsReference ts
end

mutual
/-- **The borrows the check misses are the references.** -/
theorem holdsBorrow_eq : ∀ t : ResolvedType, holdsBorrow t = (containsBorrow t || holdsReference t)
  | .reference _ _ _ => by simp [holdsBorrow, holdsReference]
  | .primitive p => by cases p <;> simp [holdsBorrow, containsBorrow, holdsReference]
  | .option inner => by simp only [holdsBorrow, containsBorrow, holdsReference, holdsBorrow_eq inner]
  | .array inner => by simp only [holdsBorrow, containsBorrow, holdsReference, holdsBorrow_eq inner]
  | .result ok err => by
    simp only [holdsBorrow, containsBorrow, holdsReference, holdsBorrow_eq ok, holdsBorrow_eq err]
    ac_rfl
  | .tuple items => by simp only [holdsBorrow, containsBorrow, holdsReference, anyHoldsBorrow_eq items]
  | .function parameters result => by
    simp only [holdsBorrow, containsBorrow, holdsReference, anyHoldsBorrow_eq parameters, holdsBorrow_eq result]
    ac_rfl
  | .struct _ | .enum _ | .state _ | .unit | .unknown | .error | .integerLiteral | .floatLiteral => rfl
theorem anyHoldsBorrow_eq : ∀ ts : List ResolvedType, anyHoldsBorrow ts = (anyBorrow ts || anyHoldsReference ts)
  | [] => rfl
  | t :: ts => by
    simp only [anyHoldsBorrow, anyBorrow, anyHoldsReference, holdsBorrow_eq t, anyHoldsBorrow_eq ts]
    ac_rfl
end

/-! ## The locals of a machine -/

theorem mem_destutter' {α : Type} [DecidableEq α] {x : α} : ∀ {l : List α} {a : α},
    x ∈ l.destutter' (· ≠ ·) a ↔ x = a ∨ x ∈ l
  | [], a => by simp
  | b :: l, a => by
    rw [List.destutter'_cons]
    by_cases hab : a = b
    · rw [if_neg (not_not.mpr hab), mem_destutter', List.mem_cons, hab]
      tauto
    · rw [if_pos hab, List.mem_cons, mem_destutter', List.mem_cons]

theorem mem_liveLocals {f : HirFunction} {d : DefId} : d ∈ liveLocals f ↔ d ∈ (frameLocals f).map (·.1) := by
  have hmem : ∀ l : List DefId, d ∈ l.destutter (· ≠ ·) ↔ d ∈ l := by
    intro l
    cases l with
    | nil => simp
    | cons a l => rw [List.destutter_cons', mem_destutter', List.mem_cons]
  unfold liveLocals
  rw [hmem, List.mem_insertionSort]

def AsyncTransition.dropLocals : AsyncTransition → Option (List DefId)
  | .cancel dropLocals => some dropLocals
  | _                  => none

def AsyncTransition.isSuspend : AsyncTransition → Bool
  | .suspend _ _ _ => true
  | _              => false

/-- A machine has one cancel state, which drops its live locals. -/
theorem buildMachine_drops (function : DefId) (awaits : UInt32) (locals : List DefId) :
    (buildMachine function awaits locals).states.filterMap (·.transition.dropLocals) = [locals] := by
  have hawaits : ∀ l : List Nat, (l.flatMap fun i => awaitStates awaits (1 + saturatingMul awaits 2)
      (1 + saturatingMul awaits 2 + 1) (UInt32.ofNat i)).filterMap (·.transition.dropLocals) = [] := by
    intro l
    refine List.filterMap_eq_nil_iff.mpr fun s hs => ?_
    obtain ⟨i, -, hs⟩ := List.mem_flatMap.mp hs
    simp only [awaitStates, List.mem_cons, List.not_mem_nil, or_false] at hs
    rcases hs with rfl | rfl <;> rfl
  simp only [buildMachine, List.filterMap_append, hawaits]
  rfl

/-- A machine suspends where there is something to await. -/
theorem buildMachine_suspends {function : DefId} {awaits : UInt32} {locals : List DefId} :
    (∃ s ∈ (buildMachine function awaits locals).states, s.transition.isSuspend = true) ↔ 0 < awaits.toNat := by
  constructor
  · rintro ⟨s, hs, hsuspend⟩
    simp only [buildMachine, List.mem_append, List.mem_cons, List.not_mem_nil, or_false, List.mem_flatMap,
      List.mem_range] at hs
    rcases hs with (rfl | ⟨i, hi, -⟩) | rfl | rfl
    · cases hsuspend
    · omega
    · cases hsuspend
    · cases hsuspend
  · intro h
    refine ⟨_, List.mem_append_left _ (List.mem_append_right _ (List.mem_flatMap.mpr
      ⟨0, List.mem_range.mpr h, List.mem_cons_self⟩)), rfl⟩

theorem forall₂_iff {α β : Type} {R Q : α → β → Prop} {P : α → Prop} {as : List α} {bs : List β} (h : List.Forall₂ R as bs)
    (hiff : ∀ a b, R a b → (Q a b ↔ P a)) : List.Forall₂ Q as bs ↔ ∀ a ∈ as, P a := by
  induction h with
  | nil => simp
  | cons hab _ ih => rw [List.forall₂_cons, List.forall_mem_cons, hiff _ _ hab, ih]

/-! ## Borrows in frames -/

def TypedExpr.blockLets (e : TypedExpr) : List (DefId × ResolvedType) :=
  match e.kind with
  | .block statements => statements.filterMap letDefinition
  | _                 => []

/-- The `let`s of nested blocks. -/
def nestedLets (f : HirFunction) : List (DefId × ResolvedType) := (walkStatements f.body).flatMap TypedExpr.blockLets

/-- No parameter and no `let` of the function that is a live local of a machine that suspends holds a borrow. -/
def HoldsNoBorrow (f : HirFunction) (m : AsyncStateMachine) : Prop :=
  (∃ s ∈ m.states, s.transition.isSuspend = true) →
    ∀ x ∈ frameLocals f ++ nestedLets f, x.1 ∈ m.liveLocals → holdsBorrow x.2 = false

/-- No type of a local of the frame mentions a reference; a `let` of a nested block that shares its identity with one holds no
borrow. -/
def FrameOwned (f : HirFunction) : Prop :=
  (∀ x ∈ frameLocals f, holdsReference x.2 = false) ∧
    ∀ x ∈ nestedLets f, x.1 ∈ (frameLocals f).map (·.1) → holdsBorrow x.2 = false

theorem awaits_pos_iff (f : HirFunction) : 0 < (countAwaits f).toNat ↔ ∃ e ∈ walkStatements f.body, TypedExpr.isAwait e = true := by
  rw [toNat_countAwaits, ← List.countP_pos_iff]
  show _ ↔ 0 < awaitPoints f
  omega

/-- What the check lets pass holds no `Str`. -/
theorem not_containsBorrow {definition : DefId} {f : HirFunction} {m : AsyncStateMachine}
    (h : lowerAsyncFunction definition f = .ok m) (hawaits : 0 < (countAwaits f).toNat) {x : DefId × ResolvedType}
    (hx : x ∈ frameLocals f) : containsBorrow x.2 = false := by
  have hnone : borrowedLocals f = [] := by
    by_contra hne
    have hpos : 0 < countAwaits f := by simpa [UInt32.lt_iff_toNat_lt] using hawaits
    rw [lowerAsyncFunction, if_pos ⟨hpos, hne⟩] at h
    cases h
  rw [borrowedLocals, List.map_eq_nil_iff, List.filter_eq_nil_iff] at hnone
  simpa using hnone x hx

theorem holdsNoBorrow_iff {definition : DefId} {f : HirFunction} {m : AsyncStateMachine}
    (h : lowerAsyncFunction definition f = .ok m) :
    HoldsNoBorrow f m ↔ ((∃ e ∈ walkStatements f.body, TypedExpr.isAwait e = true) → FrameOwned f) := by
  unfold HoldsNoBorrow
  rw [lowerAsyncFunction_ok h, buildMachine_suspends, awaits_pos_iff]
  refine imp_congr_right fun hawaits => ?_
  rw [List.forall_mem_append]
  refine and_congr (forall₂_congr fun x hx => ?_) (forall₂_congr fun x _ => ?_)
  · have hmem : x.1 ∈ (buildMachine definition (countAwaits f) (liveLocals f)).liveLocals :=
      mem_liveLocals.mpr (List.mem_map_of_mem hx)
    rw [holdsBorrow_eq, not_containsBorrow h ((awaits_pos_iff f).mpr hawaits) hx, Bool.false_or]
    exact ⟨fun h => h hmem, fun h _ => h⟩
  · rw [← mem_liveLocals]
    rfl

/-- **Where the lowering of a program succeeds, no frame of a machine that suspends holds a borrow exactly where, in every
async function with an `await`, no local of the frame has a type that mentions a reference.** -/
theorem frames_hold_no_borrow_iff {p : HirProgram} {machines : List AsyncStateMachine}
    (h : lowerAsyncStateMachines p = .ok machines) :
    List.Forall₂ (fun (df : HirDefinition × HirFunction) m => HoldsNoBorrow df.2 m) (asyncFunctions p) machines ↔
      ∀ df ∈ asyncFunctions p, (∃ e ∈ walkStatements df.2.body, TypedExpr.isAwait e = true) → FrameOwned df.2 :=
  forall₂_iff (mapM_eq_ok h) fun _ _ hm => holdsNoBorrow_iff hm

theorem fetchProgram_holds_no_borrow :
    List.Forall₂ (fun (df : HirDefinition × HirFunction) m => HoldsNoBorrow df.2 m) (asyncFunctions fetchProgram)
      [buildMachine ⟨0, 1⟩ 1 [⟨0, 2⟩, ⟨0, 3⟩]] :=
  (frames_hold_no_borrow_iff (p := fetchProgram) rfl).mpr fun df hdf _ => by
    rw [List.mem_singleton.mp (show df ∈ [_] from hdf)]
    exact ⟨by decide, by decide⟩

/-- `async fn keep(text: &String, id: U64) { await id; }`. -/
def borrowingProgram : HirProgram where
  modules := [⟨0, [⟨⟨0, 1⟩, "keep", .function
    { parameters := [⟨⟨0, 2⟩, .reference none false (.primitive .string), default⟩, ⟨⟨0, 3⟩, .primitive (.unsigned "U64"), default⟩]
      result := .unit
      body := [.expression (.mk (.await (.mk (.reference ⟨0, 3⟩) (.primitive (.unsigned "U64")) default))
        (.primitive (.unsigned "U64")) default)]
      asynchronous := true
      declaredEffects := none }, default⟩]⟩]
  entry := none

/-- A parameter that is a reference is kept across the suspension. -/
theorem borrowingProgram_holds_reference :
    lowerAsyncStateMachines borrowingProgram = .ok [buildMachine ⟨0, 1⟩ 1 [⟨0, 2⟩, ⟨0, 3⟩]] ∧
    ¬ List.Forall₂ (fun (df : HirDefinition × HirFunction) m => HoldsNoBorrow df.2 m) (asyncFunctions borrowingProgram)
      [buildMachine ⟨0, 1⟩ 1 [⟨0, 2⟩, ⟨0, 3⟩]] := by
  refine ⟨rfl, fun h => ?_⟩
  have hhead := (List.forall₂_cons.mp h).1
  have hborrow := hhead (buildMachine_suspends.mpr (by decide))
    (⟨0, 2⟩, .reference none false (.primitive .string)) List.mem_cons_self (by decide)
  cases hborrow

/-! ## What is in scope at an await -/

end Async

namespace Hir

mutual
/-- The variables in scope at each await below an expression, outermost first. -/
def TypedExpr.awaitScopes : TypedExpr → List DefId → List (List DefId)
  | .mk kind _ _, scope => kind.awaitScopes scope
def HirExprKind.awaitScopes : HirExprKind → List DefId → List (List DefId)
  | .borrow _ operand, scope      => operand.awaitScopes scope
  | .await operand, scope         => scope :: operand.awaitScopes scope
  | .array items, scope           => awaitScopesAll items scope
  | .call callee arguments, scope => callee.awaitScopes scope ++ awaitScopesAll arguments scope
  | .field base _, scope          => base.awaitScopes scope
  | .unary _ operand, scope       => operand.awaitScopes scope
  | .binary _ left right, scope   => left.awaitScopes scope ++ right.awaitScopes scope
  | .match_ value arms, scope     => value.awaitScopes scope ++ awaitScopesArms arms scope
  | .block statements, scope      => awaitScopesStatements statements scope
  | .literal _, _                 => []
  | .reference _, _               => []
def awaitScopesAll : List TypedExpr → List DefId → List (List DefId)
  | [], _          => []
  | e :: es, scope => e.awaitScopes scope ++ awaitScopesAll es scope
/-- A guard and a body see what their pattern binds. -/
def awaitScopesArms : List HirMatchArm → List DefId → List (List DefId)
  | [], _                                        => []
  | .mk pattern (some guard) body _ :: as, scope =>
    guard.awaitScopes (scope ++ pattern.binders) ++ body.awaitScopes (scope ++ pattern.binders) ++ awaitScopesArms as scope
  | .mk pattern none body _ :: as, scope         => body.awaitScopes (scope ++ pattern.binders) ++ awaitScopesArms as scope
/-- A `let` is in scope after it. -/
def awaitScopesStatements : List HirStatement → List DefId → List (List DefId)
  | [], _                              => []
  | .let_ definition _ value :: ss, scope =>
    value.awaitScopes scope ++ awaitScopesStatements ss (scope ++ [definition])
  | .return_ (some value) :: ss, scope => value.awaitScopes scope ++ awaitScopesStatements ss scope
  | .return_ none :: ss, scope         => awaitScopesStatements ss scope
  | .expression e :: ss, scope         => e.awaitScopes scope ++ awaitScopesStatements ss scope
end

mutual
/-- Every await has one scope. -/
theorem TypedExpr.length_awaitScopes : ∀ (e : TypedExpr) (scope : List DefId),
    (e.awaitScopes scope).length = e.walk.countP Async.TypedExpr.isAwait
  | .mk kind ty span, scope => by
    have h := HirExprKind.length_awaitScopes kind scope ty span
    rw [TypedExpr.awaitScopes, TypedExpr.walk, List.countP_cons, h, Nat.add_comm]
theorem HirExprKind.length_awaitScopes : ∀ (kind : HirExprKind) (scope : List DefId) (ty : ResolvedType) (span : Span),
    (kind.awaitScopes scope).length =
      (if Async.TypedExpr.isAwait (.mk kind ty span) then 1 else 0) + kind.walk.countP Async.TypedExpr.isAwait
  | .borrow _ operand, scope, _, _ => by
    simp [HirExprKind.awaitScopes, HirExprKind.walk, Async.TypedExpr.isAwait, TypedExpr.kind, operand.length_awaitScopes]
  | .await operand, scope, _, _ => by
    simp [HirExprKind.awaitScopes, HirExprKind.walk, Async.TypedExpr.isAwait, TypedExpr.kind, operand.length_awaitScopes,
      Nat.add_comm]
  | .array items, scope, _, _ => by
    simp [HirExprKind.awaitScopes, HirExprKind.walk, Async.TypedExpr.isAwait, TypedExpr.kind, length_awaitScopesAll items]
  | .call callee arguments, scope, _, _ => by
    simp [HirExprKind.awaitScopes, HirExprKind.walk, Async.TypedExpr.isAwait, TypedExpr.kind, callee.length_awaitScopes,
      length_awaitScopesAll arguments]
  | .field base _, scope, _, _ => by
    simp [HirExprKind.awaitScopes, HirExprKind.walk, Async.TypedExpr.isAwait, TypedExpr.kind, base.length_awaitScopes]
  | .unary _ operand, scope, _, _ => by
    simp [HirExprKind.awaitScopes, HirExprKind.walk, Async.TypedExpr.isAwait, TypedExpr.kind, operand.length_awaitScopes]
  | .binary _ left right, scope, _, _ => by
    simp [HirExprKind.awaitScopes, HirExprKind.walk, Async.TypedExpr.isAwait, TypedExpr.kind, left.length_awaitScopes,
      right.length_awaitScopes]
  | .match_ value arms, scope, _, _ => by
    simp [HirExprKind.awaitScopes, HirExprKind.walk, Async.TypedExpr.isAwait, TypedExpr.kind, value.length_awaitScopes,
      length_awaitScopesArms arms]
  | .block statements, scope, _, _ => by
    simp [HirExprKind.awaitScopes, HirExprKind.walk, Async.TypedExpr.isAwait, TypedExpr.kind,
      length_awaitScopesStatements statements]
  | .literal _, _, _, _ => rfl
  | .reference _, _, _, _ => rfl
theorem length_awaitScopesAll : ∀ (es : List TypedExpr) (scope : List DefId),
    (awaitScopesAll es scope).length = (walkAll es).countP Async.TypedExpr.isAwait
  | [], _ => rfl
  | e :: es, scope => by simp [awaitScopesAll, walkAll, e.length_awaitScopes, length_awaitScopesAll es]
theorem length_awaitScopesArms : ∀ (as : List HirMatchArm) (scope : List DefId),
    (awaitScopesArms as scope).length = (walkArms as).countP Async.TypedExpr.isAwait
  | [], _ => rfl
  | .mk _ (some guard) body _ :: as, scope => by
    simp [awaitScopesArms, walkArms, guard.length_awaitScopes, body.length_awaitScopes, length_awaitScopesArms as]
  | .mk _ none body _ :: as, scope => by
    simp [awaitScopesArms, walkArms, body.length_awaitScopes, length_awaitScopesArms as]
theorem length_awaitScopesStatements : ∀ (ss : List HirStatement) (scope : List DefId),
    (awaitScopesStatements ss scope).length = (walkStatements ss).countP Async.TypedExpr.isAwait
  | [], _ => rfl
  | .let_ _ _ value :: ss, scope => by
    simp [awaitScopesStatements, walkStatements, value.length_awaitScopes, length_awaitScopesStatements ss]
  | .return_ (some value) :: ss, scope => by
    simp [awaitScopesStatements, walkStatements, value.length_awaitScopes, length_awaitScopesStatements ss]
  | .return_ none :: ss, scope => by
    simp [awaitScopesStatements, walkStatements, length_awaitScopesStatements ss]
  | .expression e :: ss, scope => by
    simp [awaitScopesStatements, walkStatements, e.length_awaitScopes, length_awaitScopesStatements ss]
end

mutual
/-- What is bound inside an expression is bound on top of the scope around it. -/
theorem TypedExpr.awaitScopes_eq : ∀ (e : TypedExpr) (scope : List DefId),
    e.awaitScopes scope = (e.awaitScopes []).map (scope ++ ·)
  | .mk kind _ _, scope => kind.awaitScopes_eq scope
theorem HirExprKind.awaitScopes_eq : ∀ (kind : HirExprKind) (scope : List DefId),
    kind.awaitScopes scope = (kind.awaitScopes []).map (scope ++ ·)
  | .borrow _ operand, scope => operand.awaitScopes_eq scope
  | .await operand, scope => by
    simp only [HirExprKind.awaitScopes, List.map_cons, List.append_nil, ← operand.awaitScopes_eq scope]
  | .array items, scope => awaitScopesAll_eq items scope
  | .call callee arguments, scope => by
    simp only [HirExprKind.awaitScopes, List.map_append, ← callee.awaitScopes_eq scope, ← awaitScopesAll_eq arguments scope]
  | .field base _, scope => base.awaitScopes_eq scope
  | .unary _ operand, scope => operand.awaitScopes_eq scope
  | .binary _ left right, scope => by
    simp only [HirExprKind.awaitScopes, List.map_append, ← left.awaitScopes_eq scope, ← right.awaitScopes_eq scope]
  | .match_ value arms, scope => by
    simp only [HirExprKind.awaitScopes, List.map_append, ← value.awaitScopes_eq scope, ← awaitScopesArms_eq arms scope]
  | .block statements, scope => awaitScopesStatements_eq statements scope
  | .literal _, _ => rfl
  | .reference _, _ => rfl
theorem awaitScopesAll_eq : ∀ (es : List TypedExpr) (scope : List DefId),
    awaitScopesAll es scope = (awaitScopesAll es []).map (scope ++ ·)
  | [], _ => rfl
  | e :: es, scope => by
    simp only [awaitScopesAll, List.map_append, ← e.awaitScopes_eq scope, ← awaitScopesAll_eq es scope]
theorem awaitScopesArms_eq : ∀ (as : List HirMatchArm) (scope : List DefId),
    awaitScopesArms as scope = (awaitScopesArms as []).map (scope ++ ·)
  | [], _ => rfl
  | .mk pattern (some guard) body _ :: as, scope => by
    simp only [awaitScopesArms, List.map_append, List.nil_append, ← awaitScopesArms_eq as scope]
    rw [guard.awaitScopes_eq (scope ++ pattern.binders), guard.awaitScopes_eq pattern.binders,
      body.awaitScopes_eq (scope ++ pattern.binders), body.awaitScopes_eq pattern.binders]
    simp only [List.map_map, Function.comp_def, List.append_assoc]
  | .mk pattern none body _ :: as, scope => by
    simp only [awaitScopesArms, List.map_append, List.nil_append, ← awaitScopesArms_eq as scope]
    rw [body.awaitScopes_eq (scope ++ pattern.binders), body.awaitScopes_eq pattern.binders]
    simp only [List.map_map, Function.comp_def, List.append_assoc]
theorem awaitScopesStatements_eq : ∀ (ss : List HirStatement) (scope : List DefId),
    awaitScopesStatements ss scope = (awaitScopesStatements ss []).map (scope ++ ·)
  | [], _ => rfl
  | .let_ definition _ value :: ss, scope => by
    simp only [awaitScopesStatements, List.map_append, List.nil_append, ← value.awaitScopes_eq scope]
    rw [awaitScopesStatements_eq ss (scope ++ [definition]), awaitScopesStatements_eq ss [definition]]
    simp only [List.map_map, Function.comp_def, List.append_assoc]
  | .return_ (some value) :: ss, scope => by
    simp only [awaitScopesStatements, List.map_append, ← value.awaitScopes_eq scope, ← awaitScopesStatements_eq ss scope]
  | .return_ none :: ss, scope => awaitScopesStatements_eq ss scope
  | .expression e :: ss, scope => by
    simp only [awaitScopesStatements, List.map_append, ← e.awaitScopes_eq scope, ← awaitScopesStatements_eq ss scope]
end

end Hir

namespace Async

open Hir Lower Runs

/-- The variables in scope at each await of a function. -/
def awaitScopes (f : HirFunction) : List (List DefId) := awaitScopesStatements f.body (f.parameters.map (·.id))

/-- Of those, what nested blocks and patterns bind. -/
def innerScopes : List HirStatement → List (List DefId)
  | []                         => []
  | .let_ _ _ value :: ss      => value.awaitScopes [] ++ innerScopes ss
  | .return_ (some value) :: ss => value.awaitScopes [] ++ innerScopes ss
  | .return_ none :: ss        => innerScopes ss
  | .expression e :: ss        => e.awaitScopes [] ++ innerScopes ss

/-- At every await, what is in scope is among the live locals, and among what the one cancel state drops. -/
def DropsLive (f : HirFunction) (m : AsyncStateMachine) : Prop :=
  ∃ drops, m.states.filterMap (·.transition.dropLocals) = [drops] ∧
    ∀ scope ∈ awaitScopes f, ∀ d ∈ scope, d ∈ m.liveLocals ∧ d ∈ drops

/-- What a nested block or a pattern binds around an await is also a parameter or a `let` of the outermost block. -/
def InnerFramed (f : HirFunction) : Prop := ∀ inner ∈ innerScopes f.body, ∀ d ∈ inner, d ∈ (frameLocals f).map (·.1)

theorem length_awaitScopes (f : HirFunction) : (awaitScopes f).length = awaitPoints f := length_awaitScopesStatements f.body _

section
variable {locals : List DefId}

theorem expression_covered_iff (e : TypedExpr) {scope : List DefId} (hscope : ∀ d ∈ scope, d ∈ locals) :
    (∀ s ∈ e.awaitScopes scope, ∀ d ∈ s, d ∈ locals) ↔ ∀ inner ∈ e.awaitScopes [], ∀ d ∈ inner, d ∈ locals := by
  rw [e.awaitScopes_eq scope, List.forall_mem_map]
  refine forall₂_congr fun inner _ => ?_
  rw [List.forall_mem_append]
  exact and_iff_right hscope

/-- The scopes of a block lie in a set where what is around it, its `let`s and the inner scopes do. -/
theorem statements_covered_iff : ∀ {ss : List HirStatement} {scope : List DefId}, (∀ d ∈ scope, d ∈ locals) →
    (∀ x ∈ ss.filterMap letDefinition, x.1 ∈ locals) →
    ((∀ s ∈ awaitScopesStatements ss scope, ∀ d ∈ s, d ∈ locals) ↔ ∀ inner ∈ innerScopes ss, ∀ d ∈ inner, d ∈ locals)
  | [], _, _, _ => by simp [awaitScopesStatements, innerScopes]
  | .let_ definition ty value :: ss, scope, hscope, hlets => by
    have hlets : definition ∈ locals ∧ ∀ x ∈ ss.filterMap letDefinition, x.1 ∈ locals := by
      simpa [letDefinition] using hlets
    have hscope' : ∀ d ∈ scope ++ [definition], d ∈ locals :=
      List.forall_mem_append.mpr ⟨hscope, by simpa using hlets.1⟩
    simp only [awaitScopesStatements, innerScopes, List.forall_mem_append, expression_covered_iff value hscope,
      statements_covered_iff hscope' hlets.2]
  | .return_ (some value) :: ss, scope, hscope, hlets => by
    have ih := @statements_covered_iff ss scope hscope hlets
    simp only [awaitScopesStatements, innerScopes, List.forall_mem_append, expression_covered_iff value hscope, ih]
  | .return_ none :: ss, scope, hscope, hlets => @statements_covered_iff ss scope hscope hlets
  | .expression e :: ss, scope, hscope, hlets => by
    have ih := @statements_covered_iff ss scope hscope hlets
    simp only [awaitScopesStatements, innerScopes, List.forall_mem_append, expression_covered_iff e hscope, ih]

end

theorem dropsLive_iff {definition : DefId} {f : HirFunction} {m : AsyncStateMachine}
    (h : lowerAsyncFunction definition f = .ok m) : DropsLive f m ↔ InnerFramed f := by
  have hparameters : ∀ d ∈ f.parameters.map (·.id), d ∈ (frameLocals f).map (·.1) := by
    intro d hd
    rw [frameLocals, List.map_append, List.map_map]
    exact List.mem_append_left _ hd
  have hlets : ∀ x ∈ f.body.filterMap letDefinition, x.1 ∈ (frameLocals f).map (·.1) := fun x hx =>
    List.mem_map_of_mem (List.mem_append_right _ hx)
  have hcovered : (∀ scope ∈ awaitScopes f, ∀ d ∈ scope, d ∈ liveLocals f) ↔ InnerFramed f := by
    simp only [mem_liveLocals]
    exact statements_covered_iff hparameters hlets
  rw [lowerAsyncFunction_ok h, ← hcovered]
  constructor
  · rintro ⟨drops, -, hlive⟩ scope hscope d hd
    exact (hlive scope hscope d hd).1
  · exact fun hlive => ⟨liveLocals f, buildMachine_drops .., fun scope hscope d hd =>
      ⟨hlive scope hscope d hd, hlive scope hscope d hd⟩⟩

/-- **Where the lowering of a program succeeds, a cancelled task drops all that is in scope at every await exactly where no
`let` of a nested block and no binding of a pattern is in scope at one**, unless it shares its identity with a local of the
frame. -/
theorem cancellation_drops_live_iff {p : HirProgram} {machines : List AsyncStateMachine}
    (h : lowerAsyncStateMachines p = .ok machines) :
    List.Forall₂ (fun (df : HirDefinition × HirFunction) m => DropsLive df.2 m) (asyncFunctions p) machines ↔
      ∀ df ∈ asyncFunctions p, InnerFramed df.2 :=
  forall₂_iff (mapM_eq_ok h) fun _ _ hm => dropsLive_iff hm

theorem fetchProgram_drops_live :
    List.Forall₂ (fun (df : HirDefinition × HirFunction) m => DropsLive df.2 m) (asyncFunctions fetchProgram)
      [buildMachine ⟨0, 1⟩ 1 [⟨0, 2⟩, ⟨0, 3⟩]] :=
  (cancellation_drops_live_iff (p := fetchProgram) rfl).mpr fun df hdf => by
    rw [List.mem_singleton.mp (show df ∈ [_] from hdf)]
    unfold InnerFramed
    decide

/-- `async fn hold(id: U64) { { let text = "t"; await id; } }`. -/
def nestedProgram : HirProgram where
  modules := [⟨0, [⟨⟨0, 1⟩, "hold", .function
    { parameters := [⟨⟨0, 2⟩, .primitive (.unsigned "U64"), default⟩]
      result := .unit
      body := [.expression (.mk (.block
        [.let_ ⟨0, 3⟩ (.primitive .string) (.mk (.literal (.string "t")) (.primitive .string) default),
         .expression (.mk (.await (.mk (.reference ⟨0, 2⟩) (.primitive (.unsigned "U64")) default))
           (.primitive (.unsigned "U64")) default)]) .unit default)]
      asynchronous := true
      declaredEffects := none }, default⟩]⟩]
  entry := none

/-- The `let` of the nested block is in scope at the await, and not dropped. -/
theorem nestedProgram_leaks : lowerAsyncStateMachines nestedProgram = .ok [buildMachine ⟨0, 1⟩ 1 [⟨0, 2⟩]] ∧
    ¬ List.Forall₂ (fun (df : HirDefinition × HirFunction) m => DropsLive df.2 m) (asyncFunctions nestedProgram)
      [buildMachine ⟨0, 1⟩ 1 [⟨0, 2⟩]] := by
  refine ⟨rfl, fun h => ?_⟩
  obtain ⟨drops, -, hlive⟩ := (List.forall₂_cons.mp h).1
  have hmem : (⟨0, 3⟩ : DefId) ∈ [⟨0, 2⟩] := (hlive [⟨0, 2⟩, ⟨0, 3⟩] (by decide) ⟨0, 3⟩ (by decide)).1
  exact absurd hmem (by decide)

end Async
end Syllog
