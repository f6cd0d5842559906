import Syllog.HirTypes
/-!
# Positions — where a type is required

A value stands in a position that requires a type: an annotated `let`, a returned value, an argument, an element, an arm, a guard,
an initializer or the end of a block.  The positions are listed as inference walks past them.  What is annotated is not checked,
a `return` inside an expression is checked against the block around it, and a block need not end in a value.
-/
namespace Syllog

namespace Ast

mutual
/-- Every way through the expression returns from the function. -/
def Expr.returns : Expr → Bool
  | .mk (.block (.mk statements _)) _ => statementsReturn statements
  | .mk (.match_ value arms) _        => value.returns || (!arms.isEmpty && armsReturn arms)
  | _                                 => false
def armsReturn : List MatchArm → Bool
  | []                       => true
  | .mk _ _ body _ :: arms => body.returns && armsReturn arms
def statementsReturn : List Statement → Bool
  | []                          => false
  | .let_ _ _ value _ :: rest   => value.returns || statementsReturn rest
  | .return_ _ _ :: _           => true
  | .expression e _ :: rest     => e.returns || statementsReturn rest
end

mutual
/-- Every way through the expression ends in a value or returns. -/
def Expr.ends : Expr → Bool
  | .mk (.block (.mk statements _)) _ => statementsEnd statements
  | .mk (.match_ value arms) _        => value.returns || armsEnd arms
  | _                                 => true
def armsEnd : List MatchArm → Bool
  | []                       => true
  | .mk _ _ body _ :: arms => body.ends && armsEnd arms
def statementsEnd : List Statement → Bool
  | []                          => false
  | .let_ _ _ value _ :: rest   => value.returns || statementsEnd rest
  | .return_ _ _ :: _           => true
  | .expression e _ :: rest     => e.returns || (if rest.isEmpty then e.ends else statementsEnd rest)
end

mutual
/-- No `let` in the expression has an annotation and no `return` stands in it. -/
def Expr.plain : Expr → Bool
  | .mk kind _ => kind.plain
def ExprKind.plain : ExprKind → Bool
  | .borrow _ operand           => operand.plain
  | .await operand              => operand.plain
  | .literal _                  => true
  | .path _                     => true
  | .array items                => itemsPlain items
  | .call callee arguments      => callee.plain && argumentsPlain arguments
  | .field base _               => base.plain
  | .unary _ operand            => operand.plain
  | .binary _ left right        => left.plain && right.plain
  | .match_ value arms          => value.plain && armsPlain arms
  | .block (.mk statements _)   => statementsPlain true statements
def itemsPlain : List Expr → Bool
  | []      => true
  | e :: es => e.plain && itemsPlain es
def argumentsPlain : List CallArgument → Bool
  | []                   => true
  | .mk _ value _ :: as => value.plain && argumentsPlain as
def armsPlain : List MatchArm → Bool
  | []                           => true
  | .mk _ guard body _ :: arms => optionPlain guard && body.plain && armsPlain arms
def optionPlain : Option Expr → Bool
  | none   => true
  | some e => e.plain
/-- The same for a block; `inner` where it stands in an expression. -/
def statementsPlain (inner : Bool) : List Statement → Bool
  | []                           => true
  | .let_ _ ty value _ :: rest   => ty.isNone && value.plain && statementsPlain inner rest
  | .return_ value _ :: rest     => !inner && optionPlain value && statementsPlain inner rest
  | .expression e _ :: rest      => e.plain && statementsPlain inner rest
end

/-- No `let` of an item has an annotation, and a `return` stands in the body of a function itself. -/
def Item.plain : Item → Bool
  | .function ⟨_, _, _, _, _, _, .mk statements _, _⟩ => statementsPlain false statements
  | .state node    => node.fields.all fun field => optionPlain field.initializer
  | .pipeline node => node.fields.all fun property => property.value.plain
  | _              => true

end Ast

namespace Semantic

open Hir Ast

/-- `annotated` is a `let` with a type, `inner` a `return` inside an expression, `surplus` an argument without a parameter. -/
inductive PositionKind where
  | annotated | inner | returned | argument | surplus | element | arm | guard | initializer | final
deriving DecidableEq, Repr

/-- A position, the type it requires and that of the value in it. -/
structure Position where
  kind : PositionKind
  required : ResolvedType
  actual : ResolvedType

def Position.fits (p : Position) : Bool := p.kind ≠ .surplus && compatible p.required p.actual

/-- The positions that inference does not check. -/
def Position.unchecked (p : Position) : Bool := p.kind = .annotated || p.kind = .inner

/-- A returned value, where a function or a pipeline is being checked. -/
def returnPositions (returns : Option ResolvedType) (kind : PositionKind) (actual : ResolvedType) : List Position :=
  returns.toList.map fun required => ⟨kind, required, actual⟩

mutual
/-- The positions in an expression; `returns` is the result of the function around it. -/
def exprPositions (a : Analyzer) (asyncContext : Bool) (returns : Option ResolvedType) :
    Expr → Scope → Option ResolvedType → List Position
  | .mk kind span, scope, expected => kindPositions a asyncContext returns kind span scope expected
def kindPositions (a : Analyzer) (asyncContext : Bool) (returns : Option ResolvedType) :
    ExprKind → Span → Scope → Option ResolvedType → List Position
  | .borrow _ operand, _, scope, _       => exprPositions a asyncContext returns operand scope none
  | .await operand, _, scope, expected   => exprPositions a asyncContext returns operand scope expected
  | .literal _, _, _, _                  => []
  | .path _, _, _, _                     => []
  | .array items, _, scope, expected     =>
    itemPositions a asyncContext returns items scope (expectedItem expected)
      (inferItems a asyncContext items scope (expectedItem expected) ((expectedItem expected).getD .unknown)).value
  | .call (.mk (.path segments) _) arguments, span, scope, expected =>
    (if infersFirst segments expected then firstPositions a asyncContext returns arguments scope else []) ++
      argumentPositions a asyncContext returns arguments
        (constructorFields a segments (inferFirst a asyncContext arguments scope) span expected) scope
  | .call callee arguments, _, scope, _  =>
    exprPositions a asyncContext returns callee scope none ++
      match (inferExpr a asyncContext callee scope none).value with
      | .function parameters _ => argumentPositions a asyncContext returns arguments parameters scope
      | _                      => untypedPositions a asyncContext returns arguments scope
  | .field base _, _, scope, _           => exprPositions a asyncContext returns base scope none
  | .unary _ operand, _, scope, _        => exprPositions a asyncContext returns operand scope none
  | .binary _ left right, _, scope, _    =>
    exprPositions a asyncContext returns left scope none ++
      exprPositions a asyncContext returns right scope (some (inferExpr a asyncContext left scope none).value)
  | .match_ value arms, _, scope, expected =>
    exprPositions a asyncContext returns value scope none ++
      armPositions a asyncContext returns arms (inferExpr a asyncContext value scope none).value scope expected
        (inferArms a asyncContext arms (inferExpr a asyncContext value scope none).value scope expected
          (expected.getD .unknown)).value
  | .block (.mk statements _), _, scope, expected =>
    statementPositions a asyncContext returns .inner statements scope (expected.getD .unknown)
def itemPositions (a : Analyzer) (asyncContext : Bool) (returns : Option ResolvedType) :
    List Expr → Scope → Option ResolvedType → ResolvedType → List Position
  | [], _, _, _                        => []
  | e :: es, scope, expected, itemType =>
    exprPositions a asyncContext returns e scope expected ++
      ⟨.element, itemType, (inferExpr a asyncContext e scope expected).value⟩ ::
        itemPositions a asyncContext returns es scope expected itemType
def firstPositions (a : Analyzer) (asyncContext : Bool) (returns : Option ResolvedType) : List CallArgument → Scope → List Position
  | [], _                     => []
  | .mk _ value _ :: _, scope => exprPositions a asyncContext returns value scope none
def untypedPositions (a : Analyzer) (asyncContext : Bool) (returns : Option ResolvedType) :
    List CallArgument → Scope → List Position
  | [], _                      => []
  | .mk _ value _ :: as, scope =>
    exprPositions a asyncContext returns value scope none ++ untypedPositions a asyncContext returns as scope
def argumentPositions (a : Analyzer) (asyncContext : Bool) (returns : Option ResolvedType) :
    List CallArgument → List ResolvedType → Scope → List Position
  | .mk _ value _ :: as, ty :: types, scope =>
    exprPositions a asyncContext returns value scope (some ty) ++
      ⟨.argument, ty, (inferExpr a asyncContext value scope (some ty)).value⟩ ::
        argumentPositions a asyncContext returns as types scope
  | [], _, _             => []
  | _ :: as, [], scope   => ⟨.surplus, .unit, .unknown⟩ :: argumentPositions a asyncContext returns as [] scope
def armPositions (a : Analyzer) (asyncContext : Bool) (returns : Option ResolvedType) :
    List MatchArm → ResolvedType → Scope → Option ResolvedType → ResolvedType → List Position
  | [], _, _, _, _ => []
  | .mk pattern guard body _ :: arms, valueType, scope, expected, result =>
    guardPositions a asyncContext returns guard (checkPattern a pattern valueType scope).value ++
      (exprPositions a asyncContext returns body (checkPattern a pattern valueType scope).value expected ++
        ⟨.arm, result, (inferExpr a asyncContext body (checkPattern a pattern valueType scope).value expected).value⟩ ::
          armPositions a asyncContext returns arms valueType scope expected result)
def guardPositions (a : Analyzer) (asyncContext : Bool) (returns : Option ResolvedType) : Option Expr → Scope → List Position
  | none, _           => []
  | some guard, scope =>
    exprPositions a asyncContext returns guard scope (some boolType) ++
      [⟨.guard, boolType, (inferExpr a asyncContext guard scope (some boolType)).value⟩]
/-- The positions in a block; `kind` is that of a `return` in it. -/
def statementPositions (a : Analyzer) (asyncContext : Bool) (returns : Option ResolvedType) (kind : PositionKind) :
    List Statement → Scope → ResolvedType → List Position
  | [], _, _ => []
  | .let_ name ty value _ :: rest, scope, expectedResult =>
    exprPositions a asyncContext returns value scope (resolveOption a ty).value ++
      ((resolveOption a ty).value.toList.map fun declared =>
        (⟨.annotated, declared, (inferExpr a asyncContext value scope (resolveOption a ty).value).value⟩ : Position)) ++
        statementPositions a asyncContext returns kind rest (scope.insert name ((resolveOption a ty).value.getD
          (inferExpr a asyncContext value scope (resolveOption a ty).value).value)) expectedResult
  | .return_ (some value) _ :: rest, scope, expectedResult =>
    exprPositions a asyncContext returns value scope (some expectedResult) ++
      returnPositions returns kind (inferExpr a asyncContext value scope (some expectedResult)).value ++
        statementPositions a asyncContext returns kind rest scope expectedResult
  | .return_ none _ :: rest, scope, expectedResult =>
    returnPositions returns kind .unit ++ statementPositions a asyncContext returns kind rest scope expectedResult
  | .expression e _ :: rest, scope, expectedResult =>
    exprPositions a asyncContext returns e scope (if rest.isEmpty then some expectedResult else none) ++
      (if rest.isEmpty then [⟨.final, expectedResult, (inferExpr a asyncContext e scope (some expectedResult)).value⟩] else []) ++
        statementPositions a asyncContext returns kind rest scope expectedResult
end

/-! ## Compatibility -/

mutual
theorem compatible_refl : ∀ ty : ResolvedType, compatible ty ty = true
  | .reference _ _ inner => by simp [compatible, compatible_refl inner]
  | .option inner => by simp [compatible, compatible_refl inner]
  | .result ok err => by simp [compatible, compatible_refl ok, compatible_refl err]
  | .array item => by simp [compatible, compatible_refl item]
  | .tuple items => by simp [compatible, compatibleAll_refl items]
  | .primitive _ | .struct _ | .enum _ | .state _ | .function _ _ | .unit | .unknown | .error | .integerLiteral | .floatLiteral => by
    simp [compatible]
theorem compatibleAll_refl : ∀ types : List ResolvedType, compatibleAll types types = true
  | [] => rfl
  | ty :: types => by simp [compatibleAll, compatible_refl ty, compatibleAll_refl types]
end

theorem compatible_unknown (ty : ResolvedType) : compatible ty .unknown = true := by cases ty <;> simp [compatible]

section
variable {a : Analyzer} {asyncContext : Bool} {returns : Option ResolvedType}

/-- Every position of a list that is checked fits. -/
def Fit (ps : List Position) : Prop := ∀ p ∈ ps, p.unchecked = true ∨ p.fits = true

theorem fit_nil : Fit [] := fun _ h => by cases h

theorem fit_append {u v : List Position} : Fit (u ++ v) ↔ Fit u ∧ Fit v := by
  simp only [Fit, List.mem_append, or_imp, forall_and]

theorem fit_cons {p : Position} {ps : List Position} : Fit (p :: ps) ↔ (p.unchecked = true ∨ p.fits = true) ∧ Fit ps := by
  simp only [Fit, List.mem_cons, or_imp, forall_and, forall_eq]

theorem clean_requireCompatible {expected actual : ResolvedType} {span : Span} {context : String} :
    Clean (a.requireCompatible expected actual span context) ↔ compatible expected actual = true := clean_require

/-- An element fits the type the elements have in the end. -/
theorem join_fits {sofar actual final : ResolvedType} {span : Span} {context : String}
    (h : Clean (joinType a sofar actual span context))
    (hfinal : (joinType a sofar actual span context).value ≠ .unknown →
      final = (joinType a sofar actual span context).value) : compatible final actual = true := by
  unfold joinType at hfinal
  by_cases hsofar : sofar = .unknown
  · rw [if_pos hsofar, Logged.value_pure] at hfinal
    by_cases hactual : actual = .unknown
    · rw [hactual]
      exact compatible_unknown final
    · rw [hfinal hactual]
      exact compatible_refl actual
  · rw [if_neg hsofar] at hfinal
    rw [hfinal hsofar]
    exact (clean_joinType.mp h).resolve_left hsofar

theorem joinType_of_known {sofar actual : ResolvedType} {span : Span} {context : String} (h : sofar ≠ .unknown) :
    (joinType a sofar actual span context).value = sofar := by
  rw [joinType, if_neg h]
  rfl

theorem inferItems_of_known : ∀ (es : List Expr) {scope : Scope} {expected : Option ResolvedType} {itemType : ResolvedType},
    itemType ≠ .unknown → (inferItems a asyncContext es scope expected itemType).value = itemType
  | [], _, _, _, _ => by simp [inferItems]
  | e :: es, _, _, _, h => by
    simp only [inferItems, Logged.value_bind, joinType_of_known h]
    exact inferItems_of_known es h

theorem inferArms_of_known : ∀ (arms : List MatchArm) {valueType : ResolvedType} {scope : Scope}
    {expected : Option ResolvedType} {result : ResolvedType}, result ≠ .unknown →
      (inferArms a asyncContext arms valueType scope expected result).value = result
  | [], _, _, _, _, _ => by simp [inferArms]
  | .mk pattern guard body _ :: arms, _, _, _, _, h => by
    simp only [inferArms, Logged.value_bind, joinType_of_known h]
    exact inferArms_of_known arms h

/-- A `return` of a function's own body is checked against the result of the function. -/
theorem returnPositions_fit {kind : PositionKind} {expectedResult actual : ResolvedType}
    (hkind : kind = .inner ∨ kind = .returned ∧ ∀ required ∈ returns, required = expectedResult)
    (h : compatible expectedResult actual = true) : Fit (returnPositions returns kind actual) := by
  intro p hp
  obtain ⟨required, hrequired, rfl⟩ := List.mem_map.mp hp
  rcases hkind with rfl | ⟨rfl, hreturns⟩
  · exact .inl rfl
  · rw [hreturns required (Option.mem_toList.mp hrequired)]
    exact .inr h

/-! ## What inference checks -/

mutual
/-- **Without diagnostics every position fits, annotated `let`s and inner `return`s apart.** -/
theorem exprPositions_fit : ∀ (e : Expr) {scope : Scope} {expected : Option ResolvedType},
    Clean (inferExpr a asyncContext e scope expected) → Fit (exprPositions a asyncContext returns e scope expected)
  | .mk kind span, _, _, h => by
    rw [inferExpr, clean_bind] at h
    exact kindPositions_fit kind span h.1
theorem kindPositions_fit : ∀ (kind : ExprKind) (span : Span) {scope : Scope} {expected : Option ResolvedType},
    Clean (inferExprKind a asyncContext kind span scope expected) →
      Fit (kindPositions a asyncContext returns kind span scope expected)
  | .borrow _ operand, _, _, _, h => by
    simp only [inferExprKind, clean_bind] at h
    exact exprPositions_fit operand h.2.1
  | .await operand, _, _, _, h => by
    simp only [inferExprKind, clean_bind] at h
    exact exprPositions_fit operand h.2
  | .literal _, _, _, _, _ => fit_nil
  | .path _, _, _, _, _ => fit_nil
  | .array items, _, _, _, h => by
    simp only [inferExprKind, clean_bind] at h
    exact itemPositions_fit items h.1 rfl
  | .call (.mk callee calleeSpan) arguments, span, scope, expected, h => by
    rcases ExprKind.path_or callee calleeSpan with ⟨segments, rfl⟩ | hne
    · rw [inferExprKind] at h
      obtain ⟨hfirst, hlength, hargs⟩ := clean_inferConstructorCall h
      rw [kindPositions, fit_append]
      refine ⟨?_, argumentPositions_fit arguments hlength hargs⟩
      split_ifs with hinfers
      · exact firstPositions_fit arguments (hfirst hinfers)
      · exact fit_nil
    · rw [inferExprKind, clean_bind] at h
      · rw [kindPositions]
        · refine fit_append.mpr ⟨exprPositions_fit (.mk callee calleeSpan) h.1, ?_⟩
          cases hcallee : (inferExpr a asyncContext (.mk callee calleeSpan) scope none).value with
          | function parameters result =>
            rw [hcallee] at h
            simp only [clean_bind, clean_require, decide_eq_true_eq] at h
            exact argumentPositions_fit arguments h.2.1 h.2.2.1
          | error =>
            rw [hcallee] at h
            simp only [clean_bind] at h
            exact untypedPositions_fit arguments h.2.2.1
          | _ => simp [hcallee, clean_require] at h
        · exact hne
      · exact hne
  | .field base _, _, _, _, h => by
    simp only [inferExprKind, clean_bind] at h
    exact exprPositions_fit base h.1
  | .unary _ operand, _, _, _, h => by
    simp only [inferExprKind, clean_bind] at h
    exact exprPositions_fit operand h.1
  | .binary _ left right, _, _, _, h => by
    simp only [inferExprKind, clean_bind] at h
    exact fit_append.mpr ⟨exprPositions_fit left h.1, exprPositions_fit right h.2.1⟩
  | .match_ value arms, _, _, _, h => by
    simp only [inferExprKind, clean_bind] at h
    exact fit_append.mpr ⟨exprPositions_fit value h.1, armPositions_fit arms h.2.1 rfl⟩
  | .block (.mk statements _), _, _, _, h => by
    simp only [inferExprKind, clean_bind] at h
    exact statementPositions_fit statements (.inl rfl) h.1
theorem itemPositions_fit : ∀ (es : List Expr) {scope : Scope} {expected : Option ResolvedType} {itemType final : ResolvedType},
    Clean (inferItems a asyncContext es scope expected itemType) →
      (inferItems a asyncContext es scope expected itemType).value = final →
        Fit (itemPositions a asyncContext returns es scope expected final)
  | [], _, _, _, _, _, _ => fit_nil
  | e :: es, _, _, _, _, h, hfinal => by
    simp only [inferItems, clean_bind, Logged.value_bind] at h hfinal
    refine fit_append.mpr ⟨exprPositions_fit e h.1, fit_cons.mpr ⟨.inr ?_, itemPositions_fit es h.2.2 hfinal⟩⟩
    exact join_fits h.2.1 fun hknown => by rw [← hfinal, inferItems_of_known es hknown]
theorem firstPositions_fit : ∀ (as : List CallArgument) {scope : Scope}, Clean (inferFirst a asyncContext as scope) →
    Fit (firstPositions a asyncContext returns as scope)
  | [], _, _ => fit_nil
  | .mk _ value _ :: _, _, h => exprPositions_fit value (by rwa [inferFirst] at h)
theorem untypedPositions_fit : ∀ (as : List CallArgument) {scope : Scope}, Clean (inferArguments a asyncContext as scope) →
    Fit (untypedPositions a asyncContext returns as scope)
  | [], _, _ => fit_nil
  | .mk _ value _ :: as, _, h => by
    simp only [inferArguments, clean_bind] at h
    exact fit_append.mpr ⟨exprPositions_fit value h.1, untypedPositions_fit as h.2⟩
theorem argumentPositions_fit : ∀ (as : List CallArgument) {types : List ResolvedType} {scope : Scope} {context : String},
    types.length = as.length → Clean (checkArguments a asyncContext as types scope context) →
      Fit (argumentPositions a asyncContext returns as types scope)
  | .mk _ value _ :: as, ty :: types, _, _, hlength, h => by
    simp only [checkArguments, clean_bind, clean_requireCompatible] at h
    exact fit_append.mpr ⟨exprPositions_fit value h.1, fit_cons.mpr ⟨.inr h.2.1,
      argumentPositions_fit as (Nat.succ.inj hlength) h.2.2⟩⟩
  | [], _, _, _, _, _ => by
    rw [argumentPositions]
    exact fit_nil
theorem armPositions_fit : ∀ (arms : List MatchArm) {valueType : ResolvedType} {scope : Scope}
    {expected : Option ResolvedType} {result final : ResolvedType},
    Clean (inferArms a asyncContext arms valueType scope expected result) →
      (inferArms a asyncContext arms valueType scope expected result).value = final →
        Fit (armPositions a asyncContext returns arms valueType scope expected final)
  | [], _, _, _, _, _, _, _ => fit_nil
  | .mk pattern guard body _ :: arms, _, _, _, _, _, h, hfinal => by
    simp only [inferArms, clean_bind, Logged.value_bind] at h hfinal
    refine fit_append.mpr ⟨guardPositions_fit guard h.2.1, fit_append.mpr ⟨exprPositions_fit body h.2.2.1,
      fit_cons.mpr ⟨.inr ?_, armPositions_fit arms h.2.2.2.2 hfinal⟩⟩⟩
    exact join_fits h.2.2.2.1 fun hknown => by rw [← hfinal, inferArms_of_known arms hknown]
theorem guardPositions_fit : ∀ (guard : Option Expr) {scope : Scope}, Clean (inferGuard a asyncContext guard scope) →
    Fit (guardPositions a asyncContext returns guard scope)
  | none, _, _ => fit_nil
  | some guard, _, h => by
    simp only [inferGuard, clean_bind, clean_requireCompatible] at h
    exact fit_append.mpr ⟨exprPositions_fit guard h.1, fit_cons.mpr ⟨.inr h.2, fit_nil⟩⟩
theorem statementPositions_fit : ∀ (ss : List Statement) {kind : PositionKind} {scope : Scope}
    {expectedResult result : ResolvedType}, kind = .inner ∨ kind = .returned ∧ (∀ required ∈ returns, required = expectedResult) →
      Clean (checkStatements a asyncContext ss scope expectedResult result) →
        Fit (statementPositions a asyncContext returns kind ss scope expectedResult)
  | [], _, _, _, _, _, _ => fit_nil
  | .let_ name ty value _ :: rest, _, _, _, _, hkind, h => by
    simp only [checkStatements, clean_bind] at h
    refine fit_append.mpr ⟨fit_append.mpr ⟨exprPositions_fit value h.2.1, fun p hp => ?_⟩, statementPositions_fit rest hkind h.2.2⟩
    obtain ⟨declared, -, rfl⟩ := List.mem_map.mp hp
    exact .inl rfl
  | .return_ (some value) _ :: rest, _, _, _, _, hkind, h => by
    simp only [checkStatements, inferReturned, clean_bind, clean_requireCompatible] at h
    exact fit_append.mpr ⟨fit_append.mpr ⟨exprPositions_fit value h.1, returnPositions_fit hkind h.2.1⟩,
      statementPositions_fit rest hkind h.2.2⟩
  | .return_ none _ :: rest, _, _, _, _, hkind, h => by
    simp only [checkStatements, inferReturned, clean_bind, clean_requireCompatible, Logged.value_pure] at h
    exact fit_append.mpr ⟨returnPositions_fit hkind h.2.1, statementPositions_fit rest hkind h.2.2⟩
  | .expression e _ :: rest, _, _, _, _, hkind, h => by
    simp only [checkStatements, clean_bind, Analyzer.requireResult] at h
    refine fit_append.mpr ⟨fit_append.mpr ⟨exprPositions_fit e h.1, ?_⟩, statementPositions_fit rest hkind h.2.2⟩
    split_ifs with hrest
    · simp only [hrest, if_true, clean_requireCompatible] at h
      exact fit_cons.mpr ⟨.inr h.2.1, fit_nil⟩
    · exact fit_nil
end

/-! ## What inference does not check -/

/-- Every position of a list is checked. -/
def AllChecked (ps : List Position) : Prop := ∀ p ∈ ps, p.unchecked = false

theorem allChecked_nil : AllChecked [] := fun _ h => by cases h

theorem allChecked_append {u v : List Position} : AllChecked (u ++ v) ↔ AllChecked u ∧ AllChecked v := by
  simp only [AllChecked, List.mem_append, or_imp, forall_and]

theorem allChecked_cons {p : Position} {ps : List Position} : AllChecked (p :: ps) ↔ p.unchecked = false ∧ AllChecked ps := by
  simp only [AllChecked, List.mem_cons, or_imp, forall_and, forall_eq]

mutual
theorem exprPositions_plain : ∀ (e : Expr) {scope : Scope} {expected : Option ResolvedType}, e.plain = true →
    AllChecked (exprPositions a asyncContext returns e scope expected)
  | .mk kind span, _, _, h => kindPositions_plain kind span h
theorem kindPositions_plain : ∀ (kind : ExprKind) (span : Span) {scope : Scope} {expected : Option ResolvedType},
    kind.plain = true → AllChecked (kindPositions a asyncContext returns kind span scope expected)
  | .borrow _ operand, _, _, _, h => exprPositions_plain operand h
  | .await operand, _, _, _, h => exprPositions_plain operand h
  | .literal _, _, _, _, _ => allChecked_nil
  | .path _, _, _, _, _ => allChecked_nil
  | .array items, _, _, _, h => itemPositions_plain items h
  | .call (.mk callee calleeSpan) arguments, span, scope, expected, h => by
    rw [ExprKind.plain, Bool.and_eq_true] at h
    rcases ExprKind.path_or callee calleeSpan with ⟨segments, rfl⟩ | hne
    · rw [kindPositions, allChecked_append]
      refine ⟨?_, argumentPositions_plain arguments h.2⟩
      split_ifs
      · exact firstPositions_plain arguments h.2
      · exact allChecked_nil
    · rw [kindPositions]
      · refine allChecked_append.mpr ⟨exprPositions_plain (.mk callee calleeSpan) h.1, ?_⟩
        split
        · exact argumentPositions_plain arguments h.2
        · exact untypedPositions_plain arguments h.2
      · exact hne
  | .field base _, _, _, _, h => exprPositions_plain base h
  | .unary _ operand, _, _, _, h => exprPositions_plain operand h
  | .binary _ left right, _, _, _, h => by
    rw [ExprKind.plain, Bool.and_eq_true] at h
    exact allChecked_append.mpr ⟨exprPositions_plain left h.1, exprPositions_plain right h.2⟩
  | .match_ value arms, _, _, _, h => by
    rw [ExprKind.plain, Bool.and_eq_true] at h
    exact allChecked_append.mpr ⟨exprPositions_plain value h.1, armPositions_plain arms h.2⟩
  | .block (.mk statements _), _, _, _, h => statementPositions_plain statements (.inl rfl) h
theorem itemPositions_plain : ∀ (es : List Expr) {scope : Scope} {expected : Option ResolvedType} {itemType : ResolvedType},
    itemsPlain es = true → AllChecked (itemPositions a asyncContext returns es scope expected itemType)
  | [], _, _, _, _ => allChecked_nil
  | e :: es, _, _, _, h => by
    rw [itemsPlain, Bool.and_eq_true] at h
    exact allChecked_append.mpr ⟨exprPositions_plain e h.1, allChecked_cons.mpr ⟨rfl, itemPositions_plain es h.2⟩⟩
theorem firstPositions_plain : ∀ (as : List CallArgument) {scope : Scope}, argumentsPlain as = true →
    AllChecked (firstPositions a asyncContext returns as scope)
  | [], _, _ => allChecked_nil
  | .mk _ value _ :: as, _, h => by
    rw [argumentsPlain, Bool.and_eq_true] at h
    exact exprPositions_plain value h.1
theorem untypedPositions_plain : ∀ (as : List CallArgument) {scope : Scope}, argumentsPlain as = true →
    AllChecked (untypedPositions a asyncContext returns as scope)
  | [], _, _ => allChecked_nil
  | .mk _ value _ :: as, _, h => by
    rw [argumentsPlain, Bool.and_eq_true] at h
    exact allChecked_append.mpr ⟨exprPositions_plain value h.1, untypedPositions_plain as h.2⟩
theorem argumentPositions_plain : ∀ (as : List CallArgument) {types : List ResolvedType} {scope : Scope},
    argumentsPlain as = true → AllChecked (argumentPositions a asyncContext returns as types scope)
  | .mk _ value _ :: as, ty :: types, _, h => by
    rw [argumentsPlain, Bool.and_eq_true] at h
    exact allChecked_append.mpr ⟨exprPositions_plain value h.1, allChecked_cons.mpr ⟨rfl, argumentPositions_plain as h.2⟩⟩
  | [], _, _, _ => by
    rw [argumentPositions]
    exact allChecked_nil
  | .mk _ value _ :: as, [], _, h => by
    rw [argumentsPlain, Bool.and_eq_true] at h
    exact allChecked_cons.mpr ⟨rfl, argumentPositions_plain as h.2⟩
theorem armPositions_plain : ∀ (arms : List MatchArm) {valueType : ResolvedType} {scope : Scope}
    {expected : Option ResolvedType} {result : ResolvedType}, armsPlain arms = true →
      AllChecked (armPositions a asyncContext returns arms valueType scope expected result)
  | [], _, _, _, _, _ => allChecked_nil
  | .mk pattern guard body _ :: arms, _, _, _, _, h => by
    rw [armsPlain, Bool.and_eq_true, Bool.and_eq_true] at h
    exact allChecked_append.mpr ⟨guardPositions_plain guard h.1.1, allChecked_append.mpr ⟨exprPositions_plain body h.1.2,
      allChecked_cons.mpr ⟨rfl, armPositions_plain arms h.2⟩⟩⟩
theorem guardPositions_plain : ∀ (guard : Option Expr) {scope : Scope}, optionPlain guard = true →
    AllChecked (guardPositions a asyncContext returns guard scope)
  | none, _, _ => allChecked_nil
  | some guard, _, h => allChecked_append.mpr ⟨exprPositions_plain guard h, allChecked_cons.mpr ⟨rfl, allChecked_nil⟩⟩
theorem statementPositions_plain : ∀ (ss : List Statement) {kind : PositionKind} {inner : Bool} {scope : Scope}
    {expectedResult : ResolvedType}, inner = true ∨ kind = .returned → statementsPlain inner ss = true →
      AllChecked (statementPositions a asyncContext returns kind ss scope expectedResult)
  | [], _, _, _, _, _, _ => allChecked_nil
  | .let_ name none value _ :: rest, _, _, _, _, hkind, h => by
    simp only [statementsPlain, Option.isNone_none, Bool.true_and, Bool.and_eq_true] at h
    exact allChecked_append.mpr ⟨allChecked_append.mpr ⟨exprPositions_plain value h.1, allChecked_nil⟩,
      statementPositions_plain rest hkind h.2⟩
  | .let_ _ (some _) _ _ :: _, _, _, _, _, _, h => by simp [statementsPlain] at h
  | .return_ value _ :: rest, _, inner, _, _, hkind, h => by
    simp only [statementsPlain, Bool.and_eq_true, Bool.not_eq_true'] at h
    obtain ⟨⟨hinner, hvalue⟩, hrest⟩ := h
    have hreturned : ∀ actual : ResolvedType, AllChecked (returnPositions returns .returned actual) := fun actual p hp => by
      obtain ⟨required, -, rfl⟩ := List.mem_map.mp hp
      rfl
    rcases hkind with htrue | rfl
    · rw [hinner] at htrue
      cases htrue
    cases value with
    | none => exact allChecked_append.mpr ⟨hreturned _, statementPositions_plain rest (.inr rfl) hrest⟩
    | some value => exact allChecked_append.mpr ⟨allChecked_append.mpr ⟨exprPositions_plain value hvalue, hreturned _⟩,
        statementPositions_plain rest (.inr rfl) hrest⟩
  | .expression e _ :: rest, _, _, _, _, hkind, h => by
    rw [statementsPlain, Bool.and_eq_true] at h
    refine allChecked_append.mpr ⟨allChecked_append.mpr ⟨exprPositions_plain e h.1, ?_⟩, statementPositions_plain rest hkind h.2⟩
    split_ifs
    · exact allChecked_cons.mpr ⟨rfl, allChecked_nil⟩
    · exact allChecked_nil
end

end

/-! ## Files -/

def initializerPositions (a : Analyzer) : List StateField → List ResolvedType → List Position
  | field :: fields, expected :: types =>
    (match field.initializer with
      | some initializer => exprPositions a false none initializer OrdMap.empty (some expected) ++
        [⟨.initializer, expected, (inferExpr a false initializer OrdMap.empty (some expected)).value⟩]
      | none             => []) ++ initializerPositions a fields types
  | [], _ => []
  | _, [] => []

def bodyPositions (a : Analyzer) : Item → List Position
  | .function ⟨_, asynchronous, name, parameters, _, _, .mk statements _, _⟩ => match a.functions.get? name with
    | some signature => statementPositions a asynchronous (some signature.result) .returned statements
      (Analyzer.parameterScope parameters signature.parameters) signature.result
    | none           => []
  | .state node    => initializerPositions a node.fields ((a.states.get? node.name).getD [])
  | .pipeline node => match property node.fields "result" with
    | some result =>
      let signature := (a.functions.get? node.name).getD ⟨[], .unit⟩
      let scope := Analyzer.parameterScope node.parameters signature.parameters
      let declared := declaredResult a node result
      exprPositions a false (some signature.result) result.value scope (some declared) ++
        [⟨.final, signature.result, declared⟩, ⟨.final, declared, (inferExpr a false result.value scope (some declared)).value⟩]
    | none        => []
  | _              => []

def filePositions (a : Analyzer) (ast : SourceFile) : List Position := ast.items.flatMap (bodyPositions a)

/-- The body of a function with a result ends in a value or in a `return`. -/
def bodyEnds (a : Analyzer) : Item → Bool
  | .function ⟨_, _, name, _, _, _, .mk statements _, _⟩ => match a.functions.get? name with
    | some signature => signature.result = .unit || statementsEnd statements
    | none           => true
  | _ => true

section
variable {a : Analyzer}

theorem initializerPositions_fit : ∀ {fields : List StateField} {types : List ResolvedType},
    Clean (a.checkInitializers fields types) → Fit (initializerPositions a fields types)
  | field :: fields, expected :: types, h => by
    rw [initializerPositions, fit_append]
    cases hinit : field.initializer with
    | none =>
      simp only [Analyzer.checkInitializers, hinit] at h
      exact ⟨fit_nil, initializerPositions_fit h⟩
    | some initializer =>
      simp only [Analyzer.checkInitializers, hinit, clean_bind, clean_requireCompatible] at h
      exact ⟨fit_append.mpr ⟨exprPositions_fit initializer h.1, fit_cons.mpr ⟨.inr h.2.1, fit_nil⟩⟩,
        initializerPositions_fit h.2.2⟩
  | [], _, _ => by
    rw [initializerPositions]
    exact fit_nil
  | _ :: _, [], _ => fit_nil

theorem bodyPositions_fit {item : Item} (h : Clean (a.checkBody item)) : Fit (bodyPositions a item) := by
  cases item with
  | function node =>
    obtain ⟨_, _, _, _, _, _, ⟨statements, span⟩, _⟩ := node
    simp only [Analyzer.checkBody, Analyzer.checkFunction] at h
    simp only [bodyPositions]
    split at h
    · rename_i hnone
      rw [hnone]
      exact fit_nil
    · rename_i signature hsome
      rw [hsome]
      simp only [checkBlock, clean_bind] at h
      exact statementPositions_fit statements (.inr ⟨rfl, fun required hr => (Option.some.inj hr).symm⟩) h.1.1
  | state node => exact initializerPositions_fit h
  | pipeline node =>
    simp only [Analyzer.checkBody, Analyzer.checkPipeline, clean_bind] at h
    simp only [bodyPositions]
    split
    · rename_i result hresult
      simp only [hresult, clean_bind, clean_requireCompatible] at h
      exact fit_append.mpr ⟨exprPositions_fit result.value h.2.2.2.1,
        fit_cons.mpr ⟨.inr h.2.2.1, fit_cons.mpr ⟨.inr h.2.2.2.2, fit_nil⟩⟩⟩
    · exact fit_nil
  | _ => exact fit_nil

theorem initializerPositions_plain : ∀ {fields : List StateField} {types : List ResolvedType},
    (∀ field ∈ fields, optionPlain field.initializer = true) → AllChecked (initializerPositions a fields types)
  | field :: fields, expected :: types, h => by
    have hrest : AllChecked (initializerPositions a fields types) :=
      initializerPositions_plain fun field hf => h field (List.mem_cons_of_mem _ hf)
    have hfield := h field List.mem_cons_self
    rw [initializerPositions, allChecked_append]
    cases hinit : field.initializer with
    | none => exact ⟨allChecked_nil, hrest⟩
    | some initializer =>
      rw [hinit] at hfield
      exact ⟨allChecked_append.mpr ⟨exprPositions_plain initializer hfield, allChecked_cons.mpr ⟨rfl, allChecked_nil⟩⟩, hrest⟩
  | [], _, _ => by
    rw [initializerPositions]
    exact allChecked_nil
  | _ :: _, [], _ => allChecked_nil

theorem bodyPositions_plain {item : Item} (h : item.plain = true) : AllChecked (bodyPositions a item) := by
  cases item with
  | function node =>
    obtain ⟨_, _, _, _, _, _, ⟨statements, span⟩, _⟩ := node
    simp only [bodyPositions]
    split
    · exact statementPositions_plain statements (.inr rfl) h
    · exact allChecked_nil
  | state node => exact initializerPositions_plain (List.all_eq_true.mp h)
  | pipeline node =>
    simp only [bodyPositions]
    split
    · rename_i result hresult
      have hvalue := List.all_eq_true.mp h result (List.mem_of_find?_eq_some hresult)
      exact allChecked_append.mpr ⟨exprPositions_plain result.value hvalue,
        allChecked_cons.mpr ⟨rfl, allChecked_cons.mpr ⟨rfl, allChecked_nil⟩⟩⟩
    · exact allChecked_nil
  | _ => exact allChecked_nil

end

/-- **In a file without diagnostics every position fits and every body ends exactly where the annotated `let`s and the inner
`return`s fit and every body ends; without annotated `let`s and inner `return`s every position fits.** -/
theorem positions_fit_iff {file : String} {ast : SourceFile} {imports : List (String × Item)}
    (h : (analyzeWithImports file ast imports).diagnostics = []) :
    let a := (declared file ast imports).value
    ((∀ p ∈ filePositions a ast, p.fits = true) ∧ (∀ item ∈ ast.items, bodyEnds a item = true) ↔
      (∀ p ∈ filePositions a ast, p.unchecked = true → p.fits = true) ∧ ∀ item ∈ ast.items, bodyEnds a item = true) ∧
    ((∀ item ∈ ast.items, item.plain = true) → ∀ p ∈ filePositions a ast, p.fits = true) := by
  intro a
  have hclean := clean_bind.mp (AstLower.clean_analyzed h)
  have hbodies : Clean (a.checkBodies ast.items) := (clean_bind.mp hclean.2).1
  have hfit : Fit (filePositions a ast) := fun p hp => by
    obtain ⟨item, hitem, hmem⟩ := List.mem_flatMap.mp hp
    exact bodyPositions_fit (AstLower.clean_checkBodies hbodies item hitem) p hmem
  refine ⟨and_congr_left fun _ => ⟨fun hall p hp _ => hall p hp, fun hall p hp => ?_⟩, fun hplain p hp => ?_⟩
  · exact (hfit p hp).elim (hall p hp) id
  · obtain ⟨item, hitem, hmem⟩ := List.mem_flatMap.mp hp
    have hchecked := bodyPositions_plain (hplain item hitem) p hmem
    exact (hfit p hp).resolve_left (by simp [hchecked])

/-! ## What goes unchecked -/

/-- `fn f() -> U64`, with a body. -/
def numbered (statements : List Statement) : SourceFile :=
  ⟨none, [], [.function
    { isPublic := false, asynchronous := false, name := "f", parameters := []
      returnType := some (.path ["U64"] [] default), effects := none
      body := .mk statements default, span := default }], default⟩

/-- `{ let x = 1  x }`. -/
def plainBody : List Statement :=
  [.let_ "x" none (.mk (.literal (.integer 1)) default) default,
    .expression (.mk (.literal (.identifier "x")) default) default]

/-- `{ let x: U64 = "a"  x }`. -/
def annotatedBody : List Statement :=
  [.let_ "x" (some (.path ["U64"] [] default)) (.mk (.literal (.string "a")) default) default,
    .expression (.mk (.literal (.identifier "x")) default) default]

/-- `{ { return "a" }  1 }`. -/
def innerBody : List Statement :=
  [.expression (.mk (.block (.mk [.return_ (some (.mk (.literal (.string "a")) default)) default] default)) default) default,
    .expression (.mk (.literal (.integer 1)) default) default]

/-- `{ let x = 1 }`. -/
def openBody : List Statement := [.let_ "x" none (.mk (.literal (.integer 1)) default) default]

theorem plainBody_fits :
    (analyzeWithImports "a.syl" (numbered plainBody) []).diagnostics = [] ∧
    ∀ p ∈ filePositions (declared "a.syl" (numbered plainBody) []).value (numbered plainBody), p.fits = true := by
  have hclean : (analyzeWithImports "a.syl" (numbered plainBody) []).diagnostics = [] := by decide +kernel
  exact ⟨hclean, (positions_fit_iff hclean).2 (by decide)⟩

/-- A string in a `let` of a number, a string returned from a function of a number, and a body with no result: all are
accepted. -/
theorem unchecked_positions :
    ((analyze "a.syl" (numbered annotatedBody)).diagnostics = [] ∧
      ∃ p ∈ filePositions (declared "a.syl" (numbered annotatedBody) []).value (numbered annotatedBody),
        p.kind = .annotated ∧ p.required = .primitive (.unsigned "U64") ∧ p.actual = stringType ∧ p.fits = false) ∧
    ((analyze "a.syl" (numbered innerBody)).diagnostics = [] ∧
      ∃ p ∈ filePositions (declared "a.syl" (numbered innerBody) []).value (numbered innerBody),
        p.kind = .inner ∧ p.required = .primitive (.unsigned "U64") ∧ p.actual = stringType ∧ p.fits = false) ∧
    (analyze "a.syl" (numbered openBody)).diagnostics = [] ∧
      ∃ item ∈ (numbered openBody).items, bodyEnds (declared "a.syl" (numbered openBody) []).value item = false := by
  refine ⟨⟨by decide +kernel, by decide +kernel⟩, ⟨by decide +kernel, by decide +kernel⟩, by decide +kernel, by decide +kernel⟩

end Semantic
end Syllog
