import Syllog.SingleFile
/-!
# Visits — where inference goes

Inference takes an expression together with the names in scope and with what the context expects.  The visits are listed in the
order their types are recorded; the first argument of a constructor whose context gives no type is visited twice.
-/
namespace Syllog
namespace Semantic

open Hir Ast

structure Visit where
  asyncContext : Bool
  expression : Expr
  scope : Scope
  expected : Option ResolvedType

/-- The type the context expects of the elements of an array. -/
def expectedItem : Option ResolvedType → Option ResolvedType
  | some (.array item) => some item
  | _                  => none

/-- A constructor infers its first argument where the context does not give the type. -/
def infersFirst (segments : List String) (expected : Option ResolvedType) : Bool :=
  match splitConstructorPath segments with
  | none                         => false
  | some (typeName, variantName) =>
    if typeName = "Option" then
      match expected with
      | some (.option _) => false
      | _                => true
    else if typeName = "Result" then
      match expected with
      | some (.result _ _) => false
      | _                  => variantName = "ok" || variantName = "err"
    else false

/-- The fields of a constructor, none where it is not known. -/
def constructorFields (a : Analyzer) (segments : List String) (first : Checked ResolvedType) (span : Span)
    (expected : Option ResolvedType) : List ResolvedType :=
  match splitConstructorPath segments with
  | none                         => []
  | some (typeName, variantName) =>
    ((constructorOf a typeName variantName first span expected).value.map (·.1)).getD []

mutual
def exprVisits (a : Analyzer) (asyncContext : Bool) : Expr → Scope → Option ResolvedType → List Visit
  | .mk kind span, scope, expected => kindVisits a asyncContext kind span scope expected ++ [⟨asyncContext, .mk kind span, scope, expected⟩]
def kindVisits (a : Analyzer) (asyncContext : Bool) : ExprKind → Span → Scope → Option ResolvedType → List Visit
  | .borrow _ operand, _, scope, _       => exprVisits a asyncContext operand scope none
  | .await operand, _, scope, expected   => exprVisits a asyncContext operand scope expected
  | .literal _, _, _, _                  => []
  | .path _, _, _, _                     => []
  | .array items, _, scope, expected     => itemVisits a asyncContext items scope (expectedItem expected)
  | .call (.mk (.path segments) _) arguments, span, scope, expected =>
    (if infersFirst segments expected then firstVisits a asyncContext arguments scope else []) ++
      argumentVisits a asyncContext arguments
        (constructorFields a segments (inferFirst a asyncContext arguments scope) span expected) scope
  | .call callee arguments, _, scope, _  =>
    exprVisits a asyncContext callee scope none ++
      match (inferExpr a asyncContext callee scope none).value with
      | .function parameters _ => argumentVisits a asyncContext arguments parameters scope
      | _                      => untypedVisits a asyncContext arguments scope
  | .field base _, _, scope, _           => exprVisits a asyncContext base scope none
  | .unary _ operand, _, scope, _        => exprVisits a asyncContext operand scope none
  | .binary _ left right, _, scope, _    =>
    exprVisits a asyncContext left scope none ++
      exprVisits a asyncContext right scope (some (inferExpr a asyncContext left scope none).value)
  | .match_ value arms, _, scope, expected =>
    exprVisits a asyncContext value scope none ++
      armVisits a asyncContext arms (inferExpr a asyncContext value scope none).value scope expected
  | .block (.mk statements _), _, scope, expected => statementVisits a asyncContext statements scope (expected.getD .unknown)
def itemVisits (a : Analyzer) (asyncContext : Bool) : List Expr → Scope → Option ResolvedType → List Visit
  | [], _, _               => []
  | e :: es, scope, expected => exprVisits a asyncContext e scope expected ++ itemVisits a asyncContext es scope expected
def firstVisits (a : Analyzer) (asyncContext : Bool) : List CallArgument → Scope → List Visit
  | [], _                     => []
  | .mk _ value _ :: _, scope => exprVisits a asyncContext value scope none
def untypedVisits (a : Analyzer) (asyncContext : Bool) : List CallArgument → Scope → List Visit
  | [], _                      => []
  | .mk _ value _ :: as, scope => exprVisits a asyncContext value scope none ++ untypedVisits a asyncContext as scope
def argumentVisits (a : Analyzer) (asyncContext : Bool) : List CallArgument → List ResolvedType → Scope → List Visit
  | .mk _ value _ :: as, ty :: tys, scope =>
    exprVisits a asyncContext value scope (some ty) ++ argumentVisits a asyncContext as tys scope
  | [], _, _ => []
  | _, [], _ => []
def armVisits (a : Analyzer) (asyncContext : Bool) : List MatchArm → ResolvedType → Scope → Option ResolvedType → List Visit
  | [], _, _, _ => []
  | .mk pattern guard body _ :: arms, valueType, scope, expected =>
    guardVisits a asyncContext guard (checkPattern a pattern valueType scope).value ++
      exprVisits a asyncContext body (checkPattern a pattern valueType scope).value expected ++
      armVisits a asyncContext arms valueType scope expected
def guardVisits (a : Analyzer) (asyncContext : Bool) : Option Expr → Scope → List Visit
  | none, _           => []
  | some guard, scope => exprVisits a asyncContext guard scope (some boolType)
def statementVisits (a : Analyzer) (asyncContext : Bool) : List Statement → Scope → ResolvedType → List Visit
  | [], _, _ => []
  | .let_ name ty value _ :: rest, scope, expectedResult =>
    exprVisits a asyncContext value scope (resolveOption a ty).value ++
      statementVisits a asyncContext rest (scope.insert name ((resolveOption a ty).value.getD
        (inferExpr a asyncContext value scope (resolveOption a ty).value).value)) expectedResult
  | .return_ (some value) _ :: rest, scope, expectedResult =>
    exprVisits a asyncContext value scope (some expectedResult) ++ statementVisits a asyncContext rest scope expectedResult
  | .return_ none _ :: rest, scope, expectedResult => statementVisits a asyncContext rest scope expectedResult
  | .expression e _ :: rest, scope, expectedResult =>
    exprVisits a asyncContext e scope (if rest.isEmpty then some expectedResult else none) ++
      statementVisits a asyncContext rest scope expectedResult
end

theorem kindVisits_call {a : Analyzer} {asyncContext : Bool} {callee : Expr} {arguments : List CallArgument} {span : Span}
    {scope : Scope} {expected : Option ResolvedType} (hne : ∀ segments span', callee = .mk (.path segments) span' → False) :
    kindVisits a asyncContext (.call callee arguments) span scope expected =
      exprVisits a asyncContext callee scope none ++
        match (inferExpr a asyncContext callee scope none).value with
        | .function parameters _ => argumentVisits a asyncContext arguments parameters scope
        | _                      => untypedVisits a asyncContext arguments scope := by
  rw [kindVisits]
  exact hne

/-- The type a visit infers. -/
def Visit.infer (a : Analyzer) (v : Visit) : Checked ResolvedType :=
  inferExpr a v.asyncContext v.expression v.scope v.expected

/-- What a visit records. -/
def Visit.recorded (a : Analyzer) (v : Visit) : Span × ResolvedType :=
  (v.expression.span, (v.infer a).value)

/-! ## What is recorded -/

/-- The types a check records. -/
def recorded {α : Type} (x : Checked α) : List (Span × ResolvedType) := x.log.filterMap Note.typed?

@[simp] theorem recorded_pure {α : Type} (v : α) : recorded (pure v : Checked α) = [] := rfl

@[simp] theorem recorded_bind {α β : Type} (x : Checked α) (f : α → Checked β) :
    recorded (x >>= f) = recorded x ++ recorded (f x.value) := by simp [recorded]

@[simp] theorem recorded_typed (span : Span) (ty : ResolvedType) : recorded (Logged.tell (Note.typed span ty)) = [(span, ty)] := rfl

section
variable {a : Analyzer} {asyncContext : Bool}

@[simp] theorem recorded_error (code message : String) (span : Span) : recorded (a.error code message span) = [] := rfl

@[simp] theorem recorded_require (holds : Bool) (code message : String) (span : Span) :
    recorded (a.require holds code message span) = [] := by
  unfold Analyzer.require
  split_ifs <;> rfl

@[simp] theorem recorded_requireCompatible (expected actual : ResolvedType) (span : Span) (context : String) :
    recorded (a.requireCompatible expected actual span context) = [] := recorded_require ..

@[simp] theorem recorded_joinType (sofar actual : ResolvedType) (span : Span) (context : String) :
    recorded (joinType a sofar actual span context) = [] := by
  unfold joinType
  split_ifs <;> simp

@[simp] theorem recorded_ite {α : Type} {p : Prop} [Decidable p] (x y : Checked α) :
    recorded (if p then x else y) = if p then recorded x else recorded y := by split_ifs <;> rfl

@[simp] theorem recorded_resolveNamed (name : String) (arity : Nat) (span : Span) :
    recorded (resolveNamed a name arity span) = [] := by
  unfold resolveNamed Analyzer.typeArityError
  split <;> simp

mutual
@[simp] theorem recorded_resolveType : ∀ t : TypeNode, recorded (resolveType a t) = []
  | .reference _ _ inner _ => by simp [resolveType, recorded_resolveType inner]
  | .array inner _ => by simp [resolveType, recorded_resolveType inner]
  | .tuple [] _ => rfl
  | .tuple (t :: ts) _ => by
    have h := recorded_resolveTypes (t :: ts)
    simp [resolveType, h]
  | .path [] _ _ => by simp [resolveType]
  | .path (_ :: _ :: _) _ _ => by simp [resolveType]
  | .path [name] [] span => by
    simp only [resolveType, Analyzer.typeArityError]
    split_ifs <;> simp
  | .path [name] [item] span => by
    simp only [resolveType, Analyzer.typeArityError]
    split_ifs <;> simp [recorded_resolveType item]
  | .path [name] [ok, err] span => by
    simp only [resolveType, Analyzer.typeArityError]
    split_ifs <;> simp [recorded_resolveType ok, recorded_resolveType err]
  | .path [name] (_ :: _ :: _ :: _) span => by
    simp only [resolveType, Analyzer.typeArityError]
    split_ifs <;> simp
theorem recorded_resolveTypes : ∀ ts : List TypeNode, recorded (resolveTypes a ts) = []
  | [] => rfl
  | t :: ts => by simp [resolveTypes, recorded_resolveType t, recorded_resolveTypes ts]
end

@[simp] theorem recorded_resolveOption (ty : Option TypeNode) : recorded (resolveOption a ty) = [] := by
  cases ty <;> simp [resolveOption]

@[simp] theorem recorded_patternPayload (segments : List String) (expected : ResolvedType) (span : Span) :
    recorded (patternPayload a segments expected span) = [] := by
  unfold patternPayload Analyzer.unknownVariant
  split
  · simp
  · by_cases herror : expected = .error
    · simp [herror]
    · simp only [if_neg herror]
      split <;> simp

mutual
@[simp] theorem recorded_checkPattern : ∀ (p : Pattern) (expected : ResolvedType) (scope : Scope),
    recorded (checkPattern a p expected scope) = []
  | .wildcard _, _, _ => rfl
  | .literal _ _, _, _ => by simp [checkPattern]
  | .path [_] _, _, _ => rfl
  | .path [] _, _, _ | .path (_ :: _ :: _) _, _, _ => by
    simp only [checkPattern, patternArity, recorded_bind, recorded_patternPayload, List.nil_append]
    split <;> simp
  | .constructor _ fields _, _, _ => by
    simp only [checkPattern, patternArity, recorded_bind, recorded_patternPayload, List.nil_append]
    split
    · simp
    · simp [recorded_checkPatterns fields]
theorem recorded_checkPatterns : ∀ (ps : List Pattern) (types : List ResolvedType) (scope : Scope),
    recorded (checkPatterns a ps types scope) = []
  | p :: ps, ty :: types, scope => by simp [checkPatterns, recorded_checkPattern p, recorded_checkPatterns ps]
  | [], _, _ => rfl
  | _ :: _, [], _ => rfl
end

theorem recorded_optionItem (variantName : String) (first : Checked ResolvedType) (expected : Option ResolvedType) :
    recorded (optionItem first expected) = if infersFirst ["Option", variantName] expected then recorded first else [] := by
  simp only [infersFirst, splitConstructorPath, if_true]
  unfold optionItem
  split <;> simp

theorem recorded_resultSides (variantName : String) (first : Checked ResolvedType) (expected : Option ResolvedType) :
    recorded (resultSides variantName first expected) =
      if infersFirst ["Result", variantName] expected then recorded first else [] := by
  have hne : "Result" ≠ "Option" := by decide
  simp only [infersFirst, splitConstructorPath, if_neg hne, if_true]
  unfold resultSides
  split
  · rfl
  · by_cases hok : variantName = "ok"
    · simp [hok]
    by_cases herr : variantName = "err"
    · simp [herr]
    · simp [hok, herr]

theorem recorded_constructorOf (typeName variantName : String) (first : Checked ResolvedType) (span : Span)
    (expected : Option ResolvedType) : recorded (constructorOf a typeName variantName first span expected) =
      if infersFirst [typeName, variantName] expected then recorded first else [] := by
  unfold constructorOf Analyzer.unknownVariant
  by_cases hoption : typeName = "Option"
  · subst hoption
    simp only [if_true, recorded_bind, recorded_ite, recorded_pure, recorded_error, ite_self, List.append_nil,
      recorded_optionItem variantName]
  rw [if_neg hoption]
  by_cases hresult : typeName = "Result"
  · subst hresult
    simp only [if_true, recorded_bind, recorded_resultSides variantName]
    rcases (resultSides variantName first expected).value with _ | ⟨ok, err⟩
    · simp only [recorded_bind, recorded_error, recorded_pure, List.append_nil]
    · simp only [recorded_ite, recorded_bind, recorded_error, recorded_pure, ite_self, List.append_nil]
  rw [if_neg hresult]
  have hnot : infersFirst [typeName, variantName] expected = false := by
    simp [infersFirst, splitConstructorPath, hoption, hresult]
  rw [hnot]
  cases a.enums.get? typeName with
  | none => simp
  | some variants => cases hfind : variants.find? (·.1 = variantName) <;> simp [hfind]

theorem recorded_inferConstructorCall {segments : List String} {count : Nat} {first : Checked ResolvedType}
    {arguments : List ResolvedType → Checked Unit} {span : Span} {expected : Option ResolvedType} (hnil : recorded (arguments []) = []) :
    recorded (inferConstructorCall a segments count first arguments span expected) =
      (if infersFirst segments expected then recorded first else []) ++
        recorded (arguments (constructorFields a segments first span expected)) := by
  unfold inferConstructorCall constructorFields
  match hpath : splitConstructorPath segments with
  | none =>
    have hnot : infersFirst segments expected = false := by simp [infersFirst, hpath]
    simp [hnot, hnil]
  | some (typeName, variantName) =>
    have hsegments : segments = [typeName, variantName] := by
      unfold splitConstructorPath at hpath
      split at hpath <;> simp_all
    subst hsegments
    simp only [recorded_bind, recorded_constructorOf]
    cases (constructorOf a typeName variantName first span expected).value with
    | none => simp [hnil]
    | some result => simp

theorem recorded_inferLiteral (span : Span) (scope : Scope) (expected : Option ResolvedType) (literal : Literal) :
    recorded (inferLiteral a span scope expected literal) = [] := by
  cases literal with
  | identifier name =>
    simp only [inferLiteral]
    split_ifs
    · split <;> simp
    · split
      · rfl
      · split <;> simp
  | string _ => rfl
  | integer _ => rfl
  | float _ => rfl
  | boolean _ => rfl

theorem recorded_inferPath (segments : List String) (span : Span) : recorded (inferPath a segments span) = [] := by
  unfold inferPath
  split <;> simp

theorem recorded_fieldType (baseType : ResolvedType) (name : String) (span : Span) :
    recorded (fieldType a baseType name span) = [] := by
  unfold fieldType
  split
  · split <;> simp
  · rfl

theorem recorded_unaryResult (operator : UnaryOperator) (operandType : ResolvedType) (span : Span) :
    recorded (unaryResult a operator operandType span) = [] := by
  cases operator <;> simp [unaryResult]

theorem recorded_binaryResult (operator : BinaryOperator) (leftType rightType : ResolvedType) (leftSpan rightSpan : Span) :
    recorded (binaryResult a operator leftType rightType leftSpan rightSpan) = [] := by
  cases operator <;> simp [binaryResult]

/-! ## The record of an expression -/

mutual
/-- **What inference records is the visits, in order.** -/
theorem recorded_inferExpr : ∀ (e : Expr) (scope : Scope) (expected : Option ResolvedType),
    recorded (inferExpr a asyncContext e scope expected) =
      (exprVisits a asyncContext e scope expected).map (Visit.recorded a)
  | .mk kind span, scope, expected => by
    rw [exprVisits, List.map_append, ← recorded_inferExprKind kind span scope expected]
    simp only [inferExpr, recorded_bind, recorded_typed, recorded_pure, List.append_nil, List.map_cons, List.map_nil,
      Visit.recorded, Visit.infer, Expr.span, Logged.value_bind, Logged.value_pure]
theorem recorded_inferExprKind : ∀ (kind : ExprKind) (span : Span) (scope : Scope) (expected : Option ResolvedType),
    recorded (inferExprKind a asyncContext kind span scope expected) =
      (kindVisits a asyncContext kind span scope expected).map (Visit.recorded a)
  | .borrow _ operand, _, _, _ => by simp [inferExprKind, kindVisits, recorded_inferExpr operand]
  | .await operand, _, _, _ => by simp [inferExprKind, kindVisits, recorded_inferExpr operand]
  | .literal literal, _, scope, expected => by
    simp only [inferExprKind, kindVisits, List.map_nil]
    exact recorded_inferLiteral ..
  | .path segments, _, _, _ => by
    simp only [inferExprKind, kindVisits, List.map_nil]
    exact recorded_inferPath ..
  | .array items, _, scope, expected => by
    simp only [inferExprKind, kindVisits, recorded_bind, recorded_pure, List.append_nil, recorded_inferItems items]
    rfl
  | .call (.mk callee calleeSpan) arguments, span, scope, expected => by
    rcases ExprKind.path_or callee calleeSpan with ⟨segments, rfl⟩ | hne
    · have hnil : recorded (checkArguments a asyncContext arguments [] scope "constructor argument") = [] := by
        rw [recorded_checkArguments arguments]
        cases arguments <;> simp [argumentVisits]
      rw [inferExprKind, kindVisits, recorded_inferConstructorCall hnil, recorded_checkArguments arguments, List.map_append]
      congr 1
      split_ifs
      · exact recorded_inferFirst arguments scope
      · rfl
    · rw [inferExprKind, kindVisits_call hne, recorded_bind, List.map_append, recorded_inferExpr (.mk callee calleeSpan) scope none]
      · congr 1
        split
        · rename_i parameters result heq
          simp [recorded_checkArguments arguments, heq]
        · simp only [recorded_bind, recorded_require, recorded_inferArguments arguments, recorded_pure, List.nil_append,
            List.append_nil]
      · exact hne
  | .field base name, span, scope, _ => by
    simp only [inferExprKind, kindVisits, recorded_bind, recorded_inferExpr base, recorded_fieldType, List.append_nil]
  | .unary operator operand, _, _, _ => by
    simp only [inferExprKind, kindVisits, recorded_bind, recorded_inferExpr operand, recorded_unaryResult, List.append_nil]
  | .binary _ left right, _, _, _ => by
    simp only [inferExprKind, kindVisits, recorded_bind, recorded_inferExpr left, recorded_inferExpr right,
      recorded_binaryResult, List.append_nil, List.map_append]
  | .match_ value arms, _, _, _ => by
    simp only [inferExprKind, kindVisits, recorded_bind, recorded_inferExpr value, recorded_inferArms arms, checkExhaustive,
      recorded_require, recorded_pure, List.append_nil, List.map_append]
  | .block (.mk statements _), _, _, _ => by
    simp only [inferExprKind, kindVisits, Analyzer.requireUnit, recorded_bind, recorded_checkStatements statements,
      recorded_ite, recorded_requireCompatible, recorded_pure, ite_self, List.append_nil]
theorem recorded_inferItems : ∀ (es : List Expr) (scope : Scope) (expected : Option ResolvedType) (itemType : ResolvedType),
    recorded (inferItems a asyncContext es scope expected itemType) =
      (itemVisits a asyncContext es scope expected).map (Visit.recorded a)
  | [], _, _, _ => rfl
  | e :: es, _, _, _ => by simp [inferItems, itemVisits, recorded_inferExpr e, recorded_inferItems es]
theorem recorded_inferFirst : ∀ (as : List CallArgument) (scope : Scope),
    recorded (inferFirst a asyncContext as scope) = (firstVisits a asyncContext as scope).map (Visit.recorded a)
  | [], _ => rfl
  | .mk _ value _ :: _, _ => by simp [inferFirst, firstVisits, recorded_inferExpr value]
theorem recorded_inferArguments : ∀ (as : List CallArgument) (scope : Scope),
    recorded (inferArguments a asyncContext as scope) =
      (untypedVisits a asyncContext as scope).map (Visit.recorded a)
  | [], _ => rfl
  | .mk _ value _ :: as, _ => by
    simp [inferArguments, untypedVisits, recorded_inferExpr value, recorded_inferArguments as]
theorem recorded_checkArguments : ∀ (as : List CallArgument) (types : List ResolvedType) (scope : Scope) (context : String),
    recorded (checkArguments a asyncContext as types scope context) =
      (argumentVisits a asyncContext as types scope).map (Visit.recorded a)
  | .mk _ value _ :: as, ty :: types, _, _ => by
    simp [checkArguments, argumentVisits, recorded_inferExpr value, recorded_checkArguments as]
  | [], _, _, _ => by simp [checkArguments, argumentVisits]
  | .mk _ _ _ :: _, [], _, _ => rfl
theorem recorded_inferArms : ∀ (arms : List MatchArm) (valueType : ResolvedType) (scope : Scope)
    (expected : Option ResolvedType) (result : ResolvedType),
    recorded (inferArms a asyncContext arms valueType scope expected result) =
      (armVisits a asyncContext arms valueType scope expected).map (Visit.recorded a)
  | [], _, _, _, _ => rfl
  | .mk pattern guard body _ :: arms, _, _, _, _ => by
    simp [inferArms, armVisits, recorded_inferGuard guard, recorded_inferExpr body, recorded_inferArms arms]
theorem recorded_inferGuard : ∀ (guard : Option Expr) (scope : Scope),
    recorded (inferGuard a asyncContext guard scope) = (guardVisits a asyncContext guard scope).map (Visit.recorded a)
  | none, _ => rfl
  | some guard, _ => by simp [inferGuard, guardVisits, recorded_inferExpr guard]
theorem recorded_checkStatements : ∀ (ss : List Statement) (scope : Scope) (expectedResult result : ResolvedType),
    recorded (checkStatements a asyncContext ss scope expectedResult result) =
      (statementVisits a asyncContext ss scope expectedResult).map (Visit.recorded a)
  | [], _, _, _ => rfl
  | .let_ name ty value _ :: rest, _, _, _ => by
    simp [checkStatements, statementVisits, recorded_inferExpr value, recorded_checkStatements rest]
  | .return_ (some value) _ :: rest, _, _, _ => by
    simp [checkStatements, inferReturned, statementVisits, recorded_inferExpr value, recorded_checkStatements rest]
  | .return_ none _ :: rest, _, _, _ => by
    simp [checkStatements, inferReturned, statementVisits, recorded_checkStatements rest]
  | .expression e _ :: rest, _, _, _ => by
    simp only [checkStatements, statementVisits, Analyzer.requireResult, recorded_bind, recorded_inferExpr e, recorded_ite,
      recorded_requireCompatible, recorded_pure, ite_self, List.nil_append, recorded_checkStatements rest, List.map_append]
end

/-! ## Visits of a walk that reports nothing -/

theorem clean_joinType {sofar actual : ResolvedType} {span : Span} {context : String} :
    Clean (joinType a sofar actual span context) ↔ sofar = .unknown ∨ compatible sofar actual = true := by
  unfold joinType
  split_ifs with hunknown
  · simp [hunknown]
  · simp [Analyzer.requireCompatible, clean_require, hunknown]

theorem clean_first {typeName variantName : String} {first : Checked ResolvedType} {span : Span} {expected : Option ResolvedType}
    (h : Clean (constructorOf a typeName variantName first span expected))
    (hinfers : infersFirst [typeName, variantName] expected = true) : Clean first := by
  simp only [infersFirst, splitConstructorPath] at hinfers
  unfold constructorOf at h
  by_cases hoption : typeName = "Option"
  · rw [if_pos hoption, clean_bind] at h
    rw [if_pos hoption] at hinfers
    obtain ⟨h, -⟩ := h
    unfold optionItem at h
    split at h
    · cases hinfers
    · exact h
  rw [if_neg hoption] at h hinfers
  by_cases hresult : typeName = "Result"
  · rw [if_pos hresult, clean_bind] at h
    rw [if_pos hresult] at hinfers
    obtain ⟨h, -⟩ := h
    unfold resultSides at h
    split at h
    · cases hinfers
    · split_ifs at h with hok herr
      · exact (clean_bind.mp h).1
      · exact (clean_bind.mp h).1
      · split at hinfers
        · cases hinfers
        · simp [hok, herr] at hinfers
  rw [if_neg hresult] at hinfers
  cases hinfers

/-- A constructor call that reports nothing has inferred its first argument, if it did, and checked the fields it has. -/
theorem clean_inferConstructorCall {segments : List String} {count : Nat} {first : Checked ResolvedType}
    {arguments : List ResolvedType → Checked Unit} {span : Span} {expected : Option ResolvedType}
    (h : Clean (inferConstructorCall a segments count first arguments span expected)) :
    (infersFirst segments expected = true → Clean first) ∧
      (constructorFields a segments first span expected).length = count ∧
        Clean (arguments (constructorFields a segments first span expected)) := by
  match segments with
  | [typeName, variantName] =>
    simp only [inferConstructorCall, splitConstructorPath, clean_bind] at h
    obtain ⟨hof, hrest⟩ := h
    obtain ⟨⟨fields, result⟩, hvalue⟩ := Option.isSome_iff_exists.mp (constructorOf_isSome hof)
    rw [hvalue] at hrest
    simp only [clean_bind, clean_require, decide_eq_true_eq] at hrest
    have hfields : constructorFields a [typeName, variantName] first span expected = fields := by
      simp [constructorFields, splitConstructorPath, hvalue]
    rw [hfields]
    exact ⟨clean_first hof, hrest.1, hrest.2.1⟩
  | [] => simp [inferConstructorCall, splitConstructorPath] at h
  | [_] => simp [inferConstructorCall, splitConstructorPath] at h
  | _ :: _ :: _ :: _ => simp [inferConstructorCall, splitConstructorPath] at h

mutual
/-- **A walk that reports nothing reports nothing at any visit.** -/
theorem visits_clean : ∀ (e : Expr) {scope : Scope} {expected : Option ResolvedType},
    Clean (inferExpr a asyncContext e scope expected) →
      ∀ v ∈ exprVisits a asyncContext e scope expected, Clean (v.infer a)
  | .mk kind span, scope, expected, h, v, hv => by
    rcases List.mem_append.mp hv with hv | hv
    · rw [inferExpr, clean_bind] at h
      exact kindVisits_clean kind span h.1 v hv
    · rw [List.mem_singleton.mp hv]
      exact h
theorem kindVisits_clean : ∀ (kind : ExprKind) (span : Span) {scope : Scope} {expected : Option ResolvedType},
    Clean (inferExprKind a asyncContext kind span scope expected) →
      ∀ v ∈ kindVisits a asyncContext kind span scope expected, Clean (v.infer a)
  | .borrow _ operand, _, _, _, h, v, hv => by
    simp only [inferExprKind, clean_bind] at h
    exact visits_clean operand h.2.1 v hv
  | .await operand, _, _, _, h, v, hv => by
    simp only [inferExprKind, clean_bind] at h
    exact visits_clean operand h.2 v hv
  | .literal _, _, _, _, _, v, hv => by cases hv
  | .path _, _, _, _, _, v, hv => by cases hv
  | .array items, _, scope, expected, h, v, hv => by
    simp only [inferExprKind, clean_bind] at h
    exact itemVisits_clean items h.1 v hv
  | .call (.mk callee calleeSpan) arguments, span, scope, expected, h, v, hv => by
    rcases ExprKind.path_or callee calleeSpan with ⟨segments, rfl⟩ | hne
    · rw [inferExprKind] at h
      obtain ⟨hfirst, hlength, hargs⟩ := clean_inferConstructorCall h
      rw [kindVisits] at hv
      rcases List.mem_append.mp hv with hv | hv
      · split_ifs at hv with huses
        · exact firstVisits_clean arguments (hfirst huses) v hv
        · cases hv
      · exact argumentVisits_clean arguments hargs v hv
    · rw [inferExprKind, clean_bind] at h
      · rw [kindVisits_call hne] at hv
        obtain ⟨hcallee, h⟩ := h
        rcases List.mem_append.mp hv with hv | hv
        · exact visits_clean (.mk callee calleeSpan) hcallee v hv
        · split at h
          · rename_i parameters result heq
            rw [heq] at hv
            simp only [clean_bind] at h
            exact argumentVisits_clean arguments h.2.1 v hv
          · rename_i hother
            simp only [clean_bind] at h
            split at hv
            · rename_i heq
              exact absurd heq (hother _ _)
            · exact untypedVisits_clean arguments h.2.1 v hv
      · exact hne
  | .field base _, _, _, _, h, v, hv => by
    simp only [inferExprKind, clean_bind] at h
    exact visits_clean base h.1 v hv
  | .unary _ operand, _, _, _, h, v, hv => by
    simp only [inferExprKind, clean_bind] at h
    exact visits_clean operand h.1 v hv
  | .binary _ left right, _, _, _, h, v, hv => by
    simp only [inferExprKind, clean_bind] at h
    rcases List.mem_append.mp hv with hv | hv
    · exact visits_clean left h.1 v hv
    · exact visits_clean right h.2.1 v hv
  | .match_ value arms, _, _, _, h, v, hv => by
    simp only [inferExprKind, clean_bind] at h
    rcases List.mem_append.mp hv with hv | hv
    · exact visits_clean value h.1 v hv
    · exact armVisits_clean arms h.2.1 v hv
  | .block (.mk statements _), _, _, _, h, v, hv => by
    simp only [inferExprKind, clean_bind] at h
    exact statementVisits_clean statements h.1 v hv
theorem itemVisits_clean : ∀ (es : List Expr) {scope : Scope} {expected : Option ResolvedType} {itemType : ResolvedType},
    Clean (inferItems a asyncContext es scope expected itemType) →
      ∀ v ∈ itemVisits a asyncContext es scope expected, Clean (v.infer a)
  | [], _, _, _, _, v, hv => by cases hv
  | e :: es, _, _, _, h, v, hv => by
    simp only [inferItems, clean_bind] at h
    rcases List.mem_append.mp hv with hv | hv
    · exact visits_clean e h.1 v hv
    · exact itemVisits_clean es h.2.2 v hv
theorem firstVisits_clean : ∀ (as : List CallArgument) {scope : Scope}, Clean (inferFirst a asyncContext as scope) →
    ∀ v ∈ firstVisits a asyncContext as scope, Clean (v.infer a)
  | [], _, _, v, hv => by cases hv
  | .mk _ value _ :: _, _, h, v, hv => visits_clean value (by rwa [inferFirst] at h) v hv
theorem untypedVisits_clean : ∀ (as : List CallArgument) {scope : Scope}, Clean (inferArguments a asyncContext as scope) →
    ∀ v ∈ untypedVisits a asyncContext as scope, Clean (v.infer a)
  | [], _, _, v, hv => by cases hv
  | .mk _ value _ :: as, _, h, v, hv => by
    simp only [inferArguments, clean_bind] at h
    rcases List.mem_append.mp hv with hv | hv
    · exact visits_clean value h.1 v hv
    · exact untypedVisits_clean as h.2 v hv
theorem argumentVisits_clean : ∀ (as : List CallArgument) {types : List ResolvedType} {scope : Scope} {context : String},
    Clean (checkArguments a asyncContext as types scope context) →
      ∀ v ∈ argumentVisits a asyncContext as types scope, Clean (v.infer a)
  | .mk _ value _ :: as, ty :: types, _, _, h, v, hv => by
    simp only [checkArguments, clean_bind] at h
    rcases List.mem_append.mp hv with hv | hv
    · exact visits_clean value h.1 v hv
    · exact argumentVisits_clean as h.2.2 v hv
  | [], _, _, _, _, v, hv => by simp [argumentVisits] at hv
  | .mk _ _ _ :: _, [], _, _, _, v, hv => by cases hv
theorem armVisits_clean : ∀ (arms : List MatchArm) {valueType : ResolvedType} {scope : Scope}
    {expected : Option ResolvedType} {result : ResolvedType},
    Clean (inferArms a asyncContext arms valueType scope expected result) →
      ∀ v ∈ armVisits a asyncContext arms valueType scope expected, Clean (v.infer a)
  | [], _, _, _, _, _, v, hv => by cases hv
  | .mk pattern guard body _ :: arms, _, _, _, _, h, v, hv => by
    simp only [inferArms, clean_bind] at h
    rcases List.mem_append.mp hv with hv | hv
    · rcases List.mem_append.mp hv with hv | hv
      · exact guardVisits_clean guard h.2.1 v hv
      · exact visits_clean body h.2.2.1 v hv
    · exact armVisits_clean arms h.2.2.2.2 v hv
theorem guardVisits_clean : ∀ (guard : Option Expr) {scope : Scope}, Clean (inferGuard a asyncContext guard scope) →
    ∀ v ∈ guardVisits a asyncContext guard scope, Clean (v.infer a)
  | none, _, _, v, hv => by cases hv
  | some guard, _, h, v, hv => by
    simp only [inferGuard, clean_bind] at h
    exact visits_clean guard h.1 v hv
theorem statementVisits_clean : ∀ (ss : List Statement) {scope : Scope} {expectedResult result : ResolvedType},
    Clean (checkStatements a asyncContext ss scope expectedResult result) →
      ∀ v ∈ statementVisits a asyncContext ss scope expectedResult, Clean (v.infer a)
  | [], _, _, _, _, v, hv => by cases hv
  | .let_ name ty value _ :: rest, _, _, _, h, v, hv => by
    simp only [checkStatements, clean_bind] at h
    rcases List.mem_append.mp hv with hv | hv
    · exact visits_clean value h.2.1 v hv
    · exact statementVisits_clean rest h.2.2 v hv
  | .return_ (some value) _ :: rest, _, _, _, h, v, hv => by
    simp only [checkStatements, inferReturned, clean_bind] at h
    rcases List.mem_append.mp hv with hv | hv
    · exact visits_clean value h.1 v hv
    · exact statementVisits_clean rest h.2.2 v hv
  | .return_ none _ :: rest, _, _, _, h, v, hv => by
    simp only [checkStatements, clean_bind] at h
    exact statementVisits_clean rest h.2.2 v hv
  | .expression e _ :: rest, _, _, _, h, v, hv => by
    simp only [checkStatements, clean_bind] at h
    rcases List.mem_append.mp hv with hv | hv
    · exact visits_clean e h.1 v hv
    · exact statementVisits_clean rest h.2.2 v hv
end

/-! ## Visits of a file -/

end

def initializerVisits (a : Analyzer) : List StateField → List ResolvedType → List Visit
  | field :: fields, expected :: types =>
    (match field.initializer with
      | some initializer => exprVisits a false initializer OrdMap.empty (some expected)
      | none             => []) ++ initializerVisits a fields types
  | [], _ => []
  | _, [] => []

/-- The type declared for the result of a pipeline, else that of its signature. -/
def declaredResult (a : Analyzer) (node : PipelineNode) (result : Property) : ResolvedType :=
  (resolveOption a result.ty).value.getD ((a.functions.get? node.name).getD ⟨[], .unit⟩).result

def bodyVisits (a : Analyzer) : Item → List Visit
  | .function node => match a.functions.get? node.name, node.body with
    | some signature, .mk statements _ =>
      statementVisits a node.asynchronous statements (Analyzer.parameterScope node.parameters signature.parameters) signature.result
    | none, _                          => []
  | .state node    => initializerVisits a node.fields ((a.states.get? node.name).getD [])
  | .pipeline node => match property node.fields "result" with
    | some result => exprVisits a false result.value
      (Analyzer.parameterScope node.parameters ((a.functions.get? node.name).getD ⟨[], .unit⟩).parameters)
      (some (declaredResult a node result))
    | none        => []
  | _              => []

def fileVisits (a : Analyzer) (ast : SourceFile) : List Visit := ast.items.flatMap (bodyVisits a)

section
variable {a : Analyzer}

theorem recorded_checkInitializers : ∀ (fields : List StateField) (types : List ResolvedType),
    recorded (a.checkInitializers fields types) = (initializerVisits a fields types).map (Visit.recorded a)
  | field :: fields, expected :: types => by
    have ih := recorded_checkInitializers fields types
    cases hinit : field.initializer with
    | none => simp only [Analyzer.checkInitializers, initializerVisits, hinit, List.nil_append, ih]
    | some initializer => simp [Analyzer.checkInitializers, initializerVisits, hinit, recorded_inferExpr, ih]
  | [], _ => by simp [Analyzer.checkInitializers, initializerVisits]
  | _ :: _, [] => rfl

theorem recorded_checkAgent (node : PipelineNode) (signature : FunctionSignature) :
    recorded (a.checkAgent node signature) = [] := by
  unfold Analyzer.checkAgent Analyzer.checkContract
  split
  · split
    · rename_i contract _
      rcases contract with ⟨_ | input, _ | output⟩ <;> simp
    · rfl
  · rfl

theorem recorded_checkBody (item : Item) : recorded (a.checkBody item) = (bodyVisits a item).map (Visit.recorded a) := by
  cases item with
  | function node =>
    obtain ⟨_, _, _, _, _, _, ⟨statements, span⟩, _⟩ := node
    simp only [Analyzer.checkBody, Analyzer.checkFunction, bodyVisits]
    split
    · rename_i hnone
      simp [hnone]
    · rename_i signature hsome
      simp [hsome, checkBlock, Analyzer.requireUnit, recorded_checkStatements]
  | state node => exact recorded_checkInitializers ..
  | pipeline node =>
    simp only [Analyzer.checkBody, Analyzer.checkPipeline, bodyVisits, recorded_bind, recorded_checkAgent, List.nil_append]
    split
    · rename_i result hresult
      simp [hresult, recorded_inferExpr, declaredResult]
    · rename_i hnone
      simp [hnone]
  | _ => rfl

theorem recorded_checkBodies : ∀ items : List Item,
    recorded (a.checkBodies items) = (items.flatMap (bodyVisits a)).map (Visit.recorded a)
  | [] => rfl
  | item :: items => by simp [Analyzer.checkBodies, recorded_checkBody item, recorded_checkBodies items]

theorem recorded_foldlM {α σ : Type} {step : σ → α → Checked σ} (hstep : ∀ s x, recorded (step s x) = []) :
    ∀ {l : List α} {s : σ}, recorded (l.foldlM step s) = []
  | [], _ => rfl
  | x :: l, s => by
    rw [List.foldlM_cons, recorded_bind, hstep, recorded_foldlM hstep]
    rfl

@[simp] theorem recorded_insertSymbol (name : String) (item : Item) : recorded (a.insertSymbol name item) = [] := by
  cases item <;> simp only [Analyzer.insertSymbol, Analyzer.insertType, Analyzer.insertValue] <;> split_ifs <;> simp

@[simp] theorem recorded_resolveVariants : ∀ variants : List EnumVariant, recorded (a.resolveVariants variants) = []
  | [] => rfl
  | variant :: variants => by simp [Analyzer.resolveVariants, recorded_resolveTypes, recorded_resolveVariants variants]

@[simp] theorem recorded_record (name : String) (item : Item) : recorded (a.record name item) = [] := by
  cases item <;> simp [Analyzer.record, Analyzer.resolveFields, Analyzer.resolveSignature, Analyzer.resolveContract,
    recorded_resolveTypes]

@[simp] theorem recorded_resolveDeclaration (item : Item) : recorded (a.resolveDeclaration item) = [] := by
  cases item <;> simp only [Analyzer.resolveDeclaration] <;> (try split_ifs) <;>
    simp [Analyzer.resolveFields, Analyzer.resolveSignature, Analyzer.resolveContract, Analyzer.resolveAnnotations,
      recorded_resolveTypes]

theorem recorded_declared (file : String) (ast : SourceFile) (imports : List (String × Item)) :
    recorded (declared file ast imports) = [] := by
  have hcollect : recorded ((Analyzer.new file).collectDeclarations ast.items) = [] := by
    unfold Analyzer.collectDeclarations
    exact recorded_foldlM fun a item => @recorded_insertSymbol a item.name item
  have himports : ∀ a : Analyzer, recorded (a.installImports imports) = [] := fun a => by
    unfold Analyzer.installImports
    exact recorded_foldlM fun _ i => by simp [Analyzer.installImport]
  have hresolve : ∀ a : Analyzer, recorded (a.resolveDeclarations ast.items) = [] := fun a => by
    unfold Analyzer.resolveDeclarations
    exact recorded_foldlM fun a item => @recorded_resolveDeclaration a item
  simp only [declared, recorded_bind, hcollect, himports, hresolve, List.append_nil]

/-- **The types of the expressions of a file are what its visits record, the last one for a span.** -/
theorem expressionTypes_eq (file : String) (ast : SourceFile) (imports : List (String × Item)) :
    (analyzeWithImports file ast imports).expressionTypes =
      OrdMap.ofList ((fileVisits (declared file ast imports).value ast).map (Visit.recorded (declared file ast imports).value)) := by
  have hrecorded : recorded (analyzed file ast imports) = (fileVisits (declared file ast imports).value ast).map
      (Visit.recorded (declared file ast imports).value) := by
    simp only [analyzed, recorded_bind, recorded_declared, recorded_checkBodies, recorded_pure, List.nil_append, List.append_nil]
    rfl
  exact congrArg OrdMap.ofList hrecorded

theorem initializerVisits_clean : ∀ {fields : List StateField} {types : List ResolvedType},
    Clean (a.checkInitializers fields types) → ∀ v ∈ initializerVisits a fields types, Clean (v.infer a)
  | field :: fields, expected :: types, h, v, hv => by
    cases hinit : field.initializer with
    | none =>
      simp only [Analyzer.checkInitializers, hinit] at h
      simp only [initializerVisits, hinit, List.nil_append] at hv
      exact initializerVisits_clean h v hv
    | some initializer =>
      simp only [Analyzer.checkInitializers, hinit, clean_bind] at h
      simp only [initializerVisits, hinit] at hv
      rcases List.mem_append.mp hv with hv | hv
      · exact visits_clean initializer h.1 v hv
      · exact initializerVisits_clean h.2.2 v hv
  | [], _, _, v, hv => by simp [initializerVisits] at hv
  | _ :: _, [], _, v, hv => by cases hv

theorem bodyVisits_clean {item : Item} (h : Clean (a.checkBody item)) : ∀ v ∈ bodyVisits a item, Clean (v.infer a) := by
  intro v hv
  cases item with
  | function node =>
    obtain ⟨_, _, _, _, _, _, ⟨statements, span⟩, _⟩ := node
    simp only [bodyVisits] at hv
    simp only [Analyzer.checkBody, Analyzer.checkFunction] at h
    split at hv
    · rename_i signature hsome heq
      rw [hsome] at h
      simp only [checkBlock, clean_bind] at h
      cases heq
      exact statementVisits_clean statements h.1.1 v hv
    · cases hv
  | state node => exact initializerVisits_clean h v hv
  | pipeline node =>
    simp only [bodyVisits] at hv
    simp only [Analyzer.checkBody, Analyzer.checkPipeline, clean_bind] at h
    split at hv
    · rename_i result hresult
      rw [hresult] at h
      simp only [clean_bind] at h
      exact visits_clean result.value h.2.2.2.1 v hv
    · cases hv
  | _ => cases hv

/-- **A file without diagnostics has none at any visit.** -/
theorem fileVisits_clean {ast : SourceFile} (h : Clean (a.checkBodies ast.items)) :
    ∀ v ∈ fileVisits a ast, Clean (v.infer a) := by
  intro v hv
  obtain ⟨item, hitem, hv⟩ := List.mem_flatMap.mp hv
  exact bodyVisits_clean (AstLower.clean_checkBodies h item hitem) v hv

end

end Semantic
end Syllog
