import Syllog.Positions
/-!
# OperandOrder — when the order of operands matters

The left operand is inferred first and sets the type the right one is compared with; so does the first element of an array and
the first arm of a match, where the context sets none.  Compatibility is not symmetric: a literal fits a number and a number does
not fit a literal.  On types without literals it is equality up to the names of regions, and then the order does not matter.
-/
namespace Syllog

namespace Hir

mutual
/-- No literal, unknown or error type is, or occurs in, the type. -/
def ResolvedType.settled : ResolvedType → Bool
  | .reference _ _ inner                                => inner.settled
  | .option inner                                       => inner.settled
  | .result ok err                                      => ok.settled && err.settled
  | .array item                                         => item.settled
  | .tuple items                                        => settledAll items
  | .unknown | .error | .integerLiteral | .floatLiteral => false
  | _                                                   => true
def settledAll : List ResolvedType → Bool
  | []          => true
  | ty :: types => ty.settled && settledAll types
end

mutual
/-- The type without the names of its regions. -/
def ResolvedType.erase : ResolvedType → ResolvedType
  | .reference _ mutable inner => .reference none mutable inner.erase
  | .option inner              => .option inner.erase
  | .result ok err             => .result ok.erase err.erase
  | .array item                => .array item.erase
  | .tuple items               => .tuple (eraseAll items)
  | ty                         => ty
def eraseAll : List ResolvedType → List ResolvedType
  | []          => []
  | ty :: types => ty.erase :: eraseAll types
end

/-- The operator that says the same of its operands in the other order. -/
def BinaryOperator.mirror : BinaryOperator → BinaryOperator
  | .less         => .greater
  | .lessEqual    => .greaterEqual
  | .greater      => .less
  | .greaterEqual => .lessEqual
  | operator      => operator

end Hir

namespace Semantic

open Hir Ast

/-! ## Compatibility of settled types -/

mutual
theorem compatible_iff_erase : ∀ t u : ResolvedType, t.settled = true → u.settled = true →
    (compatible t u = true ↔ t.erase = u.erase)
  | .reference _ _ inner, u, ht, hu => by
    cases u with
    | reference _ _ inner' => simp [compatible, ResolvedType.erase, compatible_iff_erase inner inner' ht hu]
    | _ => simp_all [compatible, ResolvedType.erase, ResolvedType.settled]
  | .option inner, u, ht, hu => by
    cases u with
    | option inner' => simp [compatible, ResolvedType.erase, compatible_iff_erase inner inner' ht hu]
    | _ => simp_all [compatible, ResolvedType.erase, ResolvedType.settled]
  | .result ok err, u, ht, hu => by
    cases u with
    | result ok' err' =>
      simp only [ResolvedType.settled, Bool.and_eq_true] at ht hu
      simp [compatible, ResolvedType.erase, compatible_iff_erase ok ok' ht.1 hu.1, compatible_iff_erase err err' ht.2 hu.2]
    | _ => simp_all [compatible, ResolvedType.erase, ResolvedType.settled]
  | .array item, u, ht, hu => by
    cases u with
    | array item' => simp [compatible, ResolvedType.erase, compatible_iff_erase item item' ht hu]
    | _ => simp_all [compatible, ResolvedType.erase, ResolvedType.settled]
  | .tuple items, u, ht, hu => by
    cases u with
    | tuple items' => simp [compatible, ResolvedType.erase, compatibleAll_iff_erase items items' ht hu]
    | _ => simp_all [compatible, ResolvedType.erase, ResolvedType.settled]
  | .primitive p, u, ht, hu => by
    cases u <;> cases p <;> simp_all [compatible, ResolvedType.erase, ResolvedType.settled]
  | .struct _, u, ht, hu => by cases u <;> simp_all [compatible, ResolvedType.erase, ResolvedType.settled]
  | .enum _, u, ht, hu => by cases u <;> simp_all [compatible, ResolvedType.erase, ResolvedType.settled]
  | .state _, u, ht, hu => by cases u <;> simp_all [compatible, ResolvedType.erase, ResolvedType.settled]
  | .function _ _, u, ht, hu => by cases u <;> simp_all [compatible, ResolvedType.erase, ResolvedType.settled]
  | .unit, u, ht, hu => by cases u <;> simp_all [compatible, ResolvedType.erase, ResolvedType.settled]
  | .unknown, _, ht, _ => by cases ht
  | .error, _, ht, _ => by cases ht
  | .integerLiteral, _, ht, _ => by cases ht
  | .floatLiteral, _, ht, _ => by cases ht
theorem compatibleAll_iff_erase : ∀ ts us : List ResolvedType, settledAll ts = true → settledAll us = true →
    (compatibleAll ts us = true ↔ eraseAll ts = eraseAll us)
  | [], us, _, _ => by cases us <;> simp [compatibleAll, eraseAll]
  | t :: ts, [], _, _ => by simp [compatibleAll, eraseAll]
  | t :: ts, u :: us, ht, hu => by
    simp only [settledAll, Bool.and_eq_true] at ht hu
    simp [compatibleAll, eraseAll, compatible_iff_erase t u ht.1 hu.1, compatibleAll_iff_erase ts us ht.2 hu.2]
end

/-- On settled types compatibility is symmetric. -/
theorem compatible_comm {t u : ResolvedType} (ht : t.settled = true) (hu : u.settled = true) : compatible t u = compatible u t := by
  rw [Bool.eq_iff_iff, compatible_iff_erase t u ht hu, compatible_iff_erase u t hu ht]
  exact eq_comm

theorem compatible_trans {t u v : ResolvedType} (ht : t.settled = true) (hu : u.settled = true) (hv : v.settled = true)
    (htu : compatible t u = true) (huv : compatible u v = true) : compatible t v = true := by
  rw [compatible_iff_erase t u ht hu] at htu
  rw [compatible_iff_erase u v hu hv] at huv
  rw [compatible_iff_erase t v ht hv]
  exact htu.trans huv

theorem ne_unknown_of_settled {t : ResolvedType} (h : t.settled = true) : t ≠ .unknown := by
  rintro rfl
  cases h

/-! ## Elements that are joined -/

section
variable {a : Analyzer} {context : String}

/-- Elements in order, each joined to the type of those before it. -/
def joinAll (a : Analyzer) (context : String) : List (Checked ResolvedType × Span) → ResolvedType → Checked ResolvedType
  | [], sofar                => return sofar
  | (x, span) :: rest, sofar => do
    let actual ← x
    let sofar ← joinType a sofar actual span context
    joinAll a context rest sofar

/-- Against a type that is known every element is checked by itself. -/
theorem clean_joinAll_known : ∀ {l : List (Checked ResolvedType × Span)} {sofar : ResolvedType}, sofar ≠ .unknown →
    (Clean (joinAll a context l sofar) ↔ ∀ x ∈ l, Clean x.1 ∧ compatible sofar x.1.value = true)
  | [], _, _ => by simp [joinAll]
  | (x, span) :: rest, sofar, hknown => by
    simp only [joinAll, clean_bind, joinType_of_known hknown, clean_joinAll_known (l := rest) hknown, clean_joinType, hknown,
      false_or, List.forall_mem_cons, and_assoc]

/-- Settled elements are compared with the first, and so with one another. -/
theorem clean_joinAll_settled {l : List (Checked ResolvedType × Span)} (h : ∀ x ∈ l, x.1.value.settled = true) :
    Clean (joinAll a context l .unknown) ↔
      (∀ x ∈ l, Clean x.1) ∧ ∀ x ∈ l, ∀ y ∈ l, compatible x.1.value y.1.value = true := by
  cases l with
  | nil => simp [joinAll]
  | cons first rest =>
    obtain ⟨x, span⟩ := first
    obtain ⟨hx, hrest⟩ := List.forall_mem_cons.mp h
    have hjoin : Clean (joinAll a context ((x, span) :: rest) .unknown) ↔
        Clean x ∧ ∀ y ∈ rest, Clean y.1 ∧ compatible x.value y.1.value = true := by
      simp only [joinAll, joinType, if_true, clean_bind, clean_pure, true_and, Logged.value_pure]
      rw [clean_joinAll_known (ne_unknown_of_settled hx)]
    rw [hjoin, List.forall_mem_cons]
    constructor
    · rintro ⟨hclean, hall⟩
      have hfirst : ∀ y ∈ (x, span) :: rest, compatible x.value y.1.value = true :=
        List.forall_mem_cons.mpr ⟨compatible_refl x.value, fun y hy => (hall y hy).2⟩
      refine ⟨⟨hclean, fun y hy => (hall y hy).1⟩, fun y hy z hz => ?_⟩
      have hy' := hfirst y hy
      rw [compatible_comm hx (h y hy)] at hy'
      exact compatible_trans (h y hy) hx (h z hz) hy' (hfirst z hz)
    · rintro ⟨⟨hclean, hcleans⟩, hall⟩
      exact ⟨hclean, fun y hy => ⟨hcleans y hy, hall _ List.mem_cons_self y (List.mem_cons_of_mem _ hy)⟩⟩

/-- **The order of the elements does not matter where the type is known before the first, or where every element is settled.** -/
theorem clean_joinAll_perm {l l' : List (Checked ResolvedType × Span)} (hperm : l.Perm l') {sofar : ResolvedType}
    (h : sofar ≠ .unknown ∨ ∀ x ∈ l, x.1.value.settled = true) :
    Clean (joinAll a context l sofar) ↔ Clean (joinAll a context l' sofar) := by
  have hmem : ∀ {x : Checked ResolvedType × Span}, x ∈ l ↔ x ∈ l' := hperm.mem_iff
  by_cases hknown : sofar = .unknown
  · subst hknown
    have hsettled := h.resolve_left (fun hne => hne rfl)
    rw [clean_joinAll_settled hsettled, clean_joinAll_settled fun x hx => hsettled x (hmem.mpr hx)]
    simp only [hmem]
  · rw [clean_joinAll_known hknown, clean_joinAll_known hknown]
    simp only [hmem]

end

/-! ## Arrays and matches -/

section
variable {a : Analyzer} {asyncContext : Bool}

/-- An arm as an element of its match. -/
def armType (a : Analyzer) (asyncContext : Bool) (valueType : ResolvedType) (scope : Scope) (expected : Option ResolvedType) :
    MatchArm → Checked ResolvedType
  | .mk pattern guard body _ => do
    let armScope ← checkPattern a pattern valueType scope
    inferGuard a asyncContext guard armScope
    inferExpr a asyncContext body armScope expected

def armSpan : MatchArm → Span
  | .mk _ _ body _ => body.span

theorem clean_inferItems_joinAll (es : List Expr) {scope : Scope} {expected : Option ResolvedType} {itemType : ResolvedType} :
    Clean (inferItems a asyncContext es scope expected itemType) ↔
      Clean (joinAll a "array element" (es.map fun e => (inferExpr a asyncContext e scope expected, e.span)) itemType) := by
  induction es generalizing itemType with
  | nil => simp [inferItems, joinAll]
  | cons e es ih => simp only [inferItems, List.map_cons, joinAll, clean_bind, ih]

theorem clean_inferArms_joinAll (arms : List MatchArm) {valueType : ResolvedType} {scope : Scope}
    {expected : Option ResolvedType} {result : ResolvedType} :
    Clean (inferArms a asyncContext arms valueType scope expected result) ↔
      Clean (joinAll a "match arm" (arms.map fun arm => (armType a asyncContext valueType scope expected arm, armSpan arm)) result) := by
  induction arms generalizing result with
  | nil => simp [inferArms, joinAll]
  | cons arm arms ih =>
    obtain ⟨pattern, guard, body, span⟩ := arm
    simp only [inferArms, List.map_cons, joinAll, armType, armSpan, clean_bind, Logged.value_bind, and_assoc, ih]

/-- Whether a match covers its values does not depend on the order of its arms. -/
theorem checkExhaustive_perm {arms arms' : List MatchArm} (hperm : arms.Perm arms') (span : Span) (valueType : ResolvedType) :
    checkExhaustive a span valueType arms = checkExhaustive a span valueType arms' := by
  have hcovered : ∀ variant, variant ∉ arms.filterMap MatchArm.covered ↔ variant ∉ arms'.filterMap MatchArm.covered :=
    fun variant => not_congr (hperm.filterMap _).mem_iff
  simp only [checkExhaustive, hperm.any_eq, hcovered]

theorem clean_expr {kind : ExprKind} {span : Span} {scope : Scope} {expected : Option ResolvedType} :
    Clean (inferExpr a asyncContext (.mk kind span) scope expected) ↔
      Clean (inferExprKind a asyncContext kind span scope expected) := by
  rw [inferExpr, clean_bind]
  exact ⟨fun h => h.1, fun h => ⟨h, by simp [Clean, Logged.Avoids, Note.diagnostic?]⟩⟩

/-- **Permuting the elements of an array does not change whether it is accepted, where the context gives their type or no literal
is in any of theirs.** -/
theorem array_perm {items items' : List Expr} (hperm : items.Perm items') {span : Span} {scope : Scope}
    {expected : Option ResolvedType}
    (h : (expectedItem expected).getD .unknown ≠ .unknown ∨
      ∀ e ∈ items, (inferExpr a asyncContext e scope (expectedItem expected)).value.settled = true) :
    Clean (inferExpr a asyncContext (.mk (.array items) span) scope expected) ↔
      Clean (inferExpr a asyncContext (.mk (.array items') span) scope expected) := by
  have hitems : ∀ es : List Expr, Clean (inferExpr a asyncContext (.mk (.array es) span) scope expected) ↔
      Clean (inferItems a asyncContext es scope (expectedItem expected) ((expectedItem expected).getD .unknown)) := fun es => by
    simp only [clean_expr, inferExprKind, clean_bind, clean_pure, and_true]
    rfl
  rw [hitems, hitems, clean_inferItems_joinAll, clean_inferItems_joinAll]
  refine clean_joinAll_perm (hperm.map _) (h.imp_right fun hsettled x hx => ?_)
  obtain ⟨e, he, rfl⟩ := List.mem_map.mp hx
  exact hsettled e he

/-- **The same for the arms of a match, whatever their patterns.** -/
theorem arms_perm {arms arms' : List MatchArm} (hperm : arms.Perm arms') {value : Expr} {span : Span} {scope : Scope}
    {expected : Option ResolvedType}
    (h : expected.getD .unknown ≠ .unknown ∨ ∀ arm ∈ arms,
      (armType a asyncContext (inferExpr a asyncContext value scope none).value scope expected arm).value.settled = true) :
    Clean (inferExpr a asyncContext (.mk (.match_ value arms) span) scope expected) ↔
      Clean (inferExpr a asyncContext (.mk (.match_ value arms') span) scope expected) := by
  simp only [clean_expr, inferExprKind, clean_bind, clean_pure, and_true, checkExhaustive_perm hperm, clean_inferArms_joinAll]
  refine and_congr_right fun _ => and_congr_left fun _ => clean_joinAll_perm (hperm.map _) (h.imp_right fun hsettled x hx => ?_)
  obtain ⟨arm, harm, rfl⟩ := List.mem_map.mp hx
  exact hsettled arm harm

end

/-! ## Binary operators -/

/-- The operands of an operator fit each other. -/
def operandsFit (operator : BinaryOperator) (leftType rightType : ResolvedType) : Bool :=
  match operator with
  | .and | .or => compatible boolType leftType && compatible boolType rightType
  | _          => compatible leftType rightType

theorem operandsFit_mirror (operator : BinaryOperator) (leftType rightType : ResolvedType) :
    operandsFit operator.mirror leftType rightType = operandsFit operator leftType rightType := by cases operator <;> rfl

/-- Settled operands fit in both orders or in neither. -/
theorem operandsFit_comm (operator : BinaryOperator) {t u : ResolvedType} (ht : t.settled = true) (hu : u.settled = true) :
    operandsFit operator t u = operandsFit operator u t := by
  cases operator <;> first | exact compatible_comm ht hu | exact Bool.and_comm _ _

/-- An expression that is inferred the same whether its context expects nothing or this type. -/
structure ContextFree (a : Analyzer) (asyncContext : Bool) (e : Expr) (scope : Scope) (ty : ResolvedType) : Prop where
  accepted : Clean (inferExpr a asyncContext e scope (some ty)) ↔ Clean (inferExpr a asyncContext e scope none)
  value : (inferExpr a asyncContext e scope (some ty)).value = (inferExpr a asyncContext e scope none).value

/-- What the context expects is not looked at: all but `none`, arrays, matches, blocks and the constructors of `Option` and
`Result`. -/
def Expr.inert : Expr → Bool
  | .mk (.borrow _ _) _                        => true
  | .mk (.await operand) _                     => Expr.inert operand
  | .mk (.literal (.identifier name)) _        => name ≠ "none"
  | .mk (.literal _) _                         => true
  | .mk (.path _) _                            => true
  | .mk (.call (.mk (.path segments) _) _) _   => match splitConstructorPath segments with
    | some (typeName, _) => typeName ≠ "Option" && typeName ≠ "Result"
    | none               => true
  | .mk (.call _ _) _                          => true
  | .mk (.field _ _) _                         => true
  | .mk (.unary _ _) _                         => true
  | .mk (.binary _ _ _) _                      => true
  | .mk _ _                                    => false

section
variable {a : Analyzer} {asyncContext : Bool}

theorem constructorOf_context {typeName variantName : String} {first : Checked ResolvedType} {span : Span}
    (hoption : typeName ≠ "Option") (hresult : typeName ≠ "Result") (expected : Option ResolvedType) :
    constructorOf a typeName variantName first span expected = constructorOf a typeName variantName first span none := by
  simp only [constructorOf, if_neg hoption, if_neg hresult]

theorem inferExpr_inert : ∀ (e : Expr), Expr.inert e = true → ∀ (scope : Scope) (expected : Option ResolvedType),
    inferExpr a asyncContext e scope expected = inferExpr a asyncContext e scope none
  | .mk (.borrow _ _) _, _, _, _ => by simp only [inferExpr, inferExprKind]
  | .mk (.await operand) _, h, scope, expected => by
    have ih := inferExpr_inert operand (by simpa [Expr.inert] using h) scope expected
    simp only [inferExpr, inferExprKind, ih]
  | .mk (.literal (.identifier name)) _, h, _, _ => by
    have hne : name ≠ "none" := by simpa [Expr.inert] using h
    simp only [inferExpr, inferExprKind, inferLiteral, if_neg hne]
  | .mk (.literal (.string _)) _, _, _, _ => by simp only [inferExpr, inferExprKind, inferLiteral]
  | .mk (.literal (.integer _)) _, _, _, _ => by simp only [inferExpr, inferExprKind, inferLiteral]
  | .mk (.literal (.float _)) _, _, _, _ => by simp only [inferExpr, inferExprKind, inferLiteral]
  | .mk (.literal (.boolean _)) _, _, _, _ => by simp only [inferExpr, inferExprKind, inferLiteral]
  | .mk (.path _) _, _, _, _ => by simp only [inferExpr, inferExprKind]
  | .mk (.call (.mk callee calleeSpan) arguments) span, h, scope, expected => by
    rcases ExprKind.path_or callee calleeSpan with ⟨segments, rfl⟩ | hne
    · simp only [inferExpr, inferExprKind, inferConstructorCall]
      cases hsplit : splitConstructorPath segments with
      | none => rfl
      | some path =>
        obtain ⟨typeName, variantName⟩ := path
        simp only [Expr.inert, hsplit, Bool.and_eq_true, decide_eq_true_eq] at h
        simp only [constructorOf_context h.1 h.2 expected]
    · rw [inferExpr, inferExpr, inferExprKind, inferExprKind] <;> exact hne
  | .mk (.field _ _) _, _, _, _ => by simp only [inferExpr, inferExprKind]
  | .mk (.unary _ _) _, _, _, _ => by simp only [inferExpr, inferExprKind]
  | .mk (.binary _ _ _) _, _, _, _ => by simp only [inferExpr, inferExprKind]
  | .mk (.array _) _, h, _, _ => by simp [Expr.inert] at h
  | .mk (.match_ _ _) _, h, _, _ => by simp [Expr.inert] at h
  | .mk (.block _) _, h, _, _ => by simp [Expr.inert] at h

theorem contextFree_of_inert {e : Expr} (h : Expr.inert e = true) (scope : Scope) (ty : ResolvedType) :
    ContextFree a asyncContext e scope ty :=
  ⟨by rw [inferExpr_inert e h], by rw [inferExpr_inert e h]⟩

theorem clean_binaryResult {operator : BinaryOperator} {leftType rightType : ResolvedType} {leftSpan rightSpan : Span} :
    Clean (binaryResult a operator leftType rightType leftSpan rightSpan) ↔ operandsFit operator leftType rightType = true := by
  cases operator <;> simp [binaryResult, operandsFit, clean_requireCompatible]

/-- An operator is accepted where both operands are and fit each other. -/
theorem clean_binary {operator : BinaryOperator} {left right : Expr} {span : Span} {scope : Scope} {expected : Option ResolvedType}
    (hright : ContextFree a asyncContext right scope (inferExpr a asyncContext left scope none).value) :
    Clean (inferExpr a asyncContext (.mk (.binary operator left right) span) scope expected) ↔
      Clean (inferExpr a asyncContext left scope none) ∧ Clean (inferExpr a asyncContext right scope none) ∧
        operandsFit operator (inferExpr a asyncContext left scope none).value (inferExpr a asyncContext right scope none).value = true := by
  simp only [clean_expr, inferExprKind, clean_bind, clean_binaryResult, hright.accepted, hright.value]

/-- **Two operands that are inferred without a context are accepted in both orders alike exactly where they fit in both or in
neither, as they do where no literal is in their types.** -/
theorem binary_mirror {operator : BinaryOperator} {left right : Expr} {span span' : Span} {scope : Scope}
    {expected expected' : Option ResolvedType}
    (hleft : ContextFree a asyncContext left scope (inferExpr a asyncContext right scope none).value)
    (hright : ContextFree a asyncContext right scope (inferExpr a asyncContext left scope none).value) :
    (Clean (inferExpr a asyncContext (.mk (.binary operator left right) span) scope expected) ↔
        Clean (inferExpr a asyncContext (.mk (.binary operator.mirror right left) span') scope expected')) ↔
      (Clean (inferExpr a asyncContext left scope none) → Clean (inferExpr a asyncContext right scope none) →
        operandsFit operator (inferExpr a asyncContext left scope none).value (inferExpr a asyncContext right scope none).value =
          operandsFit operator (inferExpr a asyncContext right scope none).value (inferExpr a asyncContext left scope none).value) := by
  rw [clean_binary hright, clean_binary hleft, operandsFit_mirror]
  constructor
  · intro h hl hr
    exact Bool.eq_iff_iff.mpr ⟨fun hfit => (h.mp ⟨hl, hr, hfit⟩).2.2, fun hfit => (h.mpr ⟨hr, hl, hfit⟩).2.2⟩
  · intro h
    constructor
    · rintro ⟨hl, hr, hfit⟩
      exact ⟨hr, hl, (h hl hr).symm.trans hfit⟩
    · rintro ⟨hr, hl, hfit⟩
      exact ⟨hl, hr, (h hl hr).trans hfit⟩

end

/-! ## Literals -/

/-- A variable. -/
def variableNamed (name : String) : Expr := .mk (.literal (.identifier name)) default

/-- `1`. -/
def numeral : Expr := .mk (.literal (.integer 1)) default

/-- `left == right`. -/
def comparison (left right : Expr) : Expr := .mk (.binary .equal left right) default

/-- `match b { true => x, false => 1 }`, or with its arms the other way. -/
def choosing (swapped : Bool) : Expr :=
  let first : MatchArm := .mk (.literal (.boolean true) default) none (variableNamed "x") default
  let second : MatchArm := .mk (.literal (.boolean false) default) none numeral default
  .mk (.match_ (variableNamed "b") (if swapped then [second, first] else [first, second])) default

/-- `fn f(x: U64, b: Bool, o: Option<Bool>) -> Bool { let y = e  b }`. -/
def examining (e : Expr) : SourceFile :=
  ⟨none, [], [.function
    { isPublic := false, asynchronous := false, name := "f"
      parameters := [⟨"x", .path ["U64"] [] default, default⟩, ⟨"b", .path ["Bool"] [] default, default⟩,
        ⟨"o", .path ["Option"] [.path ["Bool"] [] default] default, default⟩]
      returnType := some (.path ["Bool"] [] default), effects := none
      body := .mk [.let_ "y" none e default, .expression (variableNamed "b") default] default, span := default }], default⟩

end Semantic
end Syllog
