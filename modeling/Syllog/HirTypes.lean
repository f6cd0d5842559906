import Syllog.TypeErrors
import Syllog.MirTypes
/-!
# HirTypes — the types of the lowered expressions

The lowering looks up the type of an expression by its span and lowers the annotations itself.  Every expression it lowers was
visited by inference, constructors that are called excepted: these have the type of their enum.
-/
namespace Syllog

namespace Hir

/-- The types that occur in a function or a pipeline. -/
def HirDefinition.types (d : HirDefinition) : List ResolvedType :=
  match d.kind with
  | .function f        => f.types
  | .pipeline pipeline => pipeline.parameters.map (·.ty) ++ pipeline.result :: optionTypes pipeline.body
  | _                  => []

end Hir

namespace AstLower

open Hir Ast Semantic

/-- The analysis has recorded a type for every visit. -/
def Listed (l : Lowerer) (visits : List Visit) : Prop := ∀ v ∈ visits, ∃ ty, l.expressionTypes.get? v.expression.span = some ty

theorem listed_append {l : Lowerer} {u v : List Visit} : Listed l (u ++ v) ↔ Listed l u ∧ Listed l v := by
  simp only [Listed, List.mem_append, or_imp, forall_and]

/-- Recorded types, types of enums, and annotations that resolve. -/
def Looked (a : Analyzer) (l : Lowerer) (types : List ResolvedType) : Prop :=
  ∀ ty ∈ types, (∃ span, l.expressionTypes.get? span = some ty) ∨ (∃ name, ty = .enum name) ∨
    ∃ t, Clean (resolveType a t) ∧ ty = lowerType l.types t

theorem looked_nil {a : Analyzer} {l : Lowerer} : Looked a l [] := fun _ h => by cases h

theorem looked_cons {a : Analyzer} {l : Lowerer} {ty : ResolvedType} {types : List ResolvedType} :
    Looked a l (ty :: types) ↔ Looked a l [ty] ∧ Looked a l types := by
  simp only [Looked, List.mem_cons, List.not_mem_nil, or_false, or_imp, forall_and]

theorem looked_append {a : Analyzer} {l : Lowerer} {u v : List ResolvedType} :
    Looked a l (u ++ v) ↔ Looked a l u ∧ Looked a l v := by
  simp only [Looked, List.mem_append, or_imp, forall_and]

section
variable {a : Analyzer} {l : Lowerer} {asyncContext : Bool}

/-- The callee of a constructor call is not visited; lowered, it has a recorded type or that of its enum. -/
theorem looked_constructor {segments : List String} {count : Nat} {first : Checked ResolvedType}
    {arguments : List ResolvedType → Checked Unit} {calleeSpan span : Span} {expected : Option ResolvedType}
    (h : Clean (inferConstructorCall a segments count first arguments span expected)) (scope : LocalScope) (s : LowerState) :
    Looked a l (lowerExpression l (.mk (.path segments) calleeSpan) scope s).1.types := by
  match segments with
  | [typeName, variantName] =>
    simp only [lowerExpression, lowerKind, TypedExpr.types, HirExprKind.types]
    intro ty hty
    rw [List.mem_singleton] at hty
    cases hget : l.expressionTypes.get? calleeSpan with
    | none => exact .inr (.inl ⟨typeName, by rw [hty, hget]; rfl⟩)
    | some recorded => exact .inl ⟨calleeSpan, by rw [hty, hget]; rfl⟩
  | [] => simp [inferConstructorCall, splitConstructorPath] at h
  | [_] => simp [inferConstructorCall, splitConstructorPath] at h
  | _ :: _ :: _ :: _ => simp [inferConstructorCall, splitConstructorPath] at h

mutual
/-- **What is lowered of an expression without diagnostics has the types that were recorded.** -/
theorem lowerExpression_looked : ∀ (e : Expr) {scope : Semantic.Scope} {expected : Option ResolvedType} (locals : LocalScope)
    (s : LowerState), Clean (inferExpr a asyncContext e scope expected) →
      Listed l (exprVisits a asyncContext e scope expected) → Looked a l (lowerExpression l e locals s).1.types
  | .mk kind span, scope, expected, locals, s, h, hlisted => by
    rw [exprVisits, listed_append] at hlisted
    rw [inferExpr, clean_bind] at h
    refine looked_cons.mpr ⟨fun ty hty => .inl ⟨span, ?_⟩, lowerKind_looked kind span locals s h.1 hlisted.1⟩
    obtain ⟨recorded, hrecorded⟩ := hlisted.2 _ List.mem_cons_self
    have hspan : l.expressionTypes.get? span = some recorded := hrecorded
    rw [List.mem_singleton.mp hty, hspan]
    rfl
theorem lowerKind_looked : ∀ (kind : ExprKind) (span : Span) {scope : Semantic.Scope} {expected : Option ResolvedType}
    (locals : LocalScope) (s : LowerState), Clean (inferExprKind a asyncContext kind span scope expected) →
      Listed l (kindVisits a asyncContext kind span scope expected) → Looked a l (lowerKind l kind span locals s).1.types
  | .borrow _ operand, _, _, _, locals, s, h, hlisted => by
    simp only [inferExprKind, clean_bind] at h
    exact lowerExpression_looked operand locals s h.2.1 hlisted
  | .await operand, _, _, _, locals, s, h, hlisted => by
    simp only [inferExprKind, clean_bind] at h
    exact lowerExpression_looked operand locals s h.2 hlisted
  | .literal (.identifier name), span, _, _, locals, s, _, _ => by
    rw [lowerKind]
    split_ifs
    · exact looked_nil
    · split <;> exact looked_nil
  | .literal (.string _), _, _, _, _, _, _, _ => looked_nil
  | .literal (.integer _), _, _, _, _, _, _, _ => looked_nil
  | .literal (.float _), _, _, _, _, _, _, _ => looked_nil
  | .literal (.boolean _), _, _, _, _, _, _, _ => looked_nil
  | .path _, _, _, _, _, _, _, _ => looked_nil
  | .array items, _, _, _, locals, s, h, hlisted => by
    simp only [inferExprKind, clean_bind] at h
    exact lowerItems_looked items locals s h.1 hlisted
  | .call (.mk callee calleeSpan) arguments, span, scope, expected, locals, s, h, hlisted => by
    rcases ExprKind.path_or callee calleeSpan with ⟨segments, rfl⟩ | hne
    · rw [inferExprKind] at h
      rw [kindVisits, listed_append] at hlisted
      obtain ⟨-, hlength, hargs⟩ := clean_inferConstructorCall h
      exact looked_append.mpr ⟨looked_constructor h locals s, lowerArguments_looked arguments locals _ hlength hargs hlisted.2⟩
    · rw [inferExprKind, clean_bind] at h
      · rw [kindVisits_call hne, listed_append] at hlisted
        refine looked_append.mpr ⟨lowerExpression_looked (.mk callee calleeSpan) locals s h.1 hlisted.1, ?_⟩
        cases hcallee : (inferExpr a asyncContext (.mk callee calleeSpan) scope none).value with
        | function parameters result =>
          rw [hcallee] at h hlisted
          simp only [clean_bind, clean_require, decide_eq_true_eq] at h
          exact lowerArguments_looked arguments locals _ h.2.1 h.2.2.1 hlisted.2
        | error =>
          rw [hcallee] at h hlisted
          simp only [clean_bind] at h
          exact lowerUntyped_looked arguments locals _ h.2.2.1 hlisted.2
        | _ => simp [hcallee, clean_require] at h
      · exact hne
  | .field base _, _, _, _, locals, s, h, hlisted => by
    simp only [inferExprKind, clean_bind] at h
    exact lowerExpression_looked base locals s h.1 hlisted
  | .unary _ operand, _, _, _, locals, s, h, hlisted => by
    simp only [inferExprKind, clean_bind] at h
    exact lowerExpression_looked operand locals s h.1 hlisted
  | .binary _ left right, _, _, _, locals, s, h, hlisted => by
    simp only [inferExprKind, clean_bind] at h
    rw [kindVisits, listed_append] at hlisted
    exact looked_append.mpr ⟨lowerExpression_looked left locals s h.1 hlisted.1,
      lowerExpression_looked right locals _ h.2.1 hlisted.2⟩
  | .match_ value arms, _, _, _, locals, s, h, hlisted => by
    simp only [inferExprKind, clean_bind] at h
    rw [kindVisits, listed_append] at hlisted
    exact looked_append.mpr ⟨lowerExpression_looked value locals s h.1 hlisted.1, lowerArms_looked arms locals _ h.2.1 hlisted.2⟩
  | .block (.mk statements _), _, _, _, locals, s, h, hlisted => by
    simp only [inferExprKind, clean_bind] at h
    exact lowerStatements_looked statements locals s h.1 hlisted
theorem lowerItems_looked : ∀ (es : List Expr) {scope : Semantic.Scope} {expected : Option ResolvedType} {itemType : ResolvedType}
    (locals : LocalScope) (s : LowerState), Clean (inferItems a asyncContext es scope expected itemType) →
      Listed l (itemVisits a asyncContext es scope expected) → Looked a l (itemTypes (lowerItems l es locals s).1)
  | [], _, _, _, _, _, _, _ => looked_nil
  | e :: es, _, _, _, locals, s, h, hlisted => by
    simp only [inferItems, clean_bind] at h
    rw [itemVisits, listed_append] at hlisted
    exact looked_append.mpr ⟨lowerExpression_looked e locals s h.1 hlisted.1, lowerItems_looked es locals _ h.2.2 hlisted.2⟩
theorem lowerUntyped_looked : ∀ (as : List CallArgument) {scope : Semantic.Scope} (locals : LocalScope) (s : LowerState),
    Clean (inferArguments a asyncContext as scope) → Listed l (untypedVisits a asyncContext as scope) →
      Looked a l (itemTypes (lowerArguments l as locals s).1)
  | [], _, _, _, _, _ => looked_nil
  | .mk _ value _ :: as, _, locals, s, h, hlisted => by
    simp only [inferArguments, clean_bind] at h
    rw [untypedVisits, listed_append] at hlisted
    exact looked_append.mpr ⟨lowerExpression_looked value locals s h.1 hlisted.1, lowerUntyped_looked as locals _ h.2 hlisted.2⟩
theorem lowerArguments_looked : ∀ (as : List CallArgument) {types : List ResolvedType} {scope : Semantic.Scope} {context : String}
    (locals : LocalScope) (s : LowerState), types.length = as.length →
      Clean (checkArguments a asyncContext as types scope context) → Listed l (argumentVisits a asyncContext as types scope) →
        Looked a l (itemTypes (lowerArguments l as locals s).1)
  | [], _, _, _, _, _, _, _, _ => looked_nil
  | .mk _ value _ :: as, ty :: types, _, _, locals, s, hlength, h, hlisted => by
    simp only [checkArguments, clean_bind] at h
    rw [argumentVisits, listed_append] at hlisted
    exact looked_append.mpr ⟨lowerExpression_looked value locals s h.1 hlisted.1,
      lowerArguments_looked as locals _ (Nat.succ.inj hlength) h.2.2 hlisted.2⟩
theorem lowerArms_looked : ∀ (arms : List MatchArm) {valueType : ResolvedType} {scope : Semantic.Scope}
    {expected : Option ResolvedType} {result : ResolvedType} (locals : LocalScope) (s : LowerState),
    Clean (inferArms a asyncContext arms valueType scope expected result) →
      Listed l (armVisits a asyncContext arms valueType scope expected) → Looked a l (armTypes (lowerArms l arms locals s).1)
  | [], _, _, _, _, _, _, _, _ => looked_nil
  | .mk pattern guard body _ :: arms, _, _, _, _, locals, s, h, hlisted => by
    simp only [inferArms, clean_bind] at h
    rw [armVisits, listed_append, listed_append] at hlisted
    exact looked_append.mpr ⟨lowerGuard_looked guard _ _ h.2.1 hlisted.1.1, looked_append.mpr
      ⟨lowerExpression_looked body _ _ h.2.2.1 hlisted.1.2, lowerArms_looked arms locals _ h.2.2.2.2 hlisted.2⟩⟩
theorem lowerGuard_looked : ∀ (guard : Option Expr) {scope : Semantic.Scope} (locals : LocalScope) (s : LowerState),
    Clean (inferGuard a asyncContext guard scope) → Listed l (guardVisits a asyncContext guard scope) →
      Looked a l (optionTypes (lowerOptional l guard locals s).1)
  | none, _, _, _, _, _ => looked_nil
  | some guard, _, locals, s, h, hlisted => by
    simp only [inferGuard, clean_bind] at h
    exact lowerExpression_looked guard locals s h.1 hlisted
theorem lowerStatements_looked : ∀ (ss : List Statement) {scope : Semantic.Scope} {expectedResult result : ResolvedType}
    (locals : LocalScope) (s : LowerState), Clean (checkStatements a asyncContext ss scope expectedResult result) →
      Listed l (statementVisits a asyncContext ss scope expectedResult) →
        Looked a l (statementTypes (lowerStatements l ss locals s).1)
  | [], _, _, _, _, _, _, _ => looked_nil
  | .let_ name ty value _ :: rest, _, _, _, locals, s, h, hlisted => by
    simp only [checkStatements, clean_bind] at h
    rw [statementVisits, listed_append] at hlisted
    have hvalue := lowerExpression_looked value locals s h.2.1 hlisted.1
    refine looked_cons.mpr ⟨?_, looked_append.mpr ⟨hvalue, lowerStatements_looked rest _ _ h.2.2 hlisted.2⟩⟩
    intro t ht
    rw [List.mem_singleton.mp ht]
    cases ty with
    | some node => exact .inr (.inr ⟨node, clean_resolveOption.mp h.1 node rfl, rfl⟩)
    | none =>
      -- a `let` without an annotation has the type of its value
      have hfirst : ∀ e : TypedExpr, e.ty ∈ e.types := fun e => by
        cases e
        exact List.mem_cons_self
      exact hvalue _ (hfirst _)
  | .return_ (some value) _ :: rest, _, _, _, locals, s, h, hlisted => by
    simp only [checkStatements, inferReturned, clean_bind] at h
    rw [statementVisits, listed_append] at hlisted
    exact looked_append.mpr ⟨lowerExpression_looked value locals s h.1 hlisted.1, lowerStatements_looked rest _ _ h.2.2 hlisted.2⟩
  | .return_ none _ :: rest, _, _, _, locals, s, h, hlisted => by
    simp only [checkStatements, clean_bind] at h
    exact looked_append.mpr ⟨looked_nil, lowerStatements_looked rest _ _ h.2.2 hlisted⟩
  | .expression e _ :: rest, _, _, _, locals, s, h, hlisted => by
    simp only [checkStatements, clean_bind] at h
    rw [statementVisits, listed_append] at hlisted
    exact looked_append.mpr ⟨lowerExpression_looked e locals s h.1 hlisted.1, lowerStatements_looked rest _ _ h.2.2 hlisted.2⟩
end

/-! ## Definitions -/

/-- The result a pipeline is checked with is the one it is lowered with. -/
def resultsAgree : Item → Prop
  | .pipeline node => property node.fields "result" = lastProperty node.fields "result"
  | _              => True

theorem looked_signature {parameters : List Parameter} {returnType : Option TypeNode} {result : ResolvedType}
    (scope : LocalScope) (s : LowerState) (h : ∀ t ∈ parameters.map (·.ty) ++ returnType.toList, Clean (resolveType a t))
    (hresult : result = (returnType.map (lowerType l.types)).getD .unit) :
    Looked a l ((lowerParameters l parameters scope s).1.map (·.ty)) ∧ Looked a l [result] := by
  have hparameters : ∀ (ps : List Parameter) (scope : LocalScope) (s : LowerState),
      (lowerParameters l ps scope s).1.map (·.ty) = ps.map fun p => lowerType l.types p.ty := by
    intro ps
    induction ps with
    | nil => exact fun _ _ => rfl
    | cons p ps ih => exact fun _ _ => congrArg (lowerType l.types p.ty :: ·) (ih _ _)
  constructor
  · rw [hparameters]
    intro ty hty
    obtain ⟨p, hp, rfl⟩ := List.mem_map.mp hty
    exact .inr (.inr ⟨p.ty, h _ (List.mem_append_left _ (List.mem_map_of_mem hp)), rfl⟩)
  · intro ty hty
    rw [List.mem_singleton.mp hty, hresult]
    cases returnType with
    | none => exact .inr (.inr ⟨.tuple [] default, clean_pure _, rfl⟩)
    | some t => exact .inr (.inr ⟨t, h t (List.mem_append_right _ List.mem_cons_self), rfl⟩)

theorem lowerDefinition_looked {item : Item} (s : LowerState) (h : Clean (a.checkBody item)) (hrecorded : Semantic.Recorded a (item.name, item))
    (hagree : resultsAgree item) (hlisted : Listed l (bodyVisits a item)) : Looked a l (lowerDefinition l item s).1.types := by
  cases item with
  | function node =>
    have hfunction : (a.functions.get? node.name).isSome = true := by
      rw [← Option.isSome_map]
      exact Option.isSome_of_eq_some (hrecorded.entry rfl)
    obtain ⟨signature, hsome⟩ := Option.isSome_iff_exists.mp hfunction
    obtain ⟨_, _, _, parameters, returnType, _, ⟨statements, span⟩, _⟩ := node
    simp only [Analyzer.checkBody, Analyzer.checkFunction, hsome, checkBlock, clean_bind] at h
    simp only [bodyVisits, hsome] at hlisted
    obtain ⟨hparameters, hresult⟩ := looked_signature OrdMap.empty s hrecorded.clean rfl
    exact looked_append.mpr ⟨hparameters, looked_cons.mpr ⟨hresult, lowerStatements_looked statements _ _ h.1.1 hlisted⟩⟩
  | pipeline node =>
    have hlast : property node.fields "result" = lastProperty node.fields "result" := hagree
    simp only [Analyzer.checkBody, Analyzer.checkPipeline, clean_bind] at h
    obtain ⟨hparameters, hreturn⟩ := looked_signature OrdMap.empty s hrecorded.clean rfl
    refine looked_append.mpr ⟨hparameters, looked_cons.mpr ⟨hreturn, ?_⟩⟩
    show Looked a l (optionTypes (lowerPipeline l node s).1.body)
    simp only [lowerPipeline, ← hlast]
    cases hresult : property node.fields "result" with
    | none => exact looked_nil
    | some result =>
      simp only [hresult, clean_bind] at h
      simp only [bodyVisits, hresult] at hlisted
      exact lowerExpression_looked result.value _ _ h.2.2.2.1 hlisted
  | _ => exact looked_nil

theorem mem_lowerDefinitions : ∀ {items : List Item} {s : LowerState} {d : HirDefinition}, d ∈ (lowerDefinitions l items s).1 →
    ∃ item ∈ items, ∃ s', d = (lowerDefinition l item s').1
  | item :: items, s, d, hd => by
    rcases List.mem_cons.mp hd with rfl | hd
    · exact ⟨item, List.mem_cons_self, s, rfl⟩
    · obtain ⟨item', hitem', hs⟩ := mem_lowerDefinitions hd
      exact ⟨item', List.mem_cons_of_mem _ hitem', hs⟩

end

/-! ## Annotations -/

section
variable {a : Analyzer}

theorem loweredNamed_errorFree (hbuilt : a.Built) {name : String} (hknown : ∃ s, a.symbols.types.get? name = some s)
    (hne : name ∉ ["Option", "Result"]) : (loweredNamed a.symbols.types name).mentionsError = false := by
  by_cases hunit : name = "Unit"
  · rw [hunit, loweredNamed_unit hbuilt]
    rfl
  · have hne' : name ∉ ["Option", "Result", "Unit"] := by simpa [hunit] using hne
    obtain ⟨s, hget⟩ := hknown
    rw [loweredNamed_eq hbuilt hne']
    exact named_errorFree hbuilt hget hne'

mutual
theorem lowerType_free (hbuilt : a.Built) : ∀ t : TypeNode, t.wellFormed = true → a.Knows t.names →
    (lowerType a.symbols.types t).mentionsError = false
  | .reference _ _ inner _, h, hknows => lowerType_free hbuilt inner h hknows
  | .array inner _, h, hknows => lowerType_free hbuilt inner h hknows
  | .tuple [] _, _, _ => rfl
  | .tuple (t :: ts) _, h, hknows => lowerTypes_free hbuilt (t :: ts) h hknows
  | .path [] _ _, h, _ => by simp [TypeNode.wellFormed] at h
  | .path (_ :: _ :: _) _ _, h, _ => by simp [TypeNode.wellFormed] at h
  | .path [name] [] _, h, hknows => by
    have hne : name ∉ ["Option", "Result"] := by
      rintro hname
      rcases List.mem_pair.mp hname with rfl | rfl <;> simp [TypeNode.wellFormed] at h
    simp only [List.mem_cons, List.not_mem_nil, or_false] at hne
    by_cases hunit : name = "Unit"
    · rw [lowerType, hunit, loweredNamed_unit hbuilt]
      · rfl
      all_goals simp
    · rw [TypeNode.names, if_neg hne, if_neg hunit] at hknows
      exact loweredNamed_errorFree hbuilt (hknows name List.mem_cons_self) (by simpa using hne)
  | .path [name] [item] _, h, hknows => by
    simp only [TypeNode.wellFormed, wellFormedAll, Bool.and_true, Bool.and_eq_true] at h
    have hoption : name = "Option" := by
      by_contra hne
      simp [hne] at h
    rw [TypeNode.names, if_pos (.inl hoption), typeNames, typeNames, List.append_nil] at hknows
    rw [lowerType, if_pos hoption]
    exact lowerType_free hbuilt item h.2 hknows
  | .path [name] [ok, err] _, h, hknows => by
    simp only [TypeNode.wellFormed, wellFormedAll, Bool.and_true, Bool.and_eq_true] at h
    have hresult : name = "Result" := by
      by_contra hne
      simp [hne] at h
    rw [TypeNode.names, if_pos (.inr hresult), typeNames, typeNames, typeNames, List.append_nil, knows_append] at hknows
    rw [lowerType, if_pos hresult, ResolvedType.mentionsError, Bool.or_eq_false_iff]
    exact ⟨lowerType_free hbuilt ok h.2.1 hknows.1, lowerType_free hbuilt err h.2.2 hknows.2⟩
  | .path [name] (_ :: _ :: _ :: _) _, h, _ => by
    simp only [TypeNode.wellFormed, Bool.and_eq_true] at h
    have hargs := h.1
    split_ifs at hargs <;> simp at hargs
theorem lowerTypes_free (hbuilt : a.Built) : ∀ ts : List TypeNode, wellFormedAll ts = true → a.Knows (typeNames ts) →
    mentionError (lowerTypes a.symbols.types ts) = false
  | [], _, _ => rfl
  | t :: ts, h, hknows => by
    simp only [wellFormedAll, Bool.and_eq_true] at h
    rw [typeNames, knows_append] at hknows
    rw [lowerTypes, mentionError, Bool.or_eq_false_iff]
    exact ⟨lowerType_free hbuilt t h.1 hknows.1, lowerTypes_free hbuilt ts h.2 hknows.2⟩
end

/-- What an annotation that resolves is lowered to does not mention the error type. -/
theorem lowerType_errorFree (hbuilt : a.Built) {t : TypeNode} (h : Clean (resolveType a t)) :
    (lowerType a.symbols.types t).mentionsError = false :=
  lowerType_free hbuilt t ((clean_resolveType t).mp h).1 ((clean_resolveType t).mp h).2

end

/-! ## Files -/

/-- Expressions with one span are one expression, inferred in one scope. -/
def SpansTell (visits : List Visit) : Prop :=
  ∀ v ∈ visits, ∀ w ∈ visits, v.expression.span = w.expression.span →
    v.asyncContext = w.asyncContext ∧ v.expression = w.expression ∧ v.scope = w.scope

section
variable {file : String} {ast : SourceFile} {imports : List (String × Item)}

/-- A recorded type is that of a visit. -/
theorem visit_of_recorded {span : Span} {ty : ResolvedType}
    (h : (analyzeWithImports file ast imports).expressionTypes.get? span = some ty) :
    ∃ v ∈ fileVisits (declared file ast imports).value ast, v.expression.span = span ∧
      (v.infer (declared file ast imports).value).value = ty := by
  rw [expressionTypes_eq] at h
  obtain ⟨v, hv, heq⟩ := List.mem_map.mp (OrdMap.mem_of_get?_ofList h)
  exact ⟨v, hv, (Prod.mk.inj heq).1, (Prod.mk.inj heq).2⟩

theorem recorded_of_visit {v : Visit} (hv : v ∈ fileVisits (declared file ast imports).value ast) :
    ∃ ty, (analyzeWithImports file ast imports).expressionTypes.get? v.expression.span = some ty := by
  rw [expressionTypes_eq]
  refine OrdMap.exists_get?_ofList ?_
  rw [List.map_map]
  exact List.mem_map.mpr ⟨v, hv, rfl⟩

/-- The type of a field does not depend on what the context expects. -/
theorem onStruct_of_sameSpan {a : Analyzer} {visits : List Visit} (hspans : SpansTell visits) {v w : Visit} (hv : v ∈ visits)
    (hw : w ∈ visits) (hspan : w.expression.span = v.expression.span) (h : (w.infer a).value.mentionsError = false) :
    v.onStruct a = true := by
  have hstruct := onStruct_of_errorFree h
  obtain ⟨hasync, hexpression, hscope⟩ := hspans w hw v hv hspan
  obtain ⟨asyncContext, expression, scope, expected⟩ := v
  obtain ⟨asyncContext', expression', scope', expected'⟩ := w
  cases hasync
  cases hexpression
  cases hscope
  exact hstruct

/-- **In a file without diagnostics no signature mentions the error type; an expression has it exactly where a field is read of a
value that is no struct.  Where none is, neither a recorded type nor a lowered expression mentions it; and where spans tell
expressions apart, one that is is recorded.** -/
theorem error_types_of_fields (h : (analyzeWithImports file ast imports).diagnostics = []) :
    let a := (declared file ast imports).value
    SignaturesErrorFree a ∧
    (OnStructs a (fileVisits a ast) ↔ VisitsErrorFree a (fileVisits a ast)) ∧
    (OnStructs a (fileVisits a ast) → ∀ span ty, (analyzeWithImports file ast imports).expressionTypes.get? span = some ty →
      ty.mentionsError = false) ∧
    (SpansTell (fileVisits a ast) →
      (∀ span ty, (analyzeWithImports file ast imports).expressionTypes.get? span = some ty → ty.mentionsError = false) →
        OnStructs a (fileVisits a ast)) ∧
    (OnStructs a (fileVisits a ast) → (∀ item ∈ ast.items, resultsAgree item) → ∀ module globals members next m entry last,
      lowerModuleToHir ast (analyzeWithImports file ast imports) module globals members next = .ok (m, entry, last) →
        ∀ d ∈ m.definitions, ∀ ty ∈ d.types, ty.mentionsError = false) := by
  intro a
  have hclean := clean_bind.mp (clean_analyzed h)
  have hbodies : Clean (a.checkBodies ast.items) := (clean_bind.mp hclean.2).1
  obtain ⟨hbuilt, hsignatures⟩ := declared_errorFree hclean.1
  have hiff := onStructs_iff hbuilt hsignatures hbodies
  have hentries : OnStructs a (fileVisits a ast) → ∀ span ty,
      (analyzeWithImports file ast imports).expressionTypes.get? span = some ty → ty.mentionsError = false := by
    intro hstructs span ty hget
    obtain ⟨v, hv, -, rfl⟩ := visit_of_recorded hget
    exact hiff.mp hstructs v hv
  refine ⟨hsignatures, hiff, hentries, fun hspans hfree v hv => ?_, fun hstructs hagree module globals members next m entry last hok => ?_⟩
  · -- the type recorded for the span of a field is that of a visit of the same field
    obtain ⟨ty, hget⟩ := recorded_of_visit hv
    obtain ⟨w, hw, hspan, rfl⟩ := visit_of_recorded hget
    exact onStruct_of_sameSpan hspans hv hw hspan (hfree _ _ hget)
  · unfold lowerModuleToHir at hok
    simp only at hok
    split at hok
    · cases hok
    cases hok
    intro d hd ty hty
    obtain ⟨item, hitem, s, rfl⟩ := mem_lowerDefinitions hd
    have hrecorded := (declared_tables hclean.1).2.recorded (item.name, item)
      (List.mem_append_right _ (List.mem_map_of_mem hitem))
    have hlisted : Listed (indexed ast (analyzeWithImports file ast imports) module globals members next).1 (bodyVisits a item) :=
      fun v hv => recorded_of_visit (List.mem_flatMap.mpr ⟨item, hitem, hv⟩)
    rcases lowerDefinition_looked s (clean_checkBodies hbodies item hitem) hrecorded (hagree item hitem) hlisted ty hty with
      ⟨span, hget⟩ | ⟨name, rfl⟩ | ⟨t, ht, rfl⟩
    · exact hentries hstructs span ty hget
    · rfl
    · rw [show (indexed ast (analyzeWithImports file ast imports) module globals members next).1.types = a.symbols.types from rfl]
      exact lowerType_errorFree hbuilt ht

end

/-! ## A field of a state -/

/-- The bytes of a line from one column to another. -/
def columns (start stop : Nat) : Span := ⟨start, stop, 1, start + 1, 1, stop + 1⟩

/-- A parameter's field is the result of a function. -/
def fieldOf (parameterType : String) : Item := .function
  { isPublic := false, asynchronous := false, name := "f", parameters := [⟨"c", .path [parameterType] [] default, default⟩]
    returnType := some (.path ["U64"] [] default), effects := none
    body := .mk [.expression (.mk (.field (.mk (.literal (.identifier "c")) (columns 60 61)) "count") (columns 60 67))
      (columns 60 67)] (columns 58 69), span := columns 34 69 }

/-- `struct Counter { count: U64 }  fn f(c: Counter) -> U64 { c.count }`. -/
def structCounter : SourceFile :=
  ⟨none, [], [.struct ⟨false, "Counter", [⟨false, "count", .path ["U64"] [] default, default⟩], default⟩, fieldOf "Counter"], default⟩

/-- `state Counter { count: U64 = 0 }  fn f(c: Counter) -> U64 { c.count }`. -/
def stateCounter : SourceFile :=
  ⟨none, [], [.state ⟨false, "Counter", [⟨"count", .path ["U64"] [] default,
    some (.mk (.literal (.integer 0)) (columns 29 30)), default⟩], default⟩, fieldOf "Counter"], default⟩

theorem structCounter_errorFree : (∀ span ty, (analyze "<hir>" structCounter).expressionTypes.get? span = some ty →
    ty.mentionsError = false) ∧
    ∀ module globals members next m entry last,
      lowerModuleToHir structCounter (analyze "<hir>" structCounter) module globals members next = .ok (m, entry, last) →
        ∀ d ∈ m.definitions, ∀ ty ∈ d.types, ty.mentionsError = false := by
  have hclean : (analyzeWithImports "<hir>" structCounter []).diagnostics = [] := by decide +kernel
  have hall := error_types_of_fields hclean
  have hstructs : OnStructs (declared "<hir>" structCounter []).value (fileVisits (declared "<hir>" structCounter []).value
      structCounter) := by
    have hlist : ∀ v ∈ fileVisits (declared "<hir>" structCounter []).value structCounter,
        v.onStruct (declared "<hir>" structCounter []).value = true := by decide +kernel
    exact hlist
  refine ⟨hall.2.2.1 hstructs, hall.2.2.2.2 hstructs fun item hitem => ?_⟩
  rcases List.mem_pair.mp hitem with rfl | rfl <;> exact trivial

/-- The field of a state has the error type; nothing is reported and the file is lowered. -/
theorem stateCounter_error : (analyze "<hir>" stateCounter).diagnostics = [] ∧
    (analyze "<hir>" stateCounter).expressionTypes.get? (columns 60 67) = some .error ∧
    ∃ p, lowerToHir stateCounter (analyze "<hir>" stateCounter).symbols = .ok p ∧ ∃ d ∈ p.definitions, .error ∈ d.types := by
  have hlower : ∃ p ∈ (lowerToHir stateCounter (analyze "<hir>" stateCounter).symbols).toOption,
      ∃ d ∈ p.definitions, .error ∈ d.types := by decide +kernel
  obtain ⟨p, hp, herror⟩ := hlower
  refine ⟨by decide +kernel, by decide +kernel, p, ?_, herror⟩
  cases hok : lowerToHir stateCounter (analyze "<hir>" stateCounter).symbols with
  | error diagnostics => rw [hok] at hp; cases hp
  | ok program => rw [hok] at hp; cases hp; rfl

end AstLower
end Syllog
