import Syllog.AstUses
/-!
# AnalyzeNames — a file without diagnostics uses only names it has

An analyzer that reports nothing has found every value a body uses freely among its functions: the names in scope there are
among those the syntax binds.
-/
namespace Syllog
namespace Semantic

open Hir Ast

/-- No diagnostic is noted. -/
abbrev Clean {α : Type} (x : Checked α) : Prop := x.Avoids (fun note => note.diagnostic?.isSome = true)

@[simp] theorem clean_pure {α : Type} (v : α) : Clean (pure v : Checked α) := Logged.avoids_pure v

@[simp] theorem clean_bind {α β : Type} {x : Checked α} {f : α → Checked β} :
    Clean (x >>= f) ↔ Clean x ∧ Clean (f x.value) := Logged.avoids_bind

@[simp] theorem not_clean_error (a : Analyzer) (code message : String) (span : Span) : ¬ Clean (a.error code message span) := by
  intro h
  exact Logged.avoids_tell.mp h rfl

@[simp] theorem clean_typed (span : Span) (ty : ResolvedType) : Clean (Logged.tell (Note.typed span ty)) :=
  Logged.avoids_tell.mpr fun h => by cases h

@[simp] theorem not_clean_unknownVariant (a : Analyzer) (typeName variantName : String) (span : Span) :
    ¬ Clean (a.unknownVariant typeName variantName span) := not_clean_error a _ _ span

theorem clean_require {a : Analyzer} {holds : Bool} {code message : String} {span : Span} :
    Clean (a.require holds code message span) ↔ holds = true := by
  unfold Analyzer.require
  cases holds <;> simp

/-- The free values of `uses` are functions of the file. -/
def Callable (a : Analyzer) (uses : List Use) : Prop := ∀ name, Use.value name false ∈ uses → a.functions.contains name = true

/-- The names in scope are bound by the syntax. -/
def Covers (bound : List String) (scope : Scope) : Prop := ∀ name, scope.contains name = true → name ∈ bound

section
variable {a : Analyzer} {asyncContext : Bool}

theorem callable_nil : Callable a [] := fun _ h => by cases h

theorem callable_append {u v : List Use} : Callable a (u ++ v) ↔ Callable a u ∧ Callable a v := by
  simp only [Callable, List.mem_append, or_imp, forall_and]

theorem callable_path (segments : List String) : Callable a [.path segments] := fun _ h => by
  rw [List.mem_singleton] at h
  cases h

theorem Covers.insert {bound : List String} {scope : Scope} (h : Covers bound scope) (name : String) (ty : ResolvedType) :
    Covers (name :: bound) (scope.insert name ty) := by
  intro n hn
  rw [OrdMap.contains, OrdMap.get?_insert] at hn
  split_ifs at hn with heq
  · exact heq ▸ List.mem_cons_self
  · exact List.mem_cons_of_mem _ (h n hn)

theorem Covers.mono {bound bound' : List String} {scope : Scope} (h : Covers bound scope) (hsub : bound ⊆ bound') :
    Covers bound' scope := fun n hn => hsub (h n hn)

/-! ## Patterns bind what the syntax says -/

mutual
theorem callable_pattern : ∀ p : Pattern, Callable a p.uses
  | .wildcard _ => callable_nil
  | .literal _ _ => callable_nil
  | .path [_] _ => callable_nil
  | .path [] _ => fun _ h => by cases List.mem_singleton.mp h
  | .path (_ :: _ :: _) _ => fun _ h => by cases List.mem_singleton.mp h
  | .constructor _ fields _ => fun name h => by
    rcases List.mem_cons.mp h with h | h
    · cases h
    · exact callable_patterns fields name h
theorem callable_patterns : ∀ ps : List Pattern, Callable a (patternUses ps)
  | [] => callable_nil
  | p :: ps => callable_append.mpr ⟨callable_pattern p, callable_patterns ps⟩
end

mutual
theorem checkPattern_covers : ∀ (p : Pattern) (expected : ResolvedType) {bound : List String} {scope : Scope},
    Covers bound scope → Covers (p.names ++ bound) (checkPattern a p expected scope).value
  | .wildcard _, _, _, _, h => h
  | .literal _ _, _, _, _, h => h
  | .path [name] _, _, _, _, h => h.insert name _
  | .path [] span, expected, _, _, h => by
    simp only [checkPattern, Logged.value_bind]
    split <;> exact h
  | .path (_ :: _ :: _) span, expected, _, _, h => by
    simp only [checkPattern, Logged.value_bind]
    split <;> exact h
  | .constructor segments fields span, expected, _, _, h => by
    rw [checkPattern, Logged.value_bind]
    split
    · exact h.mono (List.subset_append_right _ _)
    · exact checkPatterns_covers fields _ h
theorem checkPatterns_covers : ∀ (ps : List Pattern) (types : List ResolvedType) {bound : List String} {scope : Scope},
    Covers bound scope → Covers (patternNames ps ++ bound) (checkPatterns a ps types scope).value
  | p :: ps, ty :: types, bound, scope, h => by
    rw [checkPatterns, Logged.value_bind]
    refine (checkPatterns_covers ps types (checkPattern_covers p ty h)).mono fun name hname => ?_
    simp only [patternNames, List.mem_append] at hname ⊢
    tauto
  | [], _, _, _, h => h
  | _ :: _, [], _, _, h => h.mono (List.subset_append_right _ _)
end

/-! ## Bodies -/

theorem inferLiteral_callable {bound : List String} {scope : Scope} {expected : Option ResolvedType} {span : Span}
    (literal : Literal) (hscope : Covers bound scope) (h : Clean (inferLiteral a span scope expected literal)) :
    Callable a (ExprKind.uses (.literal literal) bound) := by
  cases literal with
  | identifier name =>
    rw [ExprKind.uses]
    simp only [inferLiteral] at h
    split_ifs at h ⊢ with hnone
    · exact callable_nil
    · intro n hn
      obtain ⟨rfl, hfree⟩ : n = name ∧ name ∉ bound := by simpa using hn
      cases hget : scope.get? n with
      | some ty => exact absurd (hscope n (by rw [OrdMap.contains, hget]; rfl)) hfree
      | none =>
        rw [hget] at h
        cases hfun : a.functions.get? n with
        | some signature => rw [OrdMap.contains, hfun]; rfl
        | none => simp [hfun] at h
  | string value => exact callable_nil
  | integer value => exact callable_nil
  | float text => exact callable_nil
  | boolean value => exact callable_nil

/-- A constructor that is not known is reported. -/
theorem constructorOf_isSome {typeName variantName : String} {first : Checked ResolvedType} {span : Span}
    {expected : Option ResolvedType} (h : Clean (constructorOf a typeName variantName first span expected)) :
    (constructorOf a typeName variantName first span expected).value.isSome = true := by
  unfold constructorOf at h ⊢
  by_cases hoption : typeName = "Option"
  · rw [if_pos hoption] at h ⊢
    simp only [clean_bind, Logged.value_bind] at h ⊢
    obtain ⟨-, h⟩ := h
    split_ifs at h ⊢
    · rfl
    · rfl
    · simp at h
  rw [if_neg hoption] at h ⊢
  by_cases hresult : typeName = "Result"
  · rw [if_pos hresult] at h ⊢
    simp only [clean_bind, Logged.value_bind] at h ⊢
    obtain ⟨-, h⟩ := h
    split at h
    · split_ifs at h ⊢
      · rfl
      · rfl
      · simp at h
    · simp at h
  rw [if_neg hresult] at h ⊢
  cases henum : a.enums.get? typeName with
  | none => simp [henum] at h
  | some variants =>
    rw [henum] at h
    simp only at h ⊢
    cases hfind : variants.find? (·.1 = variantName) with
    | none => simp [hfind] at h
    | some variant => rfl

/-- The arguments of a constructor have been looked at, one by one. -/
theorem inferConstructorCall_clean {segments : List String} {count : Nat} {first : Checked ResolvedType}
    {arguments : List ResolvedType → Checked Unit} {span : Span} {expected : Option ResolvedType}
    (h : Clean (inferConstructorCall a segments count first arguments span expected)) :
    ∃ fields, fields.length = count ∧ Clean (arguments fields) := by
  unfold inferConstructorCall at h
  split at h
  · simp at h
  · rw [clean_bind] at h
    obtain ⟨hof, hrest⟩ := h
    have hsome := constructorOf_isSome hof
    split at hrest
    · rename_i hnone
      rw [hnone] at hsome
      cases hsome
    · rename_i fields result _
      simp only [clean_bind, clean_require, decide_eq_true_eq] at hrest
      exact ⟨fields, hrest.1, hrest.2.1⟩

mutual
theorem inferExpr_callable : ∀ (e : Expr) {bound : List String} {scope : Scope} {expected : Option ResolvedType},
    Covers bound scope → Clean (inferExpr a asyncContext e scope expected) → Callable a (e.uses bound)
  | .mk kind span, _, _, _, hscope, h => by
    rw [inferExpr, clean_bind] at h
    exact inferExprKind_callable kind span hscope h.1
theorem inferExprKind_callable : ∀ (kind : ExprKind) (span : Span) {bound : List String} {scope : Scope}
    {expected : Option ResolvedType}, Covers bound scope → Clean (inferExprKind a asyncContext kind span scope expected) →
      Callable a (kind.uses bound)
  | .borrow _ operand, _, _, _, _, hscope, h => by
    simp only [inferExprKind, clean_bind] at h
    exact inferExpr_callable operand hscope h.2.1
  | .await operand, _, _, _, _, hscope, h => by
    simp only [inferExprKind, clean_bind] at h
    exact inferExpr_callable operand hscope h.2
  | .literal literal, _, _, _, _, hscope, h => by
    rw [inferExprKind] at h
    exact inferLiteral_callable literal hscope h
  | .path segments, _, _, _, _, _, _ => callable_path segments
  | .array items, _, _, _, _, hscope, h => by
    simp only [inferExprKind, clean_bind] at h
    exact inferItems_callable items hscope h.1
  | .call (.mk callee calleeSpan) arguments, span, _, scope, _, hscope, h => by
    rw [ExprKind.uses]
    rcases ExprKind.path_or callee calleeSpan with ⟨segments, rfl⟩ | hne
    · rw [inferExprKind] at h
      obtain ⟨fields, hlength, hargs⟩ := inferConstructorCall_clean h
      exact callable_append.mpr ⟨callable_path segments, checkArguments_callable arguments hlength hscope hargs⟩
    · rw [inferExprKind, clean_bind] at h
      · obtain ⟨hcallee, h⟩ := h
        refine callable_append.mpr ⟨inferExpr_callable (.mk callee calleeSpan) hscope hcallee, ?_⟩
        split at h
        · rename_i parameters result _
          simp only [clean_bind, clean_require, decide_eq_true_eq] at h
          exact checkArguments_callable arguments h.1 hscope h.2.1
        · simp only [clean_bind] at h
          exact inferArguments_callable arguments hscope h.2.1
      · exact hne
  | .field base _, _, _, _, _, hscope, h => by
    simp only [inferExprKind, clean_bind] at h
    exact inferExpr_callable base hscope h.1
  | .unary _ operand, _, _, _, _, hscope, h => by
    simp only [inferExprKind, clean_bind] at h
    exact inferExpr_callable operand hscope h.1
  | .binary _ left right, _, _, _, _, hscope, h => by
    simp only [inferExprKind, clean_bind] at h
    exact callable_append.mpr ⟨inferExpr_callable left hscope h.1, inferExpr_callable right hscope h.2.1⟩
  | .match_ value arms, _, _, _, _, hscope, h => by
    simp only [inferExprKind, clean_bind] at h
    exact callable_append.mpr ⟨inferExpr_callable value hscope h.1, inferArms_callable arms hscope h.2.1⟩
  | .block (.mk statements _), _, _, _, _, hscope, h => by
    simp only [inferExprKind, clean_bind] at h
    exact checkStatements_callable statements hscope h.1
theorem inferItems_callable : ∀ (es : List Expr) {bound : List String} {scope : Scope} {expected : Option ResolvedType}
    {itemType : ResolvedType}, Covers bound scope → Clean (inferItems a asyncContext es scope expected itemType) →
      Callable a (itemUses es bound)
  | [], _, _, _, _, _, _ => callable_nil
  | e :: es, _, _, _, _, hscope, h => by
    simp only [inferItems, clean_bind] at h
    exact callable_append.mpr ⟨inferExpr_callable e hscope h.1, inferItems_callable es hscope h.2.2⟩
theorem inferArguments_callable : ∀ (as : List CallArgument) {bound : List String} {scope : Scope},
    Covers bound scope → Clean (inferArguments a asyncContext as scope) → Callable a (argumentUses as bound)
  | [], _, _, _, _ => callable_nil
  | .mk _ value _ :: as, _, _, hscope, h => by
    simp only [inferArguments, clean_bind] at h
    exact callable_append.mpr ⟨inferExpr_callable value hscope h.1, inferArguments_callable as hscope h.2⟩
theorem checkArguments_callable : ∀ (as : List CallArgument) {types : List ResolvedType} {bound : List String} {scope : Scope}
    {context : String}, types.length = as.length → Covers bound scope →
      Clean (checkArguments a asyncContext as types scope context) → Callable a (argumentUses as bound)
  | [], _, _, _, _, _, _, _ => callable_nil
  | .mk _ value _ :: as, [], _, _, _, hlength, _, _ => by cases hlength
  | .mk _ value _ :: as, _ :: _, _, _, _, hlength, hscope, h => by
    simp only [checkArguments, clean_bind] at h
    exact callable_append.mpr ⟨inferExpr_callable value hscope h.1,
      checkArguments_callable as (Nat.succ.inj hlength) hscope h.2.2⟩
theorem inferArms_callable : ∀ (arms : List MatchArm) {bound : List String} {valueType : ResolvedType} {scope : Scope}
    {expected : Option ResolvedType} {result : ResolvedType}, Covers bound scope →
      Clean (inferArms a asyncContext arms valueType scope expected result) → Callable a (armUses arms bound)
  | [], _, _, _, _, _, _, _ => callable_nil
  | .mk pattern guard body _ :: arms, _, valueType, _, _, _, hscope, h => by
    simp only [inferArms, clean_bind] at h
    have harm := checkPattern_covers (a := a) pattern valueType hscope
    exact callable_append.mpr ⟨callable_append.mpr ⟨callable_append.mpr ⟨callable_pattern pattern,
      inferGuard_callable guard harm h.2.1⟩, inferExpr_callable body harm h.2.2.1⟩,
      inferArms_callable arms hscope h.2.2.2.2⟩
theorem inferGuard_callable : ∀ (guard : Option Expr) {bound : List String} {scope : Scope}, Covers bound scope →
    Clean (inferGuard a asyncContext guard scope) → Callable a (optionUses guard bound)
  | none, _, _, _, _ => callable_nil
  | some guard, _, _, hscope, h => by
    simp only [inferGuard, clean_bind] at h
    exact inferExpr_callable guard hscope h.1
theorem inferReturned_callable : ∀ (value : Option Expr) {bound : List String} {scope : Scope} {expectedResult : ResolvedType},
    Covers bound scope → Clean (inferReturned a asyncContext value scope expectedResult) →
      Callable a (optionUses value bound)
  | none, _, _, _, _, _ => callable_nil
  | some value, _, _, _, hscope, h => by
    rw [inferReturned] at h
    exact inferExpr_callable value hscope h
theorem checkStatements_callable : ∀ (ss : List Statement) {bound : List String} {scope : Scope}
    {expectedResult result : ResolvedType}, Covers bound scope →
      Clean (checkStatements a asyncContext ss scope expectedResult result) → Callable a (statementUses ss bound)
  | [], _, _, _, _, _, _ => callable_nil
  | .let_ name _ value _ :: rest, _, _, _, _, hscope, h => by
    simp only [checkStatements, clean_bind] at h
    exact callable_append.mpr ⟨inferExpr_callable value hscope h.2.1,
      checkStatements_callable rest (hscope.insert name _) h.2.2⟩
  | .return_ value _ :: rest, _, _, _, _, hscope, h => by
    simp only [checkStatements, clean_bind] at h
    exact callable_append.mpr ⟨inferReturned_callable value hscope h.1, checkStatements_callable rest hscope h.2.2⟩
  | .expression e _ :: rest, _, _, _, _, hscope, h => by
    simp only [checkStatements, clean_bind] at h
    exact callable_append.mpr ⟨inferExpr_callable e hscope h.1, checkStatements_callable rest hscope h.2.2⟩
end

end
end Semantic
end Syllog
