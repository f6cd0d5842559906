import Syllog.Visits
import Syllog.TypeResolvers
/-!
# TypeErrors — where the error type comes from

The error type is compatible with every other one, so what has it is not reported again.  In a file without diagnostics no
signature mentions it, and inference gives it in one place only: a field of a value that is no struct.
-/
namespace Syllog

namespace Hir

mutual
/-- The error type is, or occurs in, the type. -/
def ResolvedType.mentionsError : ResolvedType → Bool
  | .reference _ _ inner        => inner.mentionsError
  | .option inner               => inner.mentionsError
  | .result ok err              => ok.mentionsError || err.mentionsError
  | .array item                 => item.mentionsError
  | .tuple items                => mentionError items
  | .function parameters result => mentionError parameters || result.mentionsError
  | .error                      => true
  | _                           => false
def mentionError : List ResolvedType → Bool
  | []          => false
  | ty :: types => ty.mentionsError || mentionError types
end

theorem mentionError_eq_false {types : List ResolvedType} : mentionError types = false ↔ ∀ ty ∈ types, ty.mentionsError = false := by
  induction types with
  | nil => simp [mentionError]
  | cons ty types ih => simp [mentionError, ih]

end Hir

namespace Semantic

open Hir Ast
open Modules (builtin_primitive names_ne)

/-! ## Signatures -/

section
variable {a : Analyzer}

mutual
theorem readWith_errorFree {named : String → ResolvedType} : ∀ t : TypeNode, t.wellFormed = true →
    (∀ name ∈ t.names, (named name).mentionsError = false) → (t.readWith named).mentionsError = false
  | .reference _ _ inner _, h, hnamed => by
    simpa only [TypeNode.readWith, ResolvedType.mentionsError] using readWith_errorFree inner h hnamed
  | .array inner _, h, hnamed => by
    simpa only [TypeNode.readWith, ResolvedType.mentionsError] using readWith_errorFree inner h hnamed
  | .tuple [] _, _, _ => rfl
  | .tuple (t :: ts) _, h, hnamed => by
    simpa only [TypeNode.readWith, ResolvedType.mentionsError] using readAllWith_errorFree (t :: ts) h hnamed
  | .path [] _ _, h, _ => by simp [TypeNode.wellFormed] at h
  | .path (_ :: _ :: _) _ _, h, _ => by simp [TypeNode.wellFormed] at h
  | .path [name] arguments _, h, hnamed => by
    simp only [TypeNode.wellFormed, Bool.and_eq_true] at h
    obtain ⟨hlength, hargs⟩ := h
    simp only [TypeNode.names] at hnamed
    simp only [TypeNode.readWith]
    by_cases hoption : name = "Option"
    · rw [if_pos hoption, decide_eq_true_eq] at hlength
      rw [if_pos (.inl hoption)] at hnamed
      have hall := readAllWith_errorFree arguments hargs hnamed
      obtain ⟨item, rfl⟩ := List.length_eq_one_iff.mp hlength
      rw [if_pos hoption]
      simpa [readAllWith, mentionError, ResolvedType.mentionsError] using hall
    by_cases hresult : name = "Result"
    · rw [if_neg hoption, if_pos hresult, decide_eq_true_eq] at hlength
      rw [if_pos (.inr hresult)] at hnamed
      have hall := readAllWith_errorFree arguments hargs hnamed
      obtain ⟨ok, err, rfl⟩ := List.length_eq_two.mp hlength
      rw [if_neg hoption, if_pos hresult]
      simpa [readAllWith, mentionError, ResolvedType.mentionsError] using hall
    rw [if_neg (not_or.mpr ⟨hoption, hresult⟩)] at hnamed
    rw [if_neg hoption, if_neg hresult]
    by_cases hunit : name = "Unit"
    · rw [if_pos hunit]
      rfl
    · rw [if_neg hunit] at hnamed ⊢
      exact hnamed name List.mem_cons_self
theorem readAllWith_errorFree {named : String → ResolvedType} : ∀ ts : List TypeNode, wellFormedAll ts = true →
    (∀ name ∈ typeNames ts, (named name).mentionsError = false) → mentionError (readAllWith named ts) = false
  | [], _, _ => rfl
  | t :: ts, h, hnamed => by
    simp only [wellFormedAll, Bool.and_eq_true] at h
    rw [readAllWith, mentionError, Bool.or_eq_false_iff]
    exact ⟨readWith_errorFree t h.1 fun name hn => hnamed name (List.mem_append_left _ hn),
      readAllWith_errorFree ts h.2 fun name hn => hnamed name (List.mem_append_right _ hn)⟩
end

/-- A name with a symbol stands for a primitive or for a declared type. -/
theorem named_errorFree (ha : a.Built) {name : String} {s : TypeSymbol} (hget : a.symbols.types.get? name = some s)
    (hne : name ∉ ["Option", "Result", "Unit"]) : (a.named name).mentionsError = false := by
  unfold Analyzer.named
  rw [hget]
  rcases ha.types.2 hget with hbuiltin | ⟨-, hkind⟩
  · obtain ⟨p, hp⟩ := builtin_primitive hbuiltin hne
    simp only [hp, ResolvedType.mentionsError]
  · rcases hkind with hkind | hkind | hkind <;> simp only [hkind] <;> rfl

/-- A type that resolves without a diagnostic does not mention the error type. -/
theorem read_errorFree (ha : a.Built) {t : TypeNode} (h : Clean (resolveType a t)) : (a.read t).mentionsError = false := by
  obtain ⟨hform, hknows⟩ := (clean_resolveType t).mp h
  rw [read_eq t h]
  refine readWith_errorFree t hform fun name hn => ?_
  obtain ⟨s, hget⟩ := hknows name hn
  exact named_errorFree ha hget (names_ne t hn)

theorem signature_errorFree {item : Item} {read : TypeNode → ResolvedType}
    (h : ∀ t ∈ item.signatureTypes, (read t).mentionsError = false) : ∀ ty ∈ item.signature read, ty.mentionsError = false := by
  have hcallable : ∀ {parameters : List Parameter} {returnType : Option TypeNode},
      (∀ t ∈ parameters.map (·.ty) ++ returnType.toList, (read t).mentionsError = false) →
        ∀ ty ∈ parameters.map (fun parameter => read parameter.ty) ++ [(returnType.map read).getD .unit],
          ty.mentionsError = false := by
    intro parameters returnType h ty hty
    rcases List.mem_append.mp hty with hty | hty
    · obtain ⟨parameter, hp, rfl⟩ := List.mem_map.mp hty
      exact h _ (List.mem_append_left _ (List.mem_map_of_mem hp))
    · rw [List.mem_singleton.mp hty]
      cases returnType with
      | none => rfl
      | some t => exact h t (List.mem_append_right _ List.mem_cons_self)
  intro ty hty
  cases item with
  | struct node =>
    obtain ⟨entry, hentry, rfl⟩ := List.mem_map.mp hty
    have hmem := OrdMap.mem_of_get?_ofList (OrdMap.get?_eq_some_iff.mpr hentry)
    obtain ⟨field, hfield, heq⟩ := List.mem_map.mp (List.of_mem_zip hmem).2
    rw [← heq]
    exact h _ (List.mem_map_of_mem hfield)
  | enum node =>
    obtain ⟨variant, hvariant, hmem⟩ := List.mem_flatMap.mp hty
    obtain ⟨t, ht, rfl⟩ := List.mem_map.mp hmem
    exact h t (List.mem_flatMap.mpr ⟨variant, hvariant, ht⟩)
  | function node => exact hcallable h ty hty
  | state node =>
    obtain ⟨field, hfield, rfl⟩ := List.mem_map.mp hty
    exact h _ (List.mem_map_of_mem hfield)
  | agent node =>
    rcases List.mem_append.mp hty with hmem | hmem
    · obtain ⟨t, ht, rfl⟩ := Option.map_eq_some_iff.mp (Option.mem_toList.mp hmem)
      exact h t (List.mem_append_left _ (Option.mem_toList.mpr ht))
    · obtain ⟨t, ht, rfl⟩ := Option.map_eq_some_iff.mp (Option.mem_toList.mp hmem)
      exact h t (List.mem_append_right _ (Option.mem_toList.mpr ht))
  | pipeline node => exact hcallable h ty hty
  | safetyBound node => cases hty

/-- No signature of the tables mentions the error type. -/
def SignaturesErrorFree (a : Analyzer) : Prop :=
  ∀ name item types, a.signatureOf name item = some types → ∀ ty ∈ types, ty.mentionsError = false

/-- Entering an item changes no signature but its own. -/
theorem record_signatureOf (name : String) (item : Item) (name' : String) (item' : Item) :
    (a.record name item).value.signatureOf name' item' = a.signatureOf name' item' ∨
      (a.record name item).value.signatureOf name' item' = some (item.signature a.read) := by
  by_cases hsame : key (name', item') = key (name, item) ∧ item'.isCallable = item.isCallable
  · obtain ⟨hkey, -⟩ := hsame
    obtain rfl : name' = name := (Prod.mk.inj hkey).2
    cases hitem : item.hasSignature with
    | false =>
      cases item <;> cases hitem
      exact .inl rfl
    | true =>
      have hentry := @record_entry a name' item hitem
      cases item <;> cases item' <;> first | exact .inl rfl | exact .inr hentry
  · rcases not_and_or.mp hsame with hkey | hcallable
    · exact .inl (record_frame hkey)
    · exact .inl (record_frame_callable hcallable)

/-- A declaration without a diagnostic is entered, or leaves the tables as they are. -/
theorem resolveDeclaration_cases {item : Item} (h : Clean (a.resolveDeclaration item)) :
    (a.resolveDeclaration item).value = a ∨
      Clean (a.record item.name item) ∧ (a.resolveDeclaration item).value = (a.record item.name item).value := by
  cases item with
  | struct node =>
    rw [Analyzer.resolveDeclaration] at h ⊢
    split_ifs at h ⊢
    · exact .inr ⟨h, rfl⟩
    · exact .inl rfl
  | enum node =>
    rw [Analyzer.resolveDeclaration] at h ⊢
    split_ifs at h ⊢
    · exact .inr ⟨h, rfl⟩
    · exact .inl rfl
  | function node =>
    rw [Analyzer.resolveDeclaration] at h ⊢
    split_ifs at h ⊢
    · exact .inl rfl
    · exact .inr ⟨h, rfl⟩
  | state node =>
    simp only [Analyzer.resolveDeclaration, clean_bind, Logged.value_bind] at h ⊢
    split_ifs
    · exact .inl rfl
    · exact .inr ⟨clean_bind.mpr ⟨h.1, clean_pure _⟩, rfl⟩
  | agent node =>
    rw [Analyzer.resolveDeclaration] at h ⊢
    split_ifs at h ⊢
    · exact .inl rfl
    · simp only [clean_bind] at h
      exact .inr ⟨clean_bind.mpr ⟨h.1, clean_pure _⟩, rfl⟩
  | pipeline node =>
    simp only [Analyzer.resolveDeclaration, clean_bind, Logged.value_bind] at h ⊢
    split_ifs
    · exact .inl rfl
    · exact .inr ⟨clean_bind.mpr ⟨h.1, clean_pure _⟩, rfl⟩
  | safetyBound node => exact .inl rfl

theorem SignaturesErrorFree.record (h : SignaturesErrorFree a) (ha : a.Built) {name : String} {item : Item}
    (hclean : Clean (a.record name item)) : SignaturesErrorFree (a.record name item).value := by
  intro name' item' types hget
  rcases record_signatureOf name item name' item' with hold | hnew
  · exact h name' item' types (hold ▸ hget)
  · rw [hnew, Option.some.injEq] at hget
    subst hget
    exact signature_errorFree fun t ht => read_errorFree ha (clean_record hclean t ht)

/-- **No signature of a file whose declarations report nothing mentions the error type.** -/
theorem declared_errorFree {file : String} {ast : SourceFile} {imports : List (String × Item)}
    (h : Clean (declared file ast imports)) :
    (declared file ast imports).value.Built ∧ SignaturesErrorFree (declared file ast imports).value := by
  unfold declared at h ⊢
  simp only [clean_bind, Logged.value_bind] at h ⊢
  obtain ⟨hcollect, himport, hresolve⟩ := h
  have hinsert : ∀ {a : Analyzer} (name : String) (item : Item), a.Built ∧ SignaturesErrorFree a →
      (a.insertSymbol name item).value.Built ∧ SignaturesErrorFree (a.insertSymbol name item).value := by
    rintro a name item ⟨hbuilt, hfree⟩
    refine ⟨hbuilt.insertSymbol name item, fun name' item' types hget => ?_⟩
    rw [insertSymbol_signatureOf] at hget
    exact hfree name' item' types hget
  have hnew : SignaturesErrorFree (Analyzer.new file) := fun name item types hget => by cases item <;> cases hget
  have hown := Logged.foldlM_keeps (P := fun a => a.Built ∧ SignaturesErrorFree a) (fun item _ a _ ha => hinsert item.name item ha) hcollect
    ⟨.new file, hnew⟩
  have himported := Logged.foldlM_keeps (P := fun a => a.Built ∧ SignaturesErrorFree a) (fun i _ a hclean ha => by
    have hboth := hinsert i.1 i.2 ha
    exact ⟨hboth.1.record i.1 i.2, hboth.2.record hboth.1 (clean_bind.mp hclean).2⟩) himport hown
  refine Logged.foldlM_keeps (P := fun a => a.Built ∧ SignaturesErrorFree a) (fun item _ a hclean ha => ?_) hresolve himported
  refine ⟨ha.1.resolveDeclaration item, ?_⟩
  rcases resolveDeclaration_cases hclean with hsame | ⟨hrecord, hvalue⟩
  · rw [hsame]
    exact ha.2
  · rw [hvalue]
    exact ha.2.record ha.1 hrecord

/-! ## Scopes -/

/-- No name of a scope has a type that mentions the error type. -/
def ScopeErrorFree (scope : Scope) : Prop := ∀ name ty, scope.get? name = some ty → ty.mentionsError = false

theorem scopeErrorFree_empty : ScopeErrorFree OrdMap.empty := fun name ty h => by simp at h

theorem ScopeErrorFree.insert {scope : Scope} (h : ScopeErrorFree scope) (name : String) {ty : ResolvedType}
    (hty : ty.mentionsError = false) : ScopeErrorFree (scope.insert name ty) := by
  intro name' ty' hget
  rw [OrdMap.get?_insert] at hget
  split_ifs at hget
  · cases hget
    exact hty
  · exact h name' ty' hget

theorem variantFields_errorFree (hfree : SignaturesErrorFree a) {enumName variantName : String} {fields : List ResolvedType}
    (h : variantFields a enumName variantName = some fields) : ∀ ty ∈ fields, ty.mentionsError = false := by
  obtain ⟨variants, hget, hfind⟩ := Option.bind_eq_some_iff.mp h
  obtain ⟨variant, hvariant, rfl⟩ := Option.map_eq_some_iff.mp hfind
  intro ty hty
  exact hfree enumName (.enum ⟨true, enumName, [], default⟩) _ (by rw [Analyzer.signatureOf, hget]; rfl) ty
    (List.mem_flatMap.mpr ⟨variant, List.mem_of_find?_eq_some hvariant, hty⟩)

theorem patternPayload_errorFree (hfree : SignaturesErrorFree a) {segments : List String} {expected : ResolvedType} {span : Span}
    {fields : List ResolvedType} (hexpected : expected.mentionsError = false)
    (h : (patternPayload a segments expected span).value = some fields) : ∀ ty ∈ fields, ty.mentionsError = false := by
  match segments with
  | [] => cases h
  | [_] => cases h
  | _ :: _ :: _ :: _ => cases h
  | [typeName, variantName] =>
    have hne : expected ≠ .error := by rintro rfl; cases hexpected
    simp only [patternPayload, splitConstructorPath, if_neg hne] at h
    split at h
    · rename_i payload hpayload
      obtain rfl : payload = fields := Option.some.inj h
      cases expected with
      | enum enumName =>
        simp only at hpayload
        split_ifs at hpayload
        exact variantFields_errorFree hfree hpayload
      | option inner =>
        simp only at hpayload
        split_ifs at hpayload <;> cases hpayload <;> simp_all [ResolvedType.mentionsError]
      | result ok err =>
        simp only at hpayload
        split_ifs at hpayload <;> cases hpayload <;> simp_all [ResolvedType.mentionsError]
      | _ => cases hpayload
    · cases h

mutual
/-- What a pattern binds is part of the value it is matched against. -/
theorem checkPattern_errorFree (hfree : SignaturesErrorFree a) : ∀ (p : Pattern) {expected : ResolvedType} {scope : Scope},
    expected.mentionsError = false → ScopeErrorFree scope → ScopeErrorFree (checkPattern a p expected scope).value
  | .wildcard _, _, _, _, h => h
  | .literal _ _, _, _, _, h => h
  | .path [name] _, _, _, hexpected, h => h.insert name hexpected
  | .path [] _, _, _, _, h => by
    simp only [checkPattern, Logged.value_bind]
    split <;> exact h
  | .path (_ :: _ :: _) _, _, _, _, h => by
    simp only [checkPattern, Logged.value_bind]
    split <;> exact h
  | .constructor _ fields _, _, _, hexpected, h => by
    rw [checkPattern, Logged.value_bind]
    split
    · exact h
    · rename_i payload hpayload
      exact checkPatterns_errorFree hfree fields (patternPayload_errorFree hfree hexpected hpayload) h
theorem checkPatterns_errorFree (hfree : SignaturesErrorFree a) : ∀ (ps : List Pattern) {types : List ResolvedType}
    {scope : Scope}, (∀ ty ∈ types, ty.mentionsError = false) → ScopeErrorFree scope →
      ScopeErrorFree (checkPatterns a ps types scope).value
  | p :: ps, ty :: types, _, htypes, h => by
    rw [checkPatterns, Logged.value_bind]
    exact checkPatterns_errorFree hfree ps (fun ty hty => htypes ty (List.mem_cons_of_mem _ hty))
      (checkPattern_errorFree hfree p (htypes ty List.mem_cons_self) h)
  | [], _, _, _, h => h
  | _ :: _, [], _, _, h => h
end

/-! ## Expressions -/

theorem callable_errorFree (hfree : SignaturesErrorFree a) {name : String} {signature : FunctionSignature}
    (h : a.functions.get? name = some signature) :
    (∀ ty ∈ signature.parameters, ty.mentionsError = false) ∧ signature.result.mentionsError = false := by
  have htypes := hfree name (.function ⟨true, false, name, [], none, none, .mk [] default, default⟩) _
    (by rw [Analyzer.signatureOf, h]; rfl)
  exact ⟨fun ty hty => htypes ty (List.mem_append_left _ hty), htypes _ (List.mem_append_right _ List.mem_cons_self)⟩

theorem inferLiteral_errorFree (hfree : SignaturesErrorFree a) {span : Span} {scope : Scope} {expected : Option ResolvedType}
    {literal : Literal} (hscope : ScopeErrorFree scope) (hexpected : ∀ ty ∈ expected, ty.mentionsError = false)
    (h : Clean (inferLiteral a span scope expected literal)) :
    (inferLiteral a span scope expected literal).value.mentionsError = false := by
  cases literal with
  | identifier name =>
    simp only [inferLiteral] at h ⊢
    split_ifs at h ⊢ with hnone
    · cases expected with
      | none => simp at h
      | some ty =>
        cases ty with
        | option inner => exact hexpected _ rfl
        | error => exact absurd (hexpected _ rfl) (by simp [ResolvedType.mentionsError])
        | _ => simp at h
    · cases hget : scope.get? name with
      | some ty => simpa [hget] using hscope name ty hget
      | none =>
        cases hfunction : a.functions.get? name with
        | none => simp [hget, hfunction] at h
        | some signature =>
          obtain ⟨hparameters, hresult⟩ := callable_errorFree hfree hfunction
          simp only [ResolvedType.mentionsError, Logged.value_pure, Bool.or_eq_false_iff]
          exact ⟨mentionError_eq_false.mpr hparameters, hresult⟩
  | string _ => rfl
  | integer _ => rfl
  | float _ => rfl
  | boolean _ => rfl

theorem inferPath_errorFree {segments : List String} {span : Span} (h : Clean (inferPath a segments span)) :
    (inferPath a segments span).value.mentionsError = false := by
  unfold inferPath at h ⊢
  split at h
  · simp [ResolvedType.mentionsError]
  · simp at h
  · simp at h

theorem joinType_errorFree {sofar actual : ResolvedType} {span : Span} {context : String} (hsofar : sofar.mentionsError = false)
    (hactual : actual.mentionsError = false) : (joinType a sofar actual span context).value.mentionsError = false := by
  unfold joinType
  split_ifs
  · exact hactual
  · exact hsofar

theorem fieldType_errorFree (hfree : SignaturesErrorFree a) {structName name : String} {span : Span}
    (h : Clean (fieldType a (.struct structName) name span)) :
    (fieldType a (.struct structName) name span).value.mentionsError = false := by
  unfold fieldType at h ⊢
  cases hget : (a.structs.get? structName).bind (·.get? name) with
  | none => simp [hget] at h
  | some ty =>
    obtain ⟨fields, hfields, hfield⟩ := Option.bind_eq_some_iff.mp hget
    simp only [hget, Logged.value_pure]
    exact hfree structName (.struct ⟨true, structName, [], default⟩) fields.values
      (by rw [Analyzer.signatureOf, hfields]; rfl) ty (List.mem_map.mpr ⟨_, OrdMap.get?_eq_some_iff.mp hfield, rfl⟩)

theorem unaryResult_errorFree {operator : UnaryOperator} {operandType : ResolvedType} {span : Span}
    (h : operandType.mentionsError = false) : (unaryResult a operator operandType span).value.mentionsError = false := by
  cases operator with
  | not => rfl
  | negate => exact h

theorem binaryResult_errorFree {operator : BinaryOperator} {leftType rightType : ResolvedType} {leftSpan rightSpan : Span}
    (h : leftType.mentionsError = false) :
    (binaryResult a operator leftType rightType leftSpan rightSpan).value.mentionsError = false := by
  cases operator <;> first | exact h | rfl

/-- The fields and the type of a constructor come from the tables, the context and the first argument. -/
theorem constructorOf_errorFree (hfree : SignaturesErrorFree a) {typeName variantName : String} {first : Checked ResolvedType}
    {span : Span} {expected : Option ResolvedType} {fields : List ResolvedType} {result : ResolvedType}
    (hexpected : ∀ ty ∈ expected, ty.mentionsError = false)
    (hfirst : infersFirst [typeName, variantName] expected = true → first.value.mentionsError = false)
    (h : (constructorOf a typeName variantName first span expected).value = some (fields, result)) :
    (∀ ty ∈ fields, ty.mentionsError = false) ∧ result.mentionsError = false := by
  simp only [infersFirst, splitConstructorPath] at hfirst
  unfold constructorOf at h
  by_cases hoption : typeName = "Option"
  · rw [if_pos hoption, Logged.value_bind] at h
    rw [if_pos hoption] at hfirst
    have hitem : (optionItem first expected).value.mentionsError = false := by
      unfold optionItem
      split
      · have hoption := hexpected _ rfl
        simpa [ResolvedType.mentionsError] using hoption
      · rename_i hnot
        refine hfirst ?_
        split
        · exact absurd rfl (hnot _)
        · rfl
    split_ifs at h <;> cases h <;> simp [hitem, ResolvedType.mentionsError]
  rw [if_neg hoption] at h hfirst
  by_cases hresult : typeName = "Result"
  · rw [if_pos hresult, Logged.value_bind] at h
    rw [if_pos hresult] at hfirst
    have hsides : ∀ sides ∈ (resultSides variantName first expected).value,
        sides.1.mentionsError = false ∧ sides.2.mentionsError = false := by
      rintro ⟨ok, err⟩ hsome
      unfold resultSides at hsome
      split at hsome
      · cases hsome
        have hboth := hexpected _ rfl
        simpa [ResolvedType.mentionsError] using hboth
      · rename_i hnot
        have hvalue : variantName = "ok" ∨ variantName = "err" → first.value.mentionsError = false := fun hname => by
          refine hfirst ?_
          split
          · exact absurd rfl (hnot _ _)
          · simpa using hname
        split_ifs at hsome with hok herr
        · cases hsome
          exact ⟨hvalue (.inl hok), rfl⟩
        · cases hsome
          exact ⟨rfl, hvalue (.inr herr)⟩
        · cases hsome
    cases hboth : (resultSides variantName first expected).value with
    | none => simp [hboth] at h
    | some sides =>
      obtain ⟨hok, herr⟩ := hsides sides hboth
      rw [hboth] at h
      simp only at h
      split_ifs at h <;> cases h <;> simp [hok, herr, ResolvedType.mentionsError]
  rw [if_neg hresult] at h
  cases hvariants : a.enums.get? typeName with
  | none => simp [hvariants] at h
  | some variants =>
    cases hfind : variants.find? (·.1 = variantName) with
    | none => simp [hvariants, hfind] at h
    | some variant =>
      simp only [hvariants, hfind, Logged.value_pure, Option.some.injEq, Prod.mk.injEq] at h
      obtain ⟨rfl, rfl⟩ := h
      exact ⟨variantFields_errorFree hfree (show variantFields a typeName variantName = _ by
        rw [variantFields, hvariants, Option.bind_some, hfind]; rfl), rfl⟩

theorem inferConstructorCall_errorFree (hfree : SignaturesErrorFree a) {segments : List String} {count : Nat}
    {first : Checked ResolvedType} {arguments : List ResolvedType → Checked Unit} {span : Span} {expected : Option ResolvedType}
    (h : Clean (inferConstructorCall a segments count first arguments span expected))
    (hexpected : ∀ ty ∈ expected, ty.mentionsError = false)
    (hfirst : infersFirst segments expected = true → first.value.mentionsError = false) :
    (inferConstructorCall a segments count first arguments span expected).value.mentionsError = false ∧
      ∀ ty ∈ constructorFields a segments first span expected, ty.mentionsError = false := by
  match segments with
  | [typeName, variantName] =>
    simp only [inferConstructorCall, splitConstructorPath, clean_bind] at h
    obtain ⟨⟨fields, result⟩, hvalue⟩ := Option.isSome_iff_exists.mp (constructorOf_isSome h.1)
    obtain ⟨hfields, hresult⟩ := constructorOf_errorFree hfree hexpected hfirst hvalue
    constructor
    · simpa [inferConstructorCall, splitConstructorPath, hvalue] using hresult
    · simpa [constructorFields, splitConstructorPath, hvalue] using hfields
  | [] => simp [inferConstructorCall, splitConstructorPath] at h
  | [_] => simp [inferConstructorCall, splitConstructorPath] at h
  | _ :: _ :: _ :: _ => simp [inferConstructorCall, splitConstructorPath] at h

/-- A field is read of a struct. -/
def Visit.onStruct (a : Analyzer) (v : Visit) : Bool :=
  match v.expression.kind with
  | .field base _ => match (inferExpr a v.asyncContext base v.scope none).value with
    | .struct _ => true
    | _         => false
  | _             => true

/-- Every field read at a visit is one of a struct. -/
def OnStructs (a : Analyzer) (visits : List Visit) : Prop := ∀ v ∈ visits, v.onStruct a = true

/-- No visit infers a type that mentions the error type. -/
def VisitsErrorFree (a : Analyzer) (visits : List Visit) : Prop := ∀ v ∈ visits, (v.infer a).value.mentionsError = false

theorem onStructs_append {u v : List Visit} : OnStructs a (u ++ v) ↔ OnStructs a u ∧ OnStructs a v := by
  simp only [OnStructs, List.mem_append, or_imp, forall_and]

theorem visitsErrorFree_append {u v : List Visit} : VisitsErrorFree a (u ++ v) ↔ VisitsErrorFree a u ∧ VisitsErrorFree a v := by
  simp only [VisitsErrorFree, List.mem_append, or_imp, forall_and]

theorem visitsErrorFree_nil : VisitsErrorFree a [] := fun _ h => by cases h

theorem resolveOption_errorFree (ha : a.Built) {ty : Option TypeNode} (h : Clean (resolveOption a ty)) :
    ∀ t ∈ (resolveOption a ty).value, t.mentionsError = false := by
  rw [resolveOption_value]
  intro t ht
  obtain ⟨node, hnode, rfl⟩ := Option.map_eq_some_iff.mp ht
  exact read_errorFree ha (clean_resolveOption.mp h node hnode)

section
variable {asyncContext : Bool}

mutual
/-- **Where every field is read of a struct, inference without diagnostics gives no error type.** -/
theorem inferExpr_errorFree (ha : a.Built) (hfree : SignaturesErrorFree a) : ∀ (e : Expr) {scope : Scope} {expected : Option ResolvedType},
    Clean (inferExpr a asyncContext e scope expected) → ScopeErrorFree scope → (∀ ty ∈ expected, ty.mentionsError = false) →
      OnStructs a (exprVisits a asyncContext e scope expected) →
        (inferExpr a asyncContext e scope expected).value.mentionsError = false ∧
          VisitsErrorFree a (exprVisits a asyncContext e scope expected)
  | .mk kind span, scope, expected, h, hscope, hexpected, hstructs => by
    rw [exprVisits, onStructs_append] at hstructs
    rw [inferExpr, clean_bind] at h
    obtain ⟨hvalue, hvisits⟩ := inferExprKind_errorFree ha hfree kind span h.1 hscope hexpected (hstructs.2 _ List.mem_cons_self) hstructs.1
    have hself : (inferExpr a asyncContext (.mk kind span) scope expected).value.mentionsError = false := by
      rwa [inferExpr, Logged.value_bind, Logged.value_bind, Logged.value_pure]
    refine ⟨hself, visitsErrorFree_append.mpr ⟨hvisits, fun v hv => ?_⟩⟩
    rw [List.mem_singleton.mp hv]
    exact hself
theorem inferExprKind_errorFree (ha : a.Built) (hfree : SignaturesErrorFree a) : ∀ (kind : ExprKind) (span : Span) {scope : Scope} {expected : Option ResolvedType},
    Clean (inferExprKind a asyncContext kind span scope expected) → ScopeErrorFree scope →
      (∀ ty ∈ expected, ty.mentionsError = false) → (⟨asyncContext, .mk kind span, scope, expected⟩ : Visit).onStruct a = true →
        OnStructs a (kindVisits a asyncContext kind span scope expected) →
          (inferExprKind a asyncContext kind span scope expected).value.mentionsError = false ∧
            VisitsErrorFree a (kindVisits a asyncContext kind span scope expected)
  | .borrow _ operand, _, _, _, h, hscope, _, _, hstructs => by
    simp only [inferExprKind, clean_bind] at h
    exact inferExpr_errorFree ha hfree operand h.2.1 hscope (fun _ h => by cases h) hstructs
  | .await operand, _, _, _, h, hscope, hexpected, _, hstructs => by
    simp only [inferExprKind, clean_bind] at h
    exact inferExpr_errorFree ha hfree operand h.2 hscope hexpected hstructs
  | .literal literal, _, _, _, h, hscope, hexpected, _, _ =>
    ⟨inferLiteral_errorFree hfree hscope hexpected h, visitsErrorFree_nil⟩
  | .path segments, _, _, _, h, _, _, _, _ => ⟨inferPath_errorFree h, visitsErrorFree_nil⟩
  | .array items, _, _, expected, h, hscope, hexpected, _, hstructs => by
    simp only [inferExprKind, clean_bind] at h
    have hitem : ∀ ty ∈ expectedItem expected, ty.mentionsError = false := by
      intro ty hty
      unfold expectedItem at hty
      split at hty <;> cases hty
      have harray := hexpected _ rfl
      rwa [ResolvedType.mentionsError] at harray
    have hinitial : ((expectedItem expected).getD .unknown).mentionsError = false := by
      cases hget : expectedItem expected with
      | none => rfl
      | some ty => exact hitem ty hget
    exact inferItems_errorFree ha hfree items h.1 hscope hitem hinitial hstructs
  | .call (.mk callee calleeSpan) arguments, span, scope, expected, h, hscope, hexpected, _, hstructs => by
    rcases ExprKind.path_or callee calleeSpan with ⟨segments, rfl⟩ | hne
    · rw [inferExprKind] at h ⊢
      rw [kindVisits, onStructs_append] at hstructs
      obtain ⟨hclean, -, hargs⟩ := clean_inferConstructorCall h
      have hfirst : infersFirst segments expected = true →
          (inferFirst a asyncContext arguments scope).value.mentionsError = false ∧
            VisitsErrorFree a (firstVisits a asyncContext arguments scope) := fun hinfers => by
        have hvisits := hstructs.1
        rw [if_pos hinfers] at hvisits
        exact inferFirst_errorFree ha hfree arguments (hclean hinfers) hscope hvisits
      obtain ⟨hvalue, hfields⟩ := inferConstructorCall_errorFree hfree h hexpected fun hinfers => (hfirst hinfers).1
      refine ⟨hvalue, ?_⟩
      rw [kindVisits, visitsErrorFree_append]
      refine ⟨?_, checkArguments_errorFree ha hfree arguments hargs hscope hfields hstructs.2⟩
      split_ifs with hinfers
      · exact (hfirst hinfers).2
      · exact visitsErrorFree_nil
    · rw [kindVisits_call hne, onStructs_append] at hstructs
      rw [kindVisits_call hne]
      rw [inferExprKind, clean_bind] at h
      · obtain ⟨hvalue, hvisits⟩ := inferExpr_errorFree ha hfree (.mk callee calleeSpan) h.1 hscope (fun _ h => by cases h) hstructs.1
        rw [inferExprKind, Logged.value_bind]
        · cases hcallee : (inferExpr a asyncContext (.mk callee calleeSpan) scope none).value with
          | function parameters result =>
            rw [hcallee] at h hstructs hvalue
            simp only [ResolvedType.mentionsError, Bool.or_eq_false_iff] at hvalue
            simp only [clean_bind] at h
            exact ⟨hvalue.2, visitsErrorFree_append.mpr ⟨hvisits,
              checkArguments_errorFree ha hfree arguments h.2.2.1 hscope (mentionError_eq_false.mp hvalue.1) hstructs.2⟩⟩
          | error => simp [hcallee, ResolvedType.mentionsError] at hvalue
          | _ => simp [hcallee, clean_require] at h
        · exact hne
      · exact hne
  | .field base name, _, _, _, h, hscope, _, hself, hstructs => by
    simp only [inferExprKind, clean_bind] at h
    obtain ⟨-, hvisits⟩ := inferExpr_errorFree ha hfree base h.1 hscope (fun _ h => by cases h) hstructs
    refine ⟨?_, hvisits⟩
    simp only [Visit.onStruct, Expr.kind] at hself
    split at hself
    · rename_i structName heq
      rw [heq] at h
      rw [inferExprKind, Logged.value_bind, heq]
      exact fieldType_errorFree hfree h.2
    · cases hself
  | .unary _ operand, _, _, _, h, hscope, _, _, hstructs => by
    simp only [inferExprKind, clean_bind] at h
    obtain ⟨hvalue, hvisits⟩ := inferExpr_errorFree ha hfree operand h.1 hscope (fun _ h => by cases h) hstructs
    exact ⟨unaryResult_errorFree hvalue, hvisits⟩
  | .binary _ left right, _, _, _, h, hscope, _, _, hstructs => by
    simp only [inferExprKind, clean_bind] at h
    rw [kindVisits, onStructs_append] at hstructs
    obtain ⟨hleft, hlefts⟩ := inferExpr_errorFree ha hfree left h.1 hscope (fun _ h => by cases h) hstructs.1
    obtain ⟨-, hrights⟩ := inferExpr_errorFree ha hfree right h.2.1 hscope (fun _ h => by cases h; exact hleft) hstructs.2
    exact ⟨binaryResult_errorFree hleft, visitsErrorFree_append.mpr ⟨hlefts, hrights⟩⟩
  | .match_ value arms, _, _, expected, h, hscope, hexpected, _, hstructs => by
    simp only [inferExprKind, clean_bind] at h
    rw [kindVisits, onStructs_append] at hstructs
    obtain ⟨hvalue, hvalues⟩ := inferExpr_errorFree ha hfree value h.1 hscope (fun _ h => by cases h) hstructs.1
    have hinitial : (expected.getD .unknown).mentionsError = false := by
      cases expected with
      | none => rfl
      | some ty => exact hexpected ty rfl
    obtain ⟨hresult, harms⟩ := inferArms_errorFree ha hfree arms h.2.1 hvalue hscope hexpected hinitial hstructs.2
    exact ⟨hresult, visitsErrorFree_append.mpr ⟨hvalues, harms⟩⟩
  | .block (.mk statements _), _, _, expected, h, hscope, hexpected, _, hstructs => by
    simp only [inferExprKind, clean_bind] at h
    have hinitial : (expected.getD .unknown).mentionsError = false := by
      cases expected with
      | none => rfl
      | some ty => exact hexpected ty rfl
    exact checkStatements_errorFree ha hfree statements h.1 hscope hinitial rfl hstructs
theorem inferItems_errorFree (ha : a.Built) (hfree : SignaturesErrorFree a) : ∀ (es : List Expr) {scope : Scope} {expected : Option ResolvedType} {itemType : ResolvedType},
    Clean (inferItems a asyncContext es scope expected itemType) → ScopeErrorFree scope →
      (∀ ty ∈ expected, ty.mentionsError = false) → itemType.mentionsError = false →
        OnStructs a (itemVisits a asyncContext es scope expected) →
          (inferItems a asyncContext es scope expected itemType).value.mentionsError = false ∧
            VisitsErrorFree a (itemVisits a asyncContext es scope expected)
  | [], _, _, _, _, _, _, hitem, _ => ⟨hitem, visitsErrorFree_nil⟩
  | e :: es, _, _, _, h, hscope, hexpected, hitem, hstructs => by
    simp only [inferItems, clean_bind] at h
    rw [itemVisits, onStructs_append] at hstructs
    obtain ⟨hvalue, hvisits⟩ := inferExpr_errorFree ha hfree e h.1 hscope hexpected hstructs.1
    obtain ⟨hresult, hrest⟩ := inferItems_errorFree ha hfree es h.2.2 hscope hexpected (joinType_errorFree hitem hvalue) hstructs.2
    exact ⟨hresult, visitsErrorFree_append.mpr ⟨hvisits, hrest⟩⟩
theorem inferFirst_errorFree (ha : a.Built) (hfree : SignaturesErrorFree a) : ∀ (as : List CallArgument) {scope : Scope}, Clean (inferFirst a asyncContext as scope) →
    ScopeErrorFree scope → OnStructs a (firstVisits a asyncContext as scope) →
      (inferFirst a asyncContext as scope).value.mentionsError = false ∧
        VisitsErrorFree a (firstVisits a asyncContext as scope)
  | [], _, _, _, _ => ⟨rfl, visitsErrorFree_nil⟩
  | .mk _ value _ :: _, _, h, hscope, hstructs => by
    rw [inferFirst] at h ⊢
    exact inferExpr_errorFree ha hfree value h hscope (fun _ h => by cases h) hstructs
theorem checkArguments_errorFree (ha : a.Built) (hfree : SignaturesErrorFree a) : ∀ (as : List CallArgument) {types : List ResolvedType} {scope : Scope} {context : String},
    Clean (checkArguments a asyncContext as types scope context) → ScopeErrorFree scope →
      (∀ ty ∈ types, ty.mentionsError = false) → OnStructs a (argumentVisits a asyncContext as types scope) →
        VisitsErrorFree a (argumentVisits a asyncContext as types scope)
  | .mk _ value _ :: as, ty :: types, _, _, h, hscope, htypes, hstructs => by
    simp only [checkArguments, clean_bind] at h
    rw [argumentVisits, onStructs_append] at hstructs
    obtain ⟨-, hvisits⟩ := inferExpr_errorFree ha hfree value h.1 hscope
      (fun _ hty => by cases hty; exact htypes ty List.mem_cons_self) hstructs.1
    exact visitsErrorFree_append.mpr ⟨hvisits, checkArguments_errorFree ha hfree as h.2.2 hscope
      (fun ty hty => htypes ty (List.mem_cons_of_mem _ hty)) hstructs.2⟩
  | [], _, _, _, _, _, _, _ => by
    rw [argumentVisits]
    exact visitsErrorFree_nil
  | .mk _ _ _ :: _, [], _, _, _, _, _, _ => visitsErrorFree_nil
theorem inferArms_errorFree (ha : a.Built) (hfree : SignaturesErrorFree a) : ∀ (arms : List MatchArm) {valueType : ResolvedType} {scope : Scope}
    {expected : Option ResolvedType} {result : ResolvedType},
    Clean (inferArms a asyncContext arms valueType scope expected result) → valueType.mentionsError = false →
      ScopeErrorFree scope → (∀ ty ∈ expected, ty.mentionsError = false) → result.mentionsError = false →
        OnStructs a (armVisits a asyncContext arms valueType scope expected) →
          (inferArms a asyncContext arms valueType scope expected result).value.mentionsError = false ∧
            VisitsErrorFree a (armVisits a asyncContext arms valueType scope expected)
  | [], _, _, _, _, _, _, _, _, hresult, _ => ⟨hresult, visitsErrorFree_nil⟩
  | .mk pattern guard body _ :: arms, _, _, _, _, h, hvalue, hscope, hexpected, hresult, hstructs => by
    simp only [inferArms, clean_bind] at h
    rw [armVisits, onStructs_append, onStructs_append] at hstructs
    have harm := checkPattern_errorFree hfree pattern hvalue hscope
    have hguards := inferGuard_errorFree ha hfree guard h.2.1 harm hstructs.1.1
    obtain ⟨hbody, hbodies⟩ := inferExpr_errorFree ha hfree body h.2.2.1 harm hexpected hstructs.1.2
    obtain ⟨hlast, hrest⟩ := inferArms_errorFree ha hfree arms h.2.2.2.2 hvalue hscope hexpected (joinType_errorFree hresult hbody) hstructs.2
    exact ⟨hlast, visitsErrorFree_append.mpr ⟨visitsErrorFree_append.mpr ⟨hguards, hbodies⟩, hrest⟩⟩
theorem inferGuard_errorFree (ha : a.Built) (hfree : SignaturesErrorFree a) : ∀ (guard : Option Expr) {scope : Scope}, Clean (inferGuard a asyncContext guard scope) →
    ScopeErrorFree scope → OnStructs a (guardVisits a asyncContext guard scope) →
      VisitsErrorFree a (guardVisits a asyncContext guard scope)
  | none, _, _, _, _ => visitsErrorFree_nil
  | some guard, _, h, hscope, hstructs => by
    simp only [inferGuard, clean_bind] at h
    exact (inferExpr_errorFree ha hfree guard h.1 hscope (fun _ hty => by cases hty; rfl) hstructs).2
theorem checkStatements_errorFree (ha : a.Built) (hfree : SignaturesErrorFree a) : ∀ (ss : List Statement) {scope : Scope} {expectedResult result : ResolvedType},
    Clean (checkStatements a asyncContext ss scope expectedResult result) → ScopeErrorFree scope →
      expectedResult.mentionsError = false → result.mentionsError = false →
        OnStructs a (statementVisits a asyncContext ss scope expectedResult) →
          (checkStatements a asyncContext ss scope expectedResult result).value.mentionsError = false ∧
            VisitsErrorFree a (statementVisits a asyncContext ss scope expectedResult)
  | [], _, _, _, _, _, _, hresult, _ => ⟨hresult, visitsErrorFree_nil⟩
  | .let_ name ty value _ :: rest, scope, _, _, h, hscope, hexpected, hresult, hstructs => by
    simp only [checkStatements, clean_bind] at h
    rw [statementVisits, onStructs_append] at hstructs
    have hdeclared := resolveOption_errorFree ha h.1
    obtain ⟨hvalue, hvisits⟩ := inferExpr_errorFree ha hfree value h.2.1 hscope hdeclared hstructs.1
    have hname : ((resolveOption a ty).value.getD
        (inferExpr a asyncContext value scope (resolveOption a ty).value).value).mentionsError = false := by
      cases hty : (resolveOption a ty).value with
      | none => rwa [hty] at hvalue
      | some t => exact hdeclared t hty
    obtain ⟨hlast, hrest⟩ := checkStatements_errorFree ha hfree rest h.2.2 (hscope.insert name hname) hexpected hresult hstructs.2
    exact ⟨hlast, visitsErrorFree_append.mpr ⟨hvisits, hrest⟩⟩
  | .return_ (some value) _ :: rest, _, _, _, h, hscope, hexpected, hresult, hstructs => by
    simp only [checkStatements, inferReturned, clean_bind] at h
    rw [statementVisits, onStructs_append] at hstructs
    obtain ⟨-, hvisits⟩ := inferExpr_errorFree ha hfree value h.1 hscope (fun _ hty => by cases hty; exact hexpected) hstructs.1
    obtain ⟨hlast, hrest⟩ := checkStatements_errorFree ha hfree rest h.2.2 hscope hexpected hresult hstructs.2
    exact ⟨hlast, visitsErrorFree_append.mpr ⟨hvisits, hrest⟩⟩
  | .return_ none _ :: rest, _, _, _, h, hscope, hexpected, hresult, hstructs => by
    simp only [checkStatements, clean_bind] at h
    exact checkStatements_errorFree ha hfree rest h.2.2 hscope hexpected hresult hstructs
  | .expression e _ :: rest, _, expectedResult, _, h, hscope, hexpected, _, hstructs => by
    simp only [checkStatements, clean_bind] at h
    rw [statementVisits, onStructs_append] at hstructs
    have hlastExpected : ∀ ty ∈ (if rest.isEmpty then some expectedResult else none), ty.mentionsError = false := by
      intro ty hty
      split_ifs at hty
      · cases hty
        exact hexpected
      · cases hty
    obtain ⟨hvalue, hvisits⟩ := inferExpr_errorFree ha hfree e h.1 hscope hlastExpected hstructs.1
    obtain ⟨hlast, hrest⟩ := checkStatements_errorFree ha hfree rest h.2.2 hscope hexpected hvalue hstructs.2
    exact ⟨hlast, visitsErrorFree_append.mpr ⟨hvisits, hrest⟩⟩
end
end

/-! ## Files -/

theorem parameterScope_errorFree {parameters : List Parameter} {types : List ResolvedType}
    (h : ∀ ty ∈ types, ty.mentionsError = false) : ScopeErrorFree (Analyzer.parameterScope parameters types) :=
  fun _ _ hget => h _ (List.of_mem_zip (OrdMap.mem_of_get?_ofList hget)).2

theorem initializerVisits_errorFree (ha : a.Built) (hfree : SignaturesErrorFree a) : ∀ {fields : List StateField}
    {types : List ResolvedType}, Clean (a.checkInitializers fields types) → (∀ ty ∈ types, ty.mentionsError = false) →
      OnStructs a (initializerVisits a fields types) → VisitsErrorFree a (initializerVisits a fields types)
  | field :: fields, expected :: types, h, htypes, hstructs => by
    rw [initializerVisits, onStructs_append] at hstructs
    rw [initializerVisits, visitsErrorFree_append]
    have hrest : ∀ ty ∈ types, ty.mentionsError = false := fun ty hty => htypes ty (List.mem_cons_of_mem _ hty)
    cases hinit : field.initializer with
    | none =>
      simp only [Analyzer.checkInitializers, hinit] at h
      exact ⟨visitsErrorFree_nil, initializerVisits_errorFree ha hfree h hrest hstructs.2⟩
    | some initializer =>
      simp only [Analyzer.checkInitializers, hinit, clean_bind] at h
      rw [hinit] at hstructs
      exact ⟨(inferExpr_errorFree ha hfree initializer h.1 scopeErrorFree_empty
        (fun _ hty => by cases hty; exact htypes expected List.mem_cons_self) hstructs.1).2,
        initializerVisits_errorFree ha hfree h.2.2 hrest hstructs.2⟩
  | [], _, _, _, _ => by
    rw [initializerVisits]
    exact visitsErrorFree_nil
  | _ :: _, [], _, _, _ => visitsErrorFree_nil

theorem bodyVisits_errorFree (ha : a.Built) (hfree : SignaturesErrorFree a) {item : Item} (h : Clean (a.checkBody item))
    (hstructs : OnStructs a (bodyVisits a item)) : VisitsErrorFree a (bodyVisits a item) := by
  cases item with
  | function node =>
    obtain ⟨_, _, _, _, _, _, ⟨statements, span⟩, _⟩ := node
    simp only [Analyzer.checkBody, Analyzer.checkFunction] at h
    simp only [bodyVisits] at hstructs ⊢
    split at h
    · rename_i hnone
      rw [hnone]
      exact visitsErrorFree_nil
    · rename_i signature hsome
      rw [hsome] at hstructs ⊢
      simp only [checkBlock, clean_bind] at h
      obtain ⟨hparameters, hresult⟩ := callable_errorFree hfree hsome
      exact (checkStatements_errorFree ha hfree statements h.1.1 (parameterScope_errorFree hparameters) hresult rfl hstructs).2
  | state node =>
    refine initializerVisits_errorFree ha hfree h ?_ hstructs
    cases hget : a.states.get? node.name with
    | none => exact fun _ hty => by cases hty
    | some types => exact hfree node.name (.state node) types hget
  | pipeline node =>
    simp only [Analyzer.checkBody, Analyzer.checkPipeline, clean_bind] at h
    simp only [bodyVisits] at hstructs ⊢
    split at hstructs
    · rename_i result hresult
      rw [hresult] at h
      simp only [clean_bind] at h
      have hsignature : ∀ {signature : FunctionSignature}, (a.functions.get? node.name).getD ⟨[], .unit⟩ = signature →
          (∀ ty ∈ signature.parameters, ty.mentionsError = false) ∧ signature.result.mentionsError = false := by
        rintro _ rfl
        cases hget : a.functions.get? node.name with
        | none => exact ⟨fun _ hty => (List.not_mem_nil hty).elim, rfl⟩
        | some signature => exact callable_errorFree hfree hget
      obtain ⟨hparameters, hreturn⟩ := hsignature rfl
      have hdeclared : (declaredResult a node result).mentionsError = false := by
        unfold declaredResult
        cases hty : (resolveOption a result.ty).value with
        | none => exact hreturn
        | some ty => exact resolveOption_errorFree ha h.2.1 ty hty
      exact (inferExpr_errorFree ha hfree result.value h.2.2.2.1 (parameterScope_errorFree hparameters)
        (fun _ hty => by cases hty; exact hdeclared) hstructs).2
    · exact visitsErrorFree_nil
  | _ => exact visitsErrorFree_nil

/-- A field that is not read of a struct has the error type, and nothing is reported. -/
theorem onStruct_of_errorFree {v : Visit} (h : (v.infer a).value.mentionsError = false) : v.onStruct a = true := by
  obtain ⟨asyncContext, ⟨kind, span⟩, scope, expected⟩ := v
  cases kind with
  | field base name =>
    simp only [Visit.infer, inferExpr, inferExprKind, Logged.value_bind, Logged.value_pure] at h
    simp only [Visit.onStruct, Expr.kind]
    cases hbase : (inferExpr a asyncContext base scope none).value with
    | struct structName => rfl
    | _ => simp [hbase, fieldType, ResolvedType.mentionsError] at h
  | _ => rfl

/-- **Without diagnostics the error type comes from a field of a value that is no struct, and from there alone.** -/
theorem onStructs_iff (ha : a.Built) (hfree : SignaturesErrorFree a) {ast : SourceFile} (h : Clean (a.checkBodies ast.items)) :
    OnStructs a (fileVisits a ast) ↔ VisitsErrorFree a (fileVisits a ast) := by
  refine ⟨fun hstructs v hv => ?_, fun hvisits v hv => onStruct_of_errorFree (hvisits v hv)⟩
  obtain ⟨item, hitem, hmem⟩ := List.mem_flatMap.mp hv
  exact bodyVisits_errorFree ha hfree (AstLower.clean_checkBodies h item hitem)
    (fun w hw => hstructs w (List.mem_flatMap.mpr ⟨item, hitem, hw⟩)) v hmem

end

end Semantic
end Syllog
