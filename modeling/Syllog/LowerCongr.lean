import Syllog.AstUses
import Syllog.LowerStatic
import Syllog.MirTypes
/-!
# LowerCongr — what a lowering reads of the index

A function is lowered from its own types, looked up by name, and from the variants its body refers to.  Two indexes that agree
on these lower it alike, and a module whose types carry none of its names leaves it as it was.
-/
namespace Syllog

namespace Hir

/-- The identity a body refers to. -/
def Referent.definition : Referent → DefId
  | .reference definition => definition
  | .variant definition   => definition

end Hir

namespace Lower

open Hir Mir

/-! ## Two indexes -/

/-- The two indexes give these types and these referents the same meaning. -/
structure ReadsAlike (ix ix' : ProgramIndex) (types : List ResolvedType) (referents : List Referent) : Prop where
  types : ∀ ty ∈ types, ix'.lowerType ty = ix.lowerType ty
  variants : ∀ r ∈ referents, lookupKey r.definition ix'.variants = lookupKey r.definition ix.variants

section
variable {ix ix' : ProgramIndex}

theorem ReadsAlike.of_subset {types : List ResolvedType} {referents : List Referent} (h : ReadsAlike ix ix' types referents)
    (less : List ResolvedType) (fewer : List Referent) (htypes : less ⊆ types) (hreferents : fewer ⊆ referents) :
    ReadsAlike ix ix' less fewer :=
  ⟨fun ty hty => h.types ty (htypes hty), fun r hr => h.variants r (hreferents hr)⟩

theorem requiredType_congr {ty : ResolvedType} (h : ix'.lowerType ty = ix.lowerType ty) (b : FunctionBuilder) (span : Span) :
    b.requiredType ix' ty span = b.requiredType ix ty span := by
  unfold FunctionBuilder.requiredType
  rw [h]

theorem lowerReference_congr {definition : DefId}
    (h : lookupKey definition ix'.variants = lookupKey definition ix.variants) (span : Span) (b : FunctionBuilder) :
    lowerReference ix' definition span b = lowerReference ix definition span b := by
  unfold lowerReference
  rw [h]

theorem patternDiscriminant_congr {pattern : HirPattern}
    (h : ∀ r ∈ pattern.referents, lookupKey r.definition ix'.variants = lookupKey r.definition ix.variants) :
    patternDiscriminant ix' pattern = patternDiscriminant ix pattern := by
  cases pattern with
  | variant definition fields =>
    cases fields with
    | nil =>
      have hvariant : lookupKey definition ix'.variants = lookupKey definition ix.variants := h (.variant definition) List.mem_cons_self
      simp only [patternDiscriminant, hvariant]
    | cons field fields => rfl
  | wildcard => rfl
  | binding definition => rfl
  | literal literal => cases literal <;> rfl

theorem matchTargets_congr : ∀ {arms : List HirMatchArm} (block : Nat) (b : FunctionBuilder),
    (∀ r ∈ armReferents arms, lookupKey r.definition ix'.variants = lookupKey r.definition ix.variants) →
      matchTargets ix' block arms b = matchTargets ix block arms b
  | [], _, _, _ => rfl
  | [.mk _ _ _ _], _, _, _ => rfl
  | .mk pattern guard body span :: next :: arms, block, b, h => by
    simp only [armReferents, List.append_assoc, List.forall_mem_append] at h
    unfold matchTargets
    rw [patternDiscriminant_congr h.1]
    simp only [matchTargets_congr _ _ h.2.2.2]

end

mutual
theorem lowerExpression_congr {ix ix' : ProgramIndex} : ∀ (e : TypedExpr) (expected : Option MirType) (b : FunctionBuilder),
    ReadsAlike ix ix' e.types e.referents → lowerExpression ix' e expected b = lowerExpression ix e expected b
  | .mk (.borrow mutable operand) ty span, expected, b, h => by
    simp only [lowerExpression, lowerBorrow, h.types ty List.mem_cons_self]
  | .mk (.await operand) ty span, expected, b, h => by
    unfold lowerExpression
    exact lowerExpression_congr operand expected b (h.of_subset _ _ (List.subset_cons_self _ _) (List.Subset.refl _))
  | .mk (.literal literal) ty span, expected, b, h => rfl
  | .mk (.reference definition) ty span, expected, b, h => by
    simp only [lowerExpression]
    exact lowerReference_congr (h.variants (.reference definition) List.mem_cons_self) span b
  | .mk (.binary operator left right) ty span, expected, b, h => by
    have hleft := h.of_subset left.types left.referents
      (fun t ht => List.mem_cons_of_mem _ (List.mem_append_left _ ht)) (List.subset_append_left _ _)
    have hright := h.of_subset right.types right.referents
      (fun t ht => List.mem_cons_of_mem _ (List.mem_append_right _ ht)) (List.subset_append_right _ _)
    simp only [lowerExpression, lowerExpression_congr left _ _ hleft, lowerExpression_congr right _ _ hright]
  | .mk (.call callee arguments) ty span, expected, b, h => by
    have harguments := h.of_subset (itemTypes arguments) (itemReferents arguments)
      (fun t ht => List.mem_cons_of_mem _ (List.mem_append_right _ ht)) (List.subset_append_right _ _)
    simp only [lowerExpression, lowerArguments_congr arguments _ harguments, storedType, h.types ty List.mem_cons_self]
  | .mk (.match_ value []) ty span, expected, b, h => rfl
  | .mk (.match_ value (arm :: rest)) ty span, expected, b, h => by
    have hvalue := h.of_subset value.types value.referents
      (fun t ht => List.mem_cons_of_mem _ (List.mem_append_left _ ht)) (List.subset_append_left _ _)
    have harms := h.of_subset (armTypes (arm :: rest)) (armReferents (arm :: rest))
      (fun t ht => List.mem_cons_of_mem _ (List.mem_append_right _ ht)) (List.subset_append_right _ _)
    simp only [lowerExpression, lowerExpression_congr value _ _ hvalue, storedType, h.types ty List.mem_cons_self, openMatch,
      matchTargets_congr _ _ harms.variants, lowerArms_congr (arm :: rest) _ _ _ _ _ harms]
  | .mk (.block statements) ty span, expected, b, h => by
    simp only [lowerExpression, lowerBlock_congr statements _ _ (h.of_subset _ _ (List.subset_cons_self _ _) (List.Subset.refl _))]
  | .mk (.array items) ty span, expected, b, h => rfl
  | .mk (.field base field) ty span, expected, b, h => rfl
  | .mk (.unary operator operand) ty span, expected, b, h => rfl
theorem lowerArguments_congr {ix ix' : ProgramIndex} : ∀ (es : List TypedExpr) (b : FunctionBuilder),
    ReadsAlike ix ix' (itemTypes es) (itemReferents es) → lowerArguments ix' es b = lowerArguments ix es b
  | [], _, _ => rfl
  | e :: es, b, h => by
    have hfirst := h.of_subset e.types e.referents (List.subset_append_left _ _)
      (List.subset_append_left _ _)
    have hrest := h.of_subset (itemTypes es) (itemReferents es) (List.subset_append_right _ _)
      (List.subset_append_right _ _)
    simp only [lowerArguments, lowerExpression_congr e _ _ hfirst, lowerArguments_congr es _ hrest]
theorem lowerArms_congr {ix ix' : ProgramIndex} : ∀ (arms : List HirMatchArm) (resultTy : MirType) (result join block : Nat)
    (b : FunctionBuilder), ReadsAlike ix ix' (armTypes arms) (armReferents arms) →
      lowerArms ix' resultTy result join block arms b = lowerArms ix resultTy result join block arms b
  | [], _, _, _, _, _, _ => rfl
  | .mk pattern guard body span :: arms, resultTy, result, join, block, b, h => by
    have hbody := h.of_subset body.types body.referents
      (fun t ht => List.mem_append_right _ (List.mem_append_left _ ht))
      (fun r hr => List.mem_append_left _ (List.mem_append_right _ hr))
    have hrest := h.of_subset (armTypes arms) (armReferents arms)
      (fun t ht => List.mem_append_right _ (List.mem_append_right _ ht)) (List.subset_append_right _ _)
    simp only [lowerArms, lowerExpression_congr body _ _ hbody, lowerArms_congr arms _ _ _ _ _ hrest]
theorem lowerBlock_congr {ix ix' : ProgramIndex} : ∀ (statements : List HirStatement) (result : MirType) (b : FunctionBuilder),
    ReadsAlike ix ix' (statementTypes statements) (statementReferents statements) →
      lowerBlock ix' statements result b = lowerBlock ix statements result b
  | [], _, _, _ => rfl
  | .let_ definition ty value :: rest, result, b, h => by
    have hvalue := h.of_subset value.types value.referents
      (fun t ht => List.mem_cons_of_mem _ (List.mem_append_left _ ht)) (List.subset_append_left _ _)
    have hrest := h.of_subset (statementTypes rest) (statementReferents rest)
      (fun t ht => List.mem_cons_of_mem _ (List.mem_append_right _ ht)) (List.subset_append_right _ _)
    simp only [lowerBlock, requiredType_congr (h.types ty List.mem_cons_self), lowerExpression_congr value _ _ hvalue,
      lowerBlock_congr rest _ _ hrest]
  | .return_ (some value) :: rest, result, b, h => by
    have hvalue := h.of_subset value.types value.referents (List.subset_append_left _ _)
      (List.subset_append_left _ _)
    have hrest := h.of_subset (statementTypes rest) (statementReferents rest)
      (List.subset_append_right _ _) (List.subset_append_right _ _)
    simp only [lowerBlock, lowerExpression_congr value _ _ hvalue, lowerBlock_congr rest _ _ hrest]
  | .return_ none :: rest, result, b, h => by
    simp only [lowerBlock, lowerBlock_congr rest _ _ h]
  | [.expression e], result, b, h => by
    have hvalue := h.of_subset e.types e.referents (List.subset_append_left _ _)
      (List.subset_append_left _ _)
    simp only [lowerBlock, lowerExpression_congr e _ _ hvalue]
  | .expression e :: next :: rest, result, b, h => by
    have hvalue := h.of_subset e.types e.referents (List.subset_append_left _ _)
      (List.subset_append_left _ _)
    have hrest := h.of_subset (statementTypes (next :: rest)) (statementReferents (next :: rest))
      (List.subset_append_right _ _) (List.subset_append_right _ _)
    simp only [lowerBlock, lowerExpression_congr e _ _ hvalue, lowerBlock_congr (next :: rest) _ _ hrest]
end

section
variable {ix ix' : ProgramIndex}

theorem lowerParameters_congr : ∀ (parameters : List HirParameter) (b : FunctionBuilder),
    (∀ parameter ∈ parameters, ix'.lowerType parameter.ty = ix.lowerType parameter.ty) →
      lowerParameters ix' parameters b = lowerParameters ix parameters b
  | [], _, _ => rfl
  | parameter :: rest, b, h => by
    simp only [lowerParameters, requiredType_congr (h parameter List.mem_cons_self)]
    exact lowerParameters_congr rest _ fun q hq => h q (List.mem_cons_of_mem _ hq)

/-- **A function is lowered from its own types and referents.** -/
theorem lowerFunction_congr (definition : HirDefinition) {f : HirFunction}
    (h : ReadsAlike ix ix' f.types (statementReferents f.body)) :
    lowerFunction ix' definition f = lowerFunction ix definition f := by
  have hparameters : ∀ parameter ∈ f.parameters, ix'.lowerType parameter.ty = ix.lowerType parameter.ty :=
    fun parameter hp => h.types _ (List.mem_append_left _ (List.mem_map_of_mem hp))
  have hresult : ix'.lowerType f.result = ix.lowerType f.result := h.types _ (List.mem_append_right _ List.mem_cons_self)
  have hbody := h.of_subset (statementTypes f.body) (statementReferents f.body)
    (fun t ht => List.mem_append_right _ (List.mem_cons_of_mem _ ht)) (List.Subset.refl _)
  simp only [lowerFunction, lowerBody, openFunction, requiredType_congr hresult, lowerParameters_congr _ _ hparameters,
    lowerBlock_congr _ _ _ hbody]

/-- A type is read through the names inside it. -/
theorem lowerType_congr : ∀ ty : ResolvedType, (∀ t ∈ ty.nominals, ix'.lowerType t = ix.lowerType t) →
    ix'.lowerType ty = ix.lowerType ty
  | .reference region mutable inner, h => by
    rw [ProgramIndex.lowerType, ProgramIndex.lowerType, lowerType_congr inner h]
  | .struct name, h => h _ List.mem_cons_self
  | .enum name, h => h _ List.mem_cons_self
  | .state name, h => h _ List.mem_cons_self
  | .primitive primitive, _ => by cases primitive <;> rfl
  | .option inner, _ => rfl
  | .result ok err, _ => rfl
  | .array item, _ => rfl
  | .tuple items, _ => rfl
  | .function parameters result, _ => rfl
  | .unit, _ => rfl
  | .unknown, _ => rfl
  | .error, _ => rfl
  | .integerLiteral, _ => rfl
  | .floatLiteral, _ => rfl

end

/-! ## An index without some definitions -/

/-- A definition that carries none of the names as a type, and none of the identities as a member. -/
structure Foreign (d : HirDefinition) (names : Set String) (variants : Set DefId) : Prop where
  type : d.kind.isType = true → d.name ∉ names
  member : ∀ id ∈ d.memberIds, id ∉ variants

/-- The two indexes give these names and these variants the same meaning. -/
structure SameAt (names : Set String) (variants : Set DefId) (ix ix' : ProgramIndex) : Prop where
  types : ∀ name ∈ names, lookupKey name ix'.types = lookupKey name ix.types
  variants : ∀ id ∈ variants, lookupKey id ix'.variants = lookupKey id ix.variants

theorem lookup_insertVariants {variant : DefId} (id : DefId) : ∀ (variants : List HirVariant) (index : Nat)
    {entries entries' : List (DefId × (DefId × UInt64))}, lookupKey variant entries' = lookupKey variant entries →
      lookupKey variant (ProgramIndex.insertVariants id index variants entries') =
        lookupKey variant (ProgramIndex.insertVariants id index variants entries)
  | [], _, _, _, h => h
  | v :: rest, index, entries, entries', h =>
    lookup_insertVariants id rest (index + 1) (by rw [lookupKey_cons, lookupKey_cons, h])

theorem lookup_insertVariants_of_notMem {variant : DefId} (id : DefId) : ∀ {variants : List HirVariant} (index : Nat)
    (entries : List (DefId × (DefId × UInt64))), variant ∉ variants.map (·.id) →
      lookupKey variant (ProgramIndex.insertVariants id index variants entries) = lookupKey variant entries
  | [], _, _, _ => rfl
  | v :: rest, index, entries, h => by
    rw [List.map_cons, List.mem_cons, not_or] at h
    unfold ProgramIndex.insertVariants
    rw [lookup_insertVariants_of_notMem id (index + 1) _ h.2, lookupKey_cons, if_neg fun heq => h.1 heq.symm]

section
variable {names : Set String} {variants : Set DefId} {ix ix' : ProgramIndex}

theorem SameAt.insert (h : SameAt names variants ix ix') (d : HirDefinition) :
    SameAt names variants (ix.insertDefinition d) (ix'.insertDefinition d) := by
  have htypes : ∀ name ∈ names, lookupKey name ((d.name, d.id) :: ix'.types) = lookupKey name ((d.name, d.id) :: ix.types) :=
    fun name hname => by rw [lookupKey_cons, lookupKey_cons, h.types name hname]
  unfold ProgramIndex.insertDefinition
  split
  · exact ⟨htypes, h.variants⟩
  · exact ⟨htypes, h.variants⟩
  · exact ⟨htypes, fun id hid => lookup_insertVariants _ _ _ (h.variants id hid)⟩
  · exact h

theorem SameAt.skip (h : SameAt names variants ix ix') {d : HirDefinition} (hd : Foreign d names variants) :
    SameAt names variants ix (ix'.insertDefinition d) := by
  have htypes : d.kind.isType = true → ∀ name ∈ names, lookupKey name ((d.name, d.id) :: ix'.types) = lookupKey name ix.types := by
    intro hkind name hname
    rw [lookupKey_cons, if_neg (fun heq : d.name = name => hd.type hkind (heq ▸ hname)), h.types name hname]
  have hmember := hd.member
  unfold HirDefinition.memberIds at hmember
  unfold ProgramIndex.insertDefinition
  split
  · rename_i hkind
    exact ⟨htypes (by rw [hkind]; rfl), h.variants⟩
  · rename_i hkind
    exact ⟨htypes (by rw [hkind]; rfl), h.variants⟩
  · rename_i members hkind
    rw [hkind] at hmember
    refine ⟨htypes (by rw [hkind]; rfl), fun id hid => ?_⟩
    rw [lookup_insertVariants_of_notMem _ _ _ fun hmem => hmember id hmem hid, h.variants id hid]
  · exact h

/-- Entering definitions that carry none changes none. -/
theorem SameAt.foldl (keep : HirDefinition → Bool) : ∀ {l : List (DefId × HirDefinition)} {ix ix' : ProgramIndex},
    SameAt names variants ix ix' → (∀ e ∈ l, keep e.2 = false → Foreign e.2 names variants) →
      SameAt names variants ((l.filter fun e => keep e.2).foldl (fun ix e => ix.insertDefinition e.2) ix)
        (l.foldl (fun ix e => ix.insertDefinition e.2) ix')
  | [], _, _, h, _ => h
  | e :: l, ix, ix', h, hl => by
    have hrest : ∀ e ∈ l, keep e.2 = false → Foreign e.2 names variants := fun e he => hl e (List.mem_cons_of_mem _ he)
    rw [List.foldl_cons]
    cases hkeep : keep e.2 with
    | true =>
      rw [List.filter_cons_of_pos (by exact hkeep), List.foldl_cons]
      exact SameAt.foldl keep (h.insert e.2) hrest
    | false =>
      rw [List.filter_cons_of_neg (by simp [hkeep])]
      exact SameAt.foldl keep (h.skip (hl e List.mem_cons_self hkeep)) hrest

end

theorem sortedDefinitions_filter (keep : HirDefinition → Bool) {ds : List HirDefinition} (hnodup : (ds.map (·.id)).Nodup) :
    sortedDefinitions (ds.filter keep) = (sortedDefinitions ds).filter fun e => keep e.2 := by
  have hkept : ((ds.filter keep).map (·.id)).Nodup := hnodup.sublist (List.filter_sublist.map _)
  obtain ⟨hperm, hsorted⟩ := sortedDefinitions_spec hnodup
  obtain ⟨hperm', hsorted'⟩ := sortedDefinitions_spec hkept
  have hfilter : (ds.filter keep).map (fun d => (d.id, d)) = (ds.map fun d => (d.id, d)).filter fun e => keep e.2 := by
    rw [List.filter_map]
    rfl
  have hsame : (sortedDefinitions (ds.filter keep)).Perm ((sortedDefinitions ds).filter fun e => keep e.2) := by
    rw [hfilter] at hperm'
    exact hperm'.trans (hperm.filter _).symm
  exact hsame.eq_of_pairwise (fun a b _ _ hab hba => absurd hba (lt_asymm hab)) hsorted' (hsorted.filter _)

/-- **A program without some definitions reads names and variants as before**, where those carry none of them. -/
theorem sameAt_filter (keep : HirDefinition → Bool) {p p' : HirProgram} (hnodup : (p'.definitions.map (·.id)).Nodup)
    (hp : p.definitions = p'.definitions.filter keep) {names : Set String} {variants : Set DefId}
    (hforeign : ∀ d ∈ p'.definitions, keep d = false → Foreign d names variants) :
    SameAt names variants (ProgramIndex.new p) (ProgramIndex.new p') := by
  have hentries : ∀ e ∈ sortedDefinitions p'.definitions, keep e.2 = false → Foreign e.2 names variants :=
    fun e he => hforeign e.2 ((mem_sortedDefinitions hnodup).mp he).1
  have hsorted := sortedDefinitions_filter keep hnodup
  rw [← hp] at hsorted
  have hsame := @SameAt.foldl names variants keep _ ⟨[], []⟩ ⟨[], []⟩ ⟨fun _ _ => rfl, fun _ _ => rfl⟩ hentries
  rw [← hsorted] at hsame
  exact hsame

end Lower
end Syllog
