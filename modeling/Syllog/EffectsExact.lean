import Syllog.EffectsSound
/-!
# EffectsExact — effects are reachability in the call graph

What a definition does of itself is said by the expressions it runs: the traversal meets all of them.  What is inferred for
it is what the definitions its calls lead to do of themselves, and a program is accepted exactly where every declared bound
is well formed and holds what was inferred.
-/
namespace Syllog
namespace Effects

open Hir Lower Saturate

/-! ## What an expression does of itself -/

/-- The effect of an expression apart from its parts. -/
def kindEffect : HirExprKind → Option Effect
  | .await _             => some .async
  | .literal (.string _) => some .alloc
  | .array _             => some .alloc
  | _                    => none

/-- The definition a call refers to. -/
def kindCallee : HirExprKind → Option DefId
  | .call callee _ => match callee.kind with
    | .reference definition => some definition
    | _                     => none
  | _              => none

/-- `b` has what `a` has and what the expressions of `es` do. -/
structure Adds (a : LocalEffects) (es : List TypedExpr) (b : LocalEffects) : Prop where
  direct : ∀ effect, effect ∈ b.direct ↔ effect ∈ a.direct ∨ ∃ e ∈ es, kindEffect e.kind = some effect
  calls : ∀ definition, definition ∈ b.calls ↔ definition ∈ a.calls ∨ ∃ e ∈ es, kindCallee e.kind = some definition

theorem Adds.refl (a : LocalEffects) : Adds a [] a := ⟨by simp, by simp⟩

theorem Adds.trans {a b c : LocalEffects} {es es' : List TypedExpr} (h : Adds a es b) (h' : Adds b es' c) :
    Adds a (es ++ es') c := by
  refine ⟨fun effect => ?_, fun definition => ?_⟩
  · rw [h'.direct, h.direct]
    simp only [List.mem_append, or_and_right, exists_or, or_assoc]
  · rw [h'.calls, h.calls]
    simp only [List.mem_append, or_and_right, exists_or, or_assoc]

section
variable {a b : LocalEffects} {kind : HirExprKind} {ty : ResolvedType} {span : Span}

/-- An expression without an effect or a callee of its own. -/
theorem adds_none (heffect : kindEffect kind = none) (hcallee : kindCallee kind = none) : Adds a [.mk kind ty span] a :=
  ⟨by simp [TypedExpr.kind, heffect], by simp [TypedExpr.kind, hcallee]⟩

theorem adds_insert {effect : Effect} (heffect : kindEffect kind = some effect) (hcallee : kindCallee kind = none) :
    Adds a [.mk kind ty span] (a.insert effect) := by
  refine ⟨fun e => ?_, by simp [TypedExpr.kind, hcallee, LocalEffects.insert]⟩
  simp only [LocalEffects.insert, Finset.mem_insert, List.mem_singleton, exists_eq_left, TypedExpr.kind, heffect,
    Option.some.injEq]
  rw [or_comm, eq_comm]

theorem adds_recordCall {callee : TypedExpr} {arguments : List TypedExpr} :
    Adds a [.mk (.call callee arguments) ty span] (recordCall callee a) := by
  obtain ⟨calleeKind, calleeTy, calleeSpan⟩ := callee
  cases calleeKind with
  | reference definition =>
    refine ⟨by simp [TypedExpr.kind, kindEffect, recordCall, LocalEffects.call], fun d => ?_⟩
    simp only [recordCall, LocalEffects.call, Finset.mem_insert, List.mem_singleton, exists_eq_left, TypedExpr.kind, kindCallee,
      Option.some.injEq]
    rw [or_comm, eq_comm]
  | _ => exact adds_none rfl rfl

end

mutual
/-- **The traversal meets every expression that runs.** -/
theorem adds_inspectExpr : ∀ (e : TypedExpr) (a : LocalEffects), Adds a e.walk (inspectExpr e a)
  | .mk (.await operand) _ _, _ => (adds_insert rfl rfl).trans (adds_inspectExpr operand _)
  | .mk (.literal (.string _)) _ _, _ => adds_insert rfl rfl
  | .mk (.literal (.integer _)) _ _, _ => adds_none rfl rfl
  | .mk (.literal (.identifier _)) _ _, _ => adds_none rfl rfl
  | .mk (.literal (.float _)) _ _, _ => adds_none rfl rfl
  | .mk (.literal (.boolean _)) _ _, _ => adds_none rfl rfl
  | .mk (.reference _) _ _, _ => adds_none rfl rfl
  | .mk (.array items) _ _, _ => (adds_insert rfl rfl).trans (adds_inspectAll items _)
  | .mk (.call callee arguments) _ _, _ =>
    adds_recordCall.trans ((adds_inspectExpr callee _).trans (adds_inspectAll arguments _))
  | .mk (.borrow _ operand) _ _, _ => (adds_none rfl rfl).trans (adds_inspectExpr operand _)
  | .mk (.field base _) _ _, _ => (adds_none rfl rfl).trans (adds_inspectExpr base _)
  | .mk (.unary _ operand) _ _, _ => (adds_none rfl rfl).trans (adds_inspectExpr operand _)
  | .mk (.binary _ left right) _ _, _ =>
    (adds_none rfl rfl).trans ((adds_inspectExpr left _).trans (adds_inspectExpr right _))
  | .mk (.match_ value arms) _ _, _ =>
    (adds_none rfl rfl).trans ((adds_inspectExpr value _).trans (adds_inspectArms arms _))
  | .mk (.block statements) _ _, _ => (adds_none rfl rfl).trans (adds_inspectBlock statements _)
theorem adds_inspectAll : ∀ (es : List TypedExpr) (a : LocalEffects), Adds a (walkAll es) (inspectAll es a)
  | [], a => .refl a
  | e :: es, _ => (adds_inspectExpr e _).trans (adds_inspectAll es _)
theorem adds_inspectArms : ∀ (arms : List HirMatchArm) (a : LocalEffects), Adds a (walkArms arms) (inspectArms arms a)
  | [], a => .refl a
  | .mk _ (some guard) body _ :: arms, _ =>
    ((adds_inspectExpr guard _).trans (adds_inspectExpr body _)).trans (adds_inspectArms arms _)
  | .mk _ none body _ :: arms, _ => (adds_inspectExpr body _).trans (adds_inspectArms arms _)
theorem adds_inspectBlock : ∀ (statements : List HirStatement) (a : LocalEffects),
    Adds a (walkStatements statements) (inspectBlock statements a)
  | [], a => .refl a
  | .let_ _ _ value :: rest, _ => (adds_inspectExpr value _).trans (adds_inspectBlock rest _)
  | .expression value :: rest, _ => (adds_inspectExpr value _).trans (adds_inspectBlock rest _)
  | .return_ (some value) :: rest, _ => (adds_inspectExpr value _).trans (adds_inspectBlock rest _)
  | .return_ none :: rest, _ => adds_inspectBlock rest _
end

/-! ## What a definition does of itself -/

/-- The expressions a definition runs, with all their parts. -/
def expressions (d : HirDefinition) : List TypedExpr :=
  match d.kind with
  | .function f        => walkStatements f.body
  | .pipeline pipeline => pipeline.body.elim [] TypedExpr.walk
  | _                  => []

/-- A definition that runs. -/
def runs (d : HirDefinition) : Bool :=
  match d.kind with
  | .function _ => true
  | .pipeline _ => true
  | _           => false

/-- The effects of a definition's kind: of an asynchronous function, of a pipeline with an agent. -/
def declaredKindEffects (d : HirDefinition) : List Effect :=
  match d.kind with
  | .function f        => if f.asynchronous then [.async] else []
  | .pipeline pipeline => if pipeline.agent.isSome then [.network, .provider] else []
  | _                  => []

/-- A definition has an effect of itself. -/
def HasDirect (d : HirDefinition) (effect : Effect) : Prop :=
  effect ∈ declaredKindEffects d ∨ ∃ e ∈ expressions d, kindEffect e.kind = some effect

/-- The definition under `id` calls the one under `callee`. -/
def Calls (p : HirProgram) (id callee : DefId) : Prop :=
  ∃ d ∈ p.definitions, d.id = id ∧ ∃ e ∈ expressions d, kindCallee e.kind = some callee

theorem definitionEffects_isSome {d : HirDefinition} : (definitionEffects d).isSome = runs d := by
  unfold definitionEffects runs
  cases d.kind <;> rfl

/-- **The local effects of a definition are those of its expressions and its kind.** -/
theorem definitionEffects_spec {d : HirDefinition} {effects : LocalEffects} (h : definitionEffects d = some effects) :
    (∀ effect, effect ∈ effects.direct ↔ HasDirect d effect) ∧
      ∀ callee, callee ∈ effects.calls ↔ ∃ e ∈ expressions d, kindCallee e.kind = some callee := by
  unfold definitionEffects at h
  unfold HasDirect declaredKindEffects expressions
  cases hkind : d.kind with
  | function f =>
    simp only [hkind, Option.some.injEq] at h ⊢
    subst h
    have hadds := adds_inspectBlock f.body (if f.asynchronous then LocalEffects.empty.insert .async else LocalEffects.empty)
    refine ⟨fun effect => ?_, fun callee => ?_⟩
    · rw [functionEffects, hadds.direct]
      cases f.asynchronous <;> simp [LocalEffects.empty, LocalEffects.insert]
    · rw [functionEffects, hadds.calls]
      cases f.asynchronous <;> simp [LocalEffects.empty, LocalEffects.insert]
  | pipeline pipeline =>
    simp only [hkind, Option.some.injEq] at h ⊢
    subst h
    have hadds : Adds (if pipeline.agent.isSome then (LocalEffects.empty.insert .network).insert .provider
        else LocalEffects.empty) (pipeline.body.elim [] TypedExpr.walk) (pipelineEffects pipeline) := by
      unfold pipelineEffects
      cases pipeline.body with
      | none => exact .refl _
      | some body => exact adds_inspectExpr body _
    refine ⟨fun effect => ?_, fun callee => ?_⟩
    · rw [hadds.direct]
      cases pipeline.agent.isSome <;> simp [LocalEffects.empty, LocalEffects.insert, or_comm]
    · rw [hadds.calls]
      cases pipeline.agent.isSome <;> simp [LocalEffects.empty, LocalEffects.insert]
  | _ => simp [hkind] at h

/-! ## The call graph -/

section
variable {p : HirProgram} (hids : (p.definitions.map (·.id)).Nodup)
include hids

theorem localEffects_get {d : HirDefinition} (hd : d ∈ p.definitions) : (localEffects p).get? d.id = definitionEffects d := by
  have hnodup : ((p.definitions.filterMap fun d => (definitionEffects d).map fun effects => (d.id, effects)).map (·.1)).Nodup := by
    refine OrdMap.nodup_map_filterMap (·.id) ?_ hids
    intro d e he
    obtain ⟨effects, -, rfl⟩ := Option.map_eq_some_iff.mp he
    rfl
  cases heffects : definitionEffects d with
  | some effects =>
    exact OrdMap.get?_ofList hnodup (List.mem_filterMap.mpr ⟨d, hd, by rw [heffects]; rfl⟩)
  | none =>
    refine OrdMap.get?_ofList_eq_none fun hmem => ?_
    obtain ⟨e, he, hid⟩ := List.mem_map.mp hmem
    obtain ⟨d', hd', hsome⟩ := List.mem_filterMap.mp he
    obtain ⟨effects, heffects', rfl⟩ := Option.map_eq_some_iff.mp hsome
    rw [List.inj_on_of_nodup_map hids hd' hd hid, heffects] at heffects'
    cases heffects'

omit hids in
theorem exists_of_localEffects {id : DefId} {effects : LocalEffects} (h : (localEffects p).get? id = some effects) :
    ∃ d ∈ p.definitions, d.id = id ∧ definitionEffects d = some effects := by
  obtain ⟨d, hd, hsome⟩ := List.mem_filterMap.mp (OrdMap.mem_of_get?_ofList h)
  obtain ⟨effects', heffects, heq⟩ := Option.map_eq_some_iff.mp hsome
  cases heq
  exact ⟨d, hd, rfl, heffects⟩

theorem leads_iff_calls {id callee : DefId} : Leads LocalEffects.calls (localEffects p) id callee ↔ Calls p id callee := by
  constructor
  · rintro ⟨effects, hget, hcallee⟩
    obtain ⟨d, hd, hid, heffects⟩ := exists_of_localEffects hget
    exact ⟨d, hd, hid, ((definitionEffects_spec heffects).2 callee).mp hcallee⟩
  · rintro ⟨d, hd, rfl, hcallee⟩
    have hruns : (definitionEffects d).isSome = true := by
      rw [definitionEffects_isSome, runs]
      obtain ⟨e, he, -⟩ := hcallee
      unfold expressions at he
      split at he <;> simp_all
    obtain ⟨effects, heffects⟩ := Option.isSome_iff_exists.mp hruns
    exact ⟨effects, (localEffects_get hids hd).trans heffects, ((definitionEffects_spec heffects).2 callee).mpr hcallee⟩

/-- What is inferred is what the definitions reached through calls do of themselves. -/
theorem mem_inferred_iff {id : DefId} {effect : Effect} : effect ∈ labelOf (inferredEffects p) id ↔
    ∃ d ∈ p.definitions, runs d = true ∧ Relation.ReflTransGen (Calls p) id d.id ∧ HasDirect d effect := by
  have hsame : Leads LocalEffects.calls (localEffects p) = Calls p := by
    funext id callee
    exact propext (leads_iff_calls hids)
  rw [inferredEffects, mem_saturate_iff, hsame]
  constructor
  · rintro ⟨c, effects, hreach, hget, hdirect⟩
    obtain ⟨d, hd, rfl, heffects⟩ := exists_of_localEffects hget
    exact ⟨d, hd, by rw [← definitionEffects_isSome, heffects]; rfl, hreach, ((definitionEffects_spec heffects).1 effect).mp hdirect⟩
  · rintro ⟨d, hd, hruns, hreach, hdirect⟩
    rw [← definitionEffects_isSome] at hruns
    obtain ⟨effects, heffects⟩ := Option.isSome_iff_exists.mp hruns
    exact ⟨d.id, effects, hreach, (localEffects_get hids hd).trans heffects, ((definitionEffects_spec heffects).1 effect).mpr hdirect⟩

theorem inferred_get {d : HirDefinition} (hd : d ∈ p.definitions) (hruns : runs d = true) :
    ∃ E, (inferredEffects p).get? d.id = some E := by
  rw [← Option.isSome_iff_exists]
  refine (labels_saturate d.id).trans ?_
  rw [localEffects_get hids hd, definitionEffects_isSome]
  exact hruns

end

/-! ## Declared bounds -/

/-- A declaration as the source asks for it: known names, each once, and `pure` alone. -/
structure WellFormed (names : List String) : Prop where
  nodup : names.Nodup
  known : ∀ name ∈ names, name = "pure" ∨ (Effect.fromSource name).isSome = true
  pure_alone : "pure" ∈ names → names = ["pure"]

theorem parseNames_errors {span : Span} : ∀ {names seen : List String}, (parseNames span seen names).2 = [] ↔
    names.Nodup ∧ (∀ name ∈ names, name ∉ seen) ∧ ∀ name ∈ names, name = "pure" ∨ (Effect.fromSource name).isSome = true
  | [], _ => by simp [parseNames]
  | name :: rest, seen => by
    have ih := @parseNames_errors span rest (name :: seen)
    have hfresh : (∀ n ∈ rest, n ∉ name :: seen) ↔ name ∉ rest ∧ ∀ n ∈ rest, n ∉ seen := by
      simp only [List.mem_cons, not_or, forall_and]
      refine and_congr_left fun _ => ⟨fun h hmem => h name hmem rfl, fun h n hn heq => h (heq ▸ hn)⟩
    rw [hfresh] at ih
    simp only [parseNames, List.nodup_cons, List.forall_mem_cons]
    by_cases hseen : name ∈ seen
    · simp [hseen]
    · rw [if_neg hseen]
      by_cases hpure : name = "pure"
      · rw [if_pos hpure, ih]
        have hname : name = "pure" ∨ (Effect.fromSource name).isSome = true := .inl hpure
        tauto
      · rw [if_neg hpure]
        cases hsource : Effect.fromSource name with
        | none => simp [hpure]
        | some effect =>
          simp only [ih, Option.isSome_some, or_true, true_and]
          tauto

/-- What a declaration without a fault allows: what it names. -/
theorem mem_parseNames_iff {span : Span} {effect : Effect} : ∀ {names seen : List String}, names.Nodup →
    (∀ name ∈ names, name ∉ seen) →
      (effect ∈ (parseNames span seen names).1 ↔ ∃ name ∈ names, Effect.fromSource name = some effect)
  | [], _, _, _ => by simp [parseNames]
  | name :: rest, seen, hnodup, hseen => by
    obtain ⟨hname, hrest⟩ := List.nodup_cons.mp hnodup
    have hfresh : ∀ n ∈ rest, n ∉ name :: seen := by
      intro n hn hmem
      rcases List.mem_cons.mp hmem with rfl | hmem
      · exact hname hn
      · exact hseen n (List.mem_cons_of_mem _ hn) hmem
    have ih := @mem_parseNames_iff span effect rest (name :: seen) hrest hfresh
    simp only [parseNames, List.exists_mem_cons_iff]
    rw [if_neg (hseen name List.mem_cons_self)]
    by_cases hpure : name = "pure"
    · rw [if_pos hpure, hpure]
      rw [hpure] at ih
      simpa [Effect.fromSource] using ih
    · rw [if_neg hpure]
      cases hsource : Effect.fromSource name with
      | none => simpa using ih
      | some parsed => simp [Finset.mem_insert, ih, eq_comm]

theorem parseDeclaration_errors {names : List String} {span : Span} :
    (parseDeclaration (some names) span).2 = [] ↔ WellFormed names := by
  have hseen : ∀ name ∈ names, name ∉ ([] : List String) := fun _ _ h => by cases h
  simp only [parseDeclaration, List.append_eq_nil_iff, parseNames_errors]
  constructor
  · rintro ⟨hcombined, hnodup, -, hknown⟩
    refine ⟨hnodup, hknown, fun hpure => ?_⟩
    by_cases hlength : names.length = 1
    · obtain ⟨name, rfl⟩ := List.length_eq_one_iff.mp hlength
      rw [List.mem_singleton.mp hpure]
    · rw [if_pos ⟨hpure, hlength⟩] at hcombined
      cases hcombined
  · rintro ⟨hnodup, hknown, halone⟩
    refine ⟨if_neg fun h => ?_, hnodup, hseen, hknown⟩
    rw [halone h.1] at h
    exact h.2 rfl

section
variable {p : HirProgram} (hids : (p.definitions.map (·.id)).Nodup)
include hids

/-- The bounds that omit an inferred effect, function by function. -/
theorem boundErrors_eq_nil : ((declarations p).entries.flatMap fun (id, bound) => boundErrors (inferredEffects p) id bound) = [] ↔
    ∀ d f, (d, f) ∈ HirProgram.functions p →
      boundErrors (inferredEffects p) d.id ((parseDeclaration f.declaredEffects d.span).1, d.span) = [] := by
  rw [List.flatMap_eq_nil_iff]
  have hnodup : (((HirProgram.functions p).map fun e =>
      (e.1.id, (parseDeclaration e.2.declaredEffects e.1.span).1, e.1.span)).map (·.1)).Nodup := by
    simpa [Function.comp_def] using functions_nodup hids
  constructor
  · intro h d f hdf
    have hget := OrdMap.get?_ofList hnodup (List.mem_map.mpr ⟨(d, f), hdf, rfl⟩)
    exact h _ (OrdMap.get?_eq_some_iff.mp hget)
  · rintro h ⟨id, bound⟩ hentry
    obtain ⟨⟨d, f⟩, hdf, heq⟩ := List.mem_map.mp (OrdMap.mem_of_get?_ofList (OrdMap.get?_eq_some_iff.mpr hentry))
    cases heq
    exact h d f hdf

/-- **A program has no effect error exactly where every bound is well formed and holds what was inferred.** -/
theorem effectErrors_eq_nil : effectErrors p = [] ↔ ∀ d f names, (d, f) ∈ HirProgram.functions p →
    f.declaredEffects = some names → WellFormed names ∧ ∀ effect ∈ labelOf (inferredEffects p) d.id,
      ∃ name ∈ names, Effect.fromSource name = some effect := by
  rw [effectErrors, List.append_eq_nil_iff, boundErrors_eq_nil hids, declarationErrors, List.flatMap_eq_nil_iff]
  constructor
  · rintro ⟨hdeclared, hbounds⟩ d f names hdf hnames
    have hform : WellFormed names := by
      have herrors := hdeclared (d, f) hdf
      simp only [hnames] at herrors
      exact parseDeclaration_errors.mp herrors
    refine ⟨hform, fun effect heffect => ?_⟩
    have hbound := hbounds d f hdf
    simp only [hnames, parseDeclaration, boundErrors] at hbound
    split_ifs at hbound with hmissing
    have hparsed := Finset.sdiff_eq_empty_iff_subset.mp hmissing heffect
    exact (mem_parseNames_iff hform.nodup (fun _ _ h => by cases h)).mp hparsed
  · intro h
    refine ⟨fun df hdf => ?_, fun d f hdf => ?_⟩
    · obtain ⟨d, f⟩ := df
      cases hnames : f.declaredEffects with
      | none => simp [parseDeclaration, hnames]
      | some names => simpa [hnames] using parseDeclaration_errors.mpr (h d f names hdf hnames).1
    · cases hnames : f.declaredEffects with
      | none => simp [parseDeclaration, boundErrors]
      | some names =>
        obtain ⟨hform, hholds⟩ := h d f names hdf hnames
        simp only [parseDeclaration, boundErrors]
        rw [if_pos]
        rw [Finset.sdiff_eq_empty_iff_subset]
        intro effect heffect
        exact (mem_parseNames_iff hform.nodup (fun _ _ h => by cases h)).mpr (hholds effect heffect)

end

/-- **Effect inference is reachability in the call graph.**  The loop ends; what it infers for a definition is what the
definitions reached from it through calls do of themselves; the manifest requires the union; and the analysis accepts
exactly the programs whose declared bounds are well formed and hold what was inferred. -/
theorem effects_exact {p : HirProgram} (hids : (p.definitions.map (·.id)).Nodup) :
    Saturates LocalEffects.calls (localEffects p) (start LocalEffects.direct (localEffects p)) (inferredEffects p) ∧
      (∀ d ∈ p.definitions, runs d = true → ∃ E, (inferredEffects p).get? d.id = some E ∧ ∀ effect, effect ∈ E ↔
        ∃ d' ∈ p.definitions, runs d' = true ∧ Relation.ReflTransGen (Calls p) d.id d'.id ∧ HasDirect d' effect) ∧
      (∀ a, analyzeEffects p = .ok a → a.functions = inferredEffects p ∧ ∀ effect, effect ∈ a.manifest.required ↔
        ∃ d ∈ p.definitions, runs d = true ∧ effect ∈ labelOf (inferredEffects p) d.id) ∧
      ((∃ a, analyzeEffects p = .ok a) ↔ ∀ d f names, (d, f) ∈ HirProgram.functions p → f.declaredEffects = some names →
        WellFormed names ∧ ∀ effect ∈ labelOf (inferredEffects p) d.id, ∃ name ∈ names, Effect.fromSource name = some effect) := by
  refine ⟨saturates_saturate, fun d hd hruns => ?_, fun a ha => ?_, ?_⟩
  · obtain ⟨E, hE⟩ := inferred_get hids hd hruns
    refine ⟨E, hE, fun effect => ?_⟩
    rw [← mem_inferred_iff hids, labelOf, hE, Option.getD_some]
  · obtain ⟨-, hfunctions, hrequired⟩ := analyzeEffects_ok ha
    refine ⟨hfunctions, fun effect => ?_⟩
    rw [hrequired, mem_foldr_union_iff]
    constructor
    · rintro ⟨E, hE, heffect⟩
      obtain ⟨⟨id, E'⟩, hentry, rfl⟩ := List.mem_map.mp hE
      have hget := OrdMap.get?_eq_some_iff.mpr hentry
      have hnode : ((localEffects p).get? id).isSome = true := by
        have hlabels : ((inferredEffects p).get? id).isSome = ((localEffects p).get? id).isSome := labels_saturate id
        rw [← hlabels, hget]
        rfl
      obtain ⟨effects, heffects⟩ := Option.isSome_iff_exists.mp hnode
      obtain ⟨d, hd, rfl, hsome⟩ := exists_of_localEffects heffects
      refine ⟨d, hd, by rw [← definitionEffects_isSome, hsome]; rfl, ?_⟩
      rw [labelOf, hget]
      exact heffect
    · rintro ⟨d, hd, hruns, heffect⟩
      obtain ⟨E, hE⟩ := inferred_get hids hd hruns
      rw [labelOf, hE] at heffect
      exact ⟨E, List.mem_map.mpr ⟨_, OrdMap.get?_eq_some_iff.mp hE, rfl⟩, heffect⟩
  · rw [← effectErrors_eq_nil hids, analyzeEffects]
    constructor
    · rintro ⟨a, ha⟩
      split_ifs at ha with herrors
      simpa using herrors
    · intro herrors
      rw [if_neg (by simp [herrors])]
      exact ⟨_, rfl⟩

/-- Two functions that call each other, one of which allocates. -/
def mutualProgram : HirProgram where
  modules := [⟨0, [
    ⟨⟨0, 1⟩, "f", .function ⟨[], .unit, [.expression (.mk (.call (.mk (.reference ⟨0, 2⟩) .unit default) []) .unit default)],
      false, some ["alloc"]⟩, default⟩,
    ⟨⟨0, 2⟩, "g", .function ⟨[], .unit, [.expression (.mk (.literal (.string "s")) (.primitive .string) default),
      .expression (.mk (.call (.mk (.reference ⟨0, 1⟩) .unit default) []) .unit default)], false, none⟩, default⟩]⟩]
  entry := none

/-- The one that only calls has the other's effect. -/
theorem mutualProgram_allocates : ∃ E, (inferredEffects mutualProgram).get? ⟨0, 1⟩ = some E ∧ .alloc ∈ E := by
  obtain ⟨f, hf, hid⟩ : ∃ f ∈ mutualProgram.definitions, f.id = ⟨0, 1⟩ ∧ runs f = true := ⟨_, List.mem_cons_self, rfl, rfl⟩
  obtain ⟨E, hE, heffects⟩ := (effects_exact (p := mutualProgram) (by decide)).2.1 f hf hid.2
  rw [hid.1] at hE heffects
  refine ⟨E, hE, (heffects .alloc).mpr ⟨_, List.mem_cons_of_mem _ List.mem_cons_self, rfl, .single ?_, .inr ?_⟩⟩
  · exact ⟨_, List.mem_cons_self, rfl, _, List.mem_cons_self, rfl⟩
  · exact ⟨_, List.mem_cons_self, rfl⟩

end Effects
end Syllog
