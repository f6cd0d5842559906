import Syllog.PatternMatrix
import Syllog.SingleFile
/-!
# Exhaustive — matches and the values of the types they take apart

Patterns take apart the values of enums, options, results and Booleans; all other values they compare with a literal or take
whole.  Coverage by variant names is exact where patterns are flat.  Where they nest it leaves out what the fields of a variant
are asked.
-/
namespace Syllog
namespace Semantic

open Hir Ast

/-! ## Values -/

/-- The values no pattern takes apart: which of them a type has, and which one a literal stands for. -/
structure Reading (S : Type) where
  denote : Literal → S
  holds : ResolvedType → S → Bool

inductive Head (S : Type) where
  | boolean (value : Bool)
  | scalar (value : S)
  | variant (name : String)
deriving DecidableEq

abbrev Value (S : Type) := Tree (Head S)

/-- The types whose values are of one variant or another. -/
def hasVariants : ResolvedType → Bool
  | .enum _          => true
  | .option _        => true
  | .result _ _      => true
  | .primitive .bool => true
  | _                => false

section
variable {S : Type} (R : Reading S) (a : Analyzer)

/-- The types of the fields a head has in a type. -/
def payload : ResolvedType → Head S → Option (List ResolvedType)
  | .primitive .bool, .boolean _   => some []
  | .enum name, .variant variant   => variantFields a name variant
  | .option inner, .variant variant =>
    if variant = "some" then some [inner] else if variant = "none" then some [] else none
  | .result ok err, .variant variant =>
    if variant = "ok" then some [ok] else if variant = "err" then some [err] else none
  | ty, .scalar value              => if hasVariants ty = false ∧ R.holds ty value then some [] else none
  | _, _                           => none

mutual
/-- What a pattern asks of a value; a binding takes every value. -/
def patternOf : Pattern → Pat (Head S)
  | .wildcard _                  => .any
  | .path [_] _                  => .any
  | .path segments _             => .node (.variant (segments.getLast?.getD "")) []
  | .constructor segments fields _ => .node (.variant (segments.getLast?.getD "")) (patternsOf fields)
  | .literal (.boolean value) _  => .node (.boolean value) []
  | .literal literal _           => .node (.scalar (R.denote literal)) []
def patternsOf : List Pattern → List (Pat (Head S))
  | []      => []
  | p :: ps => patternOf p :: patternsOf ps
end

end

/-- The pattern of an arm without a guard. -/
def MatchArm.unguarded : MatchArm → Option Pattern
  | .mk pattern none _ _ => some pattern
  | _                    => none

def unguardedPatterns (arms : List MatchArm) : List Pattern := arms.filterMap MatchArm.unguarded

section
variable {S : Type} {R : Reading S} {a : Analyzer}

theorem patternsOf_eq (ps : List Pattern) : patternsOf R ps = ps.map (patternOf R) := by
  induction ps with
  | nil => rfl
  | cons p ps ih => rw [patternsOf, List.map_cons, ih]

/-! ## What the check asks -/

def Pattern.isBinding : Pattern → Bool
  | .wildcard _  => true
  | .path [_] _  => true
  | _            => false

/-- The variant a pattern covers. -/
def Pattern.covered : Pattern → Option String
  | .constructor segments _ _   => segments.getLast?
  | .path segments _            => segments.getLast?
  | .literal (.boolean value) _ => some (if value then "true" else "false")
  | _                           => none

theorem isCatchAll_eq (arm : MatchArm) : MatchArm.isCatchAll arm = (MatchArm.unguarded arm).any Pattern.isBinding := by
  obtain ⟨pattern, guard, body, span⟩ := arm
  cases guard with
  | some guard => simp [MatchArm.isCatchAll, MatchArm.unguarded]
  | none =>
    cases pattern with
    | path segments _ => rcases segments with _ | ⟨_, _ | _⟩ <;> rfl
    | wildcard _ => rfl
    | constructor _ _ _ => rfl
    | literal _ _ => rfl

theorem covered_eq (arm : MatchArm) : MatchArm.covered arm = (MatchArm.unguarded arm).bind Pattern.covered := by
  obtain ⟨pattern, guard, body, span⟩ := arm
  cases guard with
  | some guard => simp [MatchArm.covered, MatchArm.unguarded]
  | none =>
    cases pattern with
    | literal literal _ => cases literal <;> rfl
    | path _ _ => rfl
    | wildcard _ => rfl
    | constructor _ _ _ => rfl

theorem any_isCatchAll (arms : List MatchArm) : arms.any MatchArm.isCatchAll = true ↔
    ∃ p ∈ unguardedPatterns arms, Pattern.isBinding p = true := by
  simp only [List.any_eq_true, unguardedPatterns, List.mem_filterMap, isCatchAll_eq, Option.any_eq_true]
  constructor
  · rintro ⟨arm, harm, p, hp, hbinding⟩
    exact ⟨p, ⟨arm, harm, hp⟩, hbinding⟩
  · rintro ⟨p, ⟨arm, harm, hp⟩, hbinding⟩
    exact ⟨arm, harm, p, hp, hbinding⟩

theorem mem_covered {arms : List MatchArm} {variant : String} : variant ∈ arms.filterMap MatchArm.covered ↔
    ∃ p ∈ unguardedPatterns arms, Pattern.covered p = some variant := by
  simp only [unguardedPatterns, List.mem_filterMap, covered_eq, Option.bind_eq_some_iff]
  constructor
  · rintro ⟨arm, harm, p, hp, hcovered⟩
    exact ⟨p, ⟨arm, harm, hp⟩, hcovered⟩
  · rintro ⟨p, ⟨arm, harm, hp⟩, hcovered⟩
    exact ⟨arm, harm, p, hp, hcovered⟩

/-- The check passes a match with a binding, or with a pattern for every variant. -/
theorem clean_checkExhaustive {span : Span} {ty : ResolvedType} {arms : List MatchArm} :
    Clean (checkExhaustive a span ty arms) ↔ (∃ p ∈ unguardedPatterns arms, Pattern.isBinding p = true) ∨
      ∀ variant ∈ requiredVariants a ty, ∃ p ∈ unguardedPatterns arms, Pattern.covered p = some variant := by
  unfold checkExhaustive
  simp only [clean_require, Bool.or_eq_true, any_isCatchAll, List.isEmpty_iff, List.filter_eq_nil_iff, decide_eq_true_eq,
    not_not, mem_covered]

/-- The variants the check requires are the heads that have fields in the type. -/
def Head.name : Head S → String
  | .boolean value => if value then "true" else "false"
  | .variant name  => name
  | .scalar _      => ""

theorem payload_of_scalar (ty : ResolvedType) (value : S) :
    payload R a ty (.scalar value) = if hasVariants ty = false ∧ R.holds ty value then some [] else none := by
  cases ty with
  | primitive p => cases p <;> rfl
  | _ => rfl

/-- The heads of a type: variants and `Bool` values where it has variants, else scalars. -/
theorem head_cases {ty : ResolvedType} {h : Head S} {fields : List ResolvedType} (hpayload : payload R a ty h = some fields) :
    (hasVariants ty = true ∧ ((∃ variant, h = .variant variant) ∨ fields = [])) ∨
      ∃ value, h = .scalar value ∧ hasVariants ty = false ∧ R.holds ty value = true ∧ fields = [] := by
  cases h with
  | scalar value =>
    rw [payload_of_scalar] at hpayload
    split_ifs at hpayload with hscalar
    exact .inr ⟨value, rfl, hscalar.1, hscalar.2, (Option.some.inj hpayload).symm⟩
  | boolean value =>
    cases ty with
    | primitive p => cases p <;> cases hpayload; exact .inl ⟨rfl, .inr rfl⟩
    | _ => cases hpayload
  | variant name =>
    cases ty with
    | enum name => exact .inl ⟨rfl, .inl ⟨_, rfl⟩⟩
    | option inner => exact .inl ⟨rfl, .inl ⟨_, rfl⟩⟩
    | result ok err => exact .inl ⟨rfl, .inl ⟨_, rfl⟩⟩
    | primitive p => cases p <;> cases hpayload
    | _ => cases hpayload

theorem mem_required {ty : ResolvedType} (hty : hasVariants ty = true) {variant : String} :
    variant ∈ requiredVariants a ty ↔ ∃ h fields, payload R a ty h = some fields ∧ Head.name h = variant := by
  cases ty with
  | enum name =>
    simp only [requiredVariants, List.mem_map]
    constructor
    · rintro ⟨⟨name', fields⟩, hmem, rfl⟩
      cases henum : a.enums.get? name with
      | none => simp [henum] at hmem
      | some variants =>
        rw [henum, Option.getD_some] at hmem
        have hfound : (variants.find? fun x => decide (x.1 = name')).isSome = true :=
          List.find?_isSome.mpr ⟨(name', fields), hmem, by simp⟩
        obtain ⟨found, hfound⟩ := Option.isSome_iff_exists.mp hfound
        exact ⟨.variant name', found.2, by simp [payload, variantFields, henum, hfound], rfl⟩
    · rintro ⟨h, fields, hpayload, rfl⟩
      cases h with
      | boolean value => simp [payload] at hpayload
      | scalar value => simp [payload, hasVariants] at hpayload
      | variant name' =>
        simp only [payload, variantFields, Option.bind_eq_some_iff, Option.map_eq_some_iff] at hpayload
        obtain ⟨variants, henum, found, hfound, -⟩ := hpayload
        rw [henum]
        have hname : found.1 = name' := by simpa using List.find?_some hfound
        exact ⟨found, List.mem_of_find?_eq_some hfound, hname⟩
  | option inner =>
    simp only [requiredVariants, List.mem_cons, List.not_mem_nil, or_false]
    constructor
    · rintro (rfl | rfl)
      · exact ⟨.variant "some", [inner], rfl, rfl⟩
      · exact ⟨.variant "none", [], rfl, rfl⟩
    · rintro ⟨h, fields, hpayload, rfl⟩
      cases h with
      | boolean value => simp [payload] at hpayload
      | scalar value => simp [payload, hasVariants] at hpayload
      | variant name =>
        simp only [payload] at hpayload
        split_ifs at hpayload with hsome hnone
        · exact .inl hsome
        · exact .inr hnone
  | result ok err =>
    simp only [requiredVariants, List.mem_cons, List.not_mem_nil, or_false]
    constructor
    · rintro (rfl | rfl)
      · exact ⟨.variant "ok", [ok], rfl, rfl⟩
      · exact ⟨.variant "err", [err], rfl, rfl⟩
    · rintro ⟨h, fields, hpayload, rfl⟩
      cases h with
      | boolean value => simp [payload] at hpayload
      | scalar value => simp [payload, hasVariants] at hpayload
      | variant name =>
        simp only [payload] at hpayload
        split_ifs at hpayload with hok herr
        · exact .inl hok
        · exact .inr herr
  | primitive primitive =>
    cases primitive <;> simp only [hasVariants, Bool.false_eq_true] at hty
    simp only [requiredVariants, List.mem_cons, List.not_mem_nil, or_false]
    constructor
    · rintro (rfl | rfl)
      · exact ⟨.boolean true, [], rfl, rfl⟩
      · exact ⟨.boolean false, [], rfl, rfl⟩
    · rintro ⟨h, fields, hpayload, rfl⟩
      cases h with
      | boolean value => cases value <;> simp [Head.name]
      | scalar value => simp [payload, hasVariants] at hpayload
      | variant name => simp [payload] at hpayload
  | _ => simp [hasVariants] at hty

/-! ## Patterns the check passes -/

/-- A variant pattern passed under a type with variants names one of them. -/
theorem clean_patternPayload {ty : ResolvedType} (hty : hasVariants ty = true) {segments : List String} {span : Span}
    (hclean : Clean (patternPayload a segments ty span)) : ∃ typeName variantName fields,
      segments = [typeName, variantName] ∧ payload R a ty (.variant variantName) = some fields ∧
        (patternPayload a segments ty span).value = some fields := by
  have herror : ty ≠ .error := by rintro rfl; cases hty
  match segments with
  | [typeName, variantName] =>
    refine ⟨typeName, variantName, ?_⟩
    simp only [patternPayload, splitConstructorPath, if_neg herror] at hclean ⊢
    split at hclean
    · rename_i fields hfields
      refine ⟨fields, trivial, ?_, rfl⟩
      split at hfields
      · split_ifs at hfields
        exact hfields
      · split_ifs at hfields with htype hsome hnone
        · simpa [payload, hsome] using hfields
        · simpa [payload, hsome, hnone] using hfields
      · split_ifs at hfields with htype hok herr
        · simpa [payload, hok] using hfields
        · simpa [payload, hok, herr] using hfields
      · cases hfields
    · simp at hclean
  | [] => simp [patternPayload, splitConstructorPath] at hclean
  | [_] => simp [patternPayload, splitConstructorPath] at hclean
  | _ :: _ :: _ :: _ => simp [patternPayload, splitConstructorPath] at hclean

/-- Under a type with variants a head is told by its name. -/
theorem head_eq {ty : ResolvedType} (hty : hasVariants ty = true) {h : Head S} {fields : List ResolvedType}
    (hpayload : payload R a ty h = some fields) {variant : String} {fields' : List ResolvedType}
    (hvariant : payload R a ty (.variant variant) = some fields') (hname : Head.name h = variant) :
    h = .variant variant ∧ fields = fields' := by
  have heq : h = .variant variant := by
    cases h with
    | variant name => exact congrArg _ hname
    | scalar value => cases ty <;> simp_all [payload, hasVariants]
    | boolean value => cases ty <;> simp_all [payload, hasVariants]
  rw [heq, hvariant] at hpayload
  exact ⟨heq, (Option.some.inj hpayload).symm⟩

/-- A pattern passed under a type with variants that takes not everything asks for one of them, with as many fields. -/
theorem checked_pattern {p : Pattern} {ty : ResolvedType} (hty : hasVariants ty = true) {scope : Scope}
    (hclean : Clean (checkPattern a p ty scope)) {h : Head S} {fields : List ResolvedType}
    (hpayload : payload R a ty h = some fields) (hbinding : Pattern.isBinding p = false)
    (hcovered : Pattern.covered p = some (Head.name h)) :
    ∃ subs, patternOf R p = .node h subs ∧ subs.length = fields.length := by
  match p with
  | .wildcard _ => cases hbinding
  | .path [_] _ => cases hbinding
  | .constructor segments subs span =>
    simp only [checkPattern, clean_bind] at hclean
    obtain ⟨typeName, variantName, fields', rfl, hvariant, hvalue⟩ := clean_patternPayload (R := R) hty hclean.1
    have hname : Head.name h = variantName := by simpa [Pattern.covered] using hcovered.symm
    obtain ⟨rfl, rfl⟩ := head_eq hty hpayload hvariant hname
    rw [hvalue] at hclean
    have harity := (clean_bind.mp hclean.2).1
    rw [patternArity, clean_require, decide_eq_true_eq] at harity
    exact ⟨patternsOf R subs, by simp [patternOf], by rw [patternsOf_eq, List.length_map, harity]⟩
  | .path [] span => cases hcovered
  | .path (first :: second :: rest) span =>
    simp only [checkPattern, clean_bind] at hclean
    obtain ⟨typeName, variantName, fields', heq, hvariant, hvalue⟩ := clean_patternPayload (R := R) hty hclean.1
    have hname : Head.name h = variantName := by simpa [heq, Pattern.covered] using hcovered.symm
    obtain ⟨rfl, rfl⟩ := head_eq hty hpayload hvariant hname
    rw [hvalue] at hclean
    have harity := (clean_bind.mp hclean.2).1
    rw [patternArity, clean_require, decide_eq_true_eq] at harity
    exact ⟨[], by simp [heq, patternOf], by rw [harity]; rfl⟩
  | .literal (.boolean value) span =>
    have hbool : ty = .primitive .bool := by
      simp only [checkPattern, clean_bind, Analyzer.requireCompatible, clean_require] at hclean
      cases ty <;> simp_all [hasVariants, compatible, patternLiteralType, boolType]
    subst hbool
    cases h with
    | boolean value' =>
      cases Option.some.inj hpayload
      refine ⟨[], ?_, rfl⟩
      cases value <;> cases value' <;> simp_all [Pattern.covered, Head.name, patternOf]
    | scalar _ => simp [payload, hasVariants] at hpayload
    | variant _ => simp [payload] at hpayload
  | .literal (.string _) _ => cases hcovered
  | .literal (.integer _) _ => cases hcovered
  | .literal (.float _) _ => cases hcovered
  | .literal (.identifier _) _ => cases hcovered

/-- A pattern passed under a type with variants that takes not everything takes values of the variant it covers only. -/
theorem covered_of_matches {p : Pattern} {ty : ResolvedType} (hty : hasVariants ty = true) {scope : Scope}
    (hclean : Clean (checkPattern a p ty scope)) {h : Head S} {fields : List ResolvedType}
    (hpayload : payload R a ty h = some fields) (hbinding : Pattern.isBinding p = false) {ts : List (Value S)}
    (hmatch : (patternOf R p).Matches (.node h ts)) : Pattern.covered p = some (Head.name h) := by
  have hscalar : ∀ value, h ≠ .scalar value := by
    rintro value rfl
    cases ty <;> simp_all [payload, hasVariants]
  match p with
  | .wildcard _ => cases hbinding
  | .path [_] _ => cases hbinding
  | .constructor segments subs span =>
    simp only [checkPattern, clean_bind] at hclean
    obtain ⟨typeName, variantName, -, rfl, -, -⟩ := clean_patternPayload (R := R) hty hclean.1
    simp only [patternOf, Pat.Matches] at hmatch
    rw [← hmatch.1]
    rfl
  | .path [] span => simp [checkPattern, patternPayload, splitConstructorPath] at hclean
  | .path (first :: second :: rest) span =>
    simp only [checkPattern, clean_bind] at hclean
    obtain ⟨typeName, variantName, -, heq, -, -⟩ := clean_patternPayload (R := R) hty hclean.1
    simp only [heq, patternOf, Pat.Matches] at hmatch
    rw [← hmatch.1, heq]
    rfl
  | .literal (.boolean value) span =>
    simp only [patternOf, Pat.Matches] at hmatch
    rw [← hmatch.1]
    rfl
  | .literal (.string _) _ => exact absurd hmatch.1.symm (hscalar _)
  | .literal (.integer _) _ => exact absurd hmatch.1.symm (hscalar _)
  | .literal (.float _) _ => exact absurd hmatch.1.symm (hscalar _)
  | .literal (.identifier _) _ => exact absurd hmatch.1.symm (hscalar _)

/-! ## Flat patterns -/

/-- A wildcard, a binding, a Boolean literal, or a variant whose fields are wildcards and bindings. -/
def Pattern.isFlat : Pattern → Bool
  | .wildcard _             => true
  | .path _ _               => true
  | .constructor _ fields _ => fields.all Pattern.isBinding
  | .literal (.boolean _) _ => true
  | .literal _ _            => false

theorem patternOf_binding {p : Pattern} (h : Pattern.isBinding p = true) : patternOf R p = .any := by
  match p, h with
  | .wildcard _, _ => simp [patternOf]
  | .path [_] _, _ => simp [patternOf]

theorem flat_subs {p : Pattern} (hflat : Pattern.isFlat p = true) {h : Head S} {subs : List (Pat (Head S))}
    (heq : patternOf R p = .node h subs) : ∀ sub ∈ subs, sub = .any := by
  match p, hflat with
  | .wildcard _, _ => simp [patternOf] at heq
  | .path [_] _, _ => simp [patternOf] at heq
  | .path [] _, _ | .path (_ :: _ :: _) _, _ =>
    simp only [patternOf, Pat.node.injEq] at heq
    simp [← heq.2]
  | .constructor segments fields _, hflat =>
    simp only [patternOf, Pat.node.injEq, patternsOf_eq] at heq
    rw [← heq.2]
    intro sub hsub
    obtain ⟨field, hfield, rfl⟩ := List.mem_map.mp hsub
    exact patternOf_binding (List.all_eq_true.mp hflat field hfield)
  | .literal (.boolean _) _, _ =>
    simp only [patternOf, Pat.node.injEq] at heq
    simp [← heq.2]

/-- Some value of the type is matched by no unguarded arm. -/
def FallsThrough (R : Reading S) (a : Analyzer) (ty : ResolvedType) (arms : List MatchArm) : Prop :=
  ∃ v : Value S, v.Typed (payload R a) ty ∧ ∀ p ∈ unguardedPatterns arms, ¬ (patternOf R p).Matches v

/-- The check reports a diagnostic of this code. -/
def Reports {α : Type} (x : Checked α) (code : String) : Prop := ∃ d, Note.diagnostic d ∈ x.log ∧ d.code = code

theorem reports_iff {span : Span} {ty : ResolvedType} {arms : List MatchArm} :
    Reports (checkExhaustive a span ty arms) "SYL2301" ↔ ¬ Clean (checkExhaustive a span ty arms) := by
  simp only [checkExhaustive, Analyzer.require]
  split_ifs
  · simp [Reports]
  · simp only [not_clean_error, not_false_eq_true, iff_true]
    exact ⟨_, List.mem_cons_self, rfl⟩

/-- **On flat patterns the check reports a match exactly where some value falls through**, for a type each of whose variants has
a value. -/
theorem checkExhaustive_exact {ty : ResolvedType} (hty : hasVariants ty = true)
    (hinhabited : ∀ h fields, payload R a ty h = some fields → ∃ ts, TypedAll (payload R a) ts fields) {arms : List MatchArm}
    {span : Span} (hclean : ∀ p ∈ unguardedPatterns arms, ∃ scope, Clean (checkPattern a p ty scope))
    (hflat : ∀ p ∈ unguardedPatterns arms, Pattern.isFlat p = true) :
    Reports (checkExhaustive a span ty arms) "SYL2301" ↔ FallsThrough R a ty arms := by
  rw [reports_iff, clean_checkExhaustive, not_or]
  constructor
  · rintro ⟨hbinding, hmissing⟩
    simp only [not_forall] at hmissing
    obtain ⟨variant, hrequired, huncovered⟩ := hmissing
    obtain ⟨h, fields, hpayload, rfl⟩ := (mem_required (R := R) hty).mp hrequired
    obtain ⟨ts, hts⟩ := hinhabited h fields hpayload
    refine ⟨.node h ts, ⟨fields, hpayload, hts⟩, fun p hp hmatch => huncovered ⟨p, hp, ?_⟩⟩
    obtain ⟨scope, hscope⟩ := hclean p hp
    exact covered_of_matches hty hscope hpayload (Bool.eq_false_iff.mpr fun h => hbinding ⟨p, hp, h⟩) hmatch
  · rintro ⟨⟨h, ts⟩, ⟨fields, hpayload, hts⟩, hfalls⟩
    have hbinding : ∀ p ∈ unguardedPatterns arms, Pattern.isBinding p = false := by
      refine fun p hp => Bool.eq_false_iff.mpr fun h => hfalls p hp ?_
      rw [patternOf_binding h]
      trivial
    refine ⟨fun ⟨p, hp, h⟩ => Bool.false_ne_true ((hbinding p hp).symm.trans h), fun hcovered => ?_⟩
    obtain ⟨p, hp, hname⟩ := hcovered (Head.name h) ((mem_required (R := R) hty).mpr ⟨h, fields, hpayload, rfl⟩)
    obtain ⟨scope, hscope⟩ := hclean p hp
    obtain ⟨subs, heq, hlength⟩ := checked_pattern hty hscope hpayload (hbinding p hp) hname
    apply hfalls p hp
    rw [heq]
    exact ⟨rfl, matchAll_of_any (flat_subs (hflat p hp) heq) (by rw [hlength, typedAll_length hts])⟩

/-! ## Nested patterns -/

/-- The sub-patterns of a pattern for a variant. -/
def Pattern.subPatterns (variant : String) : Pattern → Option (List Pattern)
  | .path [_] _                    => none
  | .path segments _               => if segments.getLast?.getD "" = variant then some [] else none
  | .constructor segments fields _ => if segments.getLast?.getD "" = variant then some fields else none
  | _                              => none

/-- The rows of sub-patterns the unguarded arms have for a variant. -/
def variantRows (R : Reading S) (arms : List MatchArm) (variant : String) : List (List (Pat (Head S))) :=
  ((unguardedPatterns arms).filterMap (Pattern.subPatterns variant)).map (patternsOf R)

theorem matches_variant {p : Pattern} (hbinding : Pattern.isBinding p = false) {variant : String} {ts : List (Value S)} :
    (patternOf R p).Matches (.node (.variant variant) ts) ↔
      ∃ subs ∈ Pattern.subPatterns variant p, MatchAll (patternsOf R subs) ts := by
  match p with
  | .wildcard _ => cases hbinding
  | .path [_] _ => cases hbinding
  | .path [] _ | .path (_ :: _ :: _) _ =>
    simp only [patternOf, Pat.Matches, Head.variant.injEq, Pattern.subPatterns]
    split_ifs with heq
    · simp only [heq, true_and, Option.mem_def, Option.some.injEq, exists_eq_left', patternsOf]
    · simp only [heq, false_and, Option.mem_def, reduceCtorEq, exists_false]
  | .constructor segments fields _ =>
    simp only [patternOf, Pat.Matches, Head.variant.injEq, Pattern.subPatterns]
    split_ifs with heq
    · simp only [heq, true_and, Option.mem_def, Option.some.injEq, exists_eq_left']
    · simp only [heq, false_and, Option.mem_def, reduceCtorEq, exists_false]
  | .literal literal _ => cases literal <;> simp [patternOf, Pat.Matches, Pattern.subPatterns]

theorem rows_match {arms : List MatchArm} (hbinding : ∀ p ∈ unguardedPatterns arms, Pattern.isBinding p = false)
    {variant : String} {ts : List (Value S)} : (∃ row ∈ variantRows R arms variant, MatchAll row ts) ↔
      ∃ p ∈ unguardedPatterns arms, (patternOf R p).Matches (.node (.variant variant) ts) := by
  simp only [variantRows, List.mem_map, List.mem_filterMap]
  constructor
  · rintro ⟨-, ⟨subs, ⟨p, hp, hsubs⟩, rfl⟩, hmatch⟩
    exact ⟨p, hp, (matches_variant (hbinding p hp)).mpr ⟨subs, hsubs, hmatch⟩⟩
  · rintro ⟨p, hp, hmatch⟩
    obtain ⟨subs, hsubs, hmatch⟩ := (matches_variant (hbinding p hp)).mp hmatch
    exact ⟨patternsOf R subs, ⟨subs, ⟨p, hp, hsubs⟩, rfl⟩, hmatch⟩

/-- A binding; or, of a type with variants, rows of sub-patterns that cover the fields of each variant that has some; or, of
another type, a literal for every value. -/
def Exhausts [DecidableEq S] (R : Reading S) (a : Analyzer) (ty : ResolvedType) (arms : List MatchArm) : Prop :=
  (∃ p ∈ unguardedPatterns arms, Pattern.isBinding p = true) ∨
    if hasVariants ty then
      ∀ variant fields, payload R a ty (.variant variant) = some fields → fields ≠ [] →
        MatrixCovers (payload R a) fields (variantRows R arms variant)
    else ∀ value, R.holds ty value = true → ∃ p ∈ unguardedPatterns arms, patternOf R p = .node (.scalar value) []

/-- A value of a type without variants is a scalar. -/
theorem payload_scalar {ty : ResolvedType} (hty : hasVariants ty = false) {h : Head S} {fields : List ResolvedType} :
    payload R a ty h = some fields ↔ ∃ value, h = .scalar value ∧ R.holds ty value = true ∧ fields = [] := by
  constructor
  · intro hpayload
    rcases head_cases hpayload with ⟨hvariants, -⟩ | ⟨value, rfl, -, hholds, rfl⟩
    · rw [hty] at hvariants
      cases hvariants
    · exact ⟨value, rfl, hholds, rfl⟩
  · rintro ⟨value, rfl, hholds, rfl⟩
    rw [payload_of_scalar, if_pos ⟨hty, hholds⟩]

/-- Only a variant has fields. -/
theorem variant_of_fields {ty : ResolvedType} {h : Head S} {fields : List ResolvedType} (hpayload : payload R a ty h = some fields)
    (hfields : fields ≠ []) : ∃ variant, h = .variant variant := by
  rcases head_cases hpayload with ⟨-, ⟨variant, rfl⟩ | hnone⟩ | ⟨_, -, -, -, hnone⟩
  · exact ⟨variant, rfl⟩
  · exact absurd hnone hfields
  · exact absurd hnone hfields

theorem isBinding_of_any {p : Pattern} (h : patternOf R p = .any) : Pattern.isBinding p = true := by
  match p with
  | .wildcard _ => rfl
  | .path [_] _ => rfl
  | .path [] _ | .path (_ :: _ :: _) _ => simp [patternOf] at h
  | .constructor _ _ _ => simp [patternOf] at h
  | .literal literal _ => cases literal <;> simp [patternOf] at h

theorem matches_scalar {p : Pattern} (hbinding : Pattern.isBinding p = false) {value : S} :
    (patternOf R p).Matches (.node (.scalar value) []) ↔ patternOf R p = .node (.scalar value) [] := by
  cases heq : patternOf R p with
  | any =>
    rw [isBinding_of_any heq] at hbinding
    cases hbinding
  | node h subs => cases subs <;> simp [Pat.Matches, MatchAll]

/-- **An accepted match leaves no value out exactly where the sub-patterns of its variants cover their fields, and its literals
the values that have no variants.** -/
theorem accepted_exhausts_iff [DecidableEq S] {ty : ResolvedType} {arms : List MatchArm} {span : Span}
    (hclean : ∀ p ∈ unguardedPatterns arms, ∃ scope, Clean (checkPattern a p ty scope))
    (hexhaustive : Clean (checkExhaustive a span ty arms)) : ¬ FallsThrough R a ty arms ↔ Exhausts R a ty arms := by
  have hall : ¬ FallsThrough R a ty arms ↔
      ∀ v : Value S, v.Typed (payload R a) ty → ∃ p ∈ unguardedPatterns arms, (patternOf R p).Matches v := by
    simp only [FallsThrough, not_exists, not_and, not_forall, not_not]
    exact forall₂_congr fun v _ => ⟨fun ⟨p, hp, h⟩ => ⟨p, hp, h⟩, fun ⟨p, hp, h⟩ => ⟨p, hp, h⟩⟩
  rw [hall]
  by_cases hsome : ∃ p ∈ unguardedPatterns arms, Pattern.isBinding p = true
  · obtain ⟨p, hp, hbinding⟩ := hsome
    refine iff_of_true (fun v _ => ⟨p, hp, ?_⟩) (.inl ⟨p, hp, hbinding⟩)
    rw [patternOf_binding hbinding]
    trivial
  have hbinding : ∀ p ∈ unguardedPatterns arms, Pattern.isBinding p = false := fun p hp =>
    Bool.eq_false_iff.mpr fun h => hsome ⟨p, hp, h⟩
  simp only [Exhausts, hsome, false_or]
  split_ifs with hty
  · constructor
    · intro h variant fields hpayload _
      refine covers_iff.mpr fun ts hts => (rows_match hbinding).mpr ?_
      exact h (.node (.variant variant) ts) ⟨fields, hpayload, hts⟩
    · rintro hcovers ⟨h, ts⟩ ⟨fields, hpayload, hts⟩
      by_cases hfields : fields = []
      · -- a variant without fields is covered by name
        have hrequired := (clean_checkExhaustive.mp hexhaustive).resolve_left hsome
        obtain ⟨p, hp, hname⟩ := hrequired (Head.name h) ((mem_required (R := R) hty).mpr ⟨h, fields, hpayload, rfl⟩)
        obtain ⟨scope, hscope⟩ := hclean p hp
        obtain ⟨subs, heq, hlength⟩ := checked_pattern hty hscope hpayload (hbinding p hp) hname
        subst hfields
        refine ⟨p, hp, ?_⟩
        rw [heq, List.length_eq_zero_iff.mp hlength, List.length_eq_zero_iff.mp (typedAll_length hts)]
        exact ⟨rfl, trivial⟩
      · obtain ⟨variant, rfl⟩ := variant_of_fields hpayload hfields
        exact (rows_match hbinding).mp (covers_iff.mp (hcovers variant fields hpayload hfields) _ hts)
  · rw [Bool.not_eq_true] at hty
    constructor
    · intro h value hholds
      obtain ⟨p, hp, hmatch⟩ := h (.node (.scalar value) []) ⟨[], (payload_scalar hty).mpr ⟨value, rfl, hholds, rfl⟩, trivial⟩
      exact ⟨p, hp, (matches_scalar (hbinding p hp)).mp hmatch⟩
    · rintro hliterals ⟨h, ts⟩ ⟨fields, hpayload, hts⟩
      obtain ⟨value, rfl, hholds, rfl⟩ := (payload_scalar hty).mp hpayload
      rw [List.length_eq_zero_iff.mp (typedAll_length hts)]
      obtain ⟨p, hp, heq⟩ := hliterals value hholds
      exact ⟨p, hp, (matches_scalar (hbinding p hp)).mpr heq⟩

/-- The patterns of a match that is inferred without a diagnostic are passed. -/
theorem clean_arms {asyncContext : Bool} {valueType : ResolvedType} {scope : Scope} {expected : Option ResolvedType} :
    ∀ {arms : List MatchArm} {result : ResolvedType}, Clean (inferArms a asyncContext arms valueType scope expected result) →
      ∀ p ∈ unguardedPatterns arms, Clean (checkPattern a p valueType scope)
  | [], _, _, _, hp => by cases hp
  | .mk pattern guard body span :: arms, result, h, p, hp => by
    simp only [inferArms, clean_bind] at h
    obtain ⟨hpattern, -, -, -, harms⟩ := h
    cases guard with
    | some guard => exact clean_arms harms p hp
    | none =>
      rcases List.mem_cons.mp hp with rfl | hp
      · exact hpattern
      · exact clean_arms harms p hp

end

/-! ## One reading -/

def bitsOf (width : String) : Nat :=
  if width ∈ ["I8", "U8"] then 8
  else if width ∈ ["I16", "U16"] then 16
  else if width ∈ ["I32", "U32"] then 32
  else if width ∈ ["I128", "U128"] then 128
  else 64

/-- Integers are read as numbers in the range of their type, all else as text. -/
def machineReading : Reading (Int ⊕ String) where
  denote
    | .integer value   => .inl value.toInt
    | .string value    => .inr value
    | .float text      => .inr text
    | .identifier name => .inr name
    | .boolean value   => .inr (toString value)
  holds
    | .primitive (.signed width), .inl n   => -(2 ^ (bitsOf width - 1)) ≤ n ∧ n < 2 ^ (bitsOf width - 1)
    | .primitive (.unsigned width), .inl n => 0 ≤ n ∧ n < 2 ^ bitsOf width
    | .integerLiteral, .inl n              => -(2 ^ 63) ≤ n ∧ n < 2 ^ 63
    | .primitive (.signed _), .inr _       => false
    | .primitive (.unsigned _), .inr _     => false
    | .integerLiteral, .inr _              => false
    | .error, _                            => false
    | .unknown, _                          => false
    | _, .inl _                            => false
    | _, .inr _                            => true

def optionU64 : ResolvedType := .option (.primitive (.unsigned "U64"))

/-- `Option::some(field) => 0` and `Option::none => 1`. -/
def optionArms (field : Pattern) : List MatchArm :=
  [.mk (.constructor ["Option", "some"] [field] default) none (.mk (.literal (.integer 0)) default) default,
   .mk (.path ["Option", "none"] default) none (.mk (.literal (.integer 1)) default) default]

theorem some_alone_reported : Reports (checkExhaustive (Analyzer.new "a.syl") default (.option boolType)
    ((optionArms (.wildcard default)).take 1)) "SYL2301" := by
  have hinhabited : ∀ h fields, payload machineReading (Analyzer.new "a.syl") (.option boolType) h = some fields →
      ∃ ts, TypedAll (payload machineReading (Analyzer.new "a.syl")) ts fields := by
    intro h fields hpayload
    cases h with
    | variant name =>
      simp only [payload] at hpayload
      split_ifs at hpayload
      · cases hpayload
        exact ⟨[.node (.boolean true) []], ⟨[], rfl, trivial⟩, trivial⟩
      · cases hpayload
        exact ⟨[], trivial⟩
    | boolean value => simp [payload] at hpayload
    | scalar value => simp [payload, hasVariants] at hpayload
  refine (checkExhaustive_exact rfl hinhabited (fun p hp => ⟨OrdMap.empty, ?_⟩) (by decide)).mpr ?_
  · rw [List.mem_singleton.mp (show p ∈ [_] from hp)]
    exact AstLower.clean_of_diagnostics rfl
  · refine ⟨.node (.variant "none") [], ⟨[], rfl, trivial⟩, fun p hp => ?_⟩
    rw [List.mem_singleton.mp (show p ∈ [_] from hp)]
    simp [patternOf, Pat.Matches]

/-- `match x { .. }` where `x` is an `Option<U64>`. -/
def optionMatch (field : Pattern) : Checked ResolvedType :=
  inferExprKind (Analyzer.new "a.syl") false (.match_ (.mk (.literal (.identifier "x")) default) (optionArms field)) default
    (OrdMap.ofList [("x", optionU64)]) none

end Semantic
end Syllog
