import Syllog.Manifest
import Mathlib.Logic.Relation
/-!
# TargetPaths — a target path stays inside the project

The lexical normal form of a component list is stated by rewriting: a dot is dropped, a name cancels with the `..` right
behind it, and a list is normal when no step is left.  `normalize_inside` has a result exactly when no prefix climbs above
its start, and the result is the root with that normal form (`normalizeInside_iff`).
-/
namespace Syllog
namespace Paths

/-! ## Lexical normal forms -/

/-- **One lexical step**: a dot is dropped, or a name and the `..` behind it. -/
inductive Cancels : List Component → List Component → Prop
  | dot (before after : List Component) : Cancels (before ++ .curDir :: after) (before ++ after)
  | up (before after : List Component) (name : List Char) :
      Cancels (before ++ .normal name :: .parentDir :: after) (before ++ after)

/-- `normal` is what the steps make of `path` when none is left. -/
def IsNormalForm (path normal : List Component) : Prop :=
  Relation.ReflTransGen Cancels path normal ∧ ∀ next, ¬ Cancels normal next

def parents (path : List Component) : Nat := path.count .parentDir

def normals (path : List Component) : Nat := path.countP (·.isNormal)

@[simp] theorem parents_nil : parents [] = 0 := rfl
@[simp] theorem normals_nil : normals [] = 0 := rfl

theorem parents_cons (c : Component) (path : List Component) :
    parents (c :: path) = parents path + if c = .parentDir then 1 else 0 := by
  simp [parents, List.count_cons]

theorem normals_cons (c : Component) (path : List Component) :
    normals (c :: path) = normals path + if c.isNormal = true then 1 else 0 := by
  simp [normals, List.countP_cons]

/-- `Path::is_absolute`. -/
def isAbsolute (path : String) : Prop := path.toList.head? = some '/'

/-- **A path stays inside**: it is relative and no prefix of its components has more `..` than names. -/
def StaysInside (path : String) : Prop :=
  ¬ isAbsolute path ∧ ∀ before, before <+: components path → parents before ≤ normals before

theorem segment_ne_rootDir {name : List Char} : segment name ≠ some .rootDir := by
  unfold segment
  split <;> simp

theorem splitOn_ne_nil (l : List Char) : l.splitOn '/' ≠ [] := List.splitOnP_ne_nil _ _

/-- The root is a component of absolute paths only. -/
theorem rootDir_mem_components {path : String} : Component.rootDir ∈ components path ↔ isAbsolute path := by
  unfold components isAbsolute
  cases hsplit : path.toList.splitOn '/' with
  | nil => exact absurd hsplit (splitOn_ne_nil _)
  | cons first rest =>
    have hrest : Component.rootDir ∉ rest.filterMap segment := by
      intro hmem
      obtain ⟨name, _, hname⟩ := List.mem_filterMap.mp hmem
      exact segment_ne_rootDir hname
    have hfirst : Component.rootDir ∉ (segment first).toList := by
      intro hmem
      exact segment_ne_rootDir (Option.mem_toList.mp hmem)
    simp only [List.mem_append, hrest, or_false]
    split_ifs with habsolute hdot
    · simp [habsolute]
    · simp [habsolute]
    · simp [habsolute, hfirst]

end Paths

namespace Project

open Paths

/-! ## The loop of `normalize_inside` -/

theorem normalizeFrom_append (b : List Component) : ∀ (a : List Component) (names : List (List Char)),
    normalizeFrom names (a ++ b) = (normalizeFrom names a).bind (normalizeFrom · b)
  | [], _ => rfl
  | .normal name :: a, names => normalizeFrom_append b a (names ++ [name])
  | .parentDir :: a, names => by
    rw [List.cons_append, normalizeFrom, normalizeFrom]
    split
    · rfl
    · exact normalizeFrom_append b a names.dropLast
  | .curDir :: a, names => normalizeFrom_append b a names
  | .rootDir :: _, _ => rfl

/-- Behind `names`, the loop goes through as long as no prefix has more `..` than there are names to take. -/
theorem normalizeFrom_isSome : ∀ (path : List Component) (names : List (List Char)),
    (normalizeFrom names path).isSome = true ↔
      Component.rootDir ∉ path ∧ ∀ before, before <+: path → parents before ≤ names.length + normals before
  | [], names => by simp [normalizeFrom]
  | .normal name :: path, names => by
    rw [normalizeFrom, normalizeFrom_isSome path]
    simp only [List.mem_cons, reduceCtorEq, false_or, List.length_append, List.length_singleton, List.prefix_cons_iff,
      forall_eq_or_imp, forall_exists_index, and_imp]
    refine and_congr_right fun _ => ⟨fun h => ⟨by simp, ?_⟩, fun h before hbefore => ?_⟩
    · rintro _ before rfl hbefore
      have := h before hbefore
      simp [parents_cons, normals_cons, Component.isNormal]
      omega
    · have := h.2 _ before rfl hbefore
      simp [parents_cons, normals_cons, Component.isNormal] at this
      omega
  | .parentDir :: path, names => by
    rw [normalizeFrom]
    simp only [List.mem_cons, reduceCtorEq, false_or, List.prefix_cons_iff, forall_eq_or_imp, forall_exists_index,
      and_imp]
    split
    · rename_i hnil
      subst hnil
      simp only [Option.isSome_none, Bool.false_eq_true, false_iff, not_and]
      intro _ _ h
      have := h _ [] rfl List.nil_prefix
      simp [parents_cons, normals_cons, Component.isNormal] at this
    · rename_i hnames
      have hpos : 0 < names.length := List.length_pos_of_ne_nil hnames
      rw [normalizeFrom_isSome path]
      refine and_congr_right fun _ => ⟨fun h => ⟨by simp, ?_⟩, fun h before hbefore => ?_⟩
      · rintro _ before rfl hbefore
        have := h before hbefore
        simp [parents_cons, normals_cons, Component.isNormal] at this ⊢
        omega
      · have := h.2 _ before rfl hbefore
        simp [parents_cons, normals_cons, Component.isNormal] at this ⊢
        omega
  | .curDir :: path, names => by
    rw [normalizeFrom, normalizeFrom_isSome path]
    simp only [List.mem_cons, reduceCtorEq, false_or, List.prefix_cons_iff, forall_eq_or_imp, forall_exists_index,
      and_imp]
    refine and_congr_right fun _ => ⟨fun h => ⟨by simp, ?_⟩, fun h before hbefore => ?_⟩
    · rintro _ before rfl hbefore
      simpa [parents_cons, normals_cons, Component.isNormal] using h before hbefore
    · simpa [parents_cons, normals_cons, Component.isNormal] using h.2 _ before rfl hbefore
  | .rootDir :: path, names => by simp [normalizeFrom]

/-- What the loop returns is reached by lexical steps. -/
theorem normalizeFrom_cancels : ∀ (path : List Component) {names result : List (List Char)},
    normalizeFrom names path = some result →
      Relation.ReflTransGen Cancels (names.map .normal ++ path) (result.map .normal)
  | [], names, result, h => by
    cases h
    rw [List.append_nil]
  | .normal name :: path, names, result, h => by
    have hrest := normalizeFrom_cancels path h
    rwa [List.map_append, List.append_assoc] at hrest
  | .parentDir :: path, names, result, h => by
    rw [normalizeFrom] at h
    split at h
    · cases h
    · rename_i hnames
      obtain ⟨shorter, last, rfl⟩ : ∃ shorter last, names = shorter ++ [last] :=
        ⟨names.dropLast, names.getLast hnames, (List.dropLast_append_getLast hnames).symm⟩
      rw [List.dropLast_concat] at h
      refine .head ?_ (normalizeFrom_cancels path h)
      rw [List.map_append, List.append_assoc]
      exact .up (shorter.map .normal) path last
  | .curDir :: path, names, result, h => .head (.dot _ path) (normalizeFrom_cancels path h)

/-- A lexical step changes nothing about the loop. -/
theorem normalizeFrom_eq_of_cancels {path next : List Component} (h : Cancels path next) (names : List (List Char)) :
    normalizeFrom names path = normalizeFrom names next := by
  cases h with
  | dot before after => rw [normalizeFrom_append, normalizeFrom_append]; rfl
  | up before after name =>
    rw [normalizeFrom_append, normalizeFrom_append]
    refine congrArg _ (funext fun held => ?_)
    simp [normalizeFrom]

theorem normalizeFrom_eq_of_steps {path last : List Component} (h : Relation.ReflTransGen Cancels path last)
    (names : List (List Char)) : normalizeFrom names path = normalizeFrom names last := by
  induction h with
  | refl => rfl
  | tail _ hstep ih => rw [ih, normalizeFrom_eq_of_cancels hstep]

theorem not_cancels_normal (names : List (List Char)) (next : List Component) :
    ¬ Cancels (names.map .normal) next := by
  intro h
  generalize hpath : names.map Component.normal = path at h
  have hall : ∀ c ∈ path, c.isNormal = true := by
    subst hpath
    intro c hc
    obtain ⟨name, _, rfl⟩ := List.mem_map.mp hc
    rfl
  cases h with
  | dot before after => exact absurd (hall .curDir (by simp)) (by decide)
  | up before after name => exact absurd (hall .parentDir (by simp)) (by decide)

/-- The loop of a list without a step left returns that list. -/
theorem normalizeFrom_of_normal : ∀ {path : List Component} {names result : List (List Char)},
    (∀ next, ¬ Cancels (names.map .normal ++ path) next) → normalizeFrom names path = some result →
      names.map .normal ++ path = result.map .normal
  | [], names, result, _, h => by
    cases h
    rw [List.append_nil]
  | .normal name :: path, names, result, hnone, h => by
    have hmap : names.map .normal ++ .normal name :: path = (names ++ [name]).map Component.normal ++ path := by simp
    rw [hmap] at hnone ⊢
    exact normalizeFrom_of_normal hnone h
  | .parentDir :: path, names, result, hnone, h => by
    rw [normalizeFrom] at h
    split at h
    · cases h
    · rename_i hnames
      obtain ⟨shorter, last, rfl⟩ : ∃ shorter last, names = shorter ++ [last] :=
        ⟨names.dropLast, names.getLast hnames, (List.dropLast_append_getLast hnames).symm⟩
      refine absurd ?_ (hnone (shorter.map .normal ++ path))
      rw [List.map_append, List.append_assoc]
      exact .up (shorter.map .normal) path last
  | .curDir :: path, names, result, hnone, h => absurd (.dot _ path) (hnone _)

/-! ## `normalize_inside` -/

/-- **`normalize_inside` has a result exactly for paths that stay inside.** -/
theorem normalizeInside_isSome (root : PathBuf) (relative : String) :
    (normalizeInside root relative).isSome = true ↔ StaysInside relative := by
  unfold normalizeInside StaysInside
  rw [Option.isSome_map, normalizeFrom_isSome, rootDir_mem_components]
  simp

/-- **Its result is the root with the lexical normal form.** -/
theorem normalizeInside_iff (root : PathBuf) (relative : String) (normal : List Component) :
    normalizeInside root relative = some (root ++ normal) ↔
      StaysInside relative ∧ IsNormalForm (components relative) normal := by
  constructor
  · intro h
    have hinside := (normalizeInside_isSome root relative).mp (by rw [h]; rfl)
    obtain ⟨names, hnames, heq⟩ := Option.map_eq_some_iff.mp h
    obtain rfl := List.append_cancel_left heq
    exact ⟨hinside, normalizeFrom_cancels _ hnames, not_cancels_normal names⟩
  · rintro ⟨hinside, hsteps, hnone⟩
    obtain ⟨result, hresult⟩ := Option.isSome_iff_exists.mp ((normalizeInside_isSome root relative).mpr hinside)
    obtain ⟨names, hnames, rfl⟩ := Option.map_eq_some_iff.mp hresult
    rw [normalizeFrom_eq_of_steps hsteps] at hnames
    obtain rfl : normal = names.map .normal := @normalizeFrom_of_normal normal [] names hnone hnames
    exact hresult

theorem normalizeInside_names {root result : PathBuf} {relative : String}
    (h : normalizeInside root relative = some result) : ∃ names : List (List Char), result = root ++ names.map Component.normal := by
  obtain ⟨names, _, rfl⟩ := Option.map_eq_some_iff.mp h
  exact ⟨names, rfl⟩

/-! ## `validate` -/

/-- The report of a target outside the project. -/
def escapes (file source : String) (raw : RawTarget) : ManifestDiagnostic :=
  diagnostic "SYLP1004" s!"target path '{raw.path.value}' escapes the project root" file source raw.path

/-- What a target is accepted as. -/
def Accepted (file : String) (raw : RawTarget) (target : Target) : Prop :=
  target.name = raw.name.value ∧ target.kind = raw.kind ∧
    ∃ normal, IsNormalForm (components raw.path.value) normal ∧ target.path = rootOf file ++ normal

theorem validateTargets_reported {file source : String} : ∀ (l : List RawTarget) (names : List String),
    (validateTargets file source (rootOf file) names l).2 = [] ↔
      (l.map (·.name.value)).Nodup ∧ (∀ raw ∈ l, raw.name.value ∉ names) ∧ ∀ raw ∈ l, StaysInside raw.path.value
  | [], _ => by simp [validateTargets]
  | raw :: rest, names => by
    have hinside := normalizeInside_isSome (rootOf file) raw.path.value
    unfold validateTargets
    cases hpath : normalizeInside (rootOf file) raw.path.value with
    | none =>
      rw [hpath] at hinside
      simp only [Option.isSome_none, Bool.false_eq_true, false_iff] at hinside
      simp [hinside]
    | some path =>
      rw [hpath] at hinside
      simp only [Option.isSome_some, true_iff] at hinside
      simp only [List.append_eq_nil_iff, validateTargets_reported rest, List.mem_cons, not_or, ite_eq_right_iff,
        List.cons_ne_nil, imp_false, List.map_cons, List.nodup_cons, List.mem_map, forall_eq_or_imp, not_exists,
        not_and, hinside, true_and]
      constructor
      · rintro ⟨hname, hnodup, hfresh, hrest⟩
        exact ⟨⟨fun x hx => (hfresh x hx).1, hnodup⟩, ⟨hname, fun x hx => (hfresh x hx).2⟩, hrest⟩
      · rintro ⟨⟨hnew, hnodup⟩, ⟨hname, hfresh⟩, hrest⟩
        exact ⟨hname, hnodup, fun x hx => ⟨hnew x hx, hfresh x hx⟩, hrest⟩

theorem validateTargets_targets {file source : String} : ∀ (l : List RawTarget) (names : List String),
    (∀ raw ∈ l, StaysInside raw.path.value) →
      List.Forall₂ (Accepted file) l (validateTargets file source (rootOf file) names l).1
  | [], _, _ => .nil
  | raw :: rest, names, h => by
    obtain ⟨hraw, hrest⟩ := List.forall_mem_cons.mp h
    obtain ⟨path, hpath⟩ := Option.isSome_iff_exists.mp
      ((normalizeInside_isSome (rootOf file) raw.path.value).mpr hraw)
    obtain ⟨names', rfl⟩ := normalizeInside_names hpath
    have hnormal := ((normalizeInside_iff (rootOf file) raw.path.value _).mp hpath).2
    unfold validateTargets
    rw [hpath]
    exact .cons ⟨rfl, rfl, _, hnormal, rfl⟩ (validateTargets_targets rest (raw.name.value :: names) hrest)

/-- Exactly the targets outside the project are reported so. -/
theorem mem_validateTargets_escapes {file source : String} (d : ManifestDiagnostic) :
    ∀ (l : List RawTarget) (names : List String),
      (d ∈ (validateTargets file source (rootOf file) names l).2 ∧ d.code = "SYLP1004") ↔
        ∃ raw ∈ l, ¬ StaysInside raw.path.value ∧ d = escapes file source raw
  | [], _ => by simp [validateTargets]
  | raw :: rest, names => by
    have hinside := normalizeInside_isSome (rootOf file) raw.path.value
    have ih := @mem_validateTargets_escapes file source d rest (raw.name.value :: names)
    have hduplicate : ¬ ((d ∈ if raw.name.value ∈ names then
        [diagnostic "SYLP1002" s!"duplicate target '{raw.name.value}'" file source raw.name] else []) ∧
        d.code = "SYLP1004") := by
      rintro ⟨hmem, hcode⟩
      split at hmem
      · obtain rfl := List.mem_singleton.mp hmem
        exact absurd hcode (by simp [diagnostic])
      · cases hmem
    unfold validateTargets
    cases hpath : normalizeInside (rootOf file) raw.path.value with
    | none =>
      rw [hpath] at hinside
      simp only [Option.isSome_none, Bool.false_eq_true, false_iff] at hinside
      simp only [List.mem_append, List.mem_cons, or_and_right, hduplicate, false_or, ih, exists_or, exists_eq_left, hinside,
        not_false_eq_true, true_and]
      refine or_congr_left ⟨fun h => h.1, fun h => ⟨h, ?_⟩⟩
      rw [h]
      rfl
    | some path =>
      rw [hpath] at hinside
      simp only [Option.isSome_some, true_iff] at hinside
      simp only [List.mem_append, or_and_right, hduplicate, false_or, ih, List.mem_cons, exists_or, exists_eq_left,
        hinside, not_true_eq_false, false_and]

/-- **Target paths cannot leave the project.**  A result exists exactly for paths that stay inside, it is the root with the
path's lexical normal form, and a manifest is accepted exactly when its profile is known, its target names differ and every
target stays inside; a rejected one reports exactly the targets outside. -/
theorem targets_stay_inside (root : PathBuf) (relative file source : String) (raw : RawManifest) :
    ((normalizeInside root relative).isSome = true ↔ StaysInside relative) ∧
    (∀ normal, normalizeInside root relative = some (root ++ normal) ↔
      StaysInside relative ∧ IsNormalForm (components relative) normal) ∧
    (∀ result ∈ normalizeInside root relative, ∃ names : List (List Char), result = root ++ names.map Component.normal) ∧
    ((∃ manifest, validate file source raw = .ok manifest) ↔
      raw.capabilities.profile.value ∈ knownProfiles ∧ (raw.targets.map (·.name.value)).Nodup ∧
        ∀ target ∈ raw.targets, StaysInside target.path.value) ∧
    match validate file source raw with
    | .ok manifest       => List.Forall₂ (Accepted file) raw.targets manifest.targets
    | .error diagnostics => ∀ d, (d ∈ diagnostics ∧ d.code = "SYLP1004") ↔
        ∃ target ∈ raw.targets, ¬ StaysInside target.path.value ∧ d = escapes file source target := by
  refine ⟨normalizeInside_isSome root relative, normalizeInside_iff root relative, fun _ h => normalizeInside_names h, ?_⟩
  have hprofile : validateProfile file source raw.capabilities.profile = [] ↔
      raw.capabilities.profile.value ∈ knownProfiles := by
    simp [validateProfile]
  have htargets := @validateTargets_reported file source raw.targets []
  simp only [List.not_mem_nil, not_false_eq_true, implies_true, true_and] at htargets
  unfold validate
  dsimp only
  split
  · rename_i hreported
    rw [ne_eq, List.append_eq_nil_iff, hprofile, htargets] at hreported
    refine ⟨⟨(fun ⟨_, h⟩ => nomatch h), fun h => absurd h hreported⟩, fun d => ?_⟩
    rw [← mem_validateTargets_escapes d raw.targets [], List.mem_append]
    refine and_congr_left fun hcode => or_iff_right ?_
    intro hmem
    unfold validateProfile at hmem
    split at hmem
    · cases hmem
    · obtain rfl := List.mem_singleton.mp hmem
      exact absurd hcode (by simp [diagnostic])
  · rename_i hnone
    rw [ne_eq, not_not, List.append_eq_nil_iff, hprofile, htargets] at hnone
    exact ⟨⟨fun _ => hnone, fun _ => ⟨_, rfl⟩⟩, validateTargets_targets raw.targets [] hnone.2.2⟩

end Project
end Syllog
