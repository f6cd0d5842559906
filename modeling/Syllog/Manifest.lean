import Syllog.Paths
import Syllog.Resolver
import Mathlib.Data.List.Lex
import Mathlib.Data.Prod.Lex
import Mathlib.Data.Char
/-!
# Manifest — validation of `Syllog.toml`

`syllog-project`: what `validate` makes of a manifest that the TOML reader accepted.  A path is the list of its components,
which is what `PathBuf` compares and orders by.
-/
namespace Syllog

/-! ## Paths in order -/

namespace Paths

/-- Components in the order of their declaration, names by their characters. -/
def Component.rank : Component → ℕ ×ₗ List Char
  | .rootDir     => toLex (0, [])
  | .curDir      => toLex (1, [])
  | .parentDir   => toLex (2, [])
  | .normal name => toLex (3, name)

theorem Component.rank_injective : Function.Injective Component.rank := by
  intro a b h
  cases a <;> cases b <;> simp_all [Component.rank]

instance : LinearOrder Component := LinearOrder.lift' Component.rank Component.rank_injective

abbrev PathBuf := List Component

/-- `Path::parent`. -/
def parent (path : PathBuf) : Option PathBuf :=
  match path.getLast? with
  | none          => none
  | some .rootDir => none
  | some _        => some path.dropLast

end Paths

namespace Project

open Paths (Component PathBuf)
open Resolver (Dependency)

/-! ## The manifest -/

inductive TargetKind where
  | bin
  | lib
deriving DecidableEq, Repr

structure Target where
  name : String
  kind : TargetKind
  path : PathBuf
deriving DecidableEq

structure Package where
  name : String
  version : String
  edition : String

structure CapabilityProfile where
  profile : String
  network : List String
  environment : List String
  maxMemoryBytes : UInt64

structure Manifest where
  package : Package
  targets : List Target
  dependencies : OrdMap String Dependency
  capabilities : CapabilityProfile

structure SourcePosition where
  line : Nat
  column : Nat
deriving DecidableEq, Repr

structure SourceRange where
  start : SourcePosition
  stop : SourcePosition
deriving DecidableEq, Repr

structure ManifestDiagnostic where
  code : String
  message : String
  file : String
  range : SourceRange
deriving DecidableEq, Repr

/-- `toml::Spanned`: a value and the bytes it was read from. -/
structure Spanned (α : Type) where
  value : α
  start : Nat
  stop : Nat

structure RawTarget where
  name : Spanned String
  kind : TargetKind
  path : Spanned String

structure RawCapabilities where
  profile : Spanned String
  network : List String
  environment : List String
  maxMemoryBytes : UInt64

structure RawManifest where
  package : Package
  targets : List RawTarget
  dependencies : OrdMap String String
  capabilities : RawCapabilities

/-! ## Diagnostics -/

/-- The characters of the first `byte` bytes. -/
def charsWithin : Nat → List Char → List Char
  | _, []         => []
  | byte, c :: cs => if c.utf8Size ≤ byte then c :: charsWithin (byte - c.utf8Size) cs else []

def position (source : String) (byte : Nat) : SourcePosition :=
  let before := charsWithin byte source.toList
  { line := before.count '\n' + 1, column := (before.reverse.takeWhile (· ≠ '\n')).length + 1 }

example : position "ab\nc" 4 = ⟨2, 2⟩ := by decide

def diagnostic {α : Type} (code message file source : String) (span : Spanned α) : ManifestDiagnostic where
  code
  message
  file
  range := ⟨position source span.start, position source span.stop⟩

/-! ## Validation -/

/-- The path so far, which holds names only, after the components left. -/
def normalizeFrom : List (List Char) → List Component → Option (List (List Char))
  | names, []               => some names
  | names, .normal name :: rest => normalizeFrom (names ++ [name]) rest
  | names, .parentDir :: rest   => if names = [] then none else normalizeFrom names.dropLast rest
  | names, .curDir :: rest      => normalizeFrom names rest
  | _, .rootDir :: _            => none

def normalizeInside (root : PathBuf) (relative : String) : Option PathBuf :=
  (normalizeFrom [] (Paths.components relative)).map fun names => root ++ names.map Component.normal

/-- The targets in order, with the names before them: what is kept and what is reported. -/
def validateTargets (file source : String) (root : PathBuf) : List String → List RawTarget →
    List Target × List ManifestDiagnostic
  | _, []            => ([], [])
  | names, raw :: rest =>
    let name := raw.name.value
    let later := validateTargets file source root (name :: names) rest
    let duplicate :=
      if name ∈ names then [diagnostic "SYLP1002" s!"duplicate target '{name}'" file source raw.name] else []
    match normalizeInside root raw.path.value with
    | some path => ({ name, kind := raw.kind, path } :: later.1, duplicate ++ later.2)
    | none      =>
      (later.1, duplicate ++ diagnostic "SYLP1004" s!"target path '{raw.path.value}' escapes the project root" file source
        raw.path :: later.2)

/-- `path.parent().unwrap_or(".")`. -/
def rootOf (file : String) : PathBuf := (Paths.parent (Paths.components file)).getD [.curDir]

def knownProfiles : List String := ["none", "agent", "native"]

def validateProfile (file source : String) (profile : Spanned String) : List ManifestDiagnostic :=
  if profile.value ∈ knownProfiles then []
  else [diagnostic "SYLP1003" s!"unknown capability profile '{profile.value}'" file source profile]

def validate (file source : String) (raw : RawManifest) : Except (List ManifestDiagnostic) Manifest :=
  let (targets, reported) := validateTargets file source (rootOf file) [] raw.targets
  let diagnostics := validateProfile file source raw.capabilities.profile ++ reported
  if diagnostics ≠ [] then .error diagnostics
  else
    .ok {
      package := raw.package
      targets
      dependencies := raw.dependencies.filterMap fun _ requirement => some ⟨requirement⟩
      capabilities := {
        profile := raw.capabilities.profile.value
        network := raw.capabilities.network
        environment := raw.capabilities.environment
        maxMemoryBytes := raw.capabilities.maxMemoryBytes } }

/-! ## What is accepted -/

/-- **Targets without a report**: each raw target is kept under its name, the names are new and pairwise distinct. -/
theorem validateTargets_accepts {file source : String} {root : PathBuf} : ∀ {l : List RawTarget} {names : List String},
    (validateTargets file source root names l).2 = [] →
      (validateTargets file source root names l).1.map (·.name) = l.map (·.name.value) ∧
      (l.map (·.name.value)).Nodup ∧ ∀ name ∈ l.map (·.name.value), name ∉ names
  | [], _, _ => ⟨rfl, .nil, fun _ h => by cases h⟩
  | raw :: rest, names, h => by
    unfold validateTargets at h ⊢
    cases hpath : normalizeInside root raw.path.value with
    | none => simp [hpath] at h
    | some path =>
      simp only [hpath, List.append_eq_nil_iff] at h ⊢
      obtain ⟨hname, hrest⟩ := h
      have hnew : raw.name.value ∉ names := by
        intro hmem
        rw [if_pos hmem] at hname
        cases hname
      obtain ⟨hmap, hnodup, hfresh⟩ := validateTargets_accepts hrest
      refine ⟨by simp [hmap], ?_, ?_⟩
      · refine List.nodup_cons.mpr ⟨fun hmem => hfresh _ hmem List.mem_cons_self, hnodup⟩
      · intro name hmem
        rcases List.mem_cons.mp hmem with rfl | hmem
        · exact hnew
        · exact fun hold => hfresh name hmem (List.mem_cons_of_mem _ hold)

theorem validate_ok {file source : String} {raw : RawManifest} {manifest : Manifest}
    (h : validate file source raw = .ok manifest) :
    manifest.targets = (validateTargets file source (rootOf file) [] raw.targets).1 ∧
    (validateTargets file source (rootOf file) [] raw.targets).2 = [] := by
  unfold validate at h
  dsimp only at h
  split at h
  · cases h
  · rename_i hnone
    simp only [ne_eq, not_not, List.append_eq_nil_iff] at hnone
    cases h
    exact ⟨rfl, hnone.2⟩

/-- **Accepted targets have distinct names.** -/
theorem targets_nodup {file source : String} {raw : RawManifest} {manifest : Manifest}
    (h : validate file source raw = .ok manifest) : (manifest.targets.map (·.name)).Nodup := by
  obtain ⟨htargets, hnone⟩ := validate_ok h
  obtain ⟨hmap, hnodup, _⟩ := validateTargets_accepts hnone
  rw [htargets, hmap]
  exact hnodup

end Project
end Syllog
