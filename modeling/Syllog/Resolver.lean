import Syllog.Backtrack
import Syllog.OrdMap
import Syllog.Paths
import Mathlib.Data.List.MinMax
import Mathlib.Data.List.Destutter
import Mathlib.Data.Prod.Lex
import Mathlib.Data.String.Basic
/-!
# Resolver — choosing one release for every required package

`resolver.rs`: releases of an index, constraints with the text they came from and who asked for them, and the search that
selects releases.  The search itself is `Backtrack.search`; here is what it does at one state (`expand`).  The version and
requirement types, their parser and printers, and SHA-256 are the fields of `Libraries`.
-/
namespace Syllog
namespace Resolver

open Backtrack (Node Problem)

abbrev Bytes := List UInt8

structure Libraries (V Q : Type) where
  /-- `VersionReq::parse`, or the explanation why not. -/
  parseRequirement : String → Except String Q
  matches_ : Q → V → Bool
  showVersion : V → String
  showRequirement : Q → String
  /-- The lowercase hexadecimal SHA-256 digest. -/
  digest : Bytes → String

structure PackageRelease (V : Type) where
  name : String
  version : V
  dependencies : OrdMap String String
  checksum : String
  content : Bytes
  yanked : Bool
  availableOffline : Bool
  archivePaths : List String
deriving DecidableEq

/-- What the resolver asks of an index: the known releases of a name. -/
abbrev PackageIndex (V : Type) := String → List (PackageRelease V)

structure InMemoryIndex (V : Type) where
  grouped : OrdMap String (List (PackageRelease V))

def InMemoryIndex.new {V : Type} (releases : List (PackageRelease V)) : InMemoryIndex V :=
  ⟨releases.foldl (fun grouped release =>
    grouped.insert release.name ((grouped.get? release.name).getD [] ++ [release])) .empty⟩

def InMemoryIndex.releases {V : Type} (index : InMemoryIndex V) : PackageIndex V := fun name =>
  (index.grouped.get? name).getD []

structure ResolvePolicy where
  offline : Bool

structure Dependency where
  requirement : String

structure Manifest where
  dependencies : OrdMap String Dependency

structure LockedPackage (V : Type) where
  name : String
  version : V
  checksum : String
  dependencies : OrdMap String V
deriving DecidableEq

structure Resolution (V : Type) where
  format : Nat
  packages : List (LockedPackage V)
deriving DecidableEq

inductive ResolveError (V : Type) where
  | invalidRequirement (package requirement reason : String)
  | conflict (package : String) (requirements : List String)
  | offlineUnavailable (package : String) (version : V)
  | checksumMismatch (package : String) (version : V) (expected actual : String)
  | unsafeArchivePath (package : String) (version : V) (path : String)
  | ambiguousRelease (package : String) (version : V)
deriving DecidableEq

def ResolveError.isConflict {V : Type} : ResolveError V → Bool
  | .conflict _ _ => true
  | _             => false

structure Constraint (Q : Type) where
  requirement : Q
  text : String
  origin : String
  exact : Bool

abbrev Selected (V : Type) := OrdMap String (PackageRelease V)

abbrev Constraints (Q : Type) := OrdMap String (List (Constraint Q))

/-- The arguments of one call of `search`. -/
structure State (V Q : Type) where
  selected : Selected V
  constraints : Constraints Q

/-- The key of a state in the table of failed states. -/
structure SearchState (V : Type) where
  selected : List (String × V × String)
  constraints : List (String × List (String ×ₗ String))
deriving DecidableEq

variable {V Q : Type}

/-! ## Constraints -/

/-- `char::is_whitespace`. -/
def isWhitespace (c : Char) : Bool :=
  (9 ≤ c.toNat ∧ c.toNat ≤ 13) ∨ c.toNat ∈ [0x20, 0x85, 0xA0, 0x1680, 0x2028, 0x2029, 0x202F, 0x205F, 0x3000] ∨
    (0x2000 ≤ c.toNat ∧ c.toNat ≤ 0x200A)

/-- The text starts with an equals sign, white space apart. -/
def isExact (text : String) : Bool := (text.toList.dropWhile isWhitespace).head? = some '='

variable (libs : Libraries V Q)

def addConstraint (constraints : Constraints Q) (package text origin : String) :
    Except (ResolveError V) (Constraints Q) :=
  match libs.parseRequirement text with
  | .error reason   => .error (.invalidRequirement package text reason)
  | .ok requirement => .ok (constraints.insert package ((constraints.get? package).getD [] ++
      [{ requirement, text, origin, exact := isExact text }]))

/-- Adds requirements in order, each with the origin that names its package and text. -/
def addConstraints (origin : String → String → String) : Constraints Q → List (String × String) →
    Except (ResolveError V) (Constraints Q)
  | constraints, [] => .ok constraints
  | constraints, (package, text) :: rest =>
    match addConstraint libs constraints package text (origin package text) with
    | .error e         => .error e
    | .ok constraints' => addConstraints origin constraints' rest

def rootOrigin (package text : String) : String := "root requires " ++ package ++ " " ++ text

def releaseOrigin (release : PackageRelease V) (package text : String) : String :=
  release.name ++ " " ++ libs.showVersion release.version ++ " requires " ++ package ++ " " ++ text

def conflict (package : String) (constraints : List (Constraint Q)) : ResolveError V :=
  .conflict package (((constraints.map fun c => c.origin ++ " (" ++ c.text ++ ")").insertionSort (· ≤ ·)).destutter (· ≠ ·))

/-! ## Releases -/

def satisfies (active : List (Constraint Q)) (version : V) : Bool :=
  active.all fun c => libs.matches_ c.requirement version

/-- Not yanked, or pinned by an exact requirement. -/
def usable (active : List (Constraint Q)) (release : PackageRelease V) : Bool :=
  !release.yanked || active.any fun c => c.exact && libs.matches_ c.requirement release.version

def admits (active : List (Constraint Q)) (release : PackageRelease V) : Bool :=
  satisfies libs active release.version && usable libs active release

def candidateCount (index : PackageIndex V) (policy : ResolvePolicy) (name : String) (active : List (Constraint Q)) : Nat :=
  (index name).countP fun release => admits libs active release && (!policy.offline || release.availableOffline)

def unsafePath (path : String) : Bool := path.isEmpty || (Paths.components path).any fun c => !c.isNormal

def validateRelease (release : PackageRelease V) : Except (ResolveError V) Unit :=
  if libs.digest release.content ≠ release.checksum then
    .error (.checksumMismatch release.name release.version release.checksum (libs.digest release.content))
  else
    match release.archivePaths.find? unsafePath with
    | some path => .error (.unsafeArchivePath release.name release.version path)
    | none      => .ok ()

variable [LinearOrder V]

/-- Newer versions first, then by checksum. -/
def comesBefore (a b : PackageRelease V) : Prop := b.version < a.version ∨ (a.version = b.version ∧ a.checksum ≤ b.checksum)

instance : DecidableRel (comesBefore (V := V)) := fun a b =>
  inferInstanceAs (Decidable (b.version < a.version ∨ (a.version = b.version ∧ a.checksum ≤ b.checksum)))

def sortReleases (releases : List (PackageRelease V)) : List (PackageRelease V) := releases.insertionSort comesBefore

def rejectAmbiguous (name : String) : List (PackageRelease V) → Except (ResolveError V) Unit
  | a :: b :: rest =>
    if a.version = b.version ∧ a ≠ b then .error (.ambiguousRelease name a.version) else rejectAmbiguous name (b :: rest)
  | _ => .ok ()

/-- The releases of a name in the order they are tried. -/
def offered (index : PackageIndex V) (name : String) : Except (ResolveError V) (List (PackageRelease V)) :=
  match rejectAmbiguous name (sortReleases (index name)) with
  | .ok _    => .ok (sortReleases (index name))
  | .error e => .error e

/-- Offline, what is not available is dropped, unless that is all there is. -/
def available (policy : ResolvePolicy) (name : String) (compatible : List (PackageRelease V)) :
    Except (ResolveError V) (List (PackageRelease V)) :=
  if policy.offline then
    match compatible.find? (!·.availableOffline) with
    | some unavailable =>
      if compatible.all (!·.availableOffline) then .error (.offlineUnavailable name unavailable.version)
      else .ok (compatible.filter (·.availableOffline))
    | none => .ok (compatible.filter (·.availableOffline))
  else .ok compatible

/-- The releases to try for a name under its constraints. -/
def candidates (index : PackageIndex V) (policy : ResolvePolicy) (name : String) (active : List (Constraint Q)) :
    Except (ResolveError V) (List (PackageRelease V)) :=
  match offered index name with
  | .error e     => .error e
  | .ok releases => available policy name (releases.filter (admits libs active))

/-! ## The search -/

/-- The first selected package whose release no longer satisfies its constraints. -/
def firstBroken (s : State V Q) : Option (String × List (Constraint Q)) :=
  s.selected.entries.findSome? fun (name, release) =>
    match s.constraints.get? name with
    | some active => if satisfies libs active release.version then none else some (name, active)
    | none        => none

/-- The constraints on a package. -/
def State.active (s : State V Q) (name : String) : List (Constraint Q) := (s.constraints.get? name).getD []

/-- The constrained packages that have no release yet. -/
def pending (s : State V Q) : List String := s.constraints.keys.filter fun name => !s.selected.contains name

/-- The pending package with the fewest candidates, by name among equals. -/
def nextPackage (index : PackageIndex V) (policy : ResolvePolicy) (s : State V Q) : Option String :=
  (pending s).argmin fun name => toLex (candidateCount libs index policy name (s.active name), name)

/-- The state after a release is selected. -/
def choose (s : State V Q) (name : String) (release : PackageRelease V) : Except (ResolveError V) (State V Q) :=
  match validateRelease libs release with
  | .error e => .error e
  | .ok _ =>
    match addConstraints libs (releaseOrigin libs release) s.constraints release.dependencies.entries with
    | .error e        => .error e
    | .ok constraints => .ok { selected := s.selected.insert name release, constraints }

def expand (index : PackageIndex V) (policy : ResolvePolicy) (s : State V Q) :
    Node (State V Q) (Selected V) (ResolveError V) :=
  match firstBroken libs s with
  | some (name, active) => .refuse (conflict name active) true
  | none =>
    match nextPackage libs index policy s with
    | none => .done s.selected
    | some name =>
      match candidates libs index policy name (s.active name) with
      | .error e        => .refuse e false
      | .ok []          => .refuse (conflict name (s.active name)) false
      | .ok (r :: rest) => .branch ((r :: rest).map (choose libs s name)) (conflict name (s.active name))

def stateFingerprint (s : State V Q) : SearchState V where
  selected := s.selected.entries.map fun (name, release) => (name, release.version, release.checksum)
  constraints := s.constraints.entries.map fun (name, active) =>
    (name, (active.map fun c => toLex (c.text, c.origin)).insertionSort (· ≤ ·))

def problem (index : PackageIndex V) (policy : ResolvePolicy) :
    Problem (State V Q) (SearchState V) (Selected V) (ResolveError V) where
  key := stateFingerprint
  node := expand libs index policy
  retry := ResolveError.isConflict

/-! ## Resolution -/

/-- The package that a selected release is locked as. -/
def lockedPackage (selected : Selected V) (release : PackageRelease V) : LockedPackage V where
  name := release.name
  version := release.version
  checksum := release.checksum
  dependencies := release.dependencies.filterMap fun name _ => (selected.get? name).map (·.version)

def resolution (selected : Selected V) : Resolution V where
  format := 1
  packages := selected.values.map (lockedPackage selected)

/-- The constraints of the manifest. -/
def rootConstraints (manifest : Manifest) : Except (ResolveError V) (Constraints Q) :=
  addConstraints libs rootOrigin .empty (manifest.dependencies.entries.map fun (name, d) => (name, d.requirement))

/-- `resolve`, with at most `fuel` nested calls of `search`; `none` when they are not enough. -/
def resolveWithin (fuel : Nat) (manifest : Manifest) (index : PackageIndex V) (policy : ResolvePolicy) :
    Option (Except (ResolveError V) (Resolution V)) :=
  match rootConstraints libs manifest with
  | .error e        => some (.error e)
  | .ok constraints =>
    match Backtrack.search (problem libs index policy) fuel ⟨.empty, constraints⟩ [] with
    | none                  => none
    | some (.error e, _)    => some (.error e)
    | some (.ok selected, _) => some (.ok (resolution selected))

/-- `resolve` returns this. -/
def Resolves (manifest : Manifest) (index : PackageIndex V) (policy : ResolvePolicy)
    (outcome : Except (ResolveError V) (Resolution V)) : Prop :=
  ∃ fuel, resolveWithin libs fuel manifest index policy = some outcome

/-! ## A few versions and requirements -/

namespace Sample

abbrev Version := Nat ×ₗ Nat ×ₗ Nat

def version (major minor patch : Nat) : Version := toLex (major, toLex (minor, patch))

def emptyDigest : String := "e3b0c44298fc1c149afbf4c8996fb92427ae41e4649b934ca495991b7852b855"

/-- What `semver` and SHA-256 do on the requirements and the content of the packages below; a requirement is the first version
it matches and the first it does not. -/
def semver : Libraries Version (Version × Version) where
  parseRequirement
    | "^1"     => .ok (version 1 0 0, version 2 0 0)
    | "^2"     => .ok (version 2 0 0, version 3 0 0)
    | "=1.0.0" => .ok (version 1 0 0, version 1 0 1)
    | _        => .error "unexpected character while parsing major version number"
  matches_ q v := q.1 ≤ v ∧ v < q.2
  showVersion v := toString (ofLex v).1 ++ "." ++ toString (ofLex (ofLex v).2).1 ++ "." ++ toString (ofLex (ofLex v).2).2
  showRequirement q := if q.2 = version 2 0 0 then "^1" else if q.2 = version 3 0 0 then "^2" else "=1.0.0"
  digest content := if content = [] then emptyDigest else ""

/-- An empty archive that was checked in. -/
def release (name : String) (version : Version) (dependencies : List (String × String)) : PackageRelease Version where
  name := name
  version := version
  dependencies := dependencies.foldl (fun m e => m.insert e.1 e.2) .empty
  checksum := emptyDigest
  content := []
  yanked := false
  availableOffline := true
  archivePaths := ["src/lib.syl"]

def manifest (dependencies : List (String × String)) : Manifest :=
  ⟨dependencies.foldl (fun m e => m.insert e.1 ⟨e.2⟩) .empty⟩

end Sample

end Resolver
end Syllog
