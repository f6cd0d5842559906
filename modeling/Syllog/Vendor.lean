import Syllog.LockGraph
import Syllog.Manifest
import Syllog.RegistryArchives
import Syllog.Runs
/-!
# Vendor — locked sources from the cache and from the vendor directory

`syllog vendor` copies the locked archives out of the content-addressed cache: the bytes of each archive into a metadata file
and the files of the archive beside it, into one directory per package.  A build then reads the metadata files in place of the
cache.  The directory is a map from normalised paths to bytes.

`vendored_same` says when the two are interchangeable: the names of the files are the package author's, and a file that comes
to lie where the metadata is replaces it.
-/
namespace Syllog
namespace Vendor

open Resolver (Libraries LockedPackage Resolution validateLockGraph AcceptsLock)
open Registry (PackageArchive ArchiveFile Primitives RegistryError)
open Paths (Component PathBuf)

abbrev Bytes := List UInt8

structure PackageSource where
  file : String
  source : String
deriving DecidableEq, Repr

inductive CacheError where
  | invalidKey (key : String)
  | checksumMismatch (expected actual : String)
  | io (key : String)

/-- An error of the command: its own text, the text put in front of a cause, or the error of a lock file or an archive. -/
inductive Failure (V : Type) where
  | bail (text : String)
  | context (text : String)
  | lockfile (reason : String)
  | registry (error : RegistryError V)

/-- The project on disk, as far as the commands read it. -/
structure Workspace (V : Type) where
  manifest : Resolver.Manifest
  /-- What `read_lockfile` makes of `Syllog.lock`. -/
  lockfile : Except String (Resolution V)
  /-- The files under `.syllog/cache/sha256`. -/
  cache : String → Option Bytes
  /-- The files under `vendor`, when there is such a directory. -/
  vendor : Option (OrdMap PathBuf Bytes)

section
variable {V Q : Type} (prims : Primitives V)

/-! ## The cache -/

def isHexDigit (c : Char) : Bool := ('0' ≤ c ∧ c ≤ '9') ∨ ('a' ≤ c ∧ c ≤ 'f')

/-- `validate_key` accepts. -/
def validKey (checksum : String) : Bool := checksum.utf8ByteSize = 64 && checksum.toList.all isHexDigit

/-- `ContentAddressedCache::load`. -/
def cacheLoad (cache : String → Option Bytes) (checksum : String) : Except CacheError Bytes :=
  if validKey checksum = false then .error (.invalidKey checksum)
  else
    match cache checksum with
    | none         => .error (.io checksum)
    | some content =>
      if prims.digest content = checksum then .ok content
      else .error (.checksumMismatch checksum (prims.digest content))

/-! ## One archive -/

variable (libs : Libraries V Q)

/-- `Path::extension`: what follows the last dot of the file name, unless the dot starts it. -/
def extension (path : String) : Option (List Char) :=
  match (Paths.components path).getLast? with
  | some (.normal name) =>
    if '.' ∈ name.tail then some (name.reverse.takeWhile (· ≠ '.')).reverse else none
  | _                   => none

example : extension "src/a.b.syl" = some "syl".toList ∧ extension ".syl" = none ∧ extension "syl" = none := by decide

def showRelease (package : LockedPackage V) : String := package.name ++ " " ++ libs.showVersion package.version

/-- One requirement of the archive against the version that is locked for it. -/
def verifyRequirement (package : LockedPackage V) (name text : String) : Except (Failure V) Unit :=
  match libs.parseRequirement text with
  | .error _        =>
    .error (.context ("archive " ++ showRelease libs package ++ " has invalid requirement for " ++ name))
  | .ok requirement =>
    match package.dependencies.get? name with
    -- the keys were compared before
    | none         => .ok ()
    | some version =>
      if libs.matches_ requirement version then .ok ()
      else .error (.bail ("locked dependency " ++ name ++ " " ++ libs.showVersion version ++
        " does not satisfy archive requirement " ++ libs.showRequirement requirement))

def verifyLockedArchive [DecidableEq V] (package : LockedPackage V) (archive : PackageArchive V) :
    Except (Failure V) Unit :=
  if archive.name ≠ package.name ∨ archive.version ≠ package.version then
    .error (.bail ("archive identity " ++ archive.name ++ " " ++ libs.showVersion archive.version ++
      " does not match lockfile package " ++ showRelease libs package))
  else
    match archive.checksum prims with
    | .error e   => .error (.registry e)
    | .ok actual =>
      if actual ≠ package.checksum then
        .error (.bail ("archive checksum mismatch for " ++ showRelease libs package ++ ": expected " ++ package.checksum ++
          ", computed " ++ actual))
      else if archive.dependencies.keys ≠ package.dependencies.keys then
        .error (.bail ("archive dependency metadata for " ++ showRelease libs package ++ " does not match Syllog.lock"))
      else archive.dependencies.entries.forM fun (name, text) => verifyRequirement libs package name text

/-- The sources of an archive, each under the name of its package. -/
def archiveSources (package : LockedPackage V) : List ArchiveFile → Except (Failure V) (List PackageSource)
  | []            => .ok []
  | file :: files =>
    if extension file.path = some "syl".toList then
      match String.fromUTF8? ⟨file.content.toArray⟩ with
      | none        =>
        .error (.context ("package " ++ package.name ++ " source " ++ file.path ++ " is not UTF-8"))
      | some source => do
        let rest ← archiveSources package files
        return ⟨"dependencies/" ++ package.name ++ "-" ++ libs.showVersion package.version ++ "/" ++ file.path, source⟩ :: rest
    else archiveSources package files

def loadArchive [DecidableEq V] (package : LockedPackage V) (bytes : Bytes) : Except (Failure V) (List PackageSource) :=
  match PackageArchive.fromBytes prims bytes with
  | .error _    => .error (.context ("invalid archive for package " ++ package.name))
  | .ok archive => do
    verifyLockedArchive prims libs package archive
    archiveSources libs package archive.files

/-! ## Loading -/

/-- The directory of a package inside `vendor`. -/
def vendorPackageRoot (package : LockedPackage V) : PathBuf :=
  Paths.components (package.name ++ "-" ++ libs.showVersion package.version)

def metadata : PathBuf := [.normal ".syllog-package".toList]

/-- The bytes of a locked archive, from the vendor directory if there is one. -/
def lockedBytes (ws : Workspace V) (package : LockedPackage V) : Except (Failure V) Bytes :=
  match ws.vendor with
  | some files =>
    match files.get? (vendorPackageRoot libs package ++ metadata) with
    | some bytes => .ok bytes
    | none       => .error (.context ("vendored package " ++ showRelease libs package ++ " is incomplete"))
  | none       =>
    match cacheLoad prims ws.cache package.checksum with
    | .ok bytes => .ok bytes
    | .error _  =>
      .error (.context ("locked package " ++ showRelease libs package ++ " is unavailable in the offline cache"))

def loadPackages [DecidableEq V] (ws : Workspace V) : List (LockedPackage V) → Except (Failure V) (List PackageSource)
  | []                  => .ok []
  | package :: packages => do
    let bytes ← lockedBytes prims libs ws package
    let sources ← loadArchive prims libs package bytes
    let rest ← loadPackages ws packages
    return sources ++ rest

/-- The lock file, read and checked, with at most `fuel` turns of the check's loop. -/
def readLock [DecidableEq V] (fuel : Nat) (ws : Workspace V) (unread : String → Failure V) :
    Option (Except (Failure V) (Resolution V)) :=
  match ws.lockfile with
  | .error reason  => some (.error (unread reason))
  | .ok resolution =>
    if resolution.format ≠ 1 then some (.error (.bail ("unsupported Syllog.lock format " ++ toString resolution.format)))
    else
      match validateLockGraph libs fuel ws.manifest resolution with
      | none              => none
      | some (.error text) => some (.error (.bail text))
      | some (.ok ())     => some (.ok resolution)

/-- `load_locked_dependency_sources`. -/
def loadWithin [DecidableEq V] (fuel : Nat) (ws : Workspace V) : Option (Except (Failure V) (List PackageSource)) :=
  if ws.manifest.dependencies.entries = [] then some (.ok [])
  else
    match readLock libs fuel ws fun _ => .context "dependencies require a valid Syllog.lock" with
    | none                  => none
    | some (.error e)       => some (.error e)
    | some (.ok resolution) => some (loadPackages prims libs ws resolution.packages)

/-! ## Vendoring -/

def writeFile (root : PathBuf) (files : OrdMap PathBuf Bytes) (file : ArchiveFile) : OrdMap PathBuf Bytes :=
  files.insert (root ++ Paths.components file.path) file.content

/-- One package, written into the staging directory. -/
def vendorPackage [DecidableEq V] (ws : Workspace V) (files : OrdMap PathBuf Bytes) (package : LockedPackage V) :
    Except (Failure V) (OrdMap PathBuf Bytes) :=
  match cacheLoad prims ws.cache package.checksum with
  | .error _  => .error (.context ("package " ++ package.name ++ " is unavailable offline"))
  | .ok bytes =>
    match PackageArchive.fromBytes prims bytes with
    | .error e    => .error (.registry e)
    | .ok archive =>
      if archive.name ≠ package.name ∨ archive.version ≠ package.version then
        .error (.bail ("cached archive identity does not match lockfile for " ++ package.name))
      else do
        verifyLockedArchive prims libs package archive
        let root := vendorPackageRoot libs package
        return archive.files.foldl (writeFile root) (files.insert (root ++ metadata) bytes)

def vendorPackages [DecidableEq V] (ws : Workspace V) : OrdMap PathBuf Bytes → List (LockedPackage V) →
    Except (Failure V) (OrdMap PathBuf Bytes)
  | files, []                  => .ok files
  | files, package :: packages => do
    let files ← vendorPackage prims libs ws files package
    vendorPackages ws files packages

/-- `syllog vendor`: the directory it publishes. -/
def vendorWithin [DecidableEq V] (fuel : Nat) (ws : Workspace V) : Option (Except (Failure V) (OrdMap PathBuf Bytes)) :=
  match readLock libs fuel ws .lockfile with
  | none                  => none
  | some (.error e)       => some (.error e)
  | some (.ok resolution) =>
    if ws.vendor.isSome then some (.error (.bail "refusing to overwrite existing vendor directory"))
    else some (vendorPackages prims libs ws .empty resolution.packages)

/-- `load_locked_dependency_sources` returns these sources. -/
def Loads [DecidableEq V] (ws : Workspace V) (sources : List PackageSource) : Prop :=
  ∃ fuel, loadWithin prims libs fuel ws = some (.ok sources)

/-- `syllog vendor` succeeds with this directory. -/
def Vendors [DecidableEq V] (ws : Workspace V) (files : OrdMap PathBuf Bytes) : Prop :=
  ∃ fuel, vendorWithin prims libs fuel ws = some (.ok files)

end

/-! ## Directories of packages -/

/-- What `semver` writes: the major number, a dot, and no slash behind it. -/
def VersionTexts {V Q : Type} (libs : Libraries V Q) : Prop :=
  ∀ version, ∃ major rest, (libs.showVersion version).toList = major ++ '.' :: rest ∧ major.all Registry.isDigit = true ∧
    '/' ∉ rest

theorem append_cons_inj {α : Type} {x : α} : ∀ {a b c d : List α}, a ++ x :: b = c ++ x :: d → x ∉ a → x ∉ c →
    a = c ∧ b = d
  | [], b, [], d, h, _, _ => by simpa using h
  | [], b, y :: c, d, h, _, hc => by simp_all
  | y :: a, b, [], d, h, ha, _ => by simp_all
  | y :: a, b, z :: c, d, h, ha, hc => by
    simp only [List.cons_append, List.cons.injEq] at h
    obtain ⟨rfl, h⟩ := h
    obtain ⟨rfl, rfl⟩ := append_cons_inj h (fun hx => ha (List.mem_cons_of_mem _ hx)) fun hx => hc (List.mem_cons_of_mem _ hx)
    exact ⟨rfl, rfl⟩

theorem not_mem_of_all {p : Char → Bool} {l : List Char} {c : Char} (h : l.all p = true) (hc : p c = false) : c ∉ l := by
  intro hmem
  have := List.all_eq_true.mp h c hmem
  simp [hc] at this

section
variable {V Q : Type} {prims : Primitives V} {libs : Libraries V Q}

theorem validPackageName_chars {name : String} (h : Registry.validPackageName name = true) :
    (∃ c cs, name.toList = c :: cs ∧ Registry.isLowercase c = true) ∧
    name.toList.all (fun c => Registry.isLowercase c || Registry.isDigit c || c = '-') = true := by
  unfold Registry.validPackageName at h
  simp only [Bool.and_eq_true] at h
  obtain ⟨⟨h, -⟩, -⟩ := h
  cases hname : name.toList with
  | nil => simp [hname] at h
  | cons c cs =>
    simp only [hname, Bool.and_eq_true] at h
    refine ⟨⟨c, cs, rfl, h.1⟩, ?_⟩
    simp only [List.all_cons, h.1, h.2, Bool.true_or, Bool.and_self]

/-- The directory name of a package. -/
def directoryName (libs : Libraries V Q) (package : LockedPackage V) : List Char :=
  package.name.toList ++ '-' :: (libs.showVersion package.version).toList

/-- **The directory of a package is one component.** -/
theorem vendorPackageRoot_eq (hversions : VersionTexts libs) {package : LockedPackage V}
    (hname : Registry.validPackageName package.name = true) :
    vendorPackageRoot libs package = [.normal (directoryName libs package)] := by
  obtain ⟨⟨c, cs, hcs, hc⟩, hall⟩ := validPackageName_chars hname
  obtain ⟨major, rest, hversion, hmajor, hrest⟩ := hversions package.version
  have htext : (package.name ++ "-" ++ libs.showVersion package.version).toList = directoryName libs package := by
    simp [directoryName]
  have hslash : '/' ∉ directoryName libs package := by
    unfold directoryName
    rw [hversion]
    have h1 := not_mem_of_all hall (c := '/') (by decide)
    have h2 := not_mem_of_all hmajor (c := '/') (by decide)
    simp [h1, h2, hrest]
  have hhead : directoryName libs package = c :: (cs ++ '-' :: (libs.showVersion package.version).toList) := by
    simp [directoryName, hcs]
  have hdot : c ≠ '.' := by
    rintro rfl
    simp [Registry.isLowercase] at hc
  have hroot : c ≠ '/' := by
    rintro rfl
    simp [Registry.isLowercase] at hc
  unfold vendorPackageRoot Paths.components
  rw [htext, List.splitOn_eq_singleton hslash]
  simp only [hhead, List.head?_cons, Option.some.injEq, if_neg hroot, List.filterMap_nil, List.append_nil]
  rw [if_neg (by simp [hdot])]
  unfold Paths.segment
  split
  · simp_all
  · simp_all
  · simp_all
  · rfl

/-- **Packages of different names have different directories.** -/
theorem directoryName_inj (hversions : VersionTexts libs) {p q : LockedPackage V}
    (hp : Registry.validPackageName p.name = true) (hq : Registry.validPackageName q.name = true)
    (h : directoryName libs p = directoryName libs q) : p.name = q.name := by
  obtain ⟨-, hpall⟩ := validPackageName_chars hp
  obtain ⟨-, hqall⟩ := validPackageName_chars hq
  obtain ⟨pmajor, prest, hpversion, hpmajor, -⟩ := hversions p.version
  obtain ⟨qmajor, qrest, hqversion, hqmajor, -⟩ := hversions q.version
  unfold directoryName at h
  rw [hpversion, hqversion] at h
  -- up to the first dot the two texts are a name, a dash and a number
  have hdot : ∀ {name major : List Char}, name.all (fun c => Registry.isLowercase c || Registry.isDigit c || c = '-') = true →
      major.all Registry.isDigit = true → '.' ∉ name ++ '-' :: major := by
    intro name major hname hmajor
    have h1 := not_mem_of_all hname (c := '.') (by decide)
    have h2 := not_mem_of_all hmajor (c := '.') (by decide)
    simp [h1, h2]
  obtain ⟨hhead, -⟩ := append_cons_inj (x := '.') (a := p.name.toList ++ '-' :: pmajor) (c := q.name.toList ++ '-' :: qmajor)
    (b := prest) (d := qrest) (by simpa using h) (hdot hpall hpmajor) (hdot hqall hqmajor)
  have hrev := congrArg List.reverse hhead
  simp only [List.reverse_append, List.reverse_cons, List.append_assoc, List.cons_append, List.nil_append] at hrev
  have hdash : ∀ {major : List Char}, major.all Registry.isDigit = true → '-' ∉ major.reverse := by
    intro major hmajor
    rw [List.mem_reverse]
    exact not_mem_of_all hmajor (by decide)
  obtain ⟨-, hname⟩ := append_cons_inj hrev (hdash hpmajor) (hdash hqmajor)
  exact String.toList_injective (List.reverse_injective hname)

/-! ## What the directory holds -/

/-- The file of the archive that ends up at a path below the package's directory. -/
def lastAt (files : List ArchiveFile) (path : PathBuf) : Option ArchiveFile :=
  (files.filter fun file => Paths.components file.path = path).getLast?

theorem lastAt_cons (file : ArchiveFile) (files : List ArchiveFile) (path : PathBuf) :
    lastAt (file :: files) path =
      match lastAt files path with
      | some last => some last
      | none      => if Paths.components file.path = path then some file else none := by
  unfold lastAt
  rw [List.filter_cons]
  by_cases h : Paths.components file.path = path
  · simp only [h, decide_true, if_true]
    rw [List.getLast?_cons]
    cases (files.filter fun file => Paths.components file.path = path).getLast? <;> rfl
  · simp only [h, decide_false, Bool.false_eq_true, if_false]
    cases (files.filter fun file => Paths.components file.path = path).getLast? <;> rfl

theorem get?_foldl_writeFile (root path : PathBuf) : ∀ (files : List ArchiveFile) (m : OrdMap PathBuf Bytes),
    (files.foldl (writeFile root) m).get? (root ++ path) =
      match lastAt files path with
      | some last => some last.content
      | none      => m.get? (root ++ path)
  | [], _ => rfl
  | file :: files, m => by
    rw [List.foldl_cons, get?_foldl_writeFile root path files, lastAt_cons]
    cases lastAt files path with
    | some last => rfl
    | none =>
      by_cases h : Paths.components file.path = path
      · simp [writeFile, h]
      · simp [writeFile, h]

/-- Writing below one directory leaves the others alone. -/
theorem get?_foldl_writeFile_other {root other : PathBuf} (hother : ¬ root <+: other) :
    ∀ (files : List ArchiveFile) (m : OrdMap PathBuf Bytes), (files.foldl (writeFile root) m).get? other = m.get? other
  | [], _ => rfl
  | file :: files, m => by
    rw [List.foldl_cons, get?_foldl_writeFile_other hother files]
    have hne : root ++ Paths.components file.path ≠ other := by
      rintro rfl
      exact hother (List.prefix_append _ _)
    simp [writeFile, hne]

/-- The metadata file after the files of the archive were written. -/
def metadataAfter (archive : PackageArchive V) (bytes : Bytes) : Bytes :=
  match lastAt archive.files metadata with
  | some file => file.content
  | none      => bytes

theorem fromBytes_ok {bytes : Bytes} {archive : PackageArchive V} (h : PackageArchive.fromBytes prims bytes = .ok archive) :
    ∃ decoded, prims.decodeArchive bytes = .ok decoded ∧
      PackageArchive.new decoded.name decoded.version decoded.files decoded.dependencies = .ok archive := by
  unfold PackageArchive.fromBytes at h
  cases hdecode : prims.decodeArchive bytes with
  | error reason => simp [hdecode] at h
  | ok decoded => exact ⟨decoded, rfl, by simpa [hdecode] using h⟩

theorem new_ok {name : String} {version : V} {files : List ArchiveFile} {dependencies : OrdMap String String}
    {archive : PackageArchive V} (h : PackageArchive.new name version files dependencies = .ok archive) :
    Registry.validPackageName archive.name = true ∧ archive.files.Perm files := by
  unfold PackageArchive.new at h
  split at h
  · cases h
  · rename_i hname
    split at h
    · cases h
    · split at h
      · cases h
      · cases h
        exact ⟨by simpa using hname, List.perm_insertionSort _ _⟩

variable [DecidableEq V] {ws : Workspace V} {files files' : OrdMap PathBuf Bytes} {package : LockedPackage V}

/-- A locked archive of the cache, as both commands accept it. -/
structure Locked (prims : Primitives V) (libs : Libraries V Q) (ws : Workspace V) (package : LockedPackage V) (bytes : Bytes)
    (archive : PackageArchive V) : Prop where
  cached : cacheLoad prims ws.cache package.checksum = .ok bytes
  decoded : PackageArchive.fromBytes prims bytes = .ok archive
  verified : verifyLockedArchive prims libs package archive = .ok ()

theorem vendorPackage_ok (h : vendorPackage prims libs ws files package = .ok files') :
    ∃ bytes archive, Locked prims libs ws package bytes archive ∧
      files' = archive.files.foldl (writeFile (vendorPackageRoot libs package))
        (files.insert (vendorPackageRoot libs package ++ metadata) bytes) := by
  unfold vendorPackage at h
  cases hcached : cacheLoad prims ws.cache package.checksum with
  | error e => simp [hcached] at h
  | ok bytes =>
    simp only [hcached] at h
    cases hdecoded : PackageArchive.fromBytes prims bytes with
    | error e => simp [hdecoded] at h
    | ok archive =>
      simp only [hdecoded] at h
      split at h
      · cases h
      · obtain ⟨⟨⟩, hverified, h⟩ := Runs.bind_eq_ok h
        cases h
        exact ⟨bytes, archive, ⟨hcached, hdecoded, hverified⟩, rfl⟩

/-- **What one package leaves**: its metadata file, and nothing outside its directory. -/
theorem vendorPackage_writes (h : vendorPackage prims libs ws files package = .ok files') :
    ∃ bytes archive, Locked prims libs ws package bytes archive ∧
      files'.get? (vendorPackageRoot libs package ++ metadata) = some (metadataAfter archive bytes) ∧
      ∀ other, ¬ vendorPackageRoot libs package <+: other → files'.get? other = files.get? other := by
  obtain ⟨bytes, archive, hlocked, rfl⟩ := vendorPackage_ok h
  refine ⟨bytes, archive, hlocked, ?_, fun other hother => ?_⟩
  · rw [get?_foldl_writeFile]
    unfold metadataAfter
    cases lastAt archive.files metadata <;> simp
  · have hne : vendorPackageRoot libs package ++ metadata ≠ other := by
      rintro rfl
      exact hother (List.prefix_append _ _)
    rw [get?_foldl_writeFile_other hother]
    simp [hne]

theorem verifyLockedArchive_ok {archive : PackageArchive V} (h : verifyLockedArchive prims libs package archive = .ok ()) :
    archive.name = package.name ∧ archive.checksum prims = .ok package.checksum := by
  unfold verifyLockedArchive at h
  split at h
  · cases h
  · rename_i hidentity
    rw [not_or, not_not, not_not] at hidentity
    cases hsum : archive.checksum prims with
    | error e => simp [hsum] at h
    | ok actual =>
      simp only [hsum] at h
      split at h
      · cases h
      · rename_i heq
        exact ⟨hidentity.1, by rw [not_not.mp heq]⟩

theorem Locked.validName {bytes : Bytes} {archive : PackageArchive V} (h : Locked prims libs ws package bytes archive) :
    Registry.validPackageName package.name = true := by
  obtain ⟨hname, -⟩ := verifyLockedArchive_ok h.verified
  obtain ⟨decoded, -, hnew⟩ := fromBytes_ok h.decoded
  rw [← hname]
  exact (new_ok hnew).1

/-- **What the packages leave** when their names differ: each its metadata file. -/
theorem vendorPackages_writes (hversions : VersionTexts libs) : ∀ {packages : List (LockedPackage V)}
    {files files' : OrdMap PathBuf Bytes}, (packages.map (·.name)).Nodup →
    vendorPackages prims libs ws files packages = .ok files' →
    (∀ package ∈ packages, ∃ bytes archive, Locked prims libs ws package bytes archive ∧
      files'.get? (vendorPackageRoot libs package ++ metadata) = some (metadataAfter archive bytes)) ∧
    ∀ other, (∀ package ∈ packages, ¬ vendorPackageRoot libs package <+: other) → files'.get? other = files.get? other
  | [], files, files', _, h => by
    cases h
    exact ⟨fun _ hmem => (by cases hmem), fun _ _ => rfl⟩
  | package :: packages, files, files', hnames, h => by
    obtain ⟨files₁, hfirst, hrest⟩ := Runs.bind_eq_ok h
    rw [List.map_cons, List.nodup_cons] at hnames
    obtain ⟨bytes, archive, hlocked, hmetadata, hframe⟩ := vendorPackage_writes hfirst
    obtain ⟨hlater, hframe'⟩ := vendorPackages_writes hversions hnames.2 hrest
    refine ⟨fun q hq => ?_, fun other hother => ?_⟩
    · rcases List.mem_cons.mp hq with rfl | hq
      · refine ⟨bytes, archive, hlocked, ?_⟩
        rw [← hmetadata]
        refine hframe' _ fun r hr hprefix => ?_
        -- the directories are single components that differ
        obtain ⟨_, _, hlocked', -⟩ := hlater r hr
        rw [vendorPackageRoot_eq hversions hlocked.validName, vendorPackageRoot_eq hversions hlocked'.validName] at hprefix
        simp only [List.cons_append, List.nil_append, List.cons_prefix_cons, Component.normal.injEq, List.nil_prefix,
          and_true] at hprefix
        have hname := directoryName_inj hversions hlocked'.validName hlocked.validName hprefix
        exact hnames.1 (hname ▸ List.mem_map_of_mem hr)
      · exact hlater q hq
    · rw [hframe' other fun q hq => hother q (List.mem_cons_of_mem _ hq)]
      exact hframe other (hother package List.mem_cons_self)

/-! ## The two places agree -/

/-- No archive of a locked package has a file where its metadata goes. -/
def Apart (prims : Primitives V) (ws : Workspace V) : Prop :=
  ∀ resolution, ws.lockfile = .ok resolution → ∀ package ∈ resolution.packages, ∀ bytes archive,
    cacheLoad prims ws.cache package.checksum = .ok bytes → PackageArchive.fromBytes prims bytes = .ok archive →
    ∀ file ∈ archive.files, Paths.components file.path ≠ metadata

/-- No two archives have one checksum. -/
def Collisionless (prims : Primitives V) : Prop :=
  ∀ (a b : PackageArchive V) sum, a.checksum prims = .ok sum → b.checksum prims = .ok sum → a = b

/-- An encoded archive is longer than each of its files: JSON writes every byte as a number of its own. -/
def Sized (prims : Primitives V) : Prop :=
  ∀ bytes archive, prims.decodeArchive bytes = .ok archive → ∀ file ∈ archive.files, file.content.length < bytes.length

/-- The lock file is read and accepted. -/
structure Reads (libs : Libraries V Q) (ws : Workspace V) (resolution : Resolution V) : Prop where
  file : ws.lockfile = .ok resolution
  format : resolution.format = 1
  accepted : AcceptsLock libs ws.manifest resolution

theorem readLock_ok {fuel : Nat} {unread : String → Failure V} {resolution : Resolution V}
    (h : readLock libs fuel ws unread = some (.ok resolution)) : Reads libs ws resolution := by
  unfold readLock at h
  cases hfile : ws.lockfile with
  | error reason => simp [hfile] at h
  | ok read =>
    simp only [hfile] at h
    split at h
    · cases h
    · rename_i hformat
      split at h
      · cases h
      · cases h
      · rename_i hgraph
        cases h
        exact ⟨hfile, not_not.mp hformat, fuel, hgraph⟩

theorem Reads.readLock {resolution : Resolution V} (h : Reads libs ws resolution) (unread : String → Failure V) :
    ∃ fuel, Vendor.readLock libs fuel ws unread = some (.ok resolution) := by
  obtain ⟨fuel, hgraph⟩ := h.accepted
  exact ⟨fuel, by simp [Vendor.readLock, h.file, h.format, hgraph]⟩

theorem Reads.unique {resolution resolution' : Resolution V} (h : Reads libs ws resolution) (h' : Reads libs ws resolution') :
    resolution = resolution' := Except.ok.inj (h.file.symm.trans h'.file)

/-- A vendored project: the lock file, its packages and what the directory holds for each of them. -/
theorem vendors_writes (hversions : VersionTexts libs) (h : Vendors prims libs ws files) :
    ws.vendor = none ∧ ∃ resolution, Reads libs ws resolution ∧
      ∀ package ∈ resolution.packages, ∃ bytes archive, Locked prims libs ws package bytes archive ∧
        files.get? (vendorPackageRoot libs package ++ metadata) = some (metadataAfter archive bytes) := by
  obtain ⟨fuel, h⟩ := h
  unfold vendorWithin at h
  cases hread : readLock libs fuel ws .lockfile with
  | none => simp [hread] at h
  | some read =>
    cases read with
    | error e => simp [hread] at h
    | ok resolution =>
      simp only [hread] at h
      split at h
      · cases h
      · rename_i hvendor
        have hreads := readLock_ok hread
        have hnames := (Resolver.acceptsLock_iff.mp hreads.accepted).oneEach
        exact ⟨by simpa using hvendor, resolution, hreads, (vendorPackages_writes hversions hnames (Option.some.inj h)).1⟩

theorem loadPackages_congr {ws ws' : Workspace V} : ∀ {packages : List (LockedPackage V)},
    (∀ package ∈ packages, lockedBytes prims libs ws package = lockedBytes prims libs ws' package) →
    loadPackages prims libs ws packages = loadPackages prims libs ws' packages
  | [], _ => rfl
  | package :: packages, h => by
    unfold loadPackages
    rw [h package List.mem_cons_self, loadPackages_congr fun q hq => h q (List.mem_cons_of_mem _ hq)]

/-- Where loading succeeds, every locked package had its bytes, and they were its archive. -/
theorem loadPackages_ok {ws : Workspace V} : ∀ {packages : List (LockedPackage V)} {sources : List PackageSource},
    loadPackages prims libs ws packages = .ok sources → ∀ package ∈ packages, ∃ bytes archive,
      lockedBytes prims libs ws package = .ok bytes ∧ PackageArchive.fromBytes prims bytes = .ok archive ∧
      verifyLockedArchive prims libs package archive = .ok ()
  | [], _, _, _, hmem => by cases hmem
  | package :: packages, sources, h, q, hq => by
    obtain ⟨bytes, hbytes, h⟩ := Runs.bind_eq_ok h
    obtain ⟨loaded, hloaded, h⟩ := Runs.bind_eq_ok h
    obtain ⟨rest, hrest, -⟩ := Runs.bind_eq_ok h
    rcases List.mem_cons.mp hq with rfl | hq
    · unfold loadArchive at hloaded
      cases hdecoded : PackageArchive.fromBytes prims bytes with
      | error e => simp [hdecoded] at hloaded
      | ok archive =>
        simp only [hdecoded] at hloaded
        obtain ⟨⟨⟩, hverified, -⟩ := Runs.bind_eq_ok hloaded
        exact ⟨bytes, archive, hbytes, hdecoded, hverified⟩
    · exact loadPackages_ok hrest q hq

omit [DecidableEq V] in
theorem metadataAfter_of_apart {archive : PackageArchive V} {bytes : Bytes}
    (h : ∀ file ∈ archive.files, Paths.components file.path ≠ metadata) : metadataAfter archive bytes = bytes := by
  have hnone : lastAt archive.files metadata = none := by
    unfold lastAt
    rw [List.getLast?_eq_none_iff, List.filter_eq_nil_iff]
    intro file hfile
    simpa using h file hfile
  simp [metadataAfter, hnone]

omit [DecidableEq V] in
/-- An archive is not the content of one of its files. -/
theorem apart_of_decoded (hsize : Sized prims) {archive : PackageArchive V} {bytes : Bytes}
    (h : PackageArchive.fromBytes prims (metadataAfter archive bytes) = .ok archive) :
    ∀ file ∈ archive.files, Paths.components file.path ≠ metadata := by
  intro file hfile hpath
  have hmem : file ∈ archive.files.filter fun file => Paths.components file.path = metadata :=
    List.mem_filter.mpr ⟨hfile, by simpa using hpath⟩
  obtain ⟨last, hlast⟩ : ∃ last, lastAt archive.files metadata = some last :=
    ⟨_, List.getLast?_eq_some_getLast (List.ne_nil_of_mem hmem)⟩
  have hin : last ∈ archive.files := List.mem_of_mem_filter (List.mem_of_getLast? hlast)
  obtain ⟨decoded, hdecode, hnew⟩ := fromBytes_ok h
  have hlt := hsize _ decoded hdecode last ((new_ok hnew).2.mem_iff.mp hin)
  simp [metadataAfter, hlast] at hlt

theorem no_package_without_dependencies {manifest : Resolver.Manifest} {resolution : Resolution V}
    (hnone : manifest.dependencies.entries = []) (h : AcceptsLock libs manifest resolution) : resolution.packages = [] := by
  have hneeded : ∀ name, ¬ Resolver.Needed manifest resolution name := by
    intro name hname
    induction hname with
    | direct hmem => simp [OrdMap.keys, hnone] at hmem
    | through _ _ _ ih => exact ih
  by_contra hpackages
  obtain ⟨package, hmem⟩ := List.exists_mem_of_ne_nil _ hpackages
  exact hneeded _ ((Resolver.acceptsLock_iff.mp h).needed package hmem)

/-- **Loading**: nothing without dependencies, else the packages of the accepted lock file in turn. -/
theorem loads_iff {ws : Workspace V} {sources : List PackageSource} : Loads prims libs ws sources ↔
    (ws.manifest.dependencies.entries = [] ∧ sources = []) ∨
    (ws.manifest.dependencies.entries ≠ [] ∧ ∃ resolution, Reads libs ws resolution ∧
      loadPackages prims libs ws resolution.packages = .ok sources) := by
  constructor
  · rintro ⟨fuel, h⟩
    unfold loadWithin at h
    split at h
    · rename_i hnone
      cases h
      exact .inl ⟨hnone, rfl⟩
    · rename_i hsome
      cases hread : readLock libs fuel ws fun _ => .context "dependencies require a valid Syllog.lock" with
      | none => simp [hread] at h
      | some read =>
        cases read with
        | error e => simp [hread] at h
        | ok resolution =>
          simp only [hread, Option.some.injEq] at h
          exact .inr ⟨hsome, resolution, readLock_ok hread, h⟩
  · rintro (⟨hnone, rfl⟩ | ⟨hsome, resolution, hread, h⟩)
    · exact ⟨0, if_pos hnone⟩
    · obtain ⟨fuel, hread⟩ := hread.readLock fun _ => .context "dependencies require a valid Syllog.lock"
      exact ⟨fuel, by simp only [loadWithin, if_neg hsome, hread, h]⟩

/-- **Cache and vendor directory are interchangeable** where no archive has a file in the place of its metadata; and, as long
as SHA-256 tells archives apart, only there. -/
theorem vendored_same {sources : List PackageSource} (hversions : VersionTexts libs) (hload : Loads prims libs ws sources)
    (hvendored : Vendors prims libs ws files) :
    (Apart prims ws → Loads prims libs { ws with vendor := some files } sources) ∧
    (Collisionless prims → Sized prims → Loads prims libs { ws with vendor := some files } sources → Apart prims ws) := by
  obtain ⟨hvendor, resolution, hread, hwrites⟩ := vendors_writes hversions hvendored
  constructor
  · intro hapart
    rcases loads_iff.mp hload with hnone | ⟨hsome, resolution', hread', hload⟩
    · exact loads_iff.mpr (.inl hnone)
    · refine loads_iff.mpr (.inr ⟨hsome, resolution', ⟨hread'.file, hread'.format, hread'.accepted⟩, ?_⟩)
      cases hread.unique hread'
      rw [← hload]
      refine loadPackages_congr fun package hpackage => ?_
      obtain ⟨bytes, archive, hlocked, hget⟩ := hwrites package hpackage
      have hfiles := hapart resolution hread.file package hpackage bytes archive hlocked.cached hlocked.decoded
      rw [metadataAfter_of_apart hfiles] at hget
      simp only [lockedBytes, hget, hvendor, hlocked.cached]
  · intro hcollision hsize hload resolution' hfile package hpackage bytes archive hcached hdecoded
    cases hread.file.symm.trans hfile
    obtain ⟨bytes', archive', hlocked, hget⟩ := hwrites package hpackage
    cases hlocked.cached.symm.trans hcached
    cases hlocked.decoded.symm.trans hdecoded
    rcases loads_iff.mp hload with ⟨hnone, -⟩ | ⟨-, resolution', hread', hload⟩
    · rw [no_package_without_dependencies hnone hread.accepted] at hpackage
      cases hpackage
    · cases hread.file.symm.trans hread'.file
      obtain ⟨found, other, hfound, hother, hverified⟩ := loadPackages_ok hload package hpackage
      simp only [lockedBytes, hget, Except.ok.injEq] at hfound
      subst hfound
      have hsame : other = archive := hcollision _ _ _ (verifyLockedArchive_ok hverified).2
        (verifyLockedArchive_ok hlocked.verified).2
      rw [hsame] at hother
      exact apart_of_decoded hsize hother

end

/-! ## A locked package -/

section
open Registry (Version toolsArchive primitivesFor toolsRequest archiveText)
open Resolver.Sample (semver)

theorem semver_versionTexts : VersionTexts semver := by
  intro version
  have hdigits : ∀ n : Nat, (toString n).toList.all Registry.isDigit = true := by
    intro n
    rw [List.all_eq_true]
    intro c hc
    have hdigit := Nat.isDigit_of_mem_toDigits (by decide) (by decide) (Nat.toList_repr ▸ hc)
    simp only [Char.isDigit, Bool.and_eq_true, decide_eq_true_eq] at hdigit
    simp only [Registry.isDigit, decide_eq_true_eq]
    exact hdigit
  have hslash : ∀ n : Nat, '/' ∉ (toString n).toList := fun n => not_mem_of_all (hdigits n) (by decide)
  refine ⟨(toString (ofLex version).1).toList, (toString (ofLex (ofLex version).2).1).toList ++ '.' ::
    (toString (ofLex (ofLex version).2).2).toList, ?_, hdigits _, ?_⟩
  · simp [semver]
  · intro hmem
    rcases List.mem_append.mp hmem with hmem | hmem
    · exact hslash _ hmem
    · exact hslash _ ((List.mem_cons.mp hmem).resolve_left (by decide))

def toolsPackage (checksum : String) : LockedPackage Version where
  name := "acme-tools"
  version := toLex (1, toLex (0, 0))
  checksum
  dependencies := .empty

/-- A project that depends on `acme-tools`, which is in its cache. -/
def toolsWorkspace (bytes : Bytes) (checksum : String) : Workspace Version where
  manifest := Resolver.Sample.manifest [("acme-tools", "^1")]
  lockfile := .ok ⟨1, [toolsPackage checksum]⟩
  cache := fun key => if key = checksum then some bytes else none
  vendor := none

/-- The libraries on that archive. -/
def toolsPrimitives (files : List ArchiveFile) (bytes : Bytes) (checksum : String) : Primitives Version :=
  primitivesFor (toolsRequest files checksum []) bytes []

theorem tools_locked {files : List ArchiveFile} {bytes : Bytes} {checksum : String} (hkey : validKey checksum = true)
    (hnew : Registry.WellFormed (toolsArchive files)) :
    Locked (toolsPrimitives files bytes checksum) semver (toolsWorkspace bytes checksum) (toolsPackage checksum) bytes
      (toolsArchive files) where
  cached := by simp [cacheLoad, hkey, toolsWorkspace, toolsPackage, toolsPrimitives, primitivesFor, toolsRequest]
  decoded := by
    simp only [PackageArchive.fromBytes, toolsPrimitives, primitivesFor, if_true, toolsRequest]
    exact (Registry.new_eq_self_iff _).mpr hnew
  verified := by
    simp [verifyLockedArchive, toolsArchive, toolsPackage, PackageArchive.checksum, PackageArchive.canonicalBytes,
      toolsPrimitives, primitivesFor, toolsRequest, OrdMap.keys, OrdMap.empty]
    rfl

theorem tools_reads (bytes : Bytes) (checksum : String) :
    Reads semver (toolsWorkspace bytes checksum) ⟨1, [toolsPackage checksum]⟩ := ⟨rfl, rfl, 5, by rfl⟩

def libFile : ArchiveFile := ⟨"src/lib.syl", []⟩

def libSources : List PackageSource := [⟨"dependencies/acme-tools-1.0.0/src/lib.syl", ""⟩]

def plainBytes : Bytes := (archiveText "\x7b\"path\":\"src/lib.syl\",\"content\":[]\x7d").toUTF8.data.toList

def plainChecksum : String := "aa822e54e697e77926145e28f379282b070ba48478419aecdf695f7517e27c4a"

theorem tools_loads {files : List ArchiveFile} {bytes : Bytes} {checksum : String}
    (hlocked : Locked (toolsPrimitives files bytes checksum) semver (toolsWorkspace bytes checksum) (toolsPackage checksum) bytes
      (toolsArchive files)) {sources : List PackageSource}
    (hsources : archiveSources semver (toolsPackage checksum) files = .ok sources) :
    Loads (toolsPrimitives files bytes checksum) semver (toolsWorkspace bytes checksum) sources := by
  refine loads_iff.mpr (.inr ⟨List.cons_ne_nil _ _, _, tools_reads bytes checksum, ?_⟩)
  have hbytes : lockedBytes (toolsPrimitives files bytes checksum) semver (toolsWorkspace bytes checksum)
      (toolsPackage checksum) = .ok bytes := by
    show (match cacheLoad _ _ _ with | .ok bytes => _ | .error _ => _) = _
    rw [hlocked.cached]
  have hfiles : (toolsArchive files).files = files := rfl
  simp [loadPackages, hbytes, loadArchive, hlocked.decoded, hlocked.verified, hfiles, hsources, bind, Except.bind, pure,
    Except.pure]

/-- The directory after `acme-tools` was vendored. -/
def toolsVendored (files : List ArchiveFile) (bytes : Bytes) (checksum : String) : OrdMap PathBuf Bytes :=
  files.foldl (writeFile (vendorPackageRoot semver (toolsPackage checksum)))
    (OrdMap.empty.insert (vendorPackageRoot semver (toolsPackage checksum) ++ metadata) bytes)

theorem tools_vendors {files : List ArchiveFile} {bytes : Bytes} {checksum : String}
    (hlocked : Locked (toolsPrimitives files bytes checksum) semver (toolsWorkspace bytes checksum) (toolsPackage checksum) bytes
      (toolsArchive files)) :
    Vendors (toolsPrimitives files bytes checksum) semver (toolsWorkspace bytes checksum)
      (toolsVendored files bytes checksum) := by
  obtain ⟨fuel, hread⟩ := (tools_reads bytes checksum).readLock .lockfile
  have hsame : ¬ ((toolsArchive files).name ≠ (toolsPackage checksum).name ∨
      (toolsArchive files).version ≠ (toolsPackage checksum).version) := by
    simp [toolsArchive, toolsPackage]
  have hvendor : (toolsWorkspace bytes checksum).vendor = none := rfl
  refine ⟨fuel, ?_⟩
  simp [vendorWithin, hread, hvendor, vendorPackages, vendorPackage, hlocked.cached, hlocked.decoded, hlocked.verified, if_neg hsame,
    bind, Except.bind, pure, Except.pure]
  rfl

/-- One source: cached and vendored it loads alike. -/
theorem plain_vendored_same :
    Loads (toolsPrimitives [libFile] plainBytes plainChecksum) semver
      { toolsWorkspace plainBytes plainChecksum with vendor := some (toolsVendored [libFile] plainBytes plainChecksum) }
      libSources := by
  have hlocked := @tools_locked [libFile] plainBytes plainChecksum (by decide) ((Registry.new_eq_self_iff _).mp rfl)
  refine (vendored_same semver_versionTexts (tools_loads hlocked rfl) (tools_vendors hlocked)).1 ?_
  intro resolution hfile package hpackage bytes archive hcached hdecoded
  cases hfile
  cases List.mem_singleton.mp hpackage
  cases hlocked.cached.symm.trans hcached
  cases hlocked.decoded.symm.trans hdecoded
  decide

def strayFile : ArchiveFile := ⟨".syllog-package", []⟩

def strayBytes : Bytes := (archiveText ("\x7b\"path\":\".syllog-package\",\"content\":[]\x7d," ++
  "\x7b\"path\":\"src/lib.syl\",\"content\":[]\x7d")).toUTF8.data.toList

def strayChecksum : String := "2a8926c03166594ebbc42cc81fc415017d7eec43b1795b4b7ae672d4d43e1b70"

/-- An empty file named like the metadata: the cached package loads, it is vendored, and then it does not load. -/
theorem stray_vendored_differs :
    Loads (toolsPrimitives [strayFile, libFile] strayBytes strayChecksum) semver (toolsWorkspace strayBytes strayChecksum)
      libSources ∧
    Vendors (toolsPrimitives [strayFile, libFile] strayBytes strayChecksum) semver (toolsWorkspace strayBytes strayChecksum)
      (toolsVendored [strayFile, libFile] strayBytes strayChecksum) ∧
    ¬ Loads (toolsPrimitives [strayFile, libFile] strayBytes strayChecksum) semver
      { toolsWorkspace strayBytes strayChecksum with
        vendor := some (toolsVendored [strayFile, libFile] strayBytes strayChecksum) } libSources := by
  have hlocked := @tools_locked [strayFile, libFile] strayBytes strayChecksum (by decide)
    ((Registry.new_eq_self_iff _).mp rfl)
  refine ⟨tools_loads hlocked rfl, tools_vendors hlocked, fun hload => ?_⟩
  rcases loads_iff.mp hload with ⟨-, hnone⟩ | ⟨-, resolution, hread, hpackages⟩
  · exact absurd hnone (by decide)
  · cases hread.file
    obtain ⟨bytes, archive, hbytes, hdecoded, -⟩ := loadPackages_ok hpackages _ List.mem_cons_self
    -- what is read back is the empty file
    have hempty : (toolsVendored [strayFile, libFile] strayBytes strayChecksum).get?
        (vendorPackageRoot semver (toolsPackage strayChecksum) ++ metadata) = some [] := by
      unfold toolsVendored
      rw [get?_foldl_writeFile]
      rfl
    have hread : lockedBytes (toolsPrimitives [strayFile, libFile] strayBytes strayChecksum) semver
        { toolsWorkspace strayBytes strayChecksum with
          vendor := some (toolsVendored [strayFile, libFile] strayBytes strayChecksum) } (toolsPackage strayChecksum) =
        .ok [] := by
      simp only [lockedBytes, hempty]
    cases hread.symm.trans hbytes
    obtain ⟨decoded, hdecode, -⟩ := fromBytes_ok hdecoded
    have hne : ([] : Bytes) ≠ strayBytes := by decide
    simp [toolsPrimitives, primitivesFor, hne] at hdecode

end

end Vendor
end Syllog
