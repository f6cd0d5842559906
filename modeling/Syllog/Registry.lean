import Syllog.OrdMap
import Syllog.Paths
import Mathlib.Data.Prod.Lex
import Mathlib.Data.String.Basic
import Mathlib.Data.Finset.Insert
import Mathlib.Data.List.Infix
/-!
# Registry — signed publication into an immutable store

`syllog-registry-client`: package archives and their validation, publication requests, and the local registry with its
authorized keys, used nonces and stored releases.  JSON encoding, SHA-256 and Ed25519 are the fields of `Primitives`;
versions are any ordered type.
-/
namespace Syllog
namespace Registry

abbrev Bytes := List UInt8

/-- A public key, `[u8; 32]`. -/
abbrev Key := Vector UInt8 32

def protocolVersion : UInt32 := 1

structure ArchiveFile where
  path : String
  content : Bytes
deriving DecidableEq, Repr

section
variable (V : Type)

structure PackageArchive where
  name : String
  version : V
  files : List ArchiveFile
  dependencies : OrdMap String String
deriving DecidableEq

/-- The fields a signature covers. -/
structure Unsigned where
  protocolVersion : UInt32
  namespace_ : String
  publisherKey : Key
  nonce : String
  checksum : String
  archive : PackageArchive V
deriving DecidableEq

structure PublishRequest extends Unsigned V where
  signature : Bytes

structure PublishReceipt where
  name : String
  version : V
  checksum : String

inductive RegistryError where
  | protocolVersion (found : UInt32)
  | invalidPackageName (name : String)
  | emptyArchive
  | unsafeArchivePath (package : String) (version : V) (path : String)
  | duplicateArchivePath (path : String)
  | encoding (reason : String)
  | checksumMismatch (expected actual : String)
  | namespaceMismatch (namespace_ package : String)
  | unauthorized (namespace_ : String)
  | replay (namespace_ nonce : String)
  | immutableVersion (package : String) (version : V)
  | invalidSignature (package : String)
  | notFound (package : String) (version : V)

/-- The libraries behind the protocol. -/
structure Primitives where
  encodeArchive : PackageArchive V → Except String Bytes
  decodeArchive : Bytes → Except String (PackageArchive V)
  encodeUnsigned : Unsigned V → Except String Bytes
  /-- The lowercase hexadecimal SHA-256 digest. -/
  digest : Bytes → String
  /-- The bytes are a point of the curve. -/
  isVerifyingKey : Key → Bool
  /-- The bytes have the shape of a signature. -/
  isSignature : Bytes → Bool
  verify : Key → Bytes → Bytes → Bool

end

variable {V : Type}

/-! ## Archives -/

def isLowercase (c : Char) : Bool := 'a' ≤ c ∧ c ≤ 'z'

def isDigit (c : Char) : Bool := '0' ≤ c ∧ c ≤ '9'

/-- `validate_package_name` accepts. -/
def validPackageName (name : String) : Bool :=
  (match name.toList with
    | []      => false
    | c :: cs => isLowercase c && cs.all fun c => isLowercase c || isDigit c || c = '-') &&
  !decide (name.toList.getLast? = some '-') && !decide (['-', '-'] <:+: name.toList)

/-- `validate_archive_path` accepts. -/
def portablePath (path : String) : Bool :=
  !path.isEmpty && !path.toList.contains '\\' && !path.toList.contains ':' &&
  (Paths.components path).all Paths.Component.isNormal

/-- The paths in archive order, each portable and new. -/
def checkPaths (package : String) (version : V) : List String → List String → Except (RegistryError V) Unit
  | _, []           => .ok ()
  | seen, path :: paths =>
    if portablePath path = false then .error (.unsafeArchivePath package version path)
    else if path ∈ seen then .error (.duplicateArchivePath path)
    else checkPaths package version (path :: seen) paths

def sortFiles (files : List ArchiveFile) : List ArchiveFile := files.insertionSort (fun a b => a.path ≤ b.path)

def PackageArchive.new (name : String) (version : V) (files : List ArchiveFile) (dependencies : OrdMap String String) :
    Except (RegistryError V) (PackageArchive V) :=
  if validPackageName name = false then .error (.invalidPackageName name)
  else if files = [] then .error .emptyArchive
  else
    match checkPaths name version [] ((sortFiles files).map (·.path)) with
    | .error e => .error e
    | .ok _    => .ok { name, version, files := sortFiles files, dependencies }

variable (prims : Primitives V)

def PackageArchive.canonicalBytes (a : PackageArchive V) : Except (RegistryError V) Bytes :=
  match prims.encodeArchive a with
  | .ok bytes     => .ok bytes
  | .error reason => .error (.encoding reason)

def PackageArchive.checksum (a : PackageArchive V) : Except (RegistryError V) String :=
  match a.canonicalBytes prims with
  | .ok bytes => .ok (prims.digest bytes)
  | .error e  => .error e

def PackageArchive.fromBytes (bytes : Bytes) : Except (RegistryError V) (PackageArchive V) :=
  match prims.decodeArchive bytes with
  | .error reason => .error (.encoding reason)
  | .ok decoded   => PackageArchive.new decoded.name decoded.version decoded.files decoded.dependencies

def PublishRequest.signingBytes (request : PublishRequest V) : Except (RegistryError V) Bytes :=
  match prims.encodeUnsigned request.toUnsigned with
  | .ok bytes     => .ok bytes
  | .error reason => .error (.encoding reason)

/-! ## The registry -/

structure StoredRelease (V : Type) where
  archive : PackageArchive V
  yanked : Bool

structure LocalRegistry (V : Type) [LinearOrder V] where
  authorized : OrdMap String (Finset Key)
  usedNonces : Finset (String × String)
  releases : OrdMap (String ×ₗ V) (StoredRelease V)

variable [LinearOrder V]

def releaseKey (name : String) (version : V) : String ×ₗ V := toLex (name, version)

def PublishRequest.nonceKey (request : PublishRequest V) : String × String := (request.namespace_, request.nonce)

def PublishRequest.releaseKey (request : PublishRequest V) : String ×ₗ V :=
  Registry.releaseKey request.archive.name request.archive.version

/-- The package is the namespace, or starts with it and a dash. -/
def ownsName (namespace_ package : String) : Bool :=
  package = namespace_ || (namespace_ ++ "-").toList.isPrefixOf package.toList

namespace LocalRegistry

def new : LocalRegistry V := { authorized := .empty, usedNonces := ∅, releases := .empty }

def keysOf (r : LocalRegistry V) (namespace_ : String) : Finset Key := (r.authorized.get? namespace_).getD ∅

def authorize (r : LocalRegistry V) (namespace_ : String) (key : Key) : LocalRegistry V :=
  { r with authorized := r.authorized.insert namespace_ (insert key (r.keysOf namespace_)) }

/-- The last two lines of `publish`: the nonce is used and the release is stored. -/
def store (r : LocalRegistry V) (request : PublishRequest V) : LocalRegistry V :=
  { r with
    usedNonces := insert request.nonceKey r.usedNonces
    releases := r.releases.insert request.releaseKey { archive := request.archive, yanked := false } }

def publish (r : LocalRegistry V) (request : PublishRequest V) :
    LocalRegistry V × Except (RegistryError V) (PublishReceipt V) :=
  if request.protocolVersion ≠ protocolVersion then (r, .error (.protocolVersion request.protocolVersion)) else
  match request.archive.checksum prims with
  | .error e => (r, .error e)
  | .ok actual =>
  if actual ≠ request.checksum then (r, .error (.checksumMismatch request.checksum actual)) else
  if ownsName request.namespace_ request.archive.name = false then
    (r, .error (.namespaceMismatch request.namespace_ request.archive.name)) else
  if request.publisherKey ∉ r.keysOf request.namespace_ then (r, .error (.unauthorized request.namespace_)) else
  if request.nonceKey ∈ r.usedNonces then (r, .error (.replay request.namespace_ request.nonce)) else
  if r.releases.contains request.releaseKey then
    (r, .error (.immutableVersion request.archive.name request.archive.version)) else
  if prims.isVerifyingKey request.publisherKey = false then (r, .error (.invalidSignature request.archive.name)) else
  if prims.isSignature request.signature = false then (r, .error (.invalidSignature request.archive.name)) else
  match request.signingBytes prims with
  | .error e => (r, .error e)
  | .ok bytes =>
  if prims.verify request.publisherKey bytes request.signature = false then
    (r, .error (.invalidSignature request.archive.name)) else
  (r.store request, .ok ⟨request.archive.name, request.archive.version, request.checksum⟩)

def download (r : LocalRegistry V) (name : String) (version : V) : Except (RegistryError V) (PackageArchive V) :=
  match r.releases.get? (releaseKey name version) with
  | some stored => .ok stored.archive
  | none        => .error (.notFound name version)

def yank (r : LocalRegistry V) (name : String) (version : V) : LocalRegistry V × Except (RegistryError V) Unit :=
  match r.releases.get? (releaseKey name version) with
  | some stored =>
    ({ r with releases := r.releases.insert (releaseKey name version) { stored with yanked := true } }, .ok ())
  | none        => (r, .error (.notFound name version))

def isYanked (r : LocalRegistry V) (name : String) (version : V) : Except (RegistryError V) Bool :=
  match r.releases.get? (releaseKey name version) with
  | some stored => .ok stored.yanked
  | none        => .error (.notFound name version)

end LocalRegistry

/-! ## Histories -/

inductive Operation (V : Type) where
  | authorize (namespace_ : String) (key : Key)
  | publish (request : PublishRequest V)
  | yank (name : String) (version : V)
  | download (name : String) (version : V)
  | isYanked (name : String) (version : V)

inductive Reply (V : Type) where
  | authorized
  | published (receipt : PublishReceipt V)
  | yanked
  | downloaded (archive : PackageArchive V)
  | yankedFlag (yanked : Bool)

def LocalRegistry.apply (r : LocalRegistry V) : Operation V → LocalRegistry V × Except (RegistryError V) (Reply V)
  | .authorize namespace_ key => (r.authorize namespace_ key, .ok .authorized)
  | .publish request          => ((r.publish prims request).1, (r.publish prims request).2.map .published)
  | .yank name version        => ((r.yank name version).1, (r.yank name version).2.map fun _ => .yanked)
  | .download name version    => (r, (r.download name version).map .downloaded)
  | .isYanked name version    => (r, (r.isYanked name version).map .yankedFlag)

/-- The registry after a history. -/
def LocalRegistry.after (r : LocalRegistry V) (ops : List (Operation V)) : LocalRegistry V :=
  ops.foldl (fun r op => (r.apply prims op).1) r

/-- The requests of a history that were published, in order. -/
def published (r : LocalRegistry V) : List (Operation V) → List (PublishRequest V)
  | []                       => []
  | .publish request :: ops  =>
    match (r.publish prims request).2 with
    | .ok _    => request :: published (r.publish prims request).1 ops
    | .error _ => published (r.publish prims request).1 ops
  | op :: ops                => published (r.apply prims op).1 ops

end Registry
end Syllog
