import Syllog.Vendor
import Mathlib.Data.List.Infix
/-!
# Download — archives in parts

`download_resumable` of the registry client: the bytes of an earlier attempt stay in a file beside the destination, the request
asks for those behind them, and a file that has the checksum and is the archive is renamed to the destination.  The disk and
the server are values.

An attempt that fails leaves its bytes.  So a call finishes when they are the front of the archive, and no call ever does when
they are as long as the archive or a part of something else (`recovers_iff`).
-/
namespace Syllog
namespace Download

open Registry (PackageArchive Primitives RegistryError)
open Vendor (validKey)

abbrev Bytes := List UInt8

/-! ## The server and the disk -/

structure Request where
  url : String
  authorization : String
  range : Option String

structure Response where
  status : Nat
  contentRange : Option String
  body : List (Except String Bytes)

abbrev Server := Request → Except String Response

/-- The files by their paths. -/
abbrev Disk := String → Option Bytes

def Disk.write (disk : Disk) (path : String) (content : Bytes) : Disk := Function.update disk path (some content)

def Disk.rename (disk : Disk) (source target : String) : Disk := Function.update (Function.update disk target (disk source)) source none

inductive RegistryTransportError (V : Type) where
  | configuration (reason : String)
  | http (reason : String)
  /-- The message is the text of these bytes. -/
  | status (status : Nat) (message : Bytes)
  | invalidRange (expected : Nat) (received : Option String)
  | checksum (expected actual : String)
  | integrity (reason : String)
  | archive (error : RegistryError V)

structure HttpRegistryClient (V : Type) where
  prims : Primitives V
  showVersion : V → String
  baseUrl : String
  credential : String

variable {V : Type}

def partialPath (destination : String) : String := destination ++ ".part"

/-! ## Responses -/

def Response.isSuccess (response : Response) : Bool := 200 ≤ response.status ∧ response.status < 300

/-- The first 4096 bytes of a body, up to its fault. -/
def bounded : Bytes → List (Except String Bytes) → Bytes
  | bytes, []                  => bytes
  | bytes, .error _ :: _       => bytes
  | bytes, .ok chunk :: chunks => if bytes.length < 4096 then bounded (bytes ++ chunk.take (4096 - bytes.length)) chunks else bytes

def statusError (response : Response) : RegistryTransportError V :=
  let bytes := bounded [] response.body
  .status response.status (if bytes = [] then "unreadable or empty response".toUTF8.data.toList else bytes)

/-- The chunks behind what a file holds, up to a fault. -/
def writeChunks : Bytes → List (Except String Bytes) → Bytes × Except (RegistryTransportError V) Unit
  | file, []                  => (file, .ok ())
  | file, .error reason :: _  => (file, .error (.http reason))
  | file, .ok chunk :: chunks => writeChunks (file ++ chunk) chunks

def writeResponse (disk : Disk) (part : String) (response : Response) (append : Bool) :
    Disk × Except (RegistryTransportError V) Unit :=
  let start := if append then (disk part).getD [] else []
  ((disk.write part (writeChunks (V := V) start response.body).1), (writeChunks start response.body).2)

/-! ## Downloading -/

section
variable (client : HttpRegistryClient V) [DecidableEq V] (name : String) (version : V) (checksum : String)

/-- `verify_partial`, on what it reads. -/
def verifyPartial (bytes : Bytes) : Except (RegistryTransportError V) (PackageArchive V) :=
  if client.prims.digest bytes ≠ checksum then .error (.checksum checksum (client.prims.digest bytes))
  else
    match PackageArchive.fromBytes client.prims bytes with
    | .error e    => .error (.archive e)
    | .ok archive =>
      if archive.name ≠ name ∨ archive.version ≠ version then
        .error (.integrity "downloaded archive identity does not match request")
      else .ok archive

def archiveUrl : String := s!"{client.baseUrl}/v1/packages/{name}/{client.showVersion version}/archive"

def authorization : String := s!"Bearer {client.credential}"

def rangeFrom (offset : Nat) : String := s!"bytes={offset}-"

def request (offset : Nat) : Request where
  url := archiveUrl client name version
  authorization := authorization client
  range := if 0 < offset then some (rangeFrom offset) else none

variable (destination : String) (server : Server)

def downloadResumable (disk : Disk) : Except (RegistryTransportError V) (PackageArchive V) × Disk :=
  if Registry.validPackageName name = false then (.error (.configuration s!"invalid package name '{name}'"), disk)
  else if validKey checksum = false then
    (.error (.configuration "package checksum must be 64 lowercase hexadecimal characters"), disk)
  else
    let part := partialPath destination
    let offset := ((disk part).getD []).length
    match server (request client name version offset) with
    | .error reason => (.error (.http reason), disk)
    | .ok response  =>
      if response.isSuccess = false then (.error (statusError response), disk)
      else
        let append := decide (0 < offset ∧ response.status = 206)
        let matching := response.contentRange.any fun value => s!"bytes {offset}-".toList.isPrefixOf value.toList
        if append ∧ ¬ matching then (.error (.invalidRange offset response.contentRange), disk)
        else
          match writeResponse disk part response append with
          | (disk, .error e) => (.error e, disk)
          | (disk, .ok ())   =>
            match verifyPartial client name version checksum ((disk part).getD []) with
            | .error e    => (.error e, disk)
            | .ok archive => (.ok archive, disk.rename part destination)

end

/-! ## One call -/

section
variable (client : HttpRegistryClient V) [DecidableEq V] (name : String) (version : V) (checksum : String)

/-- Bytes with the requested digest that decode to the requested archive. -/
def Requested (bytes : Bytes) : Prop :=
  client.prims.digest bytes = checksum ∧
    ∃ archive, PackageArchive.fromBytes client.prims bytes = .ok archive ∧ archive.name = name ∧ archive.version = version

variable {client name version checksum} {destination : String} {disk disk' : Disk}

theorem verifyPartial_ok {bytes : Bytes} {archive : PackageArchive V}
    (h : verifyPartial client name version checksum bytes = .ok archive) : Requested client name version checksum bytes := by
  unfold verifyPartial at h
  split at h
  · cases h
  · rename_i hdigest
    split at h
    · cases h
    · rename_i decoded hdecoded
      split at h
      · cases h
      · rename_i hidentity
        rw [not_or, not_not, not_not] at hidentity
        exact ⟨not_not.mp hdigest, decoded, hdecoded, hidentity⟩

theorem verifyPartial_of_requested {bytes : Bytes} (h : Requested client name version checksum bytes) :
    ∃ archive, verifyPartial client name version checksum bytes = .ok archive := by
  obtain ⟨hdigest, archive, hdecoded, hname, hversion⟩ := h
  refine ⟨archive, ?_⟩
  unfold verifyPartial
  rw [if_neg (not_not.mpr hdigest), hdecoded]
  exact if_neg (by simp [hname, hversion])

theorem partialPath_ne (destination : String) : destination ≠ partialPath destination := by
  intro h
  have hsize := congrArg String.utf8ByteSize h
  have hpart : ".part".utf8ByteSize = 5 := by decide
  rw [partialPath, String.utf8ByteSize_append] at hsize
  omega

theorem rename_part (disk : Disk) (file : Bytes) :
    ((disk.write (partialPath destination) file).rename (partialPath destination) destination) destination = some file := by
  unfold Disk.rename Disk.write
  rw [Function.update_of_ne (partialPath_ne destination), Function.update_self, Function.update_self]

/-- **Whatever the server answers, what is delivered is what was requested.** -/
theorem downloadResumable_ok {server : Server} {archive : PackageArchive V}
    (h : downloadResumable client name version checksum destination server disk = (.ok archive, disk')) :
    ∃ bytes, disk' destination = some bytes ∧ Requested client name version checksum bytes := by
  unfold downloadResumable at h
  split at h
  · cases h
  split at h
  · cases h
  dsimp only at h
  split at h
  · cases h
  split at h
  · cases h
  split at h
  · cases h
  split at h
  · cases h
  · rename_i written hwritten
    unfold writeResponse at hwritten
    obtain ⟨rfl, -⟩ := Prod.mk.inj hwritten
    split at h
    · cases h
    · rename_i verified hverified
      cases h
      rw [Disk.write, Function.update_self, Option.getD_some] at hverified
      exact ⟨_, rename_part disk _, verifyPartial_ok hverified⟩

end

theorem writeChunks_ok : ∀ (chunks : List Bytes) (file : Bytes),
    writeChunks (V := V) file (chunks.map .ok) = (file ++ chunks.flatten, .ok ())
  | [], file => by simp [writeChunks]
  | chunk :: chunks, file => by
    rw [List.map_cons, writeChunks, writeChunks_ok chunks, List.flatten_cons, List.append_assoc]

/-! ## An honest server -/

/-- A body that brings these bytes, in whatever chunks. -/
def Brings (body : List (Except String Bytes)) (bytes : Bytes) : Prop :=
  ∃ chunks : List Bytes, body = chunks.map .ok ∧ chunks.flatten = bytes

/-- A server that holds these bytes and honours ranges. -/
structure Honest (server : Server) (url authorization : String) (archive : Bytes) : Prop where
  whole : ∃ response, server ⟨url, authorization, none⟩ = .ok response ∧ response.status = 200 ∧ Brings response.body archive
  inside : ∀ offset, 0 < offset → offset < archive.length →
    ∃ response, server ⟨url, authorization, some (rangeFrom offset)⟩ = .ok response ∧ response.status = 206 ∧
      response.contentRange = some s!"bytes {offset}-{archive.length - 1}/{archive.length}" ∧
      Brings response.body (archive.drop offset)
  outside : ∀ offset, 0 < offset → archive.length ≤ offset →
    ∃ response, server ⟨url, authorization, some (rangeFrom offset)⟩ = .ok response ∧ response.status = 416

section
variable (client : HttpRegistryClient V) [DecidableEq V] (name : String) (version : V) (checksum : String)

/-- The archive that is requested, under a checksum that has the shape of one. -/
structure Offered (archive : Bytes) : Prop where
  key : validKey checksum = true
  requested : Requested client name version checksum archive

variable (destination : String)

/-- What follows when the part file has come to hold `file`. -/
def settle (disk : Disk) (file : Bytes) : Except (RegistryTransportError V) (PackageArchive V) × Disk :=
  match verifyPartial client name version checksum file with
  | .error e    => (.error e, disk.write (partialPath destination) file)
  | .ok archive => (.ok archive, (disk.write (partialPath destination) file).rename (partialPath destination) destination)

variable {client name version checksum destination} {server : Server} {disk : Disk} {archive : Bytes}

omit [DecidableEq V] in
theorem Offered.name_valid (h : Offered client name version checksum archive) : Registry.validPackageName name = true := by
  obtain ⟨-, -, decoded, hdecoded, rfl, -⟩ := h
  obtain ⟨_, -, hnew⟩ := Vendor.fromBytes_ok hdecoded
  exact (Vendor.new_ok hnew).1

/-- Nothing is held: the whole archive is written. -/
theorem downloadResumable_whole (hoffered : Offered client name version checksum archive)
    (hserver : Honest server (archiveUrl client name version) (authorization client) archive)
    (hheld : (disk (partialPath destination)).getD [] = []) :
    downloadResumable client name version checksum destination server disk =
      settle client name version checksum destination disk archive := by
  obtain ⟨response, hanswer, hstatus, chunks, hbody, rfl⟩ := hserver.whole
  have hrequest : request client name version 0 = ⟨archiveUrl client name version, authorization client, none⟩ := rfl
  have hsuccess : response.isSuccess = true := by simp [Response.isSuccess, hstatus]
  simp [downloadResumable, hoffered.name_valid, hoffered.key, hheld, hrequest, hanswer, hsuccess, writeResponse, hbody,
    writeChunks_ok, settle, Disk.write]

/-- A part is held: the archive behind its length is written behind it. -/
theorem downloadResumable_inside (hoffered : Offered client name version checksum archive)
    (hserver : Honest server (archiveUrl client name version) (authorization client) archive) {held : Bytes}
    (hheld : (disk (partialPath destination)).getD [] = held) (hpos : 0 < held.length) (hlt : held.length < archive.length) :
    downloadResumable client name version checksum destination server disk =
      settle client name version checksum destination disk (held ++ archive.drop held.length) := by
  obtain ⟨response, hanswer, hstatus, hrange, chunks, hbody, hchunks⟩ := hserver.inside held.length hpos hlt
  have hrequest : request client name version held.length =
      ⟨archiveUrl client name version, authorization client, some (rangeFrom held.length)⟩ := by
    rw [request, if_pos hpos]
  have hsuccess : response.isSuccess = true := by simp [Response.isSuccess, hstatus]
  have hmatching : (s!"bytes {held.length}-").toList.isPrefixOf
      (s!"bytes {held.length}-{archive.length - 1}/{archive.length}").toList = true := by
    rw [List.isPrefixOf_iff_prefix]
    simp [toString]
  simp only [downloadResumable, hoffered.name_valid, hoffered.key, hheld, hrequest, hanswer, hsuccess, hrange, Option.any_some,
    hmatching, writeResponse, hbody, writeChunks_ok, hchunks, settle, Disk.write, hstatus, hpos]
  simp

/-- As much as the archive is held: nothing is written. -/
theorem downloadResumable_outside (hoffered : Offered client name version checksum archive)
    (hserver : Honest server (archiveUrl client name version) (authorization client) archive) {held : Bytes}
    (hheld : (disk (partialPath destination)).getD [] = held) (hpos : 0 < held.length) (hle : archive.length ≤ held.length) :
    ∃ e, downloadResumable client name version checksum destination server disk = (.error e, disk) := by
  obtain ⟨response, hanswer, hstatus⟩ := hserver.outside held.length hpos hle
  have hrequest : request client name version held.length =
      ⟨archiveUrl client name version, authorization client, some (rangeFrom held.length)⟩ := by
    rw [request, if_pos hpos]
  have hsuccess : response.isSuccess = false := by simp [Response.isSuccess, hstatus]
  refine ⟨statusError response, ?_⟩
  simp [downloadResumable, hoffered.name_valid, hoffered.key, hheld, hrequest, hanswer, hsuccess]

end

/-! ## Call after call -/

section
variable (client : HttpRegistryClient V) [DecidableEq V] (name : String) (version : V) (checksum destination : String)
  (servers : Nat → Server)

/-- The disk after some calls, each with its own answers. -/
def after (disk : Disk) : Nat → Disk
  | 0     => disk
  | n + 1 => (downloadResumable client name version checksum destination (servers n) (after disk n)).2

/-- What the call after these returns. -/
def attempt (disk : Disk) (n : Nat) : Except (RegistryTransportError V) (PackageArchive V) :=
  (downloadResumable client name version checksum destination (servers n)
    (after client name version checksum destination servers disk n)).1

/-- One of two calls returns the archive. -/
def Recovers (disk : Disk) : Prop :=
  ∃ n < 2, ∃ archive, attempt client name version checksum destination servers disk n = .ok archive

/-- Every call that returns an archive leaves its bytes at the destination. -/
def Delivers : Prop :=
  ∀ server disk disk' archive, downloadResumable client name version checksum destination server disk = (.ok archive, disk') →
    ∃ bytes, disk' destination = some bytes ∧ Requested client name version checksum bytes

/-- Nothing is held, or a part that the archive behind its length completes to what was requested. -/
def Resumable (archive : Bytes) (disk : Disk) : Prop :=
  let held := (disk (partialPath destination)).getD []
  held = [] ∨ held.length < archive.length ∧ Requested client name version checksum (held ++ archive.drop held.length)

variable {client name version checksum destination servers} {server : Server} {disk : Disk} {archive : Bytes}

omit [DecidableEq V] in
/-- The front of an archive is. -/
theorem resumable_of_prefix (hoffered : Offered client name version checksum archive) {held : Bytes}
    (hheld : (disk (partialPath destination)).getD [] = held) (hfront : held <+: archive) (hne : held ≠ archive) :
    Resumable client name version checksum destination archive disk := by
  obtain ⟨later, rfl⟩ := hfront
  have hlater : later ≠ [] := fun hnil => hne (by rw [hnil, List.append_nil])
  have hpos := List.length_pos_iff.mpr hlater
  refine .inr ⟨by rw [hheld, List.length_append]; omega, ?_⟩
  rw [hheld, List.drop_left]
  exact hoffered.requested

/-- **One call on a part that is resumable returns the archive.** -/
theorem download_resumed (hoffered : Offered client name version checksum archive)
    (hserver : Honest server (archiveUrl client name version) (authorization client) archive)
    (h : Resumable client name version checksum destination archive disk) :
    ∃ found, (downloadResumable client name version checksum destination server disk).1 = .ok found := by
  rcases h with hnone | ⟨hlt, hrequested⟩
  · obtain ⟨found, hverified⟩ := verifyPartial_of_requested hoffered.requested
    rw [downloadResumable_whole hoffered hserver hnone, settle, hverified]
    exact ⟨found, rfl⟩
  · cases hheld : (disk (partialPath destination)).getD [] with
    | nil =>
      obtain ⟨found, hverified⟩ := verifyPartial_of_requested hoffered.requested
      rw [downloadResumable_whole hoffered hserver hheld, settle, hverified]
      exact ⟨found, rfl⟩
    | cons byte bytes =>
      rw [hheld] at hlt hrequested
      obtain ⟨found, hverified⟩ := verifyPartial_of_requested hrequested
      rw [downloadResumable_inside hoffered hserver hheld (Nat.succ_pos _) hlt, settle, hverified]
      exact ⟨found, rfl⟩

/-- **One call on any other part fails, and leaves a part that is not resumable either**: it is as it was, or has come to be
as long as the archive. -/
theorem download_stuck (hoffered : Offered client name version checksum archive)
    (hserver : Honest server (archiveUrl client name version) (authorization client) archive)
    (h : ¬ Resumable client name version checksum destination archive disk) :
    ∃ e disk', downloadResumable client name version checksum destination server disk = (.error e, disk') ∧
      ¬ Resumable client name version checksum destination archive disk' := by
  obtain ⟨hne, hother⟩ := not_or.mp h
  have hpos := List.length_pos_iff.mpr hne
  by_cases hlt : ((disk (partialPath destination)).getD []).length < archive.length
  · have hverify : ∃ e, verifyPartial client name version checksum ((disk (partialPath destination)).getD [] ++
        archive.drop ((disk (partialPath destination)).getD []).length) = .error e := by
      cases hverified : verifyPartial client name version checksum ((disk (partialPath destination)).getD [] ++
          archive.drop ((disk (partialPath destination)).getD []).length) with
      | error e => exact ⟨e, rfl⟩
      | ok found => exact absurd ⟨hlt, verifyPartial_ok hverified⟩ hother
    obtain ⟨e, hverified⟩ := hverify
    refine ⟨e, _, by rw [downloadResumable_inside hoffered hserver rfl hpos hlt, settle, hverified], ?_⟩
    unfold Resumable
    rw [Disk.write, Function.update_self, Option.getD_some]
    rintro (hnil | ⟨hshort, -⟩)
    · exact hne (List.append_eq_nil_iff.mp hnil).1
    · rw [List.length_append, List.length_drop] at hshort
      omega
  · obtain ⟨e, hanswer⟩ := downloadResumable_outside hoffered hserver rfl hpos (Nat.le_of_not_lt hlt)
    exact ⟨e, disk, hanswer, h⟩

/-- So no call ever returns it. -/
theorem never_recovers (hoffered : Offered client name version checksum archive)
    (hservers : ∀ n, Honest (servers n) (archiveUrl client name version) (authorization client) archive)
    (h : ¬ Resumable client name version checksum destination archive disk) (n : Nat) :
    ¬ Resumable client name version checksum destination archive
        (after client name version checksum destination servers disk n) ∧
      ∃ e, attempt client name version checksum destination servers disk n = .error e := by
  have hstuck : ¬ Resumable client name version checksum destination archive
      (after client name version checksum destination servers disk n) := by
    induction n with
    | zero => exact h
    | succ n ih =>
      obtain ⟨e, disk', hcall, hlater⟩ := download_stuck hoffered (hservers n) ih
      rw [after, hcall]
      exact hlater
  obtain ⟨e, disk', hcall, -⟩ := download_stuck hoffered (hservers n) hstuck
  exact ⟨hstuck, e, by rw [attempt, hcall]⟩

/-- **Downloads recover exactly from a part that is resumable**; whatever a call returns, what it delivers is right. -/
theorem recovers_iff (hoffered : Offered client name version checksum archive)
    (hservers : ∀ n, Honest (servers n) (archiveUrl client name version) (authorization client) archive) :
    (Recovers client name version checksum destination servers disk ∧
        Delivers client name version checksum destination) ↔
      Resumable client name version checksum destination archive disk := by
  constructor
  · rintro ⟨⟨n, -, found, hfound⟩, -⟩
    by_contra h
    obtain ⟨-, e, hfailed⟩ := never_recovers hoffered hservers h n
    rw [hfailed] at hfound
    cases hfound
  · intro h
    obtain ⟨found, hfound⟩ := download_resumed hoffered (hservers 0) h
    exact ⟨⟨0, by decide, found, hfound⟩, fun _ _ _ _ hok => downloadResumable_ok hok⟩

end

/-! ## A server -/

/-- The offset of a range. -/
def offsetOf (range : String) : Nat := Nat.ofDigitChars 10 (range.toList.drop 6).dropLast 0

theorem offsetOf_rangeFrom (offset : Nat) : offsetOf (rangeFrom offset) = offset := by
  have hchars : (rangeFrom offset).toList = ['b', 'y', 't', 'e', 's', '='] ++ (Nat.toDigits 10 offset ++ ['-']) := by
    simp [rangeFrom, toString, Nat.toList_repr]
  have hdigits : ((rangeFrom offset).toList.drop 6).dropLast = Nat.toDigits 10 offset := by
    rw [hchars]
    exact List.dropLast_concat
  rw [offsetOf, hdigits, Nat.ofDigitChars_ten_toDigits]

def serve (archive : Bytes) (request : Request) : Except String Response :=
  match request.range with
  | none       => .ok ⟨200, none, [.ok archive]⟩
  | some range =>
    if offsetOf range < archive.length then
      .ok ⟨206, some s!"bytes {offsetOf range}-{archive.length - 1}/{archive.length}", [.ok (archive.drop (offsetOf range))]⟩
    else .ok ⟨416, some s!"bytes */{archive.length}", []⟩

theorem serve_honest (url authorization : String) (archive : Bytes) : Honest (serve archive) url authorization archive where
  whole := ⟨_, rfl, rfl, [archive], rfl, by simp⟩
  inside offset _ h := by
    have hanswer : serve archive ⟨url, authorization, some (rangeFrom offset)⟩ =
        .ok ⟨206, some s!"bytes {offset}-{archive.length - 1}/{archive.length}", [.ok (archive.drop offset)]⟩ := by
      simp only [serve, offsetOf_rangeFrom, if_pos h]
    exact ⟨_, hanswer, rfl, rfl, [archive.drop offset], rfl, by simp⟩
  outside offset _ h := by
    have hanswer : serve archive ⟨url, authorization, some (rangeFrom offset)⟩ =
        .ok ⟨416, some s!"bytes */{archive.length}", []⟩ := by
      simp only [serve, offsetOf_rangeFrom, if_neg (Nat.not_lt.mpr h)]
    exact ⟨_, hanswer, rfl⟩

open Registry (Version)
open Vendor (toolsPrimitives libFile plainBytes plainChecksum)

def toolsClient : HttpRegistryClient Version where
  prims := toolsPrimitives [libFile] plainBytes plainChecksum
  showVersion _ := "1.0.0"
  baseUrl := "http://localhost:8080"
  credential := "token"

def toolsVersion : Version := toLex (1, toLex (0, 0))

theorem tools_offered : Offered toolsClient "acme-tools" toolsVersion plainChecksum plainBytes where
  key := by decide
  requested := by
    have hlocked := @Vendor.tools_locked [libFile] plainBytes plainChecksum (by decide)
      ((Registry.new_eq_self_iff _).mp rfl)
    refine ⟨?_, Registry.toolsArchive [libFile], hlocked.decoded, rfl, rfl⟩
    simp [toolsClient, toolsPrimitives, Registry.primitivesFor, Registry.toolsRequest]

/-- The disk with some bytes of the archive beside its destination. -/
def heldDisk (held : Bytes) : Disk := fun path => if path = "archive.sylpkg.part" then some held else none

/-- A part of seventeen bytes is completed. -/
theorem front_recovers :
    Recovers toolsClient "acme-tools" toolsVersion plainChecksum "archive.sylpkg" (fun _ => serve plainBytes)
      (heldDisk (plainBytes.take 17)) := by
  have hheld : (heldDisk (plainBytes.take 17) (partialPath "archive.sylpkg")).getD [] = plainBytes.take 17 := by
    rw [heldDisk, if_pos (by decide), Option.getD_some]
  have hresumable := resumable_of_prefix tools_offered hheld (List.take_prefix 17 plainBytes) (by decide)
  exact ((recovers_iff tools_offered fun _ => serve_honest _ _ plainBytes).mpr hresumable).1

/-- **A part that is already the archive is never taken for it.** -/
theorem whole_stuck :
    ¬ Recovers toolsClient "acme-tools" toolsVersion plainChecksum "archive.sylpkg" (fun _ => serve plainBytes)
      (heldDisk plainBytes) := by
  rintro ⟨n, -, found, hfound⟩
  have hwhole : ¬ Resumable toolsClient "acme-tools" toolsVersion plainChecksum "archive.sylpkg" plainBytes
      (heldDisk plainBytes) := by
    rintro (hnil | ⟨hlt, -⟩)
    · exact absurd hnil (by decide)
    · exact absurd hlt (Nat.lt_irrefl _)
  obtain ⟨-, e, hfailed⟩ := @never_recovers _ toolsClient _ _ _ _ _ (fun _ => serve plainBytes) _ _ tools_offered
    (fun _ => serve_honest _ _ plainBytes) hwhole n
  rw [hfailed] at hfound
  cases hfound

end Download
end Syllog
