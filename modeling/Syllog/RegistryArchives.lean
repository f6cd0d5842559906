import Syllog.RegistryLaws
/-!
# RegistryArchives — what the registry serves

`PackageArchive::new` validates an archive and `from_bytes` does so again, but `publish` takes the archive of a request as it
was decoded.  So what the registry serves is as well formed as what was published: `served_iff` says exactly when it is.
-/
namespace Syllog
namespace Registry

/-! ## Validation -/

section
variable {V : Type}

/-- What `PackageArchive::new` establishes. -/
structure WellFormed (a : PackageArchive V) : Prop where
  validName : validPackageName a.name = true
  nonempty : a.files ≠ []
  sorted : a.files.Pairwise (fun f g => f.path ≤ g.path)
  portable : ∀ f ∈ a.files, portablePath f.path = true
  distinct : (a.files.map (·.path)).Nodup

theorem checkPaths_eq_ok (package : String) (version : V) (paths : List String) : ∀ seen : List String,
    checkPaths package version seen paths = .ok () ↔
      (∀ p ∈ paths, portablePath p = true) ∧ paths.Nodup ∧ ∀ p ∈ paths, p ∉ seen := by
  induction paths with
  | nil => intro seen; simp [checkPaths]
  | cons path paths ih =>
    intro seen
    unfold checkPaths
    cases hp : portablePath path with
    | false => simp [hp]
    | true =>
      by_cases hseen : path ∈ seen
      · simp [hseen]
      · simp only [Bool.true_eq_false, if_false, if_neg hseen, ih]
        constructor
        · rintro ⟨hportable, hnodup, hnew⟩
          refine ⟨?_, List.nodup_cons.mpr ⟨fun hmem => hnew path hmem List.mem_cons_self, hnodup⟩, ?_⟩
          · simpa [hp] using hportable
          · intro p hmem
            rcases List.mem_cons.mp hmem with rfl | hmem
            · exact hseen
            · exact fun h => hnew p hmem (List.mem_cons_of_mem _ h)
        · rintro ⟨hportable, hnodup, hnew⟩
          obtain ⟨hhead, htail⟩ := List.nodup_cons.mp hnodup
          refine ⟨fun p hmem => hportable p (List.mem_cons_of_mem _ hmem), htail, fun p hmem h => ?_⟩
          rcases List.mem_cons.mp h with rfl | h
          · exact hhead hmem
          · exact hnew p (List.mem_cons_of_mem _ hmem) h

/-- **The constructor returns an archive unchanged exactly when it is well formed.** -/
theorem new_eq_self_iff (a : PackageArchive V) :
    PackageArchive.new a.name a.version a.files a.dependencies = .ok a ↔ WellFormed a := by
  have hcheck := checkPaths_eq_ok a.name a.version ((sortFiles a.files).map (·.path)) []
  constructor
  · intro h
    unfold PackageArchive.new at h
    split_ifs at h with hname hfiles
    split at h
    · cases h
    · rename_i hpaths
      have hfix : sortFiles a.files = a.files := congrArg PackageArchive.files (Except.ok.inj h)
      have hsorted : (sortFiles a.files).Pairwise (fun f g => f.path ≤ g.path) :=
        List.pairwise_insertionSort (fun f g : ArchiveFile => f.path ≤ g.path) a.files
      obtain ⟨hportable, hnodup, _⟩ := hcheck.mp hpaths
      rw [hfix] at hportable hnodup hsorted
      exact ⟨by simpa using hname, hfiles, hsorted, fun f hf => hportable _ (List.mem_map_of_mem hf), hnodup⟩
  · intro h
    have hfix : sortFiles a.files = a.files := h.sorted.insertionSort_eq
    have hpaths : checkPaths a.name a.version [] ((sortFiles a.files).map (·.path)) = .ok () := by
      rw [hcheck, hfix]
      refine ⟨fun p hp => ?_, h.distinct, by simp⟩
      obtain ⟨f, hf, rfl⟩ := List.mem_map.mp hp
      exact h.portable f hf
    unfold PackageArchive.new
    rw [if_neg (by simp [h.validName]), if_neg h.nonempty, hpaths, hfix]

end

/-! ## Served archives -/

section
variable {V : Type}

/-- Decoding undoes encoding. -/
def RoundTrips (prims : Primitives V) : Prop :=
  ∀ a bytes, prims.encodeArchive a = .ok bytes → prims.decodeArchive bytes = .ok a

/-- Well formed, and the same archive again after its canonical bytes are decoded. -/
def Sound (prims : Primitives V) (a : PackageArchive V) : Prop :=
  WellFormed a ∧ ∃ bytes, a.canonicalBytes prims = .ok bytes ∧ PackageArchive.fromBytes prims bytes = .ok a

theorem canonicalBytes_of_checksum {prims : Primitives V} {a : PackageArchive V} {sum : String}
    (h : a.checksum prims = .ok sum) : ∃ bytes, prims.encodeArchive a = .ok bytes := by
  unfold PackageArchive.checksum PackageArchive.canonicalBytes at h
  cases hencode : prims.encodeArchive a with
  | ok bytes => exact ⟨bytes, rfl⟩
  | error reason => simp [hencode] at h

theorem sound_of_wellFormed {prims : Primitives V} (hround : RoundTrips prims) {a : PackageArchive V} {sum : String}
    (hsum : a.checksum prims = .ok sum) (h : WellFormed a) : Sound prims a := by
  obtain ⟨bytes, hencode⟩ := canonicalBytes_of_checksum hsum
  refine ⟨h, bytes, by simp [PackageArchive.canonicalBytes, hencode], ?_⟩
  simp only [PackageArchive.fromBytes, hround a bytes hencode]
  exact (new_eq_self_iff a).mpr h

end

variable {V : Type} [LinearOrder V]

/-- Every archive the registry serves is sound. -/
def ServesSound (prims : Primitives V) (r : LocalRegistry V) : Prop :=
  ∀ name version a, r.download name version = .ok a → Sound prims a

theorem served_of_accepted {prims : Primitives V} {r : LocalRegistry V} {ops : List (Operation V)}
    {request : PublishRequest V} (h : Accepted prims (r.after prims ops) request) :
    (r.after prims (ops ++ [.publish request])).download request.archive.name request.archive.version =
      .ok request.archive := by
  rw [after_append, after_cons]
  refine download_eq_ok.mpr ⟨⟨request.archive, false⟩, ?_, rfl⟩
  show ((r.after prims ops).apply prims (.publish request)).1.releases.get? _ = _
  simp [LocalRegistry.apply, publish_ok h, LocalRegistry.store, PublishRequest.releaseKey]

/-- **Every archive served in a history is well formed exactly when every accepted request carried a well-formed one.** -/
theorem served_wellFormed_iff (prims : Primitives V) (hround : RoundTrips prims) (ops : List (Operation V)) :
    (∀ before later, ops = before ++ later → ServesSound prims (LocalRegistry.new.after prims before)) ↔
    ∀ before request later, ops = before ++ .publish request :: later →
      Accepted prims (LocalRegistry.new.after prims before) request → WellFormed request.archive := by
  constructor
  · intro h before request later hops haccepted
    exact (h (before ++ [.publish request]) later (by rw [hops]; simp) _ _ _ (served_of_accepted haccepted)).1
  · intro h before later hops name version a hdownload
    obtain ⟨stored, hstored, rfl⟩ := download_eq_ok.mp hdownload
    rcases after_stored before hstored with ⟨_, hempty, _⟩ | ⟨request, ⟨earlier, rest, hbefore, haccepted⟩, _, harchive⟩
    · cases hempty
    · rw [← harchive]
      refine sound_of_wellFormed hround haccepted.checksum (h earlier request (rest ++ later) ?_ haccepted)
      rw [hops, hbefore]
      simp

/-! ## A signed request -/

/-- Major, minor and patch number. -/
abbrev Version := Nat ×ₗ Nat ×ₗ Nat

/-- The libraries on one request: what they encode, hash and verify there. -/
def primitivesFor (request : PublishRequest Version) (archiveBytes signedBytes : Bytes) : Primitives Version where
  encodeArchive a := if a = request.archive then .ok archiveBytes else .error "other archive"
  decodeArchive bytes := if bytes = archiveBytes then .ok request.archive else .error "other bytes"
  encodeUnsigned u := if u = request.toUnsigned then .ok signedBytes else .error "other request"
  digest bytes := if bytes = archiveBytes then request.checksum else ""
  isVerifyingKey key := key = request.publisherKey
  isSignature signature := signature.length = 64
  verify key bytes signature := key = request.publisherKey ∧ bytes = signedBytes ∧ signature = request.signature

theorem primitivesFor_roundTrips (request : PublishRequest Version) (archiveBytes signedBytes : Bytes) :
    RoundTrips (primitivesFor request archiveBytes signedBytes) := by
  intro a bytes h
  simp only [primitivesFor] at h ⊢
  split_ifs at h with ha
  cases h
  rw [if_pos rfl, ha]

/-- The public key of the seed `[7; 32]`. -/
def acmeKey : Key :=
  #v[234, 74, 108, 99, 226, 156, 82, 10, 190, 245, 80, 123, 19, 46, 197, 249, 149, 71, 118, 174,
    190, 190, 123, 146, 66, 30, 234, 105, 20, 70, 210, 44]

def toolsArchive (files : List ArchiveFile) : PackageArchive Version :=
  { name := "acme-tools", version := toLex (1, toLex (0, 0)), files, dependencies := .empty }

def toolsRequest (files : List ArchiveFile) (checksum : String) (signature : Bytes) : PublishRequest Version :=
  { protocolVersion := 1, namespace_ := "acme", publisherKey := acmeKey, nonce := "nonce-1", checksum, signature
    archive := toolsArchive files }

/-- The JSON text of the archive. -/
def archiveText (files : String) : String :=
  "\x7b\"name\":\"acme-tools\",\"version\":\"1.0.0\",\"files\":[" ++ files ++ "],\"dependencies\":\x7b\x7d\x7d"

/-- The JSON text that is signed. -/
def signedText (checksum archive : String) : String :=
  "\x7b\"protocol_version\":1,\"namespace\":\"acme\",\"publisher_key\":[234,74,108,99,226,156,82,10,190,245,80,123,19,46," ++
  "197,249,149,71,118,174,190,190,123,146,66,30,234,105,20,70,210,44],\"nonce\":\"nonce-1\",\"checksum\":\"" ++ checksum ++
  "\",\"archive\":" ++ archive ++ "\x7d"

theorem toolsRequest_accepted (files : List ArchiveFile) (checksum : String) (signature archiveBytes signedBytes : Bytes)
    (hlength : signature.length = 64) :
    Accepted (primitivesFor (toolsRequest files checksum signature) archiveBytes signedBytes)
      (LocalRegistry.new.after (primitivesFor (toolsRequest files checksum signature) archiveBytes signedBytes)
        [.authorize "acme" acmeKey]) (toolsRequest files checksum signature) where
  protocol := rfl
  checksum := by simp [PackageArchive.checksum, PackageArchive.canonicalBytes, primitivesFor]
  owned := by simp only [toolsRequest, toolsArchive]; decide
  authorized := by
    simp [LocalRegistry.after, LocalRegistry.apply, LocalRegistry.authorize, LocalRegistry.keysOf, toolsRequest]
  freshNonce := by simp [LocalRegistry.after, LocalRegistry.apply, LocalRegistry.authorize, LocalRegistry.new]
  freshVersion := rfl
  signed := ⟨signedBytes, by simp [PublishRequest.signingBytes, primitivesFor], by simp [primitivesFor],
    by simp [primitivesFor, toolsRequest, hlength], by simp [primitivesFor]⟩

/-- A package of one empty file, signed with the key of the seed `[7; 32]`. -/
def goodRequest : PublishRequest Version :=
  toolsRequest [⟨"a", []⟩] "99d0e63a53134de383822dbf7d43219b3ffb1f03cf99e610880a858ee6e88bc6" [
    208, 132, 53, 3, 233, 136, 89, 193, 214, 121, 186, 183, 1, 87, 68, 156, 12, 223, 211, 195, 188, 227, 34, 224,
    3, 247, 27, 150, 40, 75, 244, 77, 185, 34, 169, 92, 47, 228, 92, 199, 176, 176, 126, 23, 46, 207, 6, 114,
    138, 12, 181, 24, 70, 9, 61, 212, 53, 114, 234, 111, 187, 75, 183, 10]

def goodArchiveBytes : Bytes := (archiveText "\x7b\"path\":\"a\",\"content\":[]\x7d").toUTF8.toList

def goodSignedBytes : Bytes :=
  (signedText goodRequest.checksum (archiveText "\x7b\"path\":\"a\",\"content\":[]\x7d")).toUTF8.toList

/-- The archive of the good request is served, and it is sound. -/
theorem goodRequest_served_sound :
    RoundTrips (primitivesFor goodRequest goodArchiveBytes goodSignedBytes) ∧
    Accepted (primitivesFor goodRequest goodArchiveBytes goodSignedBytes)
      (LocalRegistry.new.after (primitivesFor goodRequest goodArchiveBytes goodSignedBytes)
        [.authorize "acme" acmeKey]) goodRequest ∧
    ServesSound (primitivesFor goodRequest goodArchiveBytes goodSignedBytes)
      (LocalRegistry.new.after (primitivesFor goodRequest goodArchiveBytes goodSignedBytes)
        [.authorize "acme" acmeKey, .publish goodRequest]) := by
  have hround := primitivesFor_roundTrips goodRequest goodArchiveBytes goodSignedBytes
  refine ⟨hround, toolsRequest_accepted _ _ _ _ _ rfl,
    (served_wellFormed_iff _ hround [.authorize "acme" acmeKey, .publish goodRequest]).mpr ?_ _ [] (by simp)⟩
  intro before request later hops _
  have hmem : Operation.publish request ∈ [Operation.authorize "acme" acmeKey, .publish goodRequest] := by
    rw [hops]
    simp
  have hrequest : request = goodRequest := by simpa using hmem
  subst hrequest
  exact (new_eq_self_iff goodRequest.archive).mp rfl

/-- The same package with no files, correctly signed. -/
def emptyRequest : PublishRequest Version :=
  toolsRequest [] "208997f4dfca7a68bb28349823987b6c9f38fa487f5b748012df25dc480a367a" [
    43, 192, 255, 71, 194, 148, 168, 235, 95, 121, 12, 242, 51, 1, 55, 123, 130, 0, 19, 55, 213, 159, 255, 150,
    197, 225, 57, 57, 228, 45, 121, 80, 45, 255, 36, 35, 191, 8, 128, 77, 103, 204, 182, 204, 242, 76, 217, 214,
    101, 170, 134, 86, 3, 104, 126, 175, 70, 25, 18, 15, 239, 220, 144, 0]

def emptyArchiveBytes : Bytes := (archiveText "").toUTF8.toList

def emptySignedBytes : Bytes := (signedText emptyRequest.checksum (archiveText "")).toUTF8.toList

/-- **The registry publishes and serves an archive that the constructor refuses**: it has no files, and its canonical
bytes do not decode. -/
theorem emptyRequest_served :
    (LocalRegistry.new.after (primitivesFor emptyRequest emptyArchiveBytes emptySignedBytes)
      [.authorize "acme" acmeKey, .publish emptyRequest]).download "acme-tools" (toLex (1, toLex (0, 0))) =
        .ok (toolsArchive []) ∧
    ¬ WellFormed (toolsArchive []) ∧
    PackageArchive.new "acme-tools" (toLex (1, toLex (0, 0)) : Version) [] .empty = .error .emptyArchive ∧
    (toolsArchive []).canonicalBytes (primitivesFor emptyRequest emptyArchiveBytes emptySignedBytes) =
      .ok emptyArchiveBytes ∧
    PackageArchive.fromBytes (primitivesFor emptyRequest emptyArchiveBytes emptySignedBytes) emptyArchiveBytes =
      .error .emptyArchive := by
  have haccepted : Accepted (primitivesFor emptyRequest emptyArchiveBytes emptySignedBytes)
      (LocalRegistry.new.after (primitivesFor emptyRequest emptyArchiveBytes emptySignedBytes)
        [.authorize "acme" acmeKey]) emptyRequest := toolsRequest_accepted _ _ _ _ _ rfl
  refine ⟨served_of_accepted haccepted, fun h => h.nonempty rfl, rfl, ?_, ?_⟩
  · simp [PackageArchive.canonicalBytes, primitivesFor, emptyRequest, toolsRequest]
  · have hdecode : (primitivesFor emptyRequest emptyArchiveBytes emptySignedBytes).decodeArchive emptyArchiveBytes =
        .ok emptyRequest.archive := by simp [primitivesFor]
    simp only [PackageArchive.fromBytes, hdecode]
    rfl

end Registry
end Syllog
