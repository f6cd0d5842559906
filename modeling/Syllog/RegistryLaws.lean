import Syllog.Registry
/-!
# RegistryLaws — what every history of the registry keeps

`publish` either meets all its checks and stores, or leaves the registry alone (`publish_cases`); no other operation adds a
release or changes an archive.  Over whole histories: failures change nothing, downloads are stable, nonces and versions are
used once, and every stored release has the request it came from.
-/
namespace Syllog
namespace Registry

variable {V : Type} [LinearOrder V] {prims : Primitives V}

/-- Everything `publish` checks. -/
structure Accepted (prims : Primitives V) (r : LocalRegistry V) (request : PublishRequest V) : Prop where
  protocol : request.protocolVersion = protocolVersion
  checksum : request.archive.checksum prims = .ok request.checksum
  owned : ownsName request.namespace_ request.archive.name = true
  authorized : request.publisherKey ∈ r.keysOf request.namespace_
  freshNonce : request.nonceKey ∉ r.usedNonces
  freshVersion : r.releases.get? request.releaseKey = none
  signed : ∃ bytes, request.signingBytes prims = .ok bytes ∧ prims.isVerifyingKey request.publisherKey = true ∧
    prims.isSignature request.signature = true ∧ prims.verify request.publisherKey bytes request.signature = true

/-- **A publication is stored, or refused without a trace.** -/
theorem publish_cases (prims : Primitives V) (r : LocalRegistry V) (request : PublishRequest V) :
    (Accepted prims r request ∧ r.publish prims request =
      (r.store request, .ok ⟨request.archive.name, request.archive.version, request.checksum⟩)) ∨
    (¬ Accepted prims r request ∧ ∃ e, r.publish prims request = (r, .error e)) := by
  unfold LocalRegistry.publish
  by_cases hprotocol : request.protocolVersion = protocolVersion
  swap
  · rw [if_pos hprotocol]
    exact .inr ⟨fun h => hprotocol h.protocol, _, rfl⟩
  rw [if_neg (not_not.mpr hprotocol)]
  cases hsum : request.archive.checksum prims with
  | error e => exact .inr ⟨fun h => by simp [h.checksum] at hsum, _, rfl⟩
  | ok actual =>
  by_cases hactual : actual = request.checksum
  swap
  · simp only [if_pos (show actual ≠ request.checksum from hactual)]
    exact .inr ⟨fun h => hactual (Except.ok.inj (hsum.symm.trans h.checksum)), _, rfl⟩
  simp only [if_neg (not_not.mpr hactual)]
  cases howns : ownsName request.namespace_ request.archive.name with
  | false => exact .inr ⟨fun h => by simp [h.owned] at howns, _, rfl⟩
  | true =>
  by_cases hauth : request.publisherKey ∈ r.keysOf request.namespace_
  swap
  · simp only [Bool.true_eq_false, if_false, if_pos hauth]
    exact .inr ⟨fun h => hauth h.authorized, _, rfl⟩
  by_cases hnonce : request.nonceKey ∈ r.usedNonces
  · simp only [Bool.true_eq_false, if_false, if_neg (not_not.mpr hauth), if_pos hnonce]
    exact .inr ⟨fun h => h.freshNonce hnonce, _, rfl⟩
  simp only [Bool.true_eq_false, if_false, if_neg (not_not.mpr hauth), if_neg hnonce]
  cases hversion : r.releases.get? request.releaseKey with
  | some stored =>
    simp only [OrdMap.contains, hversion, Option.isSome_some, if_true]
    exact .inr ⟨fun h => by simp [h.freshVersion] at hversion, _, rfl⟩
  | none =>
  simp only [OrdMap.contains, hversion, Option.isSome_none, Bool.false_eq_true, if_false]
  cases hkey : prims.isVerifyingKey request.publisherKey with
  | false => exact .inr ⟨fun h => by simp [h.signed.choose_spec.2.1] at hkey, _, rfl⟩
  | true =>
  cases hshape : prims.isSignature request.signature with
  | false => exact .inr ⟨fun h => by simp [h.signed.choose_spec.2.2.1] at hshape, _, rfl⟩
  | true =>
  cases hbytes : request.signingBytes prims with
  | error e =>
    refine .inr ⟨fun h => ?_, _, rfl⟩
    obtain ⟨bytes, hok, _⟩ := h.signed
    rw [hbytes] at hok
    cases hok
  | ok bytes =>
  cases hverify : prims.verify request.publisherKey bytes request.signature with
  | false =>
    simp only [Bool.true_eq_false, if_false, hverify, if_true]
    refine .inr ⟨fun h => ?_, _, rfl⟩
    obtain ⟨bytes', hbytes', _, _, hverify'⟩ := h.signed
    rw [hbytes] at hbytes'
    cases hbytes'
    simp [hverify] at hverify'
  | true =>
    refine .inl ⟨⟨hprotocol, hactual ▸ hsum, howns, hauth, hnonce, hversion, bytes, hbytes, hkey, hshape, hverify⟩, ?_⟩
    simp only [Bool.true_eq_false, if_false, hverify]

theorem publish_ok {r : LocalRegistry V} {request : PublishRequest V} (h : Accepted prims r request) :
    r.publish prims request =
      (r.store request, .ok ⟨request.archive.name, request.archive.version, request.checksum⟩) := by
  rcases publish_cases prims r request with ⟨_, hpublish⟩ | ⟨hrefused, _⟩
  · exact hpublish
  · exact absurd h hrefused

/-! ## One operation -/

/-- **A failed operation leaves the registry as it was.** -/
theorem apply_error (r : LocalRegistry V) (op : Operation V) {e : RegistryError V}
    (h : (r.apply prims op).2 = .error e) : (r.apply prims op).1 = r := by
  cases op with
  | authorize namespace_ key => cases h
  | publish request =>
    rcases publish_cases prims r request with ⟨_, hpublish⟩ | ⟨_, e', hpublish⟩
    · simp [LocalRegistry.apply, hpublish, Except.map] at h
    · simp [LocalRegistry.apply, hpublish]
  | yank name version =>
    simp only [LocalRegistry.apply, LocalRegistry.yank] at h ⊢
    split at h
    · simp [Except.map] at h
    · rfl
  | download name version => rfl
  | isYanked name version => rfl

/-- **A stored release stays, with its archive.** -/
theorem apply_keeps (prims : Primitives V) (r : LocalRegistry V) (op : Operation V) {k : String ×ₗ V} {stored : StoredRelease V}
    (h : r.releases.get? k = some stored) :
    ∃ stored', (r.apply prims op).1.releases.get? k = some stored' ∧ stored'.archive = stored.archive := by
  cases op with
  | authorize namespace_ key => exact ⟨stored, h, rfl⟩
  | publish request =>
    rcases publish_cases prims r request with ⟨haccepted, hpublish⟩ | ⟨_, e', hpublish⟩
    · have hne : request.releaseKey ≠ k := by
        rintro rfl
        rw [haccepted.freshVersion] at h
        cases h
      refine ⟨stored, ?_, rfl⟩
      simp [LocalRegistry.apply, hpublish, LocalRegistry.store, hne, h]
    · exact ⟨stored, by simp [LocalRegistry.apply, hpublish, h], rfl⟩
  | yank name version =>
    simp only [LocalRegistry.apply, LocalRegistry.yank]
    split
    · rename_i found hfound
      by_cases hk : releaseKey name version = k
      · subst hk
        rw [hfound] at h
        cases h
        exact ⟨{ stored with yanked := true }, by simp, rfl⟩
      · exact ⟨stored, by simp [hk, h], rfl⟩
    · exact ⟨stored, h, rfl⟩
  | download name version => exact ⟨stored, h, rfl⟩
  | isYanked name version => exact ⟨stored, h, rfl⟩

/-- **A new release comes from an accepted request.** -/
theorem apply_stored (r : LocalRegistry V) (op : Operation V) {k : String ×ₗ V} {stored : StoredRelease V}
    (h : (r.apply prims op).1.releases.get? k = some stored) :
    (∃ stored', r.releases.get? k = some stored' ∧ stored'.archive = stored.archive) ∨
    ∃ request, op = .publish request ∧ Accepted prims r request ∧ request.releaseKey = k ∧
      request.archive = stored.archive := by
  cases op with
  | authorize namespace_ key => exact .inl ⟨stored, h, rfl⟩
  | publish request =>
    rcases publish_cases prims r request with ⟨haccepted, hpublish⟩ | ⟨_, e', hpublish⟩
    · simp only [LocalRegistry.apply, hpublish, LocalRegistry.store, OrdMap.get?_insert] at h
      by_cases hk : request.releaseKey = k
      · rw [if_pos hk] at h
        cases h
        exact .inr ⟨request, rfl, haccepted, hk, rfl⟩
      · rw [if_neg hk] at h
        exact .inl ⟨stored, h, rfl⟩
    · simp only [LocalRegistry.apply, hpublish] at h
      exact .inl ⟨stored, h, rfl⟩
  | yank name version =>
    simp only [LocalRegistry.apply, LocalRegistry.yank] at h
    split at h
    · rename_i found hfound
      simp only [OrdMap.get?_insert] at h
      by_cases hk : releaseKey name version = k
      · rw [if_pos hk] at h
        cases h
        exact .inl ⟨found, hk ▸ hfound, rfl⟩
      · rw [if_neg hk] at h
        exact .inl ⟨stored, h, rfl⟩
    · exact .inl ⟨stored, h, rfl⟩
  | download name version => exact .inl ⟨stored, h, rfl⟩
  | isYanked name version => exact .inl ⟨stored, h, rfl⟩

theorem apply_usedNonces (r : LocalRegistry V) (op : Operation V) : r.usedNonces ⊆ (r.apply prims op).1.usedNonces := by
  cases op with
  | publish request =>
    rcases publish_cases prims r request with ⟨_, hpublish⟩ | ⟨_, e', hpublish⟩
    · simp [LocalRegistry.apply, hpublish, LocalRegistry.store]
    · simp [LocalRegistry.apply, hpublish]
  | yank name version =>
    simp only [LocalRegistry.apply, LocalRegistry.yank]
    split <;> exact subset_rfl
  | authorize namespace_ key => exact subset_rfl
  | download name version => exact subset_rfl
  | isYanked name version => exact subset_rfl

/-! ## Histories -/

theorem after_cons (r : LocalRegistry V) (op : Operation V) (ops : List (Operation V)) :
    r.after prims (op :: ops) = (r.apply prims op).1.after prims ops := rfl

theorem after_append (r : LocalRegistry V) (ops more : List (Operation V)) :
    r.after prims (ops ++ more) = (r.after prims ops).after prims more := List.foldl_append

theorem after_keeps {r : LocalRegistry V} {k : String ×ₗ V} {stored : StoredRelease V} (ops : List (Operation V))
    (h : r.releases.get? k = some stored) :
    ∃ stored', (r.after prims ops).releases.get? k = some stored' ∧ stored'.archive = stored.archive := by
  induction ops generalizing r stored with
  | nil => exact ⟨stored, h, rfl⟩
  | cons op ops ih =>
    obtain ⟨stored', hstored, harchive⟩ := apply_keeps prims r op h
    obtain ⟨final, hfinal, heq⟩ := ih hstored
    exact ⟨final, hfinal, heq.trans harchive⟩

theorem download_eq_ok {r : LocalRegistry V} {name : String} {version : V} {a : PackageArchive V} :
    r.download name version = .ok a ↔
      ∃ stored, r.releases.get? (releaseKey name version) = some stored ∧ stored.archive = a := by
  unfold LocalRegistry.download
  cases r.releases.get? (releaseKey name version) with
  | none => simp
  | some stored => simp

/-- **A download that succeeded once gives the same archive for ever.** -/
theorem download_stable {r : LocalRegistry V} {name : String} {version : V} {a : PackageArchive V}
    (more : List (Operation V)) (h : r.download name version = .ok a) :
    (r.after prims more).download name version = .ok a := by
  obtain ⟨stored, hstored, rfl⟩ := download_eq_ok.mp h
  exact download_eq_ok.mpr (after_keeps more hstored)

/-- The request was published at its place in the history. -/
def PublishedAt (prims : Primitives V) (r : LocalRegistry V) (ops : List (Operation V)) (request : PublishRequest V) : Prop :=
  ∃ before later, ops = before ++ .publish request :: later ∧ Accepted prims (r.after prims before) request

theorem PublishedAt.cons {r : LocalRegistry V} {op : Operation V} {ops : List (Operation V)} {request : PublishRequest V}
    (h : PublishedAt prims (r.apply prims op).1 ops request) : PublishedAt prims r (op :: ops) request := by
  obtain ⟨before, later, hops, haccepted⟩ := h
  exact ⟨op :: before, later, by rw [hops]; rfl, haccepted⟩

theorem after_stored {r : LocalRegistry V} {k : String ×ₗ V} {stored : StoredRelease V} (ops : List (Operation V))
    (h : (r.after prims ops).releases.get? k = some stored) :
    (∃ stored', r.releases.get? k = some stored' ∧ stored'.archive = stored.archive) ∨
    ∃ request, PublishedAt prims r ops request ∧ request.releaseKey = k ∧ request.archive = stored.archive := by
  induction ops generalizing r with
  | nil => exact .inl ⟨stored, h, rfl⟩
  | cons op ops ih =>
    rcases ih h with ⟨stored', hstored', harchive⟩ | ⟨request, hpublished, hk, harchive⟩
    · rcases apply_stored r op hstored' with ⟨first, hfirst, heq⟩ | ⟨request, rfl, haccepted, hk, heq⟩
      · exact .inl ⟨first, hfirst, heq.trans harchive⟩
      · exact .inr ⟨request, ⟨[], ops, rfl, haccepted⟩, hk, heq.trans harchive⟩
    · exact .inr ⟨request, hpublished.cons, hk, harchive⟩

/-- The nonces and versions of a history are new to the registry it starts from, and used once. -/
theorem published_fresh (r : LocalRegistry V) (ops : List (Operation V)) :
    (∀ q ∈ published prims r ops, q.nonceKey ∉ r.usedNonces ∧ r.releases.get? q.releaseKey = none) ∧
    ((published prims r ops).map PublishRequest.nonceKey).Nodup ∧
    ((published prims r ops).map PublishRequest.releaseKey).Nodup := by
  induction ops generalizing r with
  | nil => simp [published]
  | cons op ops ih =>
    -- what is new after the operation was new before it
    have hback : ∀ q ∈ published prims (r.apply prims op).1 ops,
        q.nonceKey ∉ r.usedNonces ∧ r.releases.get? q.releaseKey = none := by
      intro q hq
      obtain ⟨hnonce, hversion⟩ := (ih _).1 q hq
      refine ⟨fun hused => hnonce (apply_usedNonces r op hused), ?_⟩
      cases hget : r.releases.get? q.releaseKey with
      | none => rfl
      | some stored =>
        obtain ⟨stored', hstored', _⟩ := apply_keeps prims r op hget
        rw [hversion] at hstored'
        cases hstored'
    cases op with
    | publish request =>
      rcases publish_cases prims r request with ⟨haccepted, hpublish⟩ | ⟨_, e, hpublish⟩
      · have heq : published prims r (.publish request :: ops) =
            request :: published prims (r.store request) ops := by simp [published, hpublish]
        have hstate : (r.apply prims (.publish request)).1 = r.store request := by simp [LocalRegistry.apply, hpublish]
        rw [hstate] at hback
        obtain ⟨hnew, hnonces, hversions⟩ := ih (r.store request)
        rw [heq]
        refine ⟨fun q hq => ?_, ?_, ?_⟩
        · rcases List.mem_cons.mp hq with rfl | hq
          · exact ⟨haccepted.freshNonce, haccepted.freshVersion⟩
          · exact hback q hq
        · refine List.nodup_cons.mpr ⟨fun hmem => ?_, hnonces⟩
          obtain ⟨q, hq, hsame⟩ := List.mem_map.mp hmem
          apply (hnew q hq).1
          simp [LocalRegistry.store, hsame]
        · refine List.nodup_cons.mpr ⟨fun hmem => ?_, hversions⟩
          obtain ⟨q, hq, hsame⟩ := List.mem_map.mp hmem
          have hnone := (hnew q hq).2
          simp [LocalRegistry.store, hsame] at hnone
      · have heq : published prims r (.publish request :: ops) = published prims r ops := by simp [published, hpublish]
        rw [heq]
        exact ih r
    | authorize namespace_ key => exact ⟨hback, (ih _).2⟩
    | yank name version => exact ⟨hback, (ih _).2⟩
    | download name version => exact ⟨hback, (ih _).2⟩
    | isYanked name version => exact ⟨hback, (ih _).2⟩

/-- **The laws of every history** from the empty registry: an operation that fails changes nothing; a download that
succeeded gives the same archive after any further operations; no nonce of a namespace and no version of a package is
published twice; and every stored release has an accepted request behind it, which its checks held for at that moment. -/
theorem registry_history_laws (prims : Primitives V) (ops : List (Operation V)) :
    (∀ op e, ((LocalRegistry.new.after prims ops).apply prims op).2 = .error e →
      ((LocalRegistry.new.after prims ops).apply prims op).1 = LocalRegistry.new.after prims ops) ∧
    (∀ name version a more, (LocalRegistry.new.after prims ops).download name version = .ok a →
      (LocalRegistry.new.after prims (ops ++ more)).download name version = .ok a) ∧
    ((published prims .new ops).map PublishRequest.nonceKey).Nodup ∧
    ((published prims .new ops).map PublishRequest.releaseKey).Nodup ∧
    ∀ name version stored, (LocalRegistry.new.after prims ops).releases.get? (releaseKey name version) = some stored →
      ∃ before request later, ops = before ++ .publish request :: later ∧
        Accepted prims (LocalRegistry.new.after prims before) request ∧
        releaseKey request.archive.name request.archive.version = releaseKey name version ∧
        request.archive = stored.archive := by
  refine ⟨fun op e h => apply_error _ op h, fun name version a more h => ?_, (published_fresh .new ops).2.1,
    (published_fresh .new ops).2.2, fun name version stored h => ?_⟩
  · rw [after_append]
    exact download_stable more h
  · rcases after_stored ops h with ⟨stored', hempty, _⟩ | ⟨request, ⟨before, later, hops, haccepted⟩, hk, harchive⟩
    · cases hempty
    · exact ⟨before, request, later, hops, haccepted, hk, harchive⟩

end Registry
end Syllog
