import Syllog.ResolverSearch
/-!
# ResolverIndexes — one resolution over two indexes

The order in which an index lists its releases does not matter: neither for the counts that choose the next package, nor for
the sorted releases, nor for the version that an ambiguity is reported for.  And an offline resolution does at every state what
an online one over the cached releases does, unless it stops because every release that would do is uncached, or because an
uncached record is ambiguous.
-/
namespace Syllog
namespace Resolver

open Backtrack

variable {V Q : Type} [LinearOrder V] {libs : Libraries V Q} {index index' : PackageIndex V} {policy : ResolvePolicy}

/-- Without ambiguity, a sorted list is known by its members. -/
theorem sorted_eq_of_perm {l l' : List (PackageRelease V)} (hl : l.Pairwise comesBefore) (hl' : l'.Pairwise comesBefore)
    (hunambiguous : Unambiguous l) (hperm : l.Perm l') : l = l' := by
  refine List.Perm.eq_of_pairwise (fun a b ha hb hab hba => ?_) hl hl' hperm
  have hversion : a.version = b.version := le_antisymm (comesBefore_version hba) (comesBefore_version hab)
  exact hunambiguous a ha b (hperm.mem_iff.mpr hb) hversion

/-! ## The order of the releases -/

theorem TopClash.unique {releases : List (PackageRelease V)} {v v' : V} (h : TopClash releases v) (h' : TopClash releases v') :
    v = v' := by
  obtain ⟨⟨a, ha, b, hb, hav, hbv, hab⟩, htop⟩ := h
  obtain ⟨⟨a', ha', b', hb', hav', hbv', hab'⟩, htop'⟩ := h'
  rcases lt_trichotomy v v' with hlt | heq | hlt
  · exact absurd (htop a' ha' b' hb' (hav' ▸ hlt) (hav'.trans hbv'.symm)) hab'
  · exact heq
  · exact absurd (htop' a ha b hb (hav ▸ hlt) (hav.trans hbv.symm)) hab

theorem not_topClash {releases : List (PackageRelease V)} {v : V} (h : Unambiguous releases) : ¬TopClash releases v := by
  rintro ⟨⟨a, ha, b, hb, hav, hbv, hab⟩, _⟩
  exact hab (h a ha b hb (hav.trans hbv.symm))

theorem offered_perm {name : String} (h : (index name).Perm (index' name)) : offered index name = offered index' name := by
  have hunambiguous : Unambiguous (index name) ↔ Unambiguous (index' name) := by simp [Unambiguous, h.mem_iff]
  have hclash : ∀ v, TopClash (index name) v ↔ TopClash (index' name) v := by simp [TopClash, h.mem_iff]
  rcases offered_spec index name with ⟨hok, hone⟩ | ⟨v, herror, htop⟩
  · rcases offered_spec index' name with ⟨hok', _⟩ | ⟨v', _, htop'⟩
    · have hsort : sortReleases (index name) = sortReleases (index' name) := by
        refine sorted_eq_of_perm (sortReleases_pairwise _) (sortReleases_pairwise _) ?_ ?_
        · simpa [Unambiguous, mem_sortReleases] using hone
        · exact (sortReleases_perm _).trans (h.trans (sortReleases_perm _).symm)
      rw [hok, hok', hsort]
    · exact absurd htop' (not_topClash (hunambiguous.mp hone))
  · rcases offered_spec index' name with ⟨_, hone'⟩ | ⟨v', herror', htop'⟩
    · exact absurd ((hclash v).mp htop) (not_topClash hone')
    · rw [herror, herror', ((hclash v).mp htop).unique htop']

theorem problem_perm (h : ∀ name, (index name).Perm (index' name)) :
    problem libs index policy = problem libs index' policy := by
  have hcount : ∀ name active, candidateCount libs index policy name active = candidateCount libs index' policy name active :=
    fun name _ => (h name).countP_eq _
  have hnode : expand libs index policy = expand libs index' policy := by
    funext s
    unfold expand nextPackage candidates
    simp only [hcount, offered_perm (h _)]
  unfold problem
  rw [hnode]

/-- The search stopped for want of a cached release, or for an ambiguous record. -/
def StopsOffline (e : ResolveError V) : Prop :=
  ∃ package version, e = .offlineUnavailable package version ∨ e = .ambiguousRelease package version

theorem sortReleases_filter {l : List (PackageRelease V)} (h : Unambiguous l) (p : PackageRelease V → Bool) :
    sortReleases (l.filter p) = (sortReleases l).filter p := by
  refine sorted_eq_of_perm (sortReleases_pairwise _) ((sortReleases_pairwise l).filter p) ?_ ?_
  · intro a ha b hb
    rw [mem_sortReleases, List.mem_filter] at ha hb
    exact h a ha.1 b hb.1
  · exact (sortReleases_perm _).trans ((sortReleases_perm l).filter p).symm

/-- Offline, the candidates are those of the cached releases, or there is none in the cache. -/
theorem candidates_offline (libs : Libraries V Q)
    (hcached : ∀ name, index' name = (index name).filter (·.availableOffline)) (name : String) (active : List (Constraint Q)) :
    candidates libs index ⟨true⟩ name active = candidates libs index' ⟨false⟩ name active ∨
    ∃ e, candidates libs index ⟨true⟩ name active = .error e ∧ StopsOffline e := by
  unfold candidates
  rcases offered_spec index name with ⟨hok, hone⟩ | ⟨v, herror, _⟩
  · have hone' : Unambiguous (index' name) := by
      rw [hcached name]
      exact fun a ha b hb => hone a (List.mem_filter.mp ha).1 b (List.mem_filter.mp hb).1
    have hok' : offered index' name = .ok (sortReleases (index' name)) := by
      rcases offered_spec index' name with ⟨hok', _⟩ | ⟨v, _, htop⟩
      · exact hok'
      · exact absurd htop (not_topClash hone')
    have hfilter : ((sortReleases (index name)).filter (admits libs active)).filter (·.availableOffline) =
        (sortReleases (index' name)).filter (admits libs active) := by
      rw [hcached name, sortReleases_filter hone, List.filter_comm]
    simp only [hok, hok', available, Bool.false_eq_true, if_false, if_true, hfilter]
    cases List.find? (!·.availableOffline) ((sortReleases (index name)).filter (admits libs active)) with
    | none => exact .inl rfl
    | some unavailable =>
      simp only
      split_ifs with hall
      · exact .inr ⟨_, rfl, name, unavailable.version, .inl rfl⟩
      · exact .inl rfl
  · simp only [herror]
    exact .inr ⟨_, rfl, name, v, .inr rfl⟩

omit [LinearOrder V] in
theorem candidateCount_offline (hcached : ∀ name, index' name = (index name).filter (·.availableOffline)) (name : String)
    (active : List (Constraint Q)) :
    candidateCount libs index ⟨true⟩ name active = candidateCount libs index' ⟨false⟩ name active := by
  unfold candidateCount
  rw [hcached name, List.countP_filter]
  simp

theorem expand_offline (libs : Libraries V Q)
    (hcached : ∀ name, index' name = (index name).filter (·.availableOffline)) (s : State V Q) :
    expand libs index ⟨true⟩ s = expand libs index' ⟨false⟩ s ∨
    ∃ e remember, expand libs index ⟨true⟩ s = .refuse e remember ∧ StopsOffline e := by
  have hnext : nextPackage libs index ⟨true⟩ s = nextPackage libs index' ⟨false⟩ s := by
    unfold nextPackage
    simp only [candidateCount_offline hcached]
  unfold expand
  rw [hnext]
  cases firstBroken libs s with
  | some broken => exact .inl rfl
  | none =>
    cases nextPackage libs index' ⟨false⟩ s with
    | none => exact .inl rfl
    | some name =>
      rcases candidates_offline libs hcached name (s.active name) with heq | ⟨e, herror, hstops⟩
      · exact .inl (by simp only [heq])
      · exact .inr ⟨e, false, by simp only [herror], hstops⟩

theorem Resolves.offline {manifest : Manifest} {releases : List (PackageRelease V)}
    {outcome : Except (ResolveError V) (Resolution V)}
    (h : Resolves libs manifest (InMemoryIndex.new releases).releases ⟨true⟩ outcome) :
    Resolves libs manifest (InMemoryIndex.new (releases.filter (·.availableOffline))).releases ⟨false⟩ outcome ∨
    ∃ e, outcome = .error e ∧ StopsOffline e := by
  have hcached : ∀ name, (InMemoryIndex.new (releases.filter (·.availableOffline))).releases name =
      ((InMemoryIndex.new releases).releases name).filter (·.availableOffline) := by
    intro name
    rw [InMemoryIndex.releases_new, InMemoryIndex.releases_new, List.filter_comm]
  rcases h.explores with ⟨e, hroot, rfl⟩ | ⟨constraints, o, hroot, ⟨n, hn⟩, rfl⟩
  · exact .inl ⟨0, by simp [resolveWithin, hroot]⟩
  · have hstop : ∀ e : ResolveError V, StopsOffline e → e.isConflict = false := by
      rintro e ⟨package, version, rfl | rfl⟩ <;> rfl
    rcases explore_refines (P := problem libs (InMemoryIndex.new releases).releases ⟨true⟩)
      (Q := problem libs (InMemoryIndex.new (releases.filter (·.availableOffline))).releases ⟨false⟩) rfl hstop
      (expand_offline libs hcached) n ⟨.empty, constraints⟩ with heq | ⟨e, hstops, herror⟩
    · rw [hn] at heq
      exact .inl (Resolves.of_explores hroot ⟨n, heq.symm⟩)
    · rw [hn] at herror
      cases herror
      exact .inr ⟨e, rfl, hstops⟩

/-- The newer `front` needs a release of `shared` that is not cached, the older one a cached one. -/
def partlyCached : List (PackageRelease Sample.Version) :=
  [Sample.release "front" (Sample.version 1 1 0) [("shared", "^2")],
   Sample.release "front" (Sample.version 1 0 0) [("shared", "^1")],
   { Sample.release "shared" (Sample.version 2 0 0) [] with availableOffline := false },
   Sample.release "shared" (Sample.version 1 0 0) []]

/-- A cached record and an uncached one of the same version. -/
def partlyAmbiguous : List (PackageRelease Sample.Version) :=
  [Sample.release "front" (Sample.version 1 0 0) [],
   { Sample.release "front" (Sample.version 1 0 0) [] with availableOffline := false }]

end Resolver
end Syllog
