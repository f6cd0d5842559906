import Syllog.ResolverSound
/-!
# ResolverComplete — when a resolution is found

A solution of the requirements guides the search: as long as only its releases were selected, every constraint is one it
satisfies, so nothing is broken and its next release is among the candidates (`Follows`), unless it is yanked and no pin on it
was found yet.  So the search is not given up with a conflict.  Two results rest on this: over an index without defects
`resolve` finds a resolution just when there is one, and yanking releases does not end in a conflict where the pins are found
in time.
-/
namespace Syllog
namespace Resolver

open Backtrack

variable {V Q : Type} {libs : Libraries V Q} {manifest : Manifest} {index : PackageIndex V} {policy : ResolvePolicy}

/-! ## Solutions -/

/-- The assignment has a release of this name that satisfies the requirement. -/
def Gives (libs : Libraries V Q) (chosen : String → Option (PackageRelease V)) (name text : String) : Prop :=
  ∃ r requirement, chosen name = some r ∧ libs.parseRequirement text = .ok requirement ∧
    libs.matches_ requirement r.version = true

/-- An assignment of at most one release to a name, with every dependency of the root and of its own releases. -/
structure Solves (libs : Libraries V Q) (manifest : Manifest) (releases : List (PackageRelease V))
    (chosen : String → Option (PackageRelease V)) : Prop where
  onIndex : ∀ name r, chosen name = some r → r ∈ releases ∧ r.name = name
  direct : ∀ name d, (name, d) ∈ manifest.dependencies.entries → Gives libs chosen name d.requirement
  closed : ∀ parent r, chosen parent = some r → ∀ name text, (name, text) ∈ r.dependencies.entries →
    Gives libs chosen name text

/-- The states of an online search that selects only releases of a kind. -/
inductive Guided (libs : Libraries V Q) (manifest : Manifest) (index : PackageIndex V) (keep : PackageRelease V → Prop) :
    State V Q → Prop where
  | root {constraints : Constraints Q} : rootConstraints libs manifest = .ok constraints →
      Guided libs manifest index keep ⟨.empty, constraints⟩
  | select {s s' : State V Q} {name : String} {r : PackageRelease V} : Guided libs manifest index keep s →
      nextPackage libs index ⟨false⟩ s = some name → r ∈ index name → keep r → choose libs s name r = .ok s' →
      Guided libs manifest index keep s'

/-- Whenever a search that selects only these releases comes to a yanked one, an exact requirement on it was found before. -/
def PinnedInTime (libs : Libraries V Q) (manifest : Manifest) (index : PackageIndex V) (keep : PackageRelease V → Prop) :
    Prop :=
  ∀ s name r, Guided libs manifest index keep s → nextPackage libs index ⟨false⟩ s = some name → r ∈ index name → keep r →
    r.yanked = true → ∃ c, Asks s.constraints name c ∧ c.exact = true

theorem Guided.mono {keep keep' : PackageRelease V → Prop} (hkeep : ∀ r, keep r → keep' r) {s : State V Q}
    (h : Guided libs manifest index keep s) : Guided libs manifest index keep' s := by
  induction h with
  | root hroot => exact .root hroot
  | select _ hnext hmem hr hchoose ih => exact .select ih hnext hmem (hkeep _ hr) hchoose

theorem PinnedInTime.mono {keep keep' : PackageRelease V → Prop} (hkeep : ∀ r, keep r → keep' r)
    (h : PinnedInTime libs manifest index keep') : PinnedInTime libs manifest index keep :=
  fun s name r hs hnext hmem hr => h s name r (hs.mono hkeep) hnext hmem (hkeep r hr)

/-! ## Following a solution -/

/-- Only releases of the assignment are selected, and it satisfies every constraint. -/
structure Follows (libs : Libraries V Q) (chosen : String → Option (PackageRelease V)) (s : State V Q) : Prop where
  selects : ∀ name r, s.selected.get? name = some r → chosen name = some r
  satisfied : ∀ name c, Asks s.constraints name c → ∃ r, chosen name = some r ∧ libs.matches_ c.requirement r.version = true
  occupied : Occupied s.constraints

theorem Gives.satisfied {chosen : String → Option (PackageRelease V)} {name text origin : String} {c : Constraint Q}
    (h : Gives libs chosen name text) (hc : Becomes libs origin text c) :
    ∃ r, chosen name = some r ∧ libs.matches_ c.requirement r.version = true := by
  obtain ⟨r, requirement, hr, hparse, hmatches⟩ := h
  have heq : requirement = c.requirement := by
    rw [hc.1] at hparse
    exact (Except.ok.inj hparse).symm
  exact ⟨r, hr, heq ▸ hmatches⟩

section
variable {releases : List (PackageRelease V)} {chosen : String → Option (PackageRelease V)}
  (hsolves : Solves libs manifest releases chosen)
include hsolves

/-- **Guided by a solution, a search follows it.** -/
theorem Guided.follows {s : State V Q}
    (h : Guided libs manifest (InMemoryIndex.new releases).releases (fun r => chosen r.name = some r) s) :
    Follows libs chosen s := by
  induction h with
  | root hroot =>
    refine ⟨fun name r hget => (by cases hget), fun name c hasks => ?_,
      addConstraints_occupied hroot fun _ _ hget => (by cases hget)⟩
    rcases (addConstraints_asks hroot name c).mp hasks with ⟨_, hempty, _⟩ | ⟨text, hmem, hb⟩
    · cases hempty
    · obtain ⟨⟨n, d⟩, hd, heq⟩ := List.mem_map.mp hmem
      cases heq
      exact (hsolves.direct _ d hd).satisfied hb
  | @select s s' name r _ _ hmem hr hchoose ih =>
    have hname : r.name = name := (InMemoryIndex.mem_releases.mp hmem).2
    rw [hname] at hr
    obtain ⟨_, hselected, hconstraints⟩ := choose_ok hchoose
    refine ⟨fun n r' hget => ?_, fun n c hasks => ?_, addConstraints_occupied hconstraints ih.occupied⟩
    · rw [hselected, OrdMap.get?_insert] at hget
      by_cases hn : name = n
      · rw [if_pos hn] at hget
        cases hget
        exact hn ▸ hr
      · rw [if_neg hn] at hget
        exact ih.selects n r' hget
    · rcases (addConstraints_asks hconstraints n c).mp hasks with hold | ⟨text, hmem, hb⟩
      · exact ih.satisfied n c hold
      · exact (hsolves.closed name r hr n text hmem).satisfied hb

end

theorem firstBroken_some {s : State V Q} {name : String} {active : List (Constraint Q)}
    (h : firstBroken libs s = some (name, active)) : ∃ r c, s.selected.get? name = some r ∧ Asks s.constraints name c ∧
      libs.matches_ c.requirement r.version = false := by
  obtain ⟨⟨n, r⟩, hmem, hfound⟩ := List.exists_of_findSome?_eq_some h
  cases hget : s.constraints.get? n with
  | none => simp [hget] at hfound
  | some active' =>
    by_cases hsatisfies : satisfies libs active' r.version = true
    · simp [hget, hsatisfies] at hfound
    · simp only [hget, if_neg hsatisfies, Option.some.injEq, Prod.mk.injEq] at hfound
      obtain ⟨rfl, rfl⟩ := hfound
      obtain ⟨c, hc, hfails⟩ := List.all_eq_false.mp (Bool.not_eq_true _ ▸ hsatisfies)
      exact ⟨r, c, OrdMap.get?_eq_some_iff.mpr hmem, ⟨active', hget, hc⟩, by simpa using hfails⟩

theorem Follows.not_broken {chosen : String → Option (PackageRelease V)} {s : State V Q} (h : Follows libs chosen s) :
    firstBroken libs s = none := by
  cases hbroken : firstBroken libs s with
  | none => rfl
  | some broken =>
    obtain ⟨r, c, hget, hasks, hfails⟩ := firstBroken_some hbroken
    obtain ⟨r', hr', hmatches⟩ := h.satisfied _ c hasks
    rw [h.selects _ r hget] at hr'
    cases hr'
    rw [hmatches] at hfails
    cases hfails

/-- The release of the solution is admitted when its turn comes. -/
theorem Follows.admitted {chosen : String → Option (PackageRelease V)} {s : State V Q} (h : Follows libs chosen s)
    {name : String} {r : PackageRelease V} (hr : chosen name = some r)
    (hpinned : r.yanked = true → ∃ c, Asks s.constraints name c ∧ c.exact = true) : admits libs (s.active name) r = true := by
  have hmatches : ∀ c, Asks s.constraints name c → libs.matches_ c.requirement r.version = true := by
    intro c hc
    obtain ⟨r', hr', hmatches⟩ := h.satisfied name c hc
    rw [hr] at hr'
    cases hr'
    exact hmatches
  refine Bool.and_eq_true_iff.mpr ⟨List.all_eq_true.mpr fun c hc => hmatches c (asks_active.mpr hc), ?_⟩
  unfold usable
  cases hyanked : r.yanked with
  | false => rfl
  | true =>
    obtain ⟨c, hc, hexact⟩ := hpinned hyanked
    exact List.any_eq_true.mpr ⟨c, asks_active.mp hc, by rw [hexact, hmatches c hc]; rfl⟩

/-! ## Errors of an online search -/

/-- The error of a record or a requirement in itself. -/
def ResolveError.isDefect : ResolveError V → Bool
  | .conflict _ _           => false
  | .offlineUnavailable _ _ => false
  | _                       => true

theorem ResolveError.not_conflict_of_defect {e : ResolveError V} (h : e.isDefect = true) : e.isConflict = false := by
  cases e <;> first | rfl | cases h

theorem addConstraints_error {origin : String → String → String} : ∀ {l : List (String × String)} {constraints : Constraints Q}
    {e : ResolveError V}, addConstraints libs origin constraints l = .error e →
      e.isDefect = true ∧ ∃ name text, (name, text) ∈ l ∧ ∀ requirement, libs.parseRequirement text ≠ .ok requirement
  | [], _, _, h => by cases h
  | (package, text) :: rest, constraints, e, h => by
    unfold addConstraints addConstraint at h
    cases hparse : libs.parseRequirement text with
    | error reason =>
      simp only [hparse] at h
      cases h
      exact ⟨rfl, package, text, List.mem_cons_self, fun _ hok => by rw [hparse] at hok; cases hok⟩
    | ok requirement =>
      simp only [hparse] at h
      obtain ⟨hdefect, name, text', hmem, hfails⟩ := addConstraints_error h
      exact ⟨hdefect, name, text', List.mem_cons_of_mem _ hmem, hfails⟩

theorem choose_error {s : State V Q} {name : String} {r : PackageRelease V} {e : ResolveError V}
    (h : choose libs s name r = .error e) : e.isDefect = true ∧ (validateRelease libs r ≠ .ok () ∨
      ∃ n text, (n, text) ∈ r.dependencies.entries ∧ ∀ requirement, libs.parseRequirement text ≠ .ok requirement) := by
  unfold choose at h
  cases hvalid : validateRelease libs r with
  | error e' =>
    simp only [hvalid] at h
    cases h
    refine ⟨?_, .inl (by simp)⟩
    unfold validateRelease at hvalid
    split_ifs at hvalid with hdigest
    · cases hvalid
      rfl
    · cases hfind : r.archivePaths.find? unsafePath with
      | none => simp [hfind] at hvalid
      | some path =>
        simp only [hfind] at hvalid
        cases hvalid
        rfl
  | ok u =>
    simp only [hvalid] at h
    cases hadd : addConstraints libs (releaseOrigin libs r) s.constraints r.dependencies.entries with
    | ok constraints => simp [hadd] at h
    | error e' =>
      simp only [hadd] at h
      cases h
      obtain ⟨hdefect, hfails⟩ := addConstraints_error hadd
      exact ⟨hdefect, .inr hfails⟩

section
variable [LinearOrder V]

theorem candidates_online_ok {name : String} {active : List (Constraint Q)} {found : List (PackageRelease V)}
    (h : candidates libs index ⟨false⟩ name active = .ok found) {r : PackageRelease V} :
    r ∈ found ↔ r ∈ index name ∧ admits libs active r = true := by
  unfold candidates at h
  rcases offered_spec index name with ⟨hok, _⟩ | ⟨v, herror, _⟩
  · rw [hok] at h
    cases h
    rw [List.mem_filter, mem_sortReleases]
  · rw [herror] at h
    cases h

theorem candidates_online_error {name : String} {active : List (Constraint Q)} {e : ResolveError V}
    (h : candidates libs index ⟨false⟩ name active = .error e) :
    ∃ v, e = .ambiguousRelease name v ∧ TopClash (index name) v := by
  unfold candidates at h
  rcases offered_spec index name with ⟨hok, _⟩ | ⟨v, herror, htop⟩
  · rw [hok] at h
    cases h
  · rw [herror] at h
    cases h
    exact ⟨v, rfl, htop⟩

/-- A record with a defect that a search stops at. -/
def Faulty (libs : Libraries V Q) (index : PackageIndex V) : Prop :=
  ∃ name, (∃ v, TopClash (index name) v) ∨ ∃ r ∈ index name, validateRelease libs r ≠ .ok () ∨
    ∃ n text, (n, text) ∈ r.dependencies.entries ∧ ∀ requirement, libs.parseRequirement text ≠ .ok requirement

/-- **Online, an error is a conflict or the defect of a record.** -/
theorem explore_online_error {n : Nat} {s : State V Q} {e : ResolveError V}
    (h : explore (problem libs index ⟨false⟩) n s = some (.error e)) :
    e.isConflict = true ∨ (e.isDefect = true ∧ Faulty libs index) := by
  refine explore_errors (I := fun _ => True) (E := fun e => e.isConflict = true ∨ (e.isDefect = true ∧ Faulty libs index))
    (fun _ _ _ _ _ _ _ => trivial) (fun s e remember _ hnode => ?_) (fun s ways fallback _ hnode => ?_) n s e trivial h
  · rcases expand_refuse hnode with ⟨name, active, _, rfl⟩ | ⟨name, _, _, herror | ⟨_, rfl⟩⟩
    · exact .inl rfl
    · obtain ⟨v, rfl, htop⟩ := candidates_online_error herror
      exact .inr ⟨rfl, name, .inl ⟨v, htop⟩⟩
    · exact .inl rfl
  · obtain ⟨name, r, rest, _, _, hcandidates, rfl, rfl⟩ := expand_branch hnode
    refine ⟨.inl rfl, fun e hway => ?_⟩
    obtain ⟨release, hmem, hchoose⟩ := List.mem_map.mp hway
    obtain ⟨hdefect, hfault⟩ := choose_error hchoose
    exact .inr ⟨hdefect, name, .inr ⟨release, (mem_candidates hcandidates hmem).2.1, hfault⟩⟩

section
variable {releases : List (PackageRelease V)} {chosen : String → Option (PackageRelease V)}
  (hsolves : Solves libs manifest releases chosen) (hvalid : ∀ name r, chosen name = some r → validateRelease libs r = .ok ())
  (hpinned : PinnedInTime libs manifest (InMemoryIndex.new releases).releases (fun r => chosen r.name = some r))
include hsolves hvalid hpinned

omit [LinearOrder V] in
/-- **A guided state goes on**: selecting the release of the solution is possible. -/
theorem guided_goes_on {s : State V Q}
    (hs : Guided libs manifest (InMemoryIndex.new releases).releases (fun r => chosen r.name = some r) s) {name : String}
    (hnext : nextPackage libs (InMemoryIndex.new releases).releases ⟨false⟩ s = some name) :
    ∃ r s', r ∈ (InMemoryIndex.new releases).releases name ∧ admits libs (s.active name) r = true ∧
      choose libs s name r = .ok s' ∧
      Guided libs manifest (InMemoryIndex.new releases).releases (fun r => chosen r.name = some r) s' := by
  have hfollows := hs.follows hsolves
  obtain ⟨⟨active, hactive⟩, _⟩ := nextPackage_pending hnext
  obtain ⟨c, hc⟩ := List.exists_mem_of_ne_nil active (hfollows.occupied name active hactive)
  obtain ⟨r, hr, _⟩ := hfollows.satisfied name c ⟨active, hactive, hc⟩
  have hname := (hsolves.onIndex name r hr).2
  have hmem : r ∈ (InMemoryIndex.new releases).releases name := InMemoryIndex.mem_releases.mpr (hsolves.onIndex name r hr)
  have hkeep : chosen r.name = some r := hname.symm ▸ hr
  have hadmits := hfollows.admitted hr (hpinned s name r hs hnext hmem hkeep)
  cases hchoose : choose libs s name r with
  | ok s' => exact ⟨r, s', hmem, hadmits, hchoose, .select hs hnext hmem hkeep hchoose⟩
  | error e =>
    rcases (choose_error hchoose).2 with hinvalid | ⟨n, text, hdep, hfails⟩
    · exact absurd (hvalid name r hr) hinvalid
    · obtain ⟨_, requirement, _, hparse, _⟩ := hsolves.closed name r hr n text hdep
      exact absurd hparse (hfails requirement)

theorem guided_refuse {s : State V Q} {e : ResolveError V} {remember : Bool}
    (hs : Guided libs manifest (InMemoryIndex.new releases).releases (fun r => chosen r.name = some r) s)
    (hnode : expand libs (InMemoryIndex.new releases).releases ⟨false⟩ s = .refuse e remember) : e.isConflict = false := by
  rcases expand_refuse hnode with ⟨name, active, hbroken, _⟩ | ⟨name, _, hnext, herror | ⟨hempty, _⟩⟩
  · rw [(hs.follows hsolves).not_broken] at hbroken
    cases hbroken
  · obtain ⟨v, rfl, _⟩ := candidates_online_error herror
    rfl
  · obtain ⟨r, _, hmem, hadmits, _⟩ := guided_goes_on hsolves hvalid hpinned hs hnext
    have hr : r ∈ [] := (candidates_online_ok hempty).mpr ⟨hmem, hadmits⟩
    cases hr

theorem guided_branch {s : State V Q} {ways : List (Except (ResolveError V) (State V Q))} {fallback : ResolveError V}
    (hs : Guided libs manifest (InMemoryIndex.new releases).releases (fun r => chosen r.name = some r) s)
    (hnode : expand libs (InMemoryIndex.new releases).releases ⟨false⟩ s = .branch ways fallback) :
    (∀ e, .error e ∈ ways → e.isConflict = false) ∧ ∃ s', .ok s' ∈ ways ∧
      Guided libs manifest (InMemoryIndex.new releases).releases (fun r => chosen r.name = some r) s' := by
  obtain ⟨name, r₀, rest, _, hnext, hcandidates, rfl, _⟩ := expand_branch hnode
  obtain ⟨r, s', hmem, hadmits, hchoose, hs'⟩ := guided_goes_on hsolves hvalid hpinned hs hnext
  refine ⟨fun e hway => ?_, s', ?_, hs'⟩
  · obtain ⟨release, _, herror⟩ := List.mem_map.mp hway
    exact ResolveError.not_conflict_of_defect (choose_error herror).1
  · exact List.mem_map.mpr ⟨r, (candidates_online_ok hcandidates).mpr ⟨hmem, hadmits⟩, hchoose⟩

/-- **A solution is not missed**: where there is one with its pins in time, an error is the defect of a record. -/
theorem Solves.error_isDefect {e : ResolveError V}
    (h : Resolves libs manifest (InMemoryIndex.new releases).releases ⟨false⟩ (.error e)) :
    e.isDefect = true ∧ Faulty libs (InMemoryIndex.new releases).releases := by
  rcases h.explores with ⟨e', hroot, heq⟩ | ⟨constraints, o, hroot, ⟨n, hn⟩, ho⟩
  · obtain ⟨_, name, text, hmem, hfails⟩ := addConstraints_error hroot
    obtain ⟨⟨n, d⟩, hd, heq'⟩ := List.mem_map.mp hmem
    cases heq'
    obtain ⟨_, requirement, _, hparse, _⟩ := hsolves.direct _ d hd
    exact absurd hparse (hfails requirement)
  · cases o with
    | ok selected => cases ho
    | error e' =>
      cases ho
      have hkept : e.isConflict = false :=
        explore_complete (P := problem libs (InMemoryIndex.new releases).releases ⟨false⟩)
          (fun _ _ _ hs hnode => guided_refuse hsolves hvalid hpinned hs hnode)
          (fun _ _ _ hs hnode => guided_branch hsolves hvalid hpinned hs hnode) n _ e (.root hroot) hn
      rcases explore_online_error hn with hconflict | hdefect
      · rw [hkept] at hconflict
        cases hconflict
      · exact hdefect

end

/-! ## An index without defects -/

/-- Nothing is yanked, every requirement parses, a version of a name has one record, and every record passes its checks. -/
structure Clean (libs : Libraries V Q) (manifest : Manifest) (releases : List (PackageRelease V)) : Prop where
  notYanked : ∀ r ∈ releases, r.yanked = false
  rootParses : ∀ name d, (name, d) ∈ manifest.dependencies.entries →
    ∃ requirement, libs.parseRequirement d.requirement = .ok requirement
  parses : ∀ r ∈ releases, ∀ name text, (name, text) ∈ r.dependencies.entries →
    ∃ requirement, libs.parseRequirement text = .ok requirement
  oneRecord : ∀ a ∈ releases, ∀ b ∈ releases, a.name = b.name → a.version = b.version → a = b
  valid : ∀ r ∈ releases, validateRelease libs r = .ok ()

section
variable {releases : List (PackageRelease V)} (hclean : Clean libs manifest releases)
include hclean

theorem Clean.not_faulty : ¬Faulty libs (InMemoryIndex.new releases).releases := by
  rintro ⟨name, ⟨v, ⟨a, ha, b, hb, hav, hbv, hab⟩, _⟩ | ⟨r, hr, hinvalid | ⟨n, text, hmem, hfails⟩⟩⟩
  · rw [InMemoryIndex.mem_releases] at ha hb
    exact hab (hclean.oneRecord a ha.1 b hb.1 (ha.2.trans hb.2.symm) (hav.trans hbv.symm))
  · exact hinvalid (hclean.valid r (InMemoryIndex.mem_releases.mp hr).1)
  · obtain ⟨requirement, hparse⟩ := hclean.parses r (InMemoryIndex.mem_releases.mp hr).1 n text hmem
    exact hfails requirement hparse

theorem Clean.error_isConflict {e : ResolveError V}
    (h : Resolves libs manifest (InMemoryIndex.new releases).releases ⟨false⟩ (.error e)) : e.isConflict = true := by
  rcases h.explores with ⟨e', hroot, _⟩ | ⟨constraints, o, hroot, ⟨n, hn⟩, ho⟩
  · obtain ⟨_, name, text, hmem, hfails⟩ := addConstraints_error hroot
    obtain ⟨⟨n, d⟩, hd, heq⟩ := List.mem_map.mp hmem
    cases heq
    obtain ⟨requirement, hparse⟩ := hclean.rootParses _ d hd
    exact absurd hparse (hfails requirement)
  · cases o with
    | ok selected => cases ho
    | error e' =>
      cases ho
      rcases explore_online_error hn with hconflict | ⟨_, hfaulty⟩
      · exact hconflict
      · exact absurd hfaulty hclean.not_faulty

end

/-- The newest `front` cannot be had with the `back` that the root asks for. -/
def diamond : List (PackageRelease Sample.Version) :=
  [Sample.release "front" (Sample.version 1 1 0) [("back", "^2")],
   Sample.release "front" (Sample.version 1 0 0) [("back", "^1")],
   Sample.release "back" (Sample.version 2 0 0) [],
   Sample.release "back" (Sample.version 1 0 0) []]

end

end Resolver
end Syllog
