import Syllog.ResolverSearch
import Syllog.LockGraph
/-!
# ResolverSound — what a resolution is when there is one

Along the search every selection is justified: its record is on the index and was checked, a constraint asked for it, and every
constraint comes from the manifest or from a selected release (`Justified`).  Where the search is done nothing is pending and
nothing is broken, so the selection meets every requirement (`SoundSelection`), and the lock file made of it is accepted by
the check of the command line.
-/
namespace Syllog
namespace Resolver

open Backtrack

variable {V Q : Type} {libs : Libraries V Q} {manifest : Manifest} {index : PackageIndex V} {policy : ResolvePolicy}

/-! ## Who asks -/

/-- The root or a selected release requires this of a package. -/
def Requires (manifest : Manifest) (selected : Selected V) (name text : String) : Prop :=
  (∃ d, (name, d) ∈ manifest.dependencies.entries ∧ d.requirement = text) ∨
  ∃ parent r, selected.get? parent = some r ∧ (name, text) ∈ r.dependencies.entries

/-- The root needs this name: directly, or through the dependencies of a selected release that it needs. -/
inductive Wanted (manifest : Manifest) (selected : Selected V) : String → Prop where
  | root {name : String} : name ∈ manifest.dependencies.keys → Wanted manifest selected name
  | through {parent name : String} {r : PackageRelease V} : selected.get? parent = some r → Wanted manifest selected parent →
      name ∈ r.dependencies.keys → Wanted manifest selected name

theorem get?_insert_new {selected : Selected V} {name n : String} {r r' : PackageRelease V}
    (hnew : selected.get? name = none) (h : selected.get? n = some r') : (selected.insert name r).get? n = some r' := by
  have hne : name ≠ n := by
    rintro rfl
    rw [hnew] at h
    cases h
  rw [OrdMap.get?_insert, if_neg hne, h]

theorem Wanted.insert {selected : Selected V} {name n : String} {r : PackageRelease V} (hnew : selected.get? name = none)
    (h : Wanted manifest selected n) : Wanted manifest (selected.insert name r) n := by
  induction h with
  | root hname => exact .root hname
  | through hget _ hname ih => exact .through (get?_insert_new hnew hget) ih hname

theorem requires_insert {selected : Selected V} {name n text : String} {r : PackageRelease V}
    (hnew : selected.get? name = none) :
    Requires manifest (selected.insert name r) n text ↔
      Requires manifest selected n text ∨ (n, text) ∈ r.dependencies.entries := by
  constructor
  · rintro (hroot | ⟨parent, r', hget, hmem⟩)
    · exact .inl (.inl hroot)
    · rw [OrdMap.get?_insert] at hget
      by_cases hparent : name = parent
      · rw [if_pos hparent] at hget
        cases hget
        exact .inr hmem
      · rw [if_neg hparent] at hget
        exact .inl (.inr ⟨parent, r', hget, hmem⟩)
  · rintro ((hroot | ⟨parent, r', hget, hmem⟩) | hmem)
    · exact .inl hroot
    · exact .inr ⟨parent, r', get?_insert_new hnew hget, hmem⟩
    · exact .inr ⟨name, r, by simp, hmem⟩

theorem Requires.wanted {selected : Selected V} {name text : String} (h : Requires manifest selected name text)
    (hselected : ∀ n r, selected.get? n = some r → Wanted manifest selected n) : Wanted manifest selected name := by
  rcases h with ⟨d, hmem, _⟩ | ⟨parent, r, hget, hmem⟩
  · exact .root (List.mem_map.mpr ⟨(name, d), hmem, rfl⟩)
  · exact .through hget (hselected parent r hget) (List.mem_map.mpr ⟨(name, text), hmem, rfl⟩)

/-! ## What adding constraints leaves -/

/-- Every requirement that was added has its constraint. -/
theorem addConstraints_heard {origin : String → String → String} : ∀ {l : List (String × String)}
    {constraints constraints' : Constraints Q}, addConstraints libs origin constraints l = .ok constraints' →
      ∀ name text, (name, text) ∈ l → ∃ c, Asks constraints' name c ∧ c.text = text
  | [], _, _, _ => by simp
  | (package, text) :: rest, constraints, constraints', h => by
    intro name text' hmem
    unfold addConstraints at h
    cases hadd : addConstraint libs constraints package text (origin package text) with
    | error e => simp [hadd] at h
    | ok next =>
      simp only [hadd] at h
      rcases List.mem_cons.mp hmem with heq | hmem
      · cases heq
        obtain ⟨c, hbecomes, rfl⟩ := addConstraint_ok hadd
        exact ⟨c, (addConstraints_asks h _ c).mpr (.inl (asks_insert.mpr (.inr ⟨rfl, rfl⟩))), hbecomes.2.1⟩
      · exact addConstraints_heard h name text' hmem

/-- No package is listed without a constraint. -/
def Occupied (constraints : Constraints Q) : Prop := ∀ name active, constraints.get? name = some active → active ≠ []

theorem addConstraints_occupied {origin : String → String → String} : ∀ {l : List (String × String)}
    {constraints constraints' : Constraints Q}, addConstraints libs origin constraints l = .ok constraints' →
      Occupied constraints → Occupied constraints'
  | [], _, _, h, hold => by
    cases h
    exact hold
  | (package, text) :: rest, constraints, constraints', h, hold => by
    unfold addConstraints at h
    cases hadd : addConstraint libs constraints package text (origin package text) with
    | error e => simp [hadd] at h
    | ok next =>
      simp only [hadd] at h
      refine addConstraints_occupied h fun name active hget => ?_
      obtain ⟨c, _, rfl⟩ := addConstraint_ok hadd
      rw [OrdMap.get?_insert] at hget
      by_cases hname : package = name
      · rw [if_pos hname] at hget
        cases hget
        simp
      · rw [if_neg hname] at hget
        exact hold name active hget

/-! ## Justified states -/

/-- Constraints and requirements correspond, and every selection was checked, admitted and asked for. -/
structure Justified (libs : Libraries V Q) (manifest : Manifest) (policy : ResolvePolicy) (s : State V Q) : Prop where
  asked : ∀ name c, Asks s.constraints name c → Requires manifest s.selected name c.text
  heard : ∀ name text, Requires manifest s.selected name text → ∃ c, Asks s.constraints name c ∧ c.text = text
  occupied : Occupied s.constraints
  checked : ∀ name r, s.selected.get? name = some r → validateRelease libs r = .ok () ∧
    (policy.offline = true → r.availableOffline = true)
  pinned : ∀ name r, s.selected.get? name = some r → r.yanked = true →
    ∃ c, Asks s.constraints name c ∧ c.exact = true ∧ libs.matches_ c.requirement r.version = true
  wanted : ∀ name r, s.selected.get? name = some r → Wanted manifest s.selected name

theorem justified_root {constraints : Constraints Q} (h : rootConstraints libs manifest = .ok constraints) :
    Justified libs manifest policy ⟨.empty, constraints⟩ where
  asked name c hasks := by
    rcases (addConstraints_asks h name c).mp hasks with ⟨_, hempty, _⟩ | ⟨text, hmem, hb⟩
    · cases hempty
    · obtain ⟨⟨n, d⟩, hd, heq⟩ := List.mem_map.mp hmem
      cases heq
      exact .inl ⟨d, hd, hb.2.1.symm⟩
  heard name text hrequires := by
    rcases hrequires with ⟨d, hmem, rfl⟩ | ⟨_, _, hget, _⟩
    · exact addConstraints_heard h name d.requirement (List.mem_map.mpr ⟨(name, d), hmem, rfl⟩)
    · cases hget
  occupied := addConstraints_occupied h fun _ _ hget => (by cases hget)
  checked _ _ hget := by cases hget
  pinned _ _ hget := by cases hget
  wanted _ _ hget := by cases hget

theorem pinned_of_usable {active : List (Constraint Q)} {r : PackageRelease V} (h : usable libs active r = true)
    (hyanked : r.yanked = true) : ∃ c ∈ active, c.exact = true ∧ libs.matches_ c.requirement r.version = true := by
  simpa [usable, hyanked] using h

/-- **A step keeps a state justified**: the new release was checked, its constraints admitted it, and one of them asked
for it. -/
theorem Justified.choose {s s' : State V Q} {name : String} {r : PackageRelease V} (hs : Justified libs manifest policy s)
    (hpending : (∃ active, s.constraints.get? name = some active) ∧ s.selected.get? name = none)
    (hadmits : admits libs (s.active name) r = true) (havailable : policy.offline = true → r.availableOffline = true)
    (h : Resolver.choose libs s name r = .ok s') : Justified libs manifest policy s' := by
  obtain ⟨hvalid, hselected, hconstraints⟩ := choose_ok h
  obtain ⟨⟨active, hactive⟩, hnew⟩ := hpending
  have hasks := addConstraints_asks hconstraints
  have hkept : ∀ n c, Asks s.constraints n c → Asks s'.constraints n c := fun n c hc => (hasks n c).mpr (.inl hc)
  have hsplit : ∀ n r', s'.selected.get? n = some r' → (n = name ∧ r' = r) ∨ s.selected.get? n = some r' := by
    intro n r' hget
    rw [hselected, OrdMap.get?_insert] at hget
    by_cases hn : name = n
    · rw [if_pos hn] at hget
      exact .inl ⟨hn.symm, (Option.some.inj hget).symm⟩
    · rw [if_neg hn] at hget
      exact .inr hget
  refine ⟨fun n c hc => ?_, fun n text hrequires => ?_, addConstraints_occupied hconstraints hs.occupied,
    fun n r' hget => ?_, fun n r' hget hyanked => ?_, fun n r' hget => ?_⟩
  · rw [hselected, requires_insert hnew]
    rcases (hasks n c).mp hc with hold | ⟨text, hmem, hb⟩
    · exact .inl (hs.asked n c hold)
    · exact .inr (hb.2.1 ▸ hmem)
  · rw [hselected, requires_insert hnew] at hrequires
    rcases hrequires with hold | hmem
    · obtain ⟨c, hc, htext⟩ := hs.heard n text hold
      exact ⟨c, hkept n c hc, htext⟩
    · exact addConstraints_heard hconstraints n text hmem
  · rcases hsplit n r' hget with ⟨rfl, rfl⟩ | hget
    · exact ⟨hvalid, havailable⟩
    · exact hs.checked n r' hget
  · rcases hsplit n r' hget with ⟨rfl, rfl⟩ | hget
    · obtain ⟨c, hc, hexact⟩ := pinned_of_usable (Bool.and_eq_true_iff.mp hadmits).2 hyanked
      exact ⟨c, hkept n c (asks_active.mpr hc), hexact⟩
    · obtain ⟨c, hc, hexact⟩ := hs.pinned n r' hget hyanked
      exact ⟨c, hkept n c hc, hexact⟩
  · rw [hselected]
    rcases hsplit n r' hget with ⟨rfl, rfl⟩ | hget
    · obtain ⟨c, hc⟩ := List.exists_mem_of_ne_nil active (hs.occupied n active hactive)
      exact ((hs.asked n c ⟨active, hactive, hc⟩).wanted hs.wanted).insert hnew
    · exact (hs.wanted n r' hget).insert hnew

theorem justified_keeps [LinearOrder V] :
    Keeps (problem libs index policy) (fun s => Grounded libs index s ∧ Justified libs manifest policy s) := by
  intro s ways fallback s' hs hnode hway
  refine ⟨grounded_keeps s ways fallback s' hs.1 hnode hway, ?_⟩
  obtain ⟨name, r, rest, _, hnext, hcandidates, rfl, _⟩ := expand_branch hnode
  obtain ⟨release, hmem, hchoose⟩ := List.mem_map.mp hway
  obtain ⟨_, _, hadmits, havailable⟩ := mem_candidates hcandidates hmem
  exact hs.2.choose (nextPackage_pending hnext) hadmits havailable hchoose

/-! ## Solutions -/

/-- A selection as it should be. -/
structure SoundSelection (libs : Libraries V Q) (manifest : Manifest) (index : PackageIndex V) (policy : ResolvePolicy)
    (selected : Selected V) : Prop where
  onIndex : ∀ name r, selected.get? name = some r → r ∈ index name ∧ Unambiguous (index name)
  checked : ∀ name r, selected.get? name = some r → validateRelease libs r = .ok () ∧
    (policy.offline = true → r.availableOffline = true)
  met : ∀ name text, Requires manifest selected name text → ∃ r, selected.get? name = some r ∧
    ∃ requirement, libs.parseRequirement text = .ok requirement ∧ libs.matches_ requirement r.version = true
  pinned : ∀ name r, selected.get? name = some r → r.yanked = true →
    ∃ text requirement, Requires manifest selected name text ∧ isExact text = true ∧
      libs.parseRequirement text = .ok requirement ∧ libs.matches_ requirement r.version = true
  wanted : ∀ name r, selected.get? name = some r → Wanted manifest selected name

theorem satisfies_of_not_broken {s : State V Q} (h : firstBroken libs s = none) {name : String} {r : PackageRelease V}
    (hget : s.selected.get? name = some r) {c : Constraint Q} (hc : Asks s.constraints name c) :
    libs.matches_ c.requirement r.version = true := by
  obtain ⟨active, hactive, hmem⟩ := hc
  have hnone := List.findSome?_eq_none_iff.mp h (name, r) (OrdMap.get?_eq_some_iff.mp hget)
  have hsatisfies : satisfies libs active r.version = true := by
    by_contra hbroken
    simp [hactive, hbroken] at hnone
  exact List.all_eq_true.mp hsatisfies c hmem

theorem selected_of_none_pending {s : State V Q} (h : nextPackage libs index policy s = none) {name : String}
    {c : Constraint Q} (hc : Asks s.constraints name c) : ∃ r, s.selected.get? name = some r := by
  obtain ⟨active, hactive, _⟩ := hc
  have hnone : pending s = [] := List.argmin_eq_none.mp h
  by_contra hmissing
  have hget : s.selected.get? name = none := by
    cases hget : s.selected.get? name with
    | none => rfl
    | some r => exact absurd ⟨r, hget⟩ hmissing
  have hmem : name ∈ pending s :=
    List.mem_filter.mpr ⟨OrdMap.mem_keys_iff.mpr ⟨active, hactive⟩, by simp [OrdMap.contains, hget]⟩
  rw [hnone] at hmem
  cases hmem

/-- **Where the search is done, the selection is sound.** -/
theorem soundSelection_of_done [LinearOrder V] {s : State V Q} (hgrounded : Grounded libs index s)
    (hs : Justified libs manifest policy s) {selected : Selected V} (h : expand libs index policy s = .done selected) :
    SoundSelection libs manifest index policy selected := by
  obtain ⟨rfl, hbroken, hnext⟩ := expand_done h
  refine ⟨fun name r hget => ⟨hgrounded.onIndex name r hget, hgrounded.onOffer name r hget⟩, hs.checked,
    fun name text hrequires => ?_, fun name r hget hyanked => ?_, hs.wanted⟩
  · obtain ⟨c, hc, rfl⟩ := hs.heard name text hrequires
    obtain ⟨r, hget⟩ := selected_of_none_pending hnext hc
    exact ⟨r, hget, c.requirement, (hgrounded.parsed name c hc).1, satisfies_of_not_broken hbroken hget hc⟩
  · obtain ⟨c, hc, hexact, hmatches⟩ := hs.pinned name r hget hyanked
    obtain ⟨hparse, _, _, htext⟩ := hgrounded.parsed name c hc
    exact ⟨c.text, c.requirement, hs.asked name c hc, htext ▸ hexact, hparse, hmatches⟩

theorem Resolves.soundSelection [LinearOrder V] {resolved : Resolution V}
    (h : Resolves libs manifest index policy (.ok resolved)) :
    ∃ selected, resolved = resolution selected ∧ SoundSelection libs manifest index policy selected := by
  rcases h.explores with ⟨e, _, herror⟩ | ⟨constraints, o, hroot, ⟨n, hn⟩, ho⟩
  · cases herror
  · cases o with
    | error e => cases ho
    | ok selected =>
      cases ho
      obtain ⟨t, ⟨hgrounded, hjustified⟩, hdone⟩ :=
        explore_sound justified_keeps n _ selected ⟨grounded_root index hroot, justified_root hroot⟩ hn
      exact ⟨selected, rfl, soundSelection_of_done hgrounded hjustified hdone⟩

/-! ## Resolutions -/

/-- A resolution as it should be, with the releases it is made of: one for every package, on the index, checked, cached if it
has to be, and pinned if it is yanked. -/
structure Sound (libs : Libraries V Q) (manifest : Manifest) (releases : List (PackageRelease V)) (policy : ResolvePolicy)
    (resolved : Resolution V) (chosen : List (PackageRelease V)) : Prop where
  locks : List.Forall₂ (fun p r => p.name = r.name ∧ p.version = r.version ∧ p.checksum = r.checksum ∧
    p.dependencies.keys = r.dependencies.keys) resolved.packages chosen
  onIndex : ∀ r ∈ chosen, r ∈ releases
  oneEach : (resolved.packages.map (·.name)).Nodup
  direct : ∀ name d, (name, d) ∈ manifest.dependencies.entries → Met libs resolved name d.requirement
  met : ∀ r ∈ chosen, ∀ name text, (name, text) ∈ r.dependencies.entries → Met libs resolved name text
  locked : ∀ p ∈ resolved.packages, ∀ name version, (name, version) ∈ p.dependencies.entries →
    ∃ p' ∈ resolved.packages, p'.name = name ∧ p'.version = version
  needed : ∀ p ∈ resolved.packages, Needed manifest resolved p.name
  intact : ∀ r ∈ chosen, libs.digest r.content = r.checksum ∧ ∀ path ∈ r.archivePaths, unsafePath path = false
  available : policy.offline = true → ∀ r ∈ chosen, r.availableOffline = true
  pinned : ∀ r ∈ chosen, r.yanked = true → ∃ text requirement, isExact text = true ∧
    libs.parseRequirement text = .ok requirement ∧ libs.matches_ requirement r.version = true ∧
    ((∃ d, (r.name, d) ∈ manifest.dependencies.entries ∧ d.requirement = text) ∨
      ∃ r' ∈ chosen, (r.name, text) ∈ r'.dependencies.entries)

theorem validateRelease_ok {r : PackageRelease V} (h : validateRelease libs r = .ok ()) :
    libs.digest r.content = r.checksum ∧ ∀ path ∈ r.archivePaths, unsafePath path = false := by
  unfold validateRelease at h
  split_ifs at h with hdigest
  cases hfind : r.archivePaths.find? unsafePath with
  | some path => simp [hfind] at h
  | none => exact ⟨not_not.mp hdigest, by simpa using List.find?_eq_none.mp hfind⟩

theorem mem_values_iff {selected : Selected V} {r : PackageRelease V} :
    r ∈ selected.values ↔ ∃ name, selected.get? name = some r := by
  simp [OrdMap.values, OrdMap.get?_eq_some_iff]

section
variable {selected : Selected V} (hsound : SoundSelection libs manifest index policy selected)
  (hnamed : ∀ name r, r ∈ index name → r.name = name)
include hsound hnamed

theorem SoundSelection.name_eq {name : String} {r : PackageRelease V} (hget : selected.get? name = some r) : r.name = name :=
  hnamed name r (hsound.onIndex name r hget).1

theorem SoundSelection.get?_of_mem {r : PackageRelease V} (hr : r ∈ selected.values) : selected.get? r.name = some r := by
  obtain ⟨name, hget⟩ := mem_values_iff.mp hr
  rw [hsound.name_eq hnamed hget, hget]

theorem SoundSelection.met_locked {name text : String} (h : Requires manifest selected name text) :
    Met libs (resolution selected) name text := by
  obtain ⟨r, hget, hmatches⟩ := hsound.met name text h
  refine ⟨lockedPackage selected r, List.mem_map.mpr ⟨r, mem_values_iff.mpr ⟨name, hget⟩, rfl⟩, ?_, hmatches⟩
  exact hsound.name_eq hnamed hget

omit hnamed in
theorem SoundSelection.lock_keys {r : PackageRelease V} (hr : r ∈ selected.values) :
    (lockedPackage selected r).dependencies.keys = r.dependencies.keys := by
  obtain ⟨parent, hget⟩ := mem_values_iff.mp hr
  refine OrdMap.keys_filterMap fun name text hmem => ?_
  obtain ⟨r', hget', _⟩ := hsound.met name text (.inr ⟨parent, r, hget, hmem⟩)
  simp [hget']

theorem SoundSelection.needed {name : String} (h : Wanted manifest selected name) :
    Needed manifest (resolution selected) name := by
  induction h with
  | root hname => exact .direct hname
  | @through parent name r hget _ hname ih =>
    have hr : r ∈ selected.values := mem_values_iff.mpr ⟨parent, hget⟩
    have hmem : lockedPackage selected r ∈ (resolution selected).packages := List.mem_map.mpr ⟨r, hr, rfl⟩
    refine .through hmem ?_ (by rw [hsound.lock_keys hr]; exact hname)
    rw [show (lockedPackage selected r).name = parent from hsound.name_eq hnamed hget]
    exact ih

theorem SoundSelection.sound {releases : List (PackageRelease V)} (hindex : ∀ name r, r ∈ index name → r ∈ releases) :
    Sound libs manifest releases policy (resolution selected) selected.values where
  locks := by
    refine List.forall₂_map_left_iff.mpr (List.forall₂_same.mpr fun r hr => ⟨rfl, rfl, rfl, hsound.lock_keys hr⟩)
  onIndex r hr := hindex r.name r (hsound.onIndex _ _ (hsound.get?_of_mem hnamed hr)).1
  oneEach := by
    have hkeys : (resolution selected).packages.map (·.name) = selected.keys := by
      simp only [resolution, OrdMap.values, OrdMap.keys, List.map_map]
      refine List.map_congr_left fun e he => ?_
      exact hsound.name_eq hnamed (OrdMap.get?_eq_some_iff.mpr he)
    rw [hkeys]
    exact selected.nodup_keys
  direct name d hmem := hsound.met_locked hnamed (.inl ⟨d, hmem, rfl⟩)
  met r hr name text hmem := hsound.met_locked hnamed (.inr ⟨r.name, r, hsound.get?_of_mem hnamed hr, hmem⟩)
  locked p hp name version hmem := by
    obtain ⟨r, _, rfl⟩ := List.mem_map.mp hp
    have hget := OrdMap.get?_eq_some_iff.mpr hmem
    rw [lockedPackage, OrdMap.get?_filterMap] at hget
    obtain ⟨_, _, hversion⟩ := Option.bind_eq_some_iff.mp hget
    obtain ⟨r', hget', rfl⟩ := Option.map_eq_some_iff.mp hversion
    refine ⟨lockedPackage selected r', List.mem_map.mpr ⟨r', mem_values_iff.mpr ⟨name, hget'⟩, rfl⟩, ?_, rfl⟩
    exact hsound.name_eq hnamed hget'
  needed p hp := by
    obtain ⟨r, hr, rfl⟩ := List.mem_map.mp hp
    exact hsound.needed hnamed (hsound.wanted r.name r (hsound.get?_of_mem hnamed hr))
  intact r hr := validateRelease_ok (hsound.checked _ _ (hsound.get?_of_mem hnamed hr)).1
  available hoffline r hr := (hsound.checked _ _ (hsound.get?_of_mem hnamed hr)).2 hoffline
  pinned r hr hyanked := by
    obtain ⟨text, requirement, hrequires, hexact, hparse, hmatches⟩ :=
      hsound.pinned r.name r (hsound.get?_of_mem hnamed hr) hyanked
    refine ⟨text, requirement, hexact, hparse, hmatches, ?_⟩
    rcases hrequires with hroot | ⟨parent, r', hget', hmem⟩
    · exact .inl hroot
    · exact .inr ⟨r', mem_values_iff.mpr ⟨parent, hget'⟩, hmem⟩

end

theorem Sound.wellLocked {releases chosen : List (PackageRelease V)} {resolved : Resolution V}
    (h : Sound libs manifest releases policy resolved chosen) : WellLocked libs manifest resolved :=
  ⟨h.oneEach, h.direct, h.locked, h.needed⟩

theorem InMemoryIndex.mem_releases {releases : List (PackageRelease V)} {name : String} {r : PackageRelease V} :
    r ∈ (InMemoryIndex.new releases).releases name ↔ r ∈ releases ∧ r.name = name := by
  rw [InMemoryIndex.releases_new, List.mem_filter, decide_eq_true_iff]

/-- Two packages that need each other, one of them yanked and pinned by the other. -/
def entwined : List (PackageRelease Sample.Version) :=
  [Sample.release "left" (Sample.version 1 2 0) [("right", "=1.0.0")],
   { Sample.release "right" (Sample.version 1 0 0) [("left", "^1")] with yanked := true }]

end Resolver
end Syllog
