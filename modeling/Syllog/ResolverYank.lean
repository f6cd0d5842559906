import Syllog.ResolverComplete
/-!
# ResolverYank — what yanking releases does to a resolution

Marking releases yanked leaves every resolution a solution of the requirements.  The search still finds one if, whenever it
comes to a yanked release of the resolution, an exact requirement on it was found before; a requirement of the root always was.
What it cannot be kept from is another order of the packages, and with it a record whose defect stops it.
-/
namespace Syllog
namespace Resolver

open Backtrack

variable {V Q : Type} {libs : Libraries V Q} {manifest : Manifest}

/-- The second list is the first with some of its releases marked yanked. -/
def Yanks (releases releases' : List (PackageRelease V)) : Prop :=
  List.Forall₂ (fun r r' => r' = r ∨ r' = { r with yanked := true }) releases releases'

/-- The resolution has this version of this name. -/
def BelongsTo (resolved : Resolution V) (r : PackageRelease V) : Prop :=
  ∃ p ∈ resolved.packages, p.name = r.name ∧ p.version = r.version

instance [DecidableEq V] (resolved : Resolution V) : DecidablePred (BelongsTo resolved) := fun r =>
  inferInstanceAs (Decidable (∃ p ∈ resolved.packages, p.name = r.name ∧ p.version = r.version))

/-! ## Pins of the root -/

theorem Guided.root_asks {index : PackageIndex V} {keep : PackageRelease V → Prop} {s : State V Q}
    (h : Guided libs manifest index keep s) {name : String} {d : Dependency}
    (hd : (name, d) ∈ manifest.dependencies.entries) : ∃ c, Asks s.constraints name c ∧ c.exact = isExact d.requirement := by
  induction h with
  | root hroot =>
    obtain ⟨c, hc, htext⟩ := addConstraints_heard hroot name d.requirement (List.mem_map.mpr ⟨(name, d), hd, rfl⟩)
    rcases (addConstraints_asks hroot name c).mp hc with ⟨_, hempty, _⟩ | ⟨text, _, hb⟩
    · cases hempty
    · exact ⟨c, hc, by rw [hb.2.2.2, ← hb.2.1, htext]⟩
  | select _ _ _ _ hchoose ih =>
    obtain ⟨c, hc, hexact⟩ := ih
    exact ⟨c, (addConstraints_asks (choose_ok hchoose).2.2 name c).mpr (.inl hc), hexact⟩

/-- **A pin of the root is always in time.** -/
theorem pinnedInTime_of_root {releases : List (PackageRelease V)} {keep : PackageRelease V → Prop}
    (h : ∀ r ∈ releases, keep r → r.yanked = true →
      ∃ d, (r.name, d) ∈ manifest.dependencies.entries ∧ isExact d.requirement = true) :
    PinnedInTime libs manifest (InMemoryIndex.new releases).releases keep := by
  intro s name r hs _ hmem hkeep hyanked
  obtain ⟨hr, rfl⟩ := InMemoryIndex.mem_releases.mp hmem
  obtain ⟨d, hd, hexact⟩ := h r hr hkeep hyanked
  obtain ⟨c, hc, heq⟩ := hs.root_asks hd
  exact ⟨c, hc, heq.trans hexact⟩

/-! ## The resolution after yanking -/

theorem Yanks.mem {releases releases' : List (PackageRelease V)} (h : Yanks releases releases') {r : PackageRelease V}
    (hr : r ∈ releases) : ∃ r' ∈ releases', r' = r ∨ r' = { r with yanked := true } := by
  induction h with
  | nil => cases hr
  | @cons a a' l l' ha _ ih =>
    rcases List.mem_cons.mp hr with rfl | hr
    · exact ⟨a', List.mem_cons_self, ha⟩
    · obtain ⟨r', hr', heq⟩ := ih hr
      exact ⟨r', List.mem_cons_of_mem _ hr', heq⟩

theorem Yanks.mem_back {releases releases' : List (PackageRelease V)} (h : Yanks releases releases') {r' : PackageRelease V}
    (hr' : r' ∈ releases') : ∃ r ∈ releases, r' = r ∨ r' = { r with yanked := true } := by
  induction h with
  | nil => cases hr'
  | @cons a a' l l' ha _ ih =>
    rcases List.mem_cons.mp hr' with rfl | hr'
    · exact ⟨a, List.mem_cons_self, ha⟩
    · obtain ⟨r, hr, heq⟩ := ih hr'
      exact ⟨r, List.mem_cons_of_mem _ hr, heq⟩

/-- The record of a name that belongs to the resolution. -/
def belonging [DecidableEq V] (releases : List (PackageRelease V)) (resolved : Resolution V) (name : String) :
    Option (PackageRelease V) :=
  ((InMemoryIndex.new releases).releases name).find? fun r => BelongsTo resolved r

theorem belongsTo_of_belonging [DecidableEq V] {releases : List (PackageRelease V)} {resolved : Resolution V} {name : String}
    {r : PackageRelease V} (h : belonging releases resolved name = some r) : BelongsTo resolved r := by
  simpa using List.find?_some h

section
variable [DecidableEq V] {releases releases' : List (PackageRelease V)} {policy : ResolvePolicy} {selected : Selected V}
  (hsound : SoundSelection libs manifest (InMemoryIndex.new releases).releases policy selected)
  (hyanks : Yanks releases releases')
include hsound hyanks

/-- **What belongs to a resolution after yanking** is what was selected, yanked or not. -/
theorem SoundSelection.of_belonging {name : String} {r' : PackageRelease V}
    (h : belonging releases' (resolution selected) name = some r') :
    (r' ∈ releases' ∧ r'.name = name) ∧
      ∃ r, selected.get? name = some r ∧ (r' = r ∨ r' = { r with yanked := true }) := by
  obtain ⟨hr', hname⟩ := InMemoryIndex.mem_releases.mp (List.mem_of_find?_eq_some h)
  refine ⟨⟨hr', hname⟩, ?_⟩
  obtain ⟨p, hp, hpname, hversion⟩ := belongsTo_of_belonging h
  obtain ⟨r, hr, rfl⟩ := List.mem_map.mp hp
  have hget := hsound.get?_of_mem (fun _ _ hr => (InMemoryIndex.mem_releases.mp hr).2) hr
  rw [show r.name = name from hpname.trans hname] at hget
  obtain ⟨hindex, hone⟩ := hsound.onIndex name r hget
  -- the record it was before is the selected one, since it has its name and version
  obtain ⟨r₀, hr₀, hfrom⟩ := hyanks.mem_back hr'
  have hsame : r₀.name = r'.name ∧ r₀.version = r'.version := by
    rcases hfrom with rfl | rfl
    · exact ⟨rfl, rfl⟩
    · exact ⟨rfl, rfl⟩
  have heq : r₀ = r := hone r₀ (InMemoryIndex.mem_releases.mpr ⟨hr₀, hsame.1.trans hname⟩) r hindex
    (hsame.2.trans hversion.symm)
  exact ⟨r, hget, heq ▸ hfrom⟩

theorem SoundSelection.belonging_of {name : String} {r : PackageRelease V} (hget : selected.get? name = some r) :
    ∃ r', belonging releases' (resolution selected) name = some r' ∧ r'.version = r.version := by
  obtain ⟨hr, hname⟩ := InMemoryIndex.mem_releases.mp (hsound.onIndex name r hget).1
  obtain ⟨r', hr', hfrom⟩ := hyanks.mem hr
  have hsame : r'.name = r.name ∧ r'.version = r.version := by
    rcases hfrom with rfl | rfl
    · exact ⟨rfl, rfl⟩
    · exact ⟨rfl, rfl⟩
  have hbelongs : BelongsTo (resolution selected) r' :=
    ⟨lockedPackage selected r, List.mem_map.mpr ⟨r, mem_values_iff.mpr ⟨name, hget⟩, rfl⟩, hsame.1.symm, hsame.2.symm⟩
  cases hfind : belonging releases' (resolution selected) name with
  | none =>
    have hnot := List.find?_eq_none.mp hfind r' (InMemoryIndex.mem_releases.mpr ⟨hr', hsame.1.trans hname⟩)
    exact absurd (decide_eq_true hbelongs) hnot
  | some found =>
    obtain ⟨_, r₁, hget₁, hfrom₁⟩ := hsound.of_belonging hyanks hfind
    rw [hget] at hget₁
    cases hget₁
    refine ⟨found, rfl, ?_⟩
    rcases hfrom₁ with rfl | rfl
    · rfl
    · rfl

/-- **Yanking leaves a resolution a solution.** -/
theorem SoundSelection.solves_yanked : Solves libs manifest releases' (belonging releases' (resolution selected)) := by
  have hgives : ∀ name text, Requires manifest selected name text →
      Gives libs (belonging releases' (resolution selected)) name text := by
    intro name text hrequires
    obtain ⟨r, hget, requirement, hparse, hmatches⟩ := hsound.met name text hrequires
    obtain ⟨r', hr', hversion⟩ := hsound.belonging_of hyanks hget
    exact ⟨r', requirement, hr', hparse, hversion ▸ hmatches⟩
  refine ⟨fun name r' hr' => (hsound.of_belonging hyanks hr').1, fun name d hmem => hgives name _ (.inl ⟨d, hmem, rfl⟩),
    fun parent r' hr' name text hmem => ?_⟩
  obtain ⟨_, r, hget, hfrom⟩ := hsound.of_belonging hyanks hr'
  refine hgives name text (.inr ⟨parent, r, hget, ?_⟩)
  rcases hfrom with rfl | rfl
  · exact hmem
  · exact hmem

theorem SoundSelection.valid_yanked {name : String} {r' : PackageRelease V}
    (h : belonging releases' (resolution selected) name = some r') : validateRelease libs r' = .ok () := by
  obtain ⟨_, r, hget, hfrom⟩ := hsound.of_belonging hyanks h
  have hvalid := (hsound.checked name r hget).1
  rcases hfrom with rfl | rfl
  · exact hvalid
  · exact hvalid

end

/-- A yanked release that the root pins. -/
def pinnedOld : List (PackageRelease Sample.Version) :=
  [{ Sample.release "old" (Sample.version 1 0 0) [] with yanked := true }]

/-- Not the digest of an empty archive. -/
def noDigest : String := "0000000000000000000000000000000000000000000000000000000000000000"

/-- Three releases of `base`, one of them corrupt, and two of `tool`, the newer of which asks for the oldest `base`. -/
def contested : List (PackageRelease Sample.Version) :=
  [Sample.release "base" (Sample.version 1 2 0) [],
   { Sample.release "base" (Sample.version 1 1 0) [] with checksum := noDigest },
   Sample.release "base" (Sample.version 1 0 0) [],
   Sample.release "tool" (Sample.version 1 1 0) [("base", "=1.0.0")],
   Sample.release "tool" (Sample.version 1 0 0) []]

/-- The newest `base` was yanked. -/
def contestedYanked : List (PackageRelease Sample.Version) :=
  { Sample.release "base" (Sample.version 1 2 0) [] with yanked := true } :: contested.tail

end Resolver
end Syllog
