import Syllog.Resolver
import Syllog.Worklist
/-!
# LockGraph — the check of a lock file against its manifest

`validate_lock_graph` of the command line: one package a name, every direct dependency locked at a version that satisfies its
requirement, every locked dependency at the version its package was locked with, and no package that the manifest does not
need.  `validateLockGraph_accepts_iff` says that it accepts the lock files that are so (`WellLocked`), and no others.
-/
namespace Syllog
namespace Resolver

variable {V Q : Type}

/-! ## The check -/

/-- The packages by their names. -/
def indexPackages : OrdMap String (LockedPackage V) → List (LockedPackage V) → Except String (OrdMap String (LockedPackage V))
  | packages, [] => .ok packages
  | packages, package :: rest =>
    if packages.contains package.name then .error ("Syllog.lock contains duplicate package '" ++ package.name ++ "'")
    else indexPackages (packages.insert package.name package) rest

/-- One direct dependency. -/
def checkDirect (libs : Libraries V Q) (packages : OrdMap String (LockedPackage V)) (name : String) (dependency : Dependency) :
    Except String Unit :=
  match packages.get? name with
  | none => .error ("Syllog.lock does not contain direct dependency '" ++ name ++ "'")
  | some package =>
    match libs.parseRequirement dependency.requirement with
    | .error _ => .error ("manifest has invalid version requirement for dependency '" ++ name ++ "'")
    | .ok requirement =>
      if libs.matches_ requirement package.version then .ok ()
      else .error ("locked package " ++ name ++ " " ++ libs.showVersion package.version ++
        " does not satisfy manifest requirement " ++ libs.showRequirement requirement)

/-- One locked dependency of a package. -/
def checkLocked [DecidableEq V] (libs : Libraries V Q) (packages : OrdMap String (LockedPackage V)) (package : LockedPackage V)
    (dependency : String) (expected : V) : Except String Unit :=
  match packages.get? dependency with
  | none => .error ("Syllog.lock omits dependency '" ++ dependency ++ "' required by " ++ package.name ++ " " ++
      libs.showVersion package.version)
  | some resolved =>
    if resolved.version = expected then .ok ()
    else .error ("Syllog.lock selects " ++ libs.showVersion resolved.version ++ " for " ++ dependency ++ ", but " ++
      package.name ++ " " ++ libs.showVersion package.version ++ " requires " ++ libs.showVersion expected)

/-- The names a locked name depends on. -/
def lockedNames (packages : OrdMap String (LockedPackage V)) (name : String) : List String :=
  match packages.get? name with
  | some package => package.dependencies.keys
  | none         => []

/-- The packages by their names, once the dependencies are checked. -/
def checkPackages [DecidableEq V] (libs : Libraries V Q) (manifest : Manifest) (resolution : Resolution V) :
    Except String (OrdMap String (LockedPackage V)) := do
  let packages ← indexPackages .empty resolution.packages
  manifest.dependencies.entries.forM fun (name, dependency) => checkDirect libs packages name dependency
  resolution.packages.forM fun package =>
    package.dependencies.entries.forM fun (dependency, expected) => checkLocked libs packages package dependency expected
  return packages

/-- `validate_lock_graph`, with at most `fuel` turns of its loop. -/
def validateLockGraph [DecidableEq V] (libs : Libraries V Q) (fuel : Nat) (manifest : Manifest) (resolution : Resolution V) :
    Option (Except String Unit) :=
  match checkPackages libs manifest resolution with
  | .error message => some (.error message)
  | .ok packages =>
    match Worklist.collect (lockedNames packages) fuel manifest.dependencies.keys.reverse ∅ with
    | none => none
    | some reachable =>
      match resolution.packages.find? fun package => package.name ∉ reachable with
      | some package => some (.error ("Syllog.lock contains unreachable package '" ++ package.name ++
          "'; regenerate the lockfile"))
      | none => some (.ok ())

/-- `validate_lock_graph` returns without an error. -/
def AcceptsLock [DecidableEq V] (libs : Libraries V Q) (manifest : Manifest) (resolution : Resolution V) : Prop :=
  ∃ fuel, validateLockGraph libs fuel manifest resolution = some (.ok ())

/-! ## What it accepts -/

/-- The manifest needs this name: directly, or through the locked dependencies of a package that it needs. -/
inductive Needed (manifest : Manifest) (resolution : Resolution V) : String → Prop where
  | direct {name : String} : name ∈ manifest.dependencies.keys → Needed manifest resolution name
  | through {package : LockedPackage V} {name : String} : package ∈ resolution.packages →
      Needed manifest resolution package.name → name ∈ package.dependencies.keys → Needed manifest resolution name

/-- A package is locked at a version that satisfies the requirement. -/
def Met (libs : Libraries V Q) (resolution : Resolution V) (name text : String) : Prop :=
  ∃ package ∈ resolution.packages, package.name = name ∧
    ∃ requirement, libs.parseRequirement text = .ok requirement ∧ libs.matches_ requirement package.version = true

/-- A lock file as it should be. -/
structure WellLocked (libs : Libraries V Q) (manifest : Manifest) (resolution : Resolution V) : Prop where
  oneEach : (resolution.packages.map (·.name)).Nodup
  direct : ∀ name dependency, (name, dependency) ∈ manifest.dependencies.entries →
    Met libs resolution name dependency.requirement
  locked : ∀ package ∈ resolution.packages, ∀ dependency expected, (dependency, expected) ∈ package.dependencies.entries →
    ∃ resolved ∈ resolution.packages, resolved.name = dependency ∧ resolved.version = expected
  needed : ∀ package ∈ resolution.packages, Needed manifest resolution package.name

theorem bind_ok_iff {ε α β : Type} {x : Except ε α} {f : α → Except ε β} {b : β} :
    (x >>= f) = .ok b ↔ ∃ a, x = .ok a ∧ f a = .ok b := by
  cases x with
  | error e => simp [bind, Except.bind]
  | ok a => simp [bind, Except.bind]

theorem forM_ok_iff {ε α : Type} {f : α → Except ε Unit} : ∀ {l : List α}, l.forM f = .ok () ↔ ∀ a ∈ l, f a = .ok ()
  | [] => by simp [List.forM, pure, Except.pure]
  | a :: l => by
    change (f a >>= fun _ => l.forM f) = .ok () ↔ _
    rw [bind_ok_iff, List.forall_mem_cons, forM_ok_iff]
    exact ⟨fun ⟨_, ha, h⟩ => ⟨ha, h⟩, fun ⟨ha, h⟩ => ⟨(), ha, h⟩⟩

theorem indexPackages_ok_iff : ∀ {l : List (LockedPackage V)} {m : OrdMap String (LockedPackage V)},
    (∃ packages, indexPackages m l = .ok packages) ↔ (l.map (·.name)).Nodup ∧ ∀ p ∈ l, m.get? p.name = none
  | [], m => by simp [indexPackages]
  | p :: l, m => by
    unfold indexPackages
    by_cases hdup : m.contains p.name = true
    · rw [if_pos hdup]
      have hsome : m.get? p.name ≠ none := by
        intro hnone
        simp [OrdMap.contains, hnone] at hdup
      simp [hsome]
    · have hnone : m.get? p.name = none := by simpa [OrdMap.contains] using hdup
      have hnew : (∀ q ∈ l, (m.insert p.name p).get? q.name = none) ↔
          p.name ∉ l.map (·.name) ∧ ∀ q ∈ l, m.get? q.name = none := by
        simp only [OrdMap.get?_insert, List.mem_map, not_exists, not_and, ← forall₂_and]
        refine forall₂_congr fun q _ => ?_
        by_cases hname : p.name = q.name
        · simp [hname]
        · simp [hname, Ne.symm hname]
      rw [if_neg hdup, indexPackages_ok_iff, hnew, List.map_cons, List.nodup_cons, List.forall_mem_cons]
      exact ⟨fun ⟨h1, h2, h3⟩ => ⟨⟨h2, h1⟩, hnone, h3⟩, fun ⟨⟨h2, h1⟩, _, h3⟩ => ⟨h1, h2, h3⟩⟩

theorem get?_indexPackages : ∀ {l : List (LockedPackage V)} {m packages : OrdMap String (LockedPackage V)},
    indexPackages m l = .ok packages →
      ∀ name p, packages.get? name = some p ↔ m.get? name = some p ∨ (p ∈ l ∧ p.name = name)
  | [], m, packages, h => by
    cases h
    simp
  | p :: l, m, packages, h => by
    intro name q
    unfold indexPackages at h
    by_cases hdup : m.contains p.name = true
    · simp [hdup] at h
    · rw [if_neg hdup] at h
      have hnone : m.get? p.name = none := by simpa [OrdMap.contains] using hdup
      rw [get?_indexPackages h, OrdMap.get?_insert, List.mem_cons]
      by_cases hname : p.name = name
      · subst hname
        rw [if_pos rfl, hnone]
        constructor
        · rintro (heq | hmem)
          · exact .inr ⟨.inl (Option.some.inj heq).symm, by rw [Option.some.inj heq]⟩
          · exact .inr ⟨.inr hmem.1, hmem.2⟩
        · rintro (hfalse | ⟨rfl | hmem, hq⟩)
          · cases hfalse
          · exact .inl rfl
          · exact .inr ⟨hmem, hq⟩
      · rw [if_neg hname]
        constructor
        · rintro (hget | hmem)
          · exact .inl hget
          · exact .inr ⟨.inr hmem.1, hmem.2⟩
        · rintro (hget | ⟨rfl | hmem, hq⟩)
          · exact .inl hget
          · exact absurd hq hname
          · exact .inr ⟨hmem, hq⟩

section
variable {libs : Libraries V Q} {manifest : Manifest} {resolution : Resolution V} {packages : OrdMap String (LockedPackage V)}

theorem checkDirect_ok_iff {name : String} {dependency : Dependency} :
    checkDirect libs packages name dependency = .ok () ↔ ∃ package, packages.get? name = some package ∧
      ∃ requirement, libs.parseRequirement dependency.requirement = .ok requirement ∧
        libs.matches_ requirement package.version = true := by
  unfold checkDirect
  cases packages.get? name with
  | none => simp
  | some package =>
    cases libs.parseRequirement dependency.requirement with
    | error reason => simp
    | ok requirement =>
      by_cases hmatches : libs.matches_ requirement package.version = true
      · simp [hmatches]
      · simp [hmatches]

theorem checkLocked_ok_iff [DecidableEq V] {package : LockedPackage V} {dependency : String} {expected : V} :
    checkLocked libs packages package dependency expected = .ok () ↔
      ∃ resolved, packages.get? dependency = some resolved ∧ resolved.version = expected := by
  unfold checkLocked
  cases packages.get? dependency with
  | none => simp
  | some resolved =>
    by_cases hversion : resolved.version = expected
    · simp [hversion]
    · simp [hversion]

/-- The walk of the worklist is the need of the manifest. -/
theorem reached_iff_needed (hpackages : ∀ name p, packages.get? name = some p ↔ p ∈ resolution.packages ∧ p.name = name)
    (name : String) : Worklist.Reached (lockedNames packages) manifest.dependencies.keys.reverse name ↔
      Needed manifest resolution name := by
  constructor
  · rintro ⟨start, hstart, hwalk⟩
    induction hwalk with
    | refl => exact .direct (List.mem_reverse.mp hstart)
    | @tail b c _ hstep ih =>
      unfold lockedNames at hstep
      cases hget : packages.get? b with
      | none => simp [hget] at hstep
      | some package =>
        obtain ⟨hmem, rfl⟩ := (hpackages b package).mp hget
        exact .through hmem ih (by simpa [hget] using hstep)
  · intro h
    induction h with
    | direct hname => exact ⟨_, List.mem_reverse.mpr hname, .refl⟩
    | @through package name hmem _ hname ih =>
      obtain ⟨start, hstart, hwalk⟩ := ih
      refine ⟨start, hstart, hwalk.tail ?_⟩
      simp [lockedNames, (hpackages package.name package).mpr ⟨hmem, rfl⟩, hname]

theorem checkPackages_ok_iff [DecidableEq V] : checkPackages libs manifest resolution = .ok packages ↔
    indexPackages .empty resolution.packages = .ok packages ∧
    (∀ name dependency, (name, dependency) ∈ manifest.dependencies.entries →
      checkDirect libs packages name dependency = .ok ()) ∧
    ∀ package ∈ resolution.packages, ∀ dependency expected, (dependency, expected) ∈ package.dependencies.entries →
      checkLocked libs packages package dependency expected = .ok () := by
  unfold checkPackages
  rw [bind_ok_iff]
  constructor
  · rintro ⟨found, hindex, h⟩
    obtain ⟨_, hdirect, h⟩ := bind_ok_iff.mp h
    obtain ⟨_, hlocked, h⟩ := bind_ok_iff.mp h
    cases h
    refine ⟨hindex, fun name dependency hmem => forM_ok_iff.mp hdirect (name, dependency) hmem, ?_⟩
    intro package hpackage dependency expected hmem
    exact forM_ok_iff.mp (forM_ok_iff.mp hlocked package hpackage) (dependency, expected) hmem
  · rintro ⟨hindex, hdirect, hlocked⟩
    refine ⟨packages, hindex, bind_ok_iff.mpr ⟨(), ?_, bind_ok_iff.mpr ⟨(), ?_, rfl⟩⟩⟩
    · exact forM_ok_iff.mpr fun e he => hdirect e.1 e.2 he
    · exact forM_ok_iff.mpr fun package hpackage => forM_ok_iff.mpr fun e he => hlocked package hpackage e.1 e.2 he

/-- **The check accepts the well locked resolutions.** -/
theorem acceptsLock_iff [DecidableEq V] : AcceptsLock libs manifest resolution ↔ WellLocked libs manifest resolution := by
  constructor
  · rintro ⟨fuel, h⟩
    unfold validateLockGraph at h
    cases hcheck : checkPackages libs manifest resolution with
    | error message => simp [hcheck] at h
    | ok packages =>
      simp only [hcheck] at h
      obtain ⟨hindex, hdirect, hlocked⟩ := checkPackages_ok_iff.mp hcheck
      have hpackages : ∀ name p, packages.get? name = some p ↔ p ∈ resolution.packages ∧ p.name = name := by
        intro name p
        simpa using get?_indexPackages hindex name p
      refine ⟨(indexPackages_ok_iff.mp ⟨packages, hindex⟩).1, fun name dependency hmem => ?_,
        fun package hpackage dependency expected hmem => ?_, fun package hpackage => ?_⟩
      · obtain ⟨package, hget, hmatches⟩ := checkDirect_ok_iff.mp (hdirect name dependency hmem)
        obtain ⟨hpackage, hname⟩ := (hpackages name package).mp hget
        exact ⟨package, hpackage, hname, hmatches⟩
      · obtain ⟨resolved, hget, hversion⟩ := checkLocked_ok_iff.mp (hlocked package hpackage dependency expected hmem)
        obtain ⟨hresolved, hname⟩ := (hpackages dependency resolved).mp hget
        exact ⟨resolved, hresolved, hname, hversion⟩
      · cases hcollect : Worklist.collect (lockedNames packages) fuel manifest.dependencies.keys.reverse ∅ with
        | none => simp [hcollect] at h
        | some reachable =>
          simp only [hcollect] at h
          cases hfind : resolution.packages.find? fun package => package.name ∉ reachable with
          | some stray =>
            simp only [hfind] at h
            cases h
          | none =>
            have hmem : package.name ∈ reachable := by simpa using List.find?_eq_none.mp hfind package hpackage
            exact (reached_iff_needed hpackages package.name).mp ((Worklist.mem_collect hcollect package.name).mp hmem)
  · intro h
    obtain ⟨packages, hindex⟩ := indexPackages_ok_iff (m := .empty) |>.mpr ⟨h.oneEach, fun p _ => rfl⟩
    have hpackages : ∀ name p, packages.get? name = some p ↔ p ∈ resolution.packages ∧ p.name = name := by
      intro name p
      simpa using get?_indexPackages hindex name p
    have hcheck : checkPackages libs manifest resolution = .ok packages := by
      refine checkPackages_ok_iff.mpr ⟨hindex, fun name dependency hmem => ?_,
        fun package hpackage dependency expected hmem => ?_⟩
      · obtain ⟨package, hpackage, hname, hmatches⟩ := h.direct name dependency hmem
        exact checkDirect_ok_iff.mpr ⟨package, (hpackages name package).mpr ⟨hpackage, hname⟩, hmatches⟩
      · obtain ⟨resolved, hresolved, hname, hversion⟩ := h.locked package hpackage dependency expected hmem
        exact checkLocked_ok_iff.mpr ⟨resolved, (hpackages dependency resolved).mpr ⟨hresolved, hname⟩, hversion⟩
    -- the names of the manifest and of the locked dependencies are all the loop can meet
    let all := (manifest.dependencies.keys ++ resolution.packages.flatMap (·.dependencies.keys)).toFinset
    have hclosed : ∀ a ∈ all, ∀ b ∈ lockedNames packages a, b ∈ all := by
      intro a _ b hb
      unfold lockedNames at hb
      cases hget : packages.get? a with
      | none => simp [hget] at hb
      | some package =>
        simp only [hget] at hb
        refine List.mem_toFinset.mpr (List.mem_append_right _ (List.mem_flatMap.mpr ⟨package, ?_, hb⟩))
        exact ((hpackages a package).mp hget).1
    obtain ⟨fuel, reachable, hcollect⟩ := Worklist.collect_ends hclosed ∅ manifest.dependencies.keys.reverse (by
      intro a ha
      exact List.mem_toFinset.mpr (List.mem_append_left _ (List.mem_reverse.mp ha)))
    have hfind : (resolution.packages.find? fun package => package.name ∉ reachable) = none := by
      refine List.find?_eq_none.mpr fun package hpackage => ?_
      have hreached := (reached_iff_needed hpackages package.name).mpr (h.needed package hpackage)
      simpa using (Worklist.mem_collect hcollect package.name).mpr hreached
    exact ⟨fuel, by simp only [validateLockGraph, hcheck, hcollect, hfind]⟩

end

end Resolver
end Syllog
