import Syllog.Resolver
import Mathlib.Data.Finset.Card
/-!
# ResolverSearch — the resolver as a search problem

What each node of the search looks like (`expand_branch` and its siblings), the invariant of the states it comes to
(`Grounded`), and what the search needs from it: states with one fingerprint differ only in the order of their constraints,
and every selection takes a name away.  So the resolver always ends, and ends as the search without a table does.
-/
namespace Syllog
namespace Resolver

open Backtrack

variable {V Q : Type} {libs : Libraries V Q} {index : PackageIndex V} {policy : ResolvePolicy}

/-! ## Constraints -/

/-- The package has this constraint. -/
def Asks (constraints : Constraints Q) (name : String) (c : Constraint Q) : Prop :=
  ∃ active, constraints.get? name = some active ∧ c ∈ active

/-- The constraint that a requirement text becomes. -/
def Becomes (libs : Libraries V Q) (origin : String) (text : String) (c : Constraint Q) : Prop :=
  libs.parseRequirement text = .ok c.requirement ∧ c.text = text ∧ c.origin = origin ∧ c.exact = isExact text

theorem addConstraint_ok {constraints constraints' : Constraints Q} {package text origin : String}
    (h : addConstraint libs constraints package text origin = .ok constraints') :
    ∃ c, Becomes libs origin text c ∧
      constraints' = constraints.insert package ((constraints.get? package).getD [] ++ [c]) := by
  unfold addConstraint at h
  cases hparse : libs.parseRequirement text with
  | error reason => simp [hparse] at h
  | ok requirement =>
    simp only [hparse, Except.ok.injEq] at h
    exact ⟨⟨requirement, text, origin, isExact text⟩, ⟨hparse, rfl, rfl, rfl⟩, h.symm⟩

theorem asks_insert {constraints : Constraints Q} {package name : String} {c c' : Constraint Q} :
    Asks (constraints.insert package ((constraints.get? package).getD [] ++ [c])) name c' ↔
      Asks constraints name c' ∨ (name = package ∧ c' = c) := by
  unfold Asks
  rw [OrdMap.get?_insert]
  by_cases hname : package = name
  · subst hname
    cases hget : constraints.get? package with
    | none => simp
    | some active => simp
  · simp [hname, Ne.symm hname]

/-- **What the constraints are after some were added.** -/
theorem addConstraints_asks {origin : String → String → String} : ∀ {l : List (String × String)}
    {constraints constraints' : Constraints Q}, addConstraints libs origin constraints l = .ok constraints' →
      ∀ name c, Asks constraints' name c ↔
        Asks constraints name c ∨ ∃ text, (name, text) ∈ l ∧ Becomes libs (origin name text) text c
  | [], _, _, h => by
    cases h
    intro name c
    simp
  | (package, text) :: rest, constraints, constraints', h => by
    unfold addConstraints at h
    cases hadd : addConstraint libs constraints package text (origin package text) with
    | error e => simp [hadd] at h
    | ok next =>
      simp only [hadd] at h
      obtain ⟨c₀, hbecomes, rfl⟩ := addConstraint_ok hadd
      intro name c
      rw [addConstraints_asks h name c, asks_insert]
      have huniq : ∀ c', Becomes libs (origin package text) text c' ↔ c' = c₀ := by
        intro c'
        constructor
        · rintro ⟨hparse, htext, horigin, hexact⟩
          obtain ⟨hparse', htext', horigin', hexact'⟩ := hbecomes
          rw [hparse] at hparse'
          cases c'
          cases c₀
          simp_all
        · rintro rfl
          exact hbecomes
      constructor
      · rintro ((hasks | ⟨rfl, rfl⟩) | ⟨t, hmem, hb⟩)
        · exact .inl hasks
        · exact .inr ⟨text, List.mem_cons_self, hbecomes⟩
        · exact .inr ⟨t, List.mem_cons_of_mem _ hmem, hb⟩
      · rintro (hasks | ⟨t, hmem, hb⟩)
        · exact .inl (.inl hasks)
        · rcases List.mem_cons.mp hmem with heq | hmem
          · cases heq
            exact .inl (.inr ⟨rfl, (huniq c).mp hb⟩)
          · exact .inr ⟨t, hmem, hb⟩

theorem asks_active {s : State V Q} {name : String} {c : Constraint Q} : Asks s.constraints name c ↔ c ∈ s.active name := by
  unfold Asks State.active
  cases s.constraints.get? name with
  | none => simp
  | some active => simp

theorem Becomes.self {origin text : String} {c : Constraint Q} (h : Becomes libs origin text c) :
    Becomes libs c.origin c.text c := by
  obtain ⟨hparse, htext, _, hexact⟩ := h
  exact ⟨htext ▸ hparse, rfl, rfl, htext ▸ hexact⟩

theorem choose_ok {s s' : State V Q} {name : String} {release : PackageRelease V} (h : choose libs s name release = .ok s') :
    validateRelease libs release = .ok () ∧ s'.selected = s.selected.insert name release ∧
      addConstraints libs (releaseOrigin libs release) s.constraints release.dependencies.entries = .ok s'.constraints := by
  unfold choose at h
  cases hvalid : validateRelease libs release with
  | error e => simp [hvalid] at h
  | ok u =>
    simp only [hvalid] at h
    cases hadd : addConstraints libs (releaseOrigin libs release) s.constraints release.dependencies.entries with
    | error e => simp [hadd] at h
    | ok constraints =>
      simp only [hadd, Except.ok.injEq] at h
      subst h
      exact ⟨rfl, rfl, rfl⟩

/-! ## Up to the order of constraints -/

/-- The same selections, and the same constraints in some order. -/
def SameState (s s' : State V Q) : Prop :=
  s.selected = s'.selected ∧
  List.Forall₂ (fun e e' => e.1 = e'.1 ∧ e.2.Perm e'.2) s.constraints.entries s'.constraints.entries

theorem forall₂_insertEntry {l l' : List (String × List (Constraint Q))} {name : String} {active active' : List (Constraint Q)}
    (h : List.Forall₂ (fun e e' => e.1 = e'.1 ∧ e.2.Perm e'.2) l l') (hactive : active.Perm active') :
    List.Forall₂ (fun e e' => e.1 = e'.1 ∧ e.2.Perm e'.2) (OrdMap.insertEntry name active l)
      (OrdMap.insertEntry name active' l') := by
  induction h with
  | nil => exact .cons ⟨rfl, hactive⟩ .nil
  | @cons e e' l l' he hrest ih =>
    obtain ⟨k, v⟩ := e
    obtain ⟨k', v'⟩ := e'
    obtain ⟨rfl, hv⟩ := he
    unfold OrdMap.insertEntry
    by_cases hlt : name < k
    · simp only [if_pos hlt]
      exact .cons ⟨rfl, hactive⟩ (.cons ⟨rfl, hv⟩ hrest)
    · simp only [if_neg hlt]
      by_cases heq : k = name
      · simp only [if_pos heq]
        exact .cons ⟨rfl, hactive⟩ hrest
      · simp only [if_neg heq]
        exact .cons ⟨rfl, hv⟩ ih

theorem lookup_perm {l l' : List (String × List (Constraint Q))}
    (h : List.Forall₂ (fun e e' => e.1 = e'.1 ∧ e.2.Perm e'.2) l l') (name : String) :
    (OrdMap.lookup name l = none ∧ OrdMap.lookup name l' = none) ∨
    ∃ active active', OrdMap.lookup name l = some active ∧ OrdMap.lookup name l' = some active' ∧ active.Perm active' := by
  induction h with
  | nil => exact .inl ⟨rfl, rfl⟩
  | @cons e e' l l' he _ ih =>
    obtain ⟨k, v⟩ := e
    obtain ⟨k', v'⟩ := e'
    obtain ⟨rfl, hv⟩ := he
    unfold OrdMap.lookup
    by_cases hk : k = name
    · simp only [if_pos hk]
      exact .inr ⟨v, v', rfl, rfl, hv⟩
    · simp only [if_neg hk]
      exact ih

theorem SameState.active {s s' : State V Q} (h : SameState s s') (name : String) : (s.active name).Perm (s'.active name) := by
  unfold State.active OrdMap.get?
  rcases lookup_perm h.2 name with ⟨hnone, hnone'⟩ | ⟨active, active', hsome, hsome', hperm⟩
  · simp [hnone, hnone']
  · simpa [hsome, hsome'] using hperm

theorem names_perm {l l' : List (String × List (Constraint Q))}
    (h : List.Forall₂ (fun e e' => e.1 = e'.1 ∧ e.2.Perm e'.2) l l') : l.map (·.1) = l'.map (·.1) := by
  induction h with
  | nil => rfl
  | cons he _ ih => rw [List.map_cons, List.map_cons, he.1, ih]

theorem SameState.keys {s s' : State V Q} (h : SameState s s') : s.constraints.keys = s'.constraints.keys := names_perm h.2

theorem conflict_perm {name : String} {active active' : List (Constraint Q)} (h : active.Perm active') :
    (conflict name active : ResolveError V) = conflict name active' := by
  unfold conflict
  rw [insertionSort_eq_of_perm (h.map _)]

theorem satisfies_perm {active active' : List (Constraint Q)} (h : active.Perm active') (version : V) :
    satisfies libs active version = satisfies libs active' version := h.all_eq

theorem admits_perm {active active' : List (Constraint Q)} (h : active.Perm active') :
    admits libs active = admits libs active' := by
  funext release
  unfold admits usable
  rw [satisfies_perm h, h.any_eq]

theorem addConstraints_same (libs : Libraries V Q) (origin : String → String → String) (l : List (String × String)) :
    ∀ {s s' : State V Q}, SameState s s' →
      (∃ e, addConstraints libs origin s.constraints l = .error e ∧ addConstraints libs origin s'.constraints l = .error e) ∨
      ∃ next next', addConstraints libs origin s.constraints l = .ok next ∧
        addConstraints libs origin s'.constraints l = .ok next' ∧
        List.Forall₂ (fun e e' => e.1 = e'.1 ∧ e.2.Perm e'.2) next.entries next'.entries := by
  induction l with
  | nil => exact fun h => .inr ⟨_, _, rfl, rfl, h.2⟩
  | cons pair rest ih =>
    intro s s' h
    obtain ⟨package, text⟩ := pair
    cases hparse : libs.parseRequirement text with
    | error reason =>
      refine .inl ⟨.invalidRequirement package text reason, ?_, ?_⟩
      · simp [addConstraints, addConstraint, hparse]
      · simp [addConstraints, addConstraint, hparse]
    | ok requirement =>
      let c : Constraint Q := ⟨requirement, text, origin package text, isExact text⟩
      have hnext : SameState ⟨s.selected, s.constraints.insert package (s.active package ++ [c])⟩
          ⟨s'.selected, s'.constraints.insert package (s'.active package ++ [c])⟩ :=
        ⟨h.1, forall₂_insertEntry h.2 ((h.active package).append_right [c])⟩
      have hleft : addConstraints libs origin s.constraints ((package, text) :: rest) =
          addConstraints libs origin (s.constraints.insert package (s.active package ++ [c])) rest := by
        simp [addConstraints, addConstraint, hparse, State.active, c]
      have hright : addConstraints libs origin s'.constraints ((package, text) :: rest) =
          addConstraints libs origin (s'.constraints.insert package (s'.active package ++ [c])) rest := by
        simp [addConstraints, addConstraint, hparse, State.active, c]
      rw [hleft, hright]
      exact ih hnext

theorem choose_same {s s' : State V Q} (h : SameState s s') (name : String) (release : PackageRelease V) :
    SimilarWay SameState (choose libs s name release) (choose libs s' name release) := by
  unfold choose
  cases validateRelease libs release with
  | error e => exact rfl
  | ok u =>
    rcases addConstraints_same libs (releaseOrigin libs release) release.dependencies.entries h with
      ⟨e, he, he'⟩ | ⟨next, next', hnext, hnext', hrel⟩
    · simp only [he, he']
      exact rfl
    · simp only [hnext, hnext']
      exact ⟨by rw [h.1], hrel⟩

theorem firstBroken_same (libs : Libraries V Q) {s s' : State V Q} (h : SameState s s') :
    (firstBroken libs s = none ∧ firstBroken libs s' = none) ∨
    ∃ name active active', firstBroken libs s = some (name, active) ∧ firstBroken libs s' = some (name, active') ∧
      active.Perm active' := by
  unfold firstBroken
  rw [← h.1]
  induction s.selected.entries with
  | nil => exact .inl ⟨rfl, rfl⟩
  | cons e l ih =>
    simp only [List.findSome?_cons]
    rcases lookup_perm h.2 e.1 with ⟨hnone, hnone'⟩ | ⟨active, active', hsome, hsome', hperm⟩
    · simp only [OrdMap.get?, hnone, hnone']
      exact ih
    · simp only [OrdMap.get?, hsome, hsome', satisfies_perm hperm]
      by_cases hsat : satisfies libs active' e.2.version = true
      · simp only [if_pos hsat]
        exact ih
      · simp only [if_neg hsat]
        exact .inr ⟨e.1, active, active', rfl, rfl, hperm⟩

theorem mem_available {name : String} {compatible chosen : List (PackageRelease V)}
    (h : available policy name compatible = .ok chosen) {r : PackageRelease V} (hr : r ∈ chosen) :
    r ∈ compatible ∧ (policy.offline = true → r.availableOffline = true) := by
  unfold available at h
  cases hoffline : policy.offline with
  | false =>
    simp only [hoffline, Bool.false_eq_true, if_false, Except.ok.injEq] at h
    exact ⟨h ▸ hr, fun h => by cases h⟩
  | true =>
    have hfilter : chosen = compatible.filter (·.availableOffline) := by
      simp only [hoffline, if_true] at h
      split at h
      · split_ifs at h
        exact (Except.ok.inj h).symm
      · exact (Except.ok.inj h).symm
    rw [hfilter, List.mem_filter] at hr
    exact ⟨hr.1, fun _ => hr.2⟩

theorem nextPackage_pending {s : State V Q} {name : String} (h : nextPackage libs index policy s = some name) :
    (∃ active, s.constraints.get? name = some active) ∧ s.selected.get? name = none := by
  have hmem : name ∈ pending s := List.argmin_mem h
  obtain ⟨hkey, hnew⟩ := List.mem_filter.mp hmem
  exact ⟨OrdMap.mem_keys_iff.mp hkey, by simpa [OrdMap.contains] using hnew⟩

theorem nextPackage_same {s s' : State V Q} (h : SameState s s') :
    nextPackage libs index policy s = nextPackage libs index policy s' := by
  unfold nextPackage pending candidateCount
  rw [h.keys, h.1]
  congr 1
  funext name
  rw [admits_perm (h.active name)]

theorem forall₂_of_map_eq {α β : Type} {f : α → β} {R : α → α → Prop} : ∀ {l l' : List α}, l.map f = l'.map f →
    (∀ a ∈ l, ∀ b ∈ l', f a = f b → R a b) → List.Forall₂ R l l'
  | [], [], _, _ => .nil
  | a :: l, b :: l', h, hR => by
    obtain ⟨hhead, htail⟩ := List.cons.inj h
    exact .cons (hR a List.mem_cons_self b List.mem_cons_self hhead)
      (forall₂_of_map_eq htail fun x hx y hy => hR x (List.mem_cons_of_mem _ hx) y (List.mem_cons_of_mem _ hy))

/-- The constraint of a text and an origin. -/
def constraintOf (libs : Libraries V Q) (key : String ×ₗ String) : Option (Constraint Q) :=
  match libs.parseRequirement (ofLex key).1 with
  | .ok requirement => some ⟨requirement, (ofLex key).1, (ofLex key).2, isExact (ofLex key).1⟩
  | .error _        => none

theorem filterMap_constraintOf {active : List (Constraint Q)} (h : ∀ c ∈ active, Becomes libs c.origin c.text c) :
    (active.map fun c => toLex (c.text, c.origin)).filterMap (constraintOf libs) = active := by
  induction active with
  | nil => rfl
  | cons c active ih =>
    obtain ⟨hparse, _, _, hexact⟩ := h c List.mem_cons_self
    have hof : constraintOf libs (toLex (c.text, c.origin)) = some c := by
      simp [constraintOf, hparse, ← hexact]
    rw [List.map_cons, List.filterMap_cons_some hof, ih fun c' hc' => h c' (List.mem_cons_of_mem _ hc')]

/-! ## Grounded states -/

/-- Records of one version are one record. -/
def Unambiguous (releases : List (PackageRelease V)) : Prop :=
  ∀ a ∈ releases, ∀ b ∈ releases, a.version = b.version → a = b

/-- Selections are records on offer, and constraints are what their texts say. -/
structure Grounded (libs : Libraries V Q) (index : PackageIndex V) (s : State V Q) : Prop where
  onIndex : ∀ name r, s.selected.get? name = some r → r ∈ index name
  onOffer : ∀ name r, s.selected.get? name = some r → Unambiguous (index name)
  parsed : ∀ name c, Asks s.constraints name c → Becomes libs c.origin c.text c

theorem grounded_root (index : PackageIndex V) {manifest : Manifest} {constraints : Constraints Q}
    (h : rootConstraints libs manifest = .ok constraints) : Grounded libs index ⟨.empty, constraints⟩ := by
  refine ⟨fun name r hget => (by cases hget), fun name r hget => (by cases hget), fun name c hasks => ?_⟩
  rcases (addConstraints_asks h name c).mp hasks with ⟨_, hempty, _⟩ | ⟨text, _, hb⟩
  · cases hempty
  · exact hb.self

theorem Grounded.selected_eq {s s' : State V Q} (hs : Grounded libs index s) (hs' : Grounded libs index s')
    (h : (stateFingerprint s).selected = (stateFingerprint s').selected) : s.selected = s'.selected := by
  have hentries : s.selected.entries = s'.selected.entries := by
    rw [← List.forall₂_eq_eq_eq]
    refine forall₂_of_map_eq h fun e he e' he' heq => ?_
    obtain ⟨name, r⟩ := e
    obtain ⟨name', r'⟩ := e'
    simp only [Prod.mk.injEq] at heq
    obtain ⟨rfl, hversion, _⟩ := heq
    have hget := OrdMap.get?_eq_some_iff.mpr he
    have hget' := OrdMap.get?_eq_some_iff.mpr he'
    rw [hs.onOffer name r hget r (hs.onIndex name r hget) r' (hs'.onIndex name r' hget') hversion]
  cases hsel : s.selected
  cases hsel' : s'.selected
  simp_all

/-- **A fingerprint names a state**, up to the order of its constraints. -/
theorem same_of_fingerprint {s s' : State V Q} (hs : Grounded libs index s) (hs' : Grounded libs index s')
    (h : stateFingerprint s = stateFingerprint s') : SameState s s' := by
  refine ⟨hs.selected_eq hs' (congrArg SearchState.selected h), ?_⟩
  refine forall₂_of_map_eq (congrArg SearchState.constraints h) fun e he e' he' heq => ?_
  obtain ⟨name, active⟩ := e
  obtain ⟨name', active'⟩ := e'
  simp only [Prod.mk.injEq] at heq
  obtain ⟨rfl, hsort⟩ := heq
  have hperm : (active.map fun c => toLex (c.text, c.origin)).Perm (active'.map fun c => toLex (c.text, c.origin)) :=
    (List.perm_insertionSort (· ≤ ·) _).symm.trans (hsort.symm ▸ List.perm_insertionSort (· ≤ ·) _)
  have hback := hperm.filterMap (constraintOf libs)
  rw [filterMap_constraintOf fun c hc => hs.parsed name c ⟨active, OrdMap.get?_eq_some_iff.mpr he, hc⟩,
    filterMap_constraintOf fun c hc => hs'.parsed name c ⟨active', OrdMap.get?_eq_some_iff.mpr he', hc⟩] at hback
  exact ⟨rfl, hback⟩

section
variable [LinearOrder V]

/-! ## Releases on offer -/

theorem comesBefore_total (a b : PackageRelease V) : comesBefore a b ∨ comesBefore b a := by
  rcases lt_trichotomy a.version b.version with h | h | h
  · exact .inr (.inl h)
  · rcases le_total a.checksum b.checksum with hc | hc
    · exact .inl (.inr ⟨h, hc⟩)
    · exact .inr (.inr ⟨h.symm, hc⟩)
  · exact .inl (.inl h)

theorem comesBefore_trans {a b c : PackageRelease V} (hab : comesBefore a b) (hbc : comesBefore b c) : comesBefore a c := by
  rcases hab with hab | ⟨hab, hsum⟩
  · rcases hbc with hbc | ⟨hbc, _⟩
    · exact .inl (hbc.trans hab)
    · exact .inl (hbc ▸ hab)
  · rcases hbc with hbc | ⟨hbc, hsum'⟩
    · exact .inl (hab ▸ hbc)
    · exact .inr ⟨hab.trans hbc, hsum.trans hsum'⟩

instance : Std.Total (comesBefore (V := V)) := ⟨comesBefore_total⟩

instance : IsTrans (PackageRelease V) comesBefore := ⟨fun _ _ _ => comesBefore_trans⟩

theorem comesBefore_version {a b : PackageRelease V} (h : comesBefore a b) : b.version ≤ a.version := by
  rcases h with h | ⟨h, _⟩
  · exact h.le
  · exact h.ge

/-- Two different records have this version, and none have one above it. -/
def TopClash (releases : List (PackageRelease V)) (v : V) : Prop :=
  (∃ a ∈ releases, ∃ b ∈ releases, a.version = v ∧ b.version = v ∧ a ≠ b) ∧
  ∀ a ∈ releases, ∀ b ∈ releases, v < a.version → a.version = b.version → a = b

theorem version_le_head {a : PackageRelease V} {rest : List (PackageRelease V)} (h : (a :: rest).Pairwise comesBefore)
    {x : PackageRelease V} (hx : x ∈ a :: rest) : x.version ≤ a.version := by
  rcases List.mem_cons.mp hx with rfl | hx
  · exact le_rfl
  · exact comesBefore_version ((List.pairwise_cons.mp h).1 x hx)

/-- Whatever has the version of the first record has that of the second too, which lies between. -/
theorem head_eq_second {a b : PackageRelease V} {rest : List (PackageRelease V)}
    (h : (a :: b :: rest).Pairwise comesBefore) (hclash : ¬(a.version = b.version ∧ a ≠ b)) {x : PackageRelease V}
    (hx : x ∈ b :: rest) (hversion : a.version = x.version) : a = b := by
  have hbx : x.version ≤ b.version := version_le_head (List.pairwise_cons.mp h).2 hx
  have hba : b.version ≤ a.version := version_le_head h (List.mem_cons_of_mem _ List.mem_cons_self)
  by_contra hne
  exact hclash ⟨le_antisymm (hversion ▸ hbx) hba, hne⟩

/-- **What the check of adjacent records finds** in a sorted list: whether two records of one version differ anywhere, and
the highest such version. -/
theorem rejectAmbiguous_spec (name : String) : ∀ {l : List (PackageRelease V)}, l.Pairwise comesBefore →
    (rejectAmbiguous name l = .ok () ∧ Unambiguous l) ∨
    ∃ v, rejectAmbiguous name l = .error (.ambiguousRelease name v) ∧ TopClash l v
  | [], _ => .inl ⟨rfl, fun _ h => (by cases h)⟩
  | [a], _ => by
    refine .inl ⟨rfl, fun x hx y hy _ => ?_⟩
    rw [List.mem_singleton.mp hx, List.mem_singleton.mp hy]
  | a :: b :: rest, hsorted => by
    unfold rejectAmbiguous
    by_cases hclash : a.version = b.version ∧ a ≠ b
    · rw [if_pos hclash]
      refine .inr ⟨a.version, rfl, ⟨a, List.mem_cons_self, b, by simp, rfl, hclash.1.symm, hclash.2⟩, ?_⟩
      intro x hx y _ hlt
      exact absurd hlt (version_le_head hsorted hx).not_gt
    · rw [if_neg hclash]
      -- records of one version are equal in the whole list where they are in the tail
      have hextend : ∀ above : V → Prop,
          (∀ x ∈ b :: rest, ∀ y ∈ b :: rest, above x.version → x.version = y.version → x = y) →
          ∀ x ∈ a :: b :: rest, ∀ y ∈ a :: b :: rest, above x.version → x.version = y.version → x = y := by
        intro above h x hx y hy habove hversion
        rcases List.mem_cons.mp hx with rfl | hx'
        · rcases List.mem_cons.mp hy with rfl | hy'
          · rfl
          · have heq := head_eq_second hsorted hclash hy' hversion
            subst heq
            exact h x List.mem_cons_self y hy' habove hversion
        · rcases List.mem_cons.mp hy with rfl | hy'
          · have heq := head_eq_second hsorted hclash hx' hversion.symm
            subst heq
            exact h x hx' y List.mem_cons_self habove hversion
          · exact h x hx' y hy' habove hversion
      rcases rejectAmbiguous_spec name (List.pairwise_cons.mp hsorted).2 with
        ⟨hok, htail⟩ | ⟨v, herror, ⟨x, hx, y, hy, hclashes⟩, htop⟩
      · refine .inl ⟨hok, fun x hx y hy hversion => ?_⟩
        exact hextend (fun _ => True) (fun x hx y hy _ => htail x hx y hy) x hx y hy trivial hversion
      · exact .inr ⟨v, herror, ⟨x, List.mem_cons_of_mem _ hx, y, List.mem_cons_of_mem _ hy, hclashes⟩,
          hextend (v < ·) htop⟩

theorem sortReleases_pairwise (l : List (PackageRelease V)) : (sortReleases l).Pairwise comesBefore :=
  List.pairwise_insertionSort comesBefore l

theorem sortReleases_perm (l : List (PackageRelease V)) : (sortReleases l).Perm l := List.perm_insertionSort comesBefore l

theorem mem_sortReleases {l : List (PackageRelease V)} {r : PackageRelease V} : r ∈ sortReleases l ↔ r ∈ l :=
  (sortReleases_perm l).mem_iff

theorem offered_spec (index : PackageIndex V) (name : String) :
    (offered index name = .ok (sortReleases (index name)) ∧ Unambiguous (index name)) ∨
    ∃ v, offered index name = .error (.ambiguousRelease name v) ∧ TopClash (index name) v := by
  unfold offered
  rcases rejectAmbiguous_spec name (sortReleases_pairwise (index name)) with ⟨hok, h⟩ | ⟨v, herror, h⟩
  · simp only [hok]
    exact .inl ⟨trivial, by simpa [Unambiguous, mem_sortReleases] using h⟩
  · simp only [herror]
    exact .inr ⟨v, rfl, by simpa [TopClash, mem_sortReleases] using h⟩

theorem offered_ok {name : String} {releases : List (PackageRelease V)} (h : offered index name = .ok releases) :
    releases = sortReleases (index name) ∧ Unambiguous (index name) := by
  rcases offered_spec index name with ⟨hok, hunambiguous⟩ | ⟨v, herror, _⟩
  · rw [hok] at h
    cases h
    exact ⟨rfl, hunambiguous⟩
  · rw [herror] at h
    cases h

/-- **What a candidate is**: a record on offer that the constraints admit, and available when it has to be. -/
theorem mem_candidates {name : String} {active : List (Constraint Q)} {chosen : List (PackageRelease V)}
    (h : candidates libs index policy name active = .ok chosen) {r : PackageRelease V} (hr : r ∈ chosen) :
    Unambiguous (index name) ∧ r ∈ index name ∧ admits libs active r = true ∧
      (policy.offline = true → r.availableOffline = true) := by
  unfold candidates at h
  cases hoffer : offered index name with
  | error e => simp [hoffer] at h
  | ok releases =>
    simp only [hoffer] at h
    obtain ⟨hcompatible, hoffline⟩ := mem_available h hr
    obtain ⟨hmem, hadmits⟩ := List.mem_filter.mp hcompatible
    obtain ⟨rfl, hunambiguous⟩ := offered_ok hoffer
    exact ⟨hunambiguous, mem_sortReleases.mp hmem, hadmits, hoffline⟩

/-! ## Nodes -/

theorem expand_done {s : State V Q} {selected : Selected V} (h : expand libs index policy s = .done selected) :
    selected = s.selected ∧ firstBroken libs s = none ∧ nextPackage libs index policy s = none := by
  unfold expand at h
  split at h
  · cases h
  · rename_i hbroken
    split at h
    · rename_i hnext
      cases h
      exact ⟨rfl, hbroken, hnext⟩
    · split at h <;> cases h

theorem expand_branch {s : State V Q} {ways : List (Except (ResolveError V) (State V Q))} {fallback : ResolveError V}
    (h : expand libs index policy s = .branch ways fallback) :
    ∃ name r rest, firstBroken libs s = none ∧ nextPackage libs index policy s = some name ∧
      candidates libs index policy name (s.active name) = .ok (r :: rest) ∧
      ways = (r :: rest).map (choose libs s name) ∧ fallback = conflict name (s.active name) := by
  unfold expand at h
  split at h
  · cases h
  · rename_i hbroken
    split at h
    · cases h
    · rename_i name hnext
      split at h
      · cases h
      · cases h
      · rename_i r rest hcandidates
        cases h
        exact ⟨name, r, rest, hbroken, hnext, hcandidates, rfl, rfl⟩

/-- A refusal is a broken selection, an error of the candidates, or a package without candidates. -/
theorem expand_refuse {s : State V Q} {e : ResolveError V} {remember : Bool}
    (h : expand libs index policy s = .refuse e remember) :
    (∃ name active, firstBroken libs s = some (name, active) ∧ e = conflict name active) ∨
    ∃ name, firstBroken libs s = none ∧ nextPackage libs index policy s = some name ∧
      (candidates libs index policy name (s.active name) = .error e ∨
        (candidates libs index policy name (s.active name) = .ok [] ∧ e = conflict name (s.active name))) := by
  unfold expand at h
  split at h
  · rename_i name active hbroken
    cases h
    exact .inl ⟨name, active, hbroken, rfl⟩
  · rename_i hbroken
    split at h
    · cases h
    · rename_i name hnext
      split at h
      · rename_i e' hcandidates
        cases h
        exact .inr ⟨name, hbroken, hnext, .inl hcandidates⟩
      · rename_i hcandidates
        cases h
        exact .inr ⟨name, hbroken, hnext, .inr ⟨hcandidates, rfl⟩⟩
      · cases h

theorem grounded_keeps : Keeps (problem libs index policy) (Grounded libs index) := by
  intro s ways fallback s' hs hnode hway
  obtain ⟨name, r, rest, _, _, hcandidates, rfl, _⟩ := expand_branch hnode
  obtain ⟨release, hmem, hchoose⟩ := List.mem_map.mp hway
  obtain ⟨_, hselected, hconstraints⟩ := choose_ok hchoose
  have hrelease := mem_candidates hcandidates hmem
  have hselection : ∀ n r', s'.selected.get? n = some r' → r' ∈ index n ∧ Unambiguous (index n) := by
    intro n r' hget
    rw [hselected, OrdMap.get?_insert] at hget
    by_cases hn : name = n
    · subst hn
      rw [if_pos rfl] at hget
      cases hget
      exact ⟨hrelease.2.1, hrelease.1⟩
    · rw [if_neg hn] at hget
      exact ⟨hs.onIndex n r' hget, hs.onOffer n r' hget⟩
  refine ⟨fun n r' hget => (hselection n r' hget).1, fun n r' hget => (hselection n r' hget).2, fun n c hasks => ?_⟩
  · rcases (addConstraints_asks hconstraints n c).mp hasks with hasks | ⟨text, _, hb⟩
    · exact hs.parsed n c hasks
    · exact hb.self

/-! ## The table of failed states -/

theorem candidates_perm {name : String} {active active' : List (Constraint Q)} (h : active.Perm active') :
    candidates libs index policy name active = candidates libs index policy name active' := by
  unfold candidates
  rw [admits_perm h]

/-- **The order of the constraints does not matter.** -/
theorem expand_same {s s' : State V Q} (h : SameState s s') :
    Similar SameState (expand libs index policy s) (expand libs index policy s') := by
  unfold expand
  rcases firstBroken_same libs h with ⟨hnone, hnone'⟩ | ⟨name, active, active', hsome, hsome', hperm⟩
  · simp only [hnone, hnone', ← nextPackage_same h]
    cases nextPackage libs index policy s with
    | none => exact h.1
    | some name =>
      simp only [candidates_perm (h.active name), conflict_perm (h.active name)]
      cases candidates libs index policy name (s'.active name) with
      | error e => exact rfl
      | ok chosen =>
        cases chosen with
        | nil => exact rfl
        | cons r rest =>
          refine ⟨rfl, ?_⟩
          rw [List.forall₂_map_left_iff, List.forall₂_map_right_iff]
          exact List.forall₂_same.mpr fun release _ => choose_same h name release
  · simp only [hsome, hsome']
    exact conflict_perm hperm

/-! ## Every search ends -/

/-- How many names still can be selected. -/
def remaining (names : List String) (s : State V Q) : Nat := (names.toFinset.filter (s.selected.get? · = none)).card

theorem remaining_lt {names : List String} (hnames : ∀ name, index name ≠ [] → name ∈ names) {s s' : State V Q}
    {ways : List (Except (ResolveError V) (State V Q))} {fallback : ResolveError V}
    (hnode : expand libs index policy s = .branch ways fallback) (hway : .ok s' ∈ ways) :
    remaining names s' < remaining names s := by
  obtain ⟨name, r, rest, _, hnext, hcandidates, rfl, _⟩ := expand_branch hnode
  obtain ⟨release, hmem, hchoose⟩ := List.mem_map.mp hway
  obtain ⟨_, hselected, _⟩ := choose_ok hchoose
  have hname : name ∈ names := hnames name (List.ne_nil_of_mem (mem_candidates hcandidates hmem).2.1)
  have hnew := (nextPackage_pending hnext).2
  unfold remaining
  refine Finset.card_lt_card (Finset.ssubset_iff_of_subset ?_ |>.mpr ⟨name, ?_, ?_⟩)
  · intro n hn
    rw [Finset.mem_filter, hselected, OrdMap.get?_insert] at hn
    rw [Finset.mem_filter]
    refine ⟨hn.1, ?_⟩
    by_cases heq : name = n
    · simp [heq] at hn
    · simpa [heq] using hn.2
  · exact Finset.mem_filter.mpr ⟨List.mem_toFinset.mpr hname, hnew⟩
  · rw [Finset.mem_filter, hselected]
    simp

theorem search_ends (policy : ResolvePolicy) {names : List String} (hnames : ∀ name, index name ≠ [] → name ∈ names)
    {s : State V Q} (hs : Grounded libs index s) :
    ∃ fuel o memo, search (problem libs index policy) fuel s [] = some (o, memo) := by
  obtain ⟨o, memo, h⟩ := search_total grounded_keeps (fun s ways fallback s' _ hnode hway => remaining_lt hnames hnode hway)
    (remaining names s + 1) s [] hs (Nat.lt_succ_self _)
  exact ⟨_, o, memo, h⟩

/-- **The table does not change the outcome.** -/
theorem search_as_explored {s : State V Q} (hs : Grounded libs index s) {fuel : Nat}
    {o : Except (ResolveError V) (Selected V)} {memo : Memo (SearchState V) (ResolveError V)}
    (h : search (problem libs index policy) fuel s [] = some (o, memo)) : Explores (problem libs index policy) s o :=
  (search_explores grounded_keeps (fun _ _ hsame => expand_same hsame)
    (fun _ _ hs hs' hkey => same_of_fingerprint hs hs' hkey) fuel s [] o memo hs (fun _ _ hmem => (by cases hmem)) h).1

/-- **The table only spares work**: a budget that is enough without it is enough with it. -/
theorem search_of_explored {s : State V Q} (hs : Grounded libs index s) {fuel : Nat}
    {o : Except (ResolveError V) (Selected V)} (h : explore (problem libs index policy) fuel s = some o) :
    ∃ memo, search (problem libs index policy) fuel s [] = some (o, memo) :=
  explore_searches grounded_keeps (fun _ _ hsame => expand_same hsame)
    (fun _ _ hs hs' hkey => same_of_fingerprint hs hs' hkey) fuel s [] o hs (fun _ _ hmem => (by cases hmem)) h

/-! ## Outcomes of `resolve` -/

/-- **`resolve` without its table**: an error in the manifest, or what the exploration from the root comes to. -/
theorem Resolves.explores {manifest : Manifest} {outcome : Except (ResolveError V) (Resolution V)}
    (h : Resolves libs manifest index policy outcome) :
    (∃ e, rootConstraints libs manifest = .error e ∧ outcome = .error e) ∨
    ∃ constraints o, rootConstraints libs manifest = .ok constraints ∧
      Explores (problem libs index policy) ⟨.empty, constraints⟩ o ∧ outcome = o.map resolution := by
  obtain ⟨fuel, h⟩ := h
  unfold resolveWithin at h
  cases hroot : rootConstraints libs manifest with
  | error e =>
    simp only [hroot, Option.some.injEq] at h
    exact .inl ⟨e, rfl, h.symm⟩
  | ok constraints =>
    simp only [hroot] at h
    cases hsearch : search (problem libs index policy) fuel ⟨.empty, constraints⟩ [] with
    | none => simp [hsearch] at h
    | some found =>
      obtain ⟨o, memo⟩ := found
      refine .inr ⟨constraints, o, rfl, search_as_explored (grounded_root index hroot) hsearch, ?_⟩
      cases o with
      | ok selected =>
        simp only [hsearch, Option.some.injEq] at h
        exact h.symm
      | error e =>
        simp only [hsearch, Option.some.injEq] at h
        exact h.symm

theorem Resolves.of_explores {manifest : Manifest} {constraints : Constraints Q} {o : Except (ResolveError V) (Selected V)}
    (hroot : rootConstraints libs manifest = .ok constraints)
    (h : Explores (problem libs index policy) ⟨.empty, constraints⟩ o) :
    Resolves libs manifest index policy (o.map resolution) := by
  obtain ⟨fuel, h⟩ := h
  obtain ⟨memo, hsearch⟩ := search_of_explored (grounded_root index hroot) h
  refine ⟨fuel, ?_⟩
  unfold resolveWithin
  cases o with
  | ok selected =>
    simp only [hroot, hsearch]
    rfl
  | error e =>
    simp only [hroot, hsearch]
    rfl

theorem resolves_total (libs : Libraries V Q) (policy : ResolvePolicy) {names : List String}
    (hnames : ∀ name, index name ≠ [] → name ∈ names) (manifest : Manifest) :
    ∃ outcome, Resolves libs manifest index policy outcome := by
  cases hroot : rootConstraints libs manifest with
  | error e => exact ⟨.error e, 0, by simp [resolveWithin, hroot]⟩
  | ok constraints =>
    obtain ⟨fuel, o, memo, hsearch⟩ := search_ends policy hnames (grounded_root index hroot)
    cases o with
    | ok selected => exact ⟨.ok (resolution selected), fuel, by simp [resolveWithin, hroot, hsearch, resolution]⟩
    | error e => exact ⟨.error e, fuel, by simp [resolveWithin, hroot, hsearch]⟩

/-- **One outcome.** -/
theorem Resolves.unique {manifest : Manifest} {outcome outcome' : Except (ResolveError V) (Resolution V)}
    (h : Resolves libs manifest index policy outcome) (h' : Resolves libs manifest index policy outcome') :
    outcome = outcome' := by
  rcases h.explores with ⟨e, hroot, rfl⟩ | ⟨constraints, o, hroot, hexplores, rfl⟩
  · rcases h'.explores with ⟨e', hroot', rfl⟩ | ⟨constraints', o', hroot', _, _⟩
    · rw [hroot] at hroot'
      cases hroot'
      rfl
    · rw [hroot] at hroot'
      cases hroot'
  · rcases h'.explores with ⟨e', hroot', _⟩ | ⟨constraints', o', hroot', hexplores', rfl⟩
    · rw [hroot] at hroot'
      cases hroot'
    · rw [hroot] at hroot'
      cases hroot'
      rw [hexplores.unique hexplores']

/-- `resolve` with the lookups in `failed_states` and the insertions removed. -/
def resolveWithoutTable (libs : Libraries V Q) (fuel : Nat) (manifest : Manifest) (index : PackageIndex V)
    (policy : ResolvePolicy) : Option (Except (ResolveError V) (Resolution V)) :=
  match rootConstraints libs manifest with
  | .error e        => some (.error e)
  | .ok constraints => (explore (problem libs index policy) fuel ⟨.empty, constraints⟩).map (·.map resolution)

end

/-! ## The index in memory -/

/-- **The releases of a name** are those of the list, in its order. -/
theorem InMemoryIndex.releases_new (l : List (PackageRelease V)) (name : String) :
    (InMemoryIndex.new l).releases name = l.filter (·.name = name) := by
  have hfold : ∀ (l : List (PackageRelease V)) (grouped : OrdMap String (List (PackageRelease V))),
      ((l.foldl (fun grouped release =>
        grouped.insert release.name ((grouped.get? release.name).getD [] ++ [release])) grouped).get? name).getD [] =
      (grouped.get? name).getD [] ++ l.filter (·.name = name) := by
    intro l
    induction l with
    | nil => simp
    | cons r l ih =>
      intro grouped
      rw [List.foldl_cons, ih, OrdMap.get?_insert]
      by_cases hname : r.name = name
      · simp [hname]
      · simp [hname]
  simpa [InMemoryIndex.new, InMemoryIndex.releases] using hfold l .empty

theorem InMemoryIndex.name_mem {l : List (PackageRelease V)} {name : String} (h : (InMemoryIndex.new l).releases name ≠ []) :
    name ∈ l.map (·.name) := by
  rw [InMemoryIndex.releases_new] at h
  obtain ⟨r, hr⟩ := List.exists_mem_of_ne_nil _ h
  obtain ⟨hmem, hname⟩ := List.mem_filter.mp hr
  exact List.mem_map.mpr ⟨r, hmem, by simpa using hname⟩

/-- **`resolve` returns** on every list of releases, with one outcome. -/
theorem resolve_returns [LinearOrder V] (libs : Libraries V Q) (manifest : Manifest) (releases : List (PackageRelease V))
    (policy : ResolvePolicy) :
    ∃ outcome, ∀ o, Resolves libs manifest (InMemoryIndex.new releases).releases policy o ↔ o = outcome := by
  obtain ⟨outcome, hresolves⟩ := resolves_total libs policy (fun _ h => InMemoryIndex.name_mem h) manifest
  exact ⟨outcome, fun o => ⟨fun h => h.unique hresolves, fun h => h ▸ hresolves⟩⟩

end Resolver
end Syllog
