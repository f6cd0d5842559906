import Syllog.Colours
import Syllog.ModuleGraph
/-!
# Cycles — `find_cycle` finds one exactly when there is one

The colours of the walk are those of a depth-first search: 1 is on the stack and 2 is done.  A visit leaves the stack as it
was and its node done, or returns a cycle of the dependency graph (`visit_leaves`).  Every visit colours one known module
more, so the recursion is never deeper than there are modules (`findCycleWithin`).
-/
namespace Syllog
namespace Modules

open Colours
open Relation (TransGen)

/-! ## The recursion of the source -/

/-- `visitNeighbors` over a visit that may run out of depth. -/
def visitNeighborsWithin (visit : Nat → Walk → Option (Option (List Nat) × Walk)) :
    List Nat → Walk → Option (Option (List Nat) × Walk)
  | [], w                    => some (none, w)
  | neighbor :: neighbors, w =>
    match (w.states.get? neighbor).getD 0 with
    | 0 => match visit neighbor w with
      | none                 => none
      | some (some cycle, w) => some (some cycle, w)
      | some (none, w)       => visitNeighborsWithin visit neighbors w
    | 1 => some (some (w.stack.dropWhile (· ≠ neighbor) ++ [neighbor]), w)
    | _ => visitNeighborsWithin visit neighbors w

/-- The visit of a node; `none` when the recursion goes deeper than `depth`. -/
def visitWithin (modules : ModuleMap) : Nat → Nat → Walk → Option (Option (List Nat) × Walk)
  | 0, _, _           => none
  | depth + 1, node, w =>
    let w : Walk := ⟨w.states.insert node 1, w.stack ++ [node]⟩
    match modules.get? node with
    | none        => some (none, w)
    | some module => match visitNeighborsWithin (visitWithin modules depth) module.dependencies.keys w with
      | none                 => none
      | some (some cycle, w) => some (some cycle, w)
      | some (none, w)       => some (none, ⟨w.states.insert node 2, w.stack.dropLast⟩)

def findCycleFromWithin (depth : Nat) (modules : ModuleMap) : List Nat → Walk → Option (Option (List Nat))
  | [], _        => some none
  | id :: ids, w =>
    if (w.states.get? id).getD 0 = 0 then
      match visitWithin modules depth id w with
      | none                 => none
      | some (some cycle, _) => some (some cycle)
      | some (none, w)       => findCycleFromWithin depth modules ids w
    else findCycleFromWithin depth modules ids w

/-- `find_cycle`; `none` when it does not return within `depth` nested visits. -/
def findCycleWithin (depth : Nat) (modules : ModuleMap) : Option (Option (List Nat)) :=
  findCycleFromWithin depth modules modules.keys ⟨OrdMap.empty, []⟩

/-! ## The graph -/

/-- One module depends on another. -/
def DependsOn (modules : ModuleMap) (a b : Nat) : Prop := ∃ m, modules.get? a = some m ∧ b ∈ m.dependencies.keys

/-- Dependencies are modules of the map. -/
def Known (modules : ModuleMap) : Prop := ∀ a b, DependsOn modules a b → b ∈ modules.keys

theorem DependsOn.known {modules : ModuleMap} {a b : Nat} (h : DependsOn modules a b) : a ∈ modules.keys := by
  obtain ⟨m, hm, -⟩ := h
  exact OrdMap.mem_keys_iff.mpr ⟨m, hm⟩

/-! ## What the walk knows -/

namespace Walk

def done (w : Walk) : Set Nat := {a | w.states.get? a = some 2}

def enter (w : Walk) (node : Nat) : Walk := ⟨w.states.insert node 1, w.stack ++ [node]⟩

def leave (w : Walk) (node : Nat) : Walk := ⟨w.states.insert node 2, w.stack.dropLast⟩

/-- The modules without a colour. -/
def uncoloured (modules : ModuleMap) (w : Walk) : List Nat := modules.keys.filter fun a => (w.states.get? a).getD 0 = 0

/-- The colours are those of a search: 1 is on the stack, and there is no third. -/
structure Sound (modules : ModuleMap) (w : Walk) : Prop where
  grey : ∀ a, w.states.get? a = some 1 ↔ a ∈ w.stack
  colours : ∀ a s, w.states.get? a = some s → s = 1 ∨ s = 2
  search : Coloured (DependsOn modules) w.stack w.done

theorem Sound.start (modules : ModuleMap) : Sound modules ⟨OrdMap.empty, []⟩ where
  grey := by simp
  colours := by simp
  search := by
    have hdone : Walk.done ⟨OrdMap.empty, []⟩ = ∅ := by simp [done]
    rw [hdone]
    exact .start

variable {modules : ModuleMap} {w : Walk} {node : Nat}

theorem Sound.colour_cases (h : Sound modules w) (a : Nat) :
    (w.states.get? a).getD 0 = 0 ∧ a ∉ w.stack ∧ a ∉ w.done ∨
      (w.states.get? a).getD 0 = 1 ∧ a ∈ w.stack ∨ (w.states.get? a).getD 0 = 2 ∧ a ∈ w.done := by
  cases hget : w.states.get? a with
  | none =>
    refine .inl ⟨rfl, fun hstack => ?_, fun hdone => ?_⟩
    · cases hget.symm.trans ((h.grey a).mpr hstack)
    · cases hget.symm.trans hdone
  | some s =>
    rcases h.colours a s hget with rfl | rfl
    · exact .inr (.inl ⟨rfl, (h.grey a).mp hget⟩)
    · exact .inr (.inr ⟨rfl, hget⟩)

theorem Sound.enter (h : Sound modules w) (hnew : (w.states.get? node).getD 0 = 0)
    (htop : ∀ top ∈ w.stack.getLast?, DependsOn modules top node) :
    Sound modules (w.enter node) ∧ (w.enter node).done = w.done := by
  obtain ⟨hstack, hdone⟩ : node ∉ w.stack ∧ node ∉ w.done := by
    rcases h.colour_cases node with ⟨-, hc⟩ | ⟨hc, -⟩ | ⟨hc, -⟩
    · exact hc
    · omega
    · omega
  have hsame : (w.enter node).done = w.done := by
    ext a
    simp only [Walk.done, Walk.enter, Set.mem_ofPred_eq, OrdMap.get?_insert]
    split
    · rename_i ha
      subst ha
      simpa [Walk.done] using hdone
    · rfl
  refine ⟨⟨fun a => ?_, fun a s hs => ?_, ?_⟩, hsame⟩
  · simp only [Walk.enter, OrdMap.get?_insert, List.mem_append, List.mem_singleton]
    split
    · rename_i ha
      simp [ha]
    · rename_i ha
      rw [h.grey a, or_iff_left (Ne.symm ha)]
  · simp only [Walk.enter, OrdMap.get?_insert] at hs
    split at hs
    · exact .inl (Option.some.inj hs).symm
    · exact h.colours a s hs
  · rw [hsame]
    exact h.search.enter hstack hdone htop

theorem Sound.leave {stack : List Nat} (h : Sound modules w) (hstack : w.stack = stack ++ [node])
    (hnext : ∀ b, DependsOn modules node b → b ∈ w.done) :
    Sound modules (w.leave node) ∧ (w.leave node).stack = stack ∧ (w.leave node).done = insert node w.done := by
  have hsearch := h.search
  rw [hstack] at hsearch
  have hout : node ∉ stack := fun hmem =>
    (List.nodup_append'.mp hsearch.nodup).2.2 hmem (List.mem_singleton_self node)
  have hshorter : (w.leave node).stack = stack := by
    simp [Walk.leave, hstack]
  have hmore : (w.leave node).done = insert node w.done := by
    ext a
    simp only [Walk.done, Walk.leave, Set.mem_ofPred_eq, OrdMap.get?_insert, Set.mem_insert_iff]
    split
    · rename_i ha
      simp [ha]
    · rename_i ha
      rw [or_iff_right (Ne.symm ha)]
  refine ⟨⟨fun a => ?_, fun a s hs => ?_, ?_⟩, hshorter, hmore⟩
  · rw [hshorter]
    simp only [Walk.leave, OrdMap.get?_insert]
    split
    · rename_i ha
      subst ha
      simpa using hout
    · rename_i ha
      rw [h.grey a, hstack, List.mem_append, List.mem_singleton, or_iff_left (Ne.symm ha)]
  · simp only [Walk.leave, OrdMap.get?_insert] at hs
    split at hs
    · exact .inr (Option.some.inj hs).symm
    · exact h.colours a s hs
  · rw [hshorter, hmore]
    exact hsearch.leave hnext

/-- A walk that has coloured more has less left. -/
theorem uncoloured_le {w' : Walk} (h : Sound modules w) (h' : Sound modules w') (hstack : w'.stack = w.stack)
    (hdone : w.done ⊆ w'.done) : (w'.uncoloured modules).length ≤ (w.uncoloured modules).length := by
  refine (List.monotone_filter_right modules.keys fun a ha => ?_).length_le
  simp only [decide_eq_true_eq] at ha ⊢
  rcases h.colour_cases a with ⟨hc, -⟩ | ⟨-, hmem⟩ | ⟨-, hmem⟩
  · exact hc
  · have hgrey := (h'.grey a).mpr (hstack ▸ hmem)
    simp [hgrey] at ha
  · have hblack : w'.states.get? a = some 2 := hdone hmem
    simp [hblack] at ha

/-- Entering a known module leaves one less without a colour. -/
theorem uncoloured_enter (hknown : node ∈ modules.keys) (hnew : (w.states.get? node).getD 0 = 0) :
    ((w.enter node).uncoloured modules).length < (w.uncoloured modules).length := by
  have hsplit : (w.enter node).uncoloured modules = (w.uncoloured modules).filter (· ≠ node) := by
    unfold uncoloured
    rw [List.filter_filter]
    refine List.filter_congr fun a _ => ?_
    simp only [Walk.enter, OrdMap.get?_insert]
    by_cases ha : node = a
    · simp [ha]
    · simp [ha, Ne.symm ha]
  rw [hsplit]
  refine List.length_filter_lt_length_iff_exists.mpr ⟨node, List.mem_filter.mpr ⟨hknown, by simpa using hnew⟩, by simp⟩

end Walk

/-! ## One visit -/

/-- **What a visit of these nodes leaves**: a cycle, or the stack as it was and the nodes done. -/
def Leaves (modules : ModuleMap) (w : Walk) (nodes : List Nat) : Option (List Nat) × Walk → Prop
  | (some cycle, _) => IsCycle (DependsOn modules) cycle
  | (none, w')      => w'.Sound modules ∧ w'.stack = w.stack ∧ w.done ⊆ w'.done ∧ ∀ node ∈ nodes, node ∈ w'.done

/-- A visit within this depth returns, and leaves what it should. -/
def Visits (modules : ModuleMap) (depth : Nat) : Prop :=
  ∀ node w, w.Sound modules → (w.states.get? node).getD 0 = 0 → node ∈ modules.keys →
    (∀ top ∈ w.stack.getLast?, DependsOn modules top node) → (w.uncoloured modules).length ≤ depth →
      visitWithin modules depth node w = some (visit modules depth node w) ∧
        Leaves modules w [node] (visit modules depth node w)

variable {modules : ModuleMap}

/-- A dependency on the stack closes the cycle from there. -/
theorem isCycle_of_mem {w : Walk} {node neighbor : Nat} (h : w.Sound modules) (htop : w.stack.getLast? = some node)
    (hedge : DependsOn modules node neighbor) (hmem : neighbor ∈ w.stack) :
    IsCycle (DependsOn modules) (w.stack.dropWhile (· ≠ neighbor) ++ [neighbor]) := by
  obtain ⟨before, rest, hstack, hout⟩ := List.eq_append_cons_of_mem hmem
  have hdrop : w.stack.dropWhile (· ≠ neighbor) = neighbor :: rest := by
    rw [hstack, List.dropWhile_append_of_pos fun a ha => ?_, List.dropWhile_cons_of_neg (by simp)]
    rw [decide_eq_true_eq]
    rintro rfl
    exact hout ha
  have hsearch := h.search
  rw [hstack] at hsearch htop
  rw [hdrop]
  refine hsearch.isCycle fun top hlast => ?_
  cases htop.symm.trans hlast
  exact hedge

theorem visitNeighbors_leaves (hknown : Known modules) {depth node : Nat} (hvisits : Visits modules depth) :
    ∀ (neighbors : List Nat) (w : Walk), w.Sound modules → w.stack.getLast? = some node →
      (∀ b ∈ neighbors, DependsOn modules node b) → (w.uncoloured modules).length ≤ depth →
        visitNeighborsWithin (visitWithin modules depth) neighbors w =
            some (visitNeighbors (visit modules depth) neighbors w) ∧
          Leaves modules w neighbors (visitNeighbors (visit modules depth) neighbors w)
  | [], w, h, _, _, _ => ⟨rfl, h, rfl, subset_rfl, by simp⟩
  | neighbor :: neighbors, w, h, htop, hedges, hdepth => by
    obtain ⟨hedge, hrest⟩ := List.forall_mem_cons.mp hedges
    unfold visitNeighborsWithin visitNeighbors
    rcases h.colour_cases neighbor with ⟨hc, -⟩ | ⟨hc, hmem⟩ | ⟨hc, hmem⟩
    · have hentry : ∀ top ∈ w.stack.getLast?, DependsOn modules top neighbor := by
        intro top hmem
        cases htop.symm.trans hmem
        exact hedge
      obtain ⟨hwithin, hleaves⟩ := hvisits neighbor w h hc (hknown _ _ hedge) hentry hdepth
      rw [hc]
      rw [hwithin]
      match hresult : visit modules depth neighbor w with
      | (some cycle, w') =>
        rw [hresult] at hleaves
        exact ⟨rfl, hleaves⟩
      | (none, w') =>
        rw [hresult] at hleaves
        obtain ⟨hsound, hstack, hdone, hone⟩ := hleaves
        have ih := visitNeighbors_leaves hknown hvisits neighbors w' hsound (hstack ▸ htop) hrest
          ((Walk.uncoloured_le h hsound hstack hdone).trans hdepth)
        refine ⟨ih.1, ?_⟩
        dsimp only
        match hafter : visitNeighbors (visit modules depth) neighbors w' with
        | (some cycle, w'') =>
          rw [hafter] at ih
          exact ih.2
        | (none, w'') =>
          rw [hafter] at ih
          obtain ⟨-, hsound', hstack', hdone', hall⟩ := ih
          exact ⟨hsound', hstack'.trans hstack, hdone.trans hdone',
            List.forall_mem_cons.mpr ⟨hdone' (hone neighbor List.mem_cons_self), hall⟩⟩
    · rw [hc]
      exact ⟨rfl, isCycle_of_mem h htop hedge hmem⟩
    · rw [hc]
      obtain ⟨hwithin, hleaves⟩ := visitNeighbors_leaves hknown hvisits neighbors w h htop hrest hdepth
      refine ⟨hwithin, ?_⟩
      match hafter : visitNeighbors (visit modules depth) neighbors w with
      | (some cycle, w') =>
        rw [hafter] at hleaves
        exact hleaves
      | (none, w') =>
        rw [hafter] at hleaves
        obtain ⟨hsound', hstack', hdone', hall⟩ := hleaves
        exact ⟨hsound', hstack', hdone', List.forall_mem_cons.mpr ⟨hdone' hmem, hall⟩⟩

theorem visit_succ {node : Nat} {m : ResolvedModule} (hm : modules.get? node = some m) (depth : Nat) (w : Walk) :
    visit modules (depth + 1) node w =
      match visitNeighbors (visit modules depth) m.dependencies.keys (w.enter node) with
      | (some cycle, w) => (some cycle, w)
      | (none, w)       => (none, w.leave node) := by
  simp only [visit, hm]
  rfl

theorem visitWithin_succ {node : Nat} {m : ResolvedModule} (hm : modules.get? node = some m) (depth : Nat) (w : Walk) :
    visitWithin modules (depth + 1) node w =
      match visitNeighborsWithin (visitWithin modules depth) m.dependencies.keys (w.enter node) with
      | none                 => none
      | some (some cycle, w) => some (some cycle, w)
      | some (none, w)       => some (none, w.leave node) := by
  simp only [visitWithin, hm]
  rfl

/-- **A visit returns within as many nested ones as there are modules without a colour.** -/
theorem visit_leaves (hknown : Known modules) : ∀ depth, Visits modules depth
  | 0 => by
    intro node w _ hnew hkey _ hdepth
    have hmem : node ∈ w.uncoloured modules := List.mem_filter.mpr ⟨hkey, by simpa using hnew⟩
    exact absurd (List.length_pos_of_mem hmem) (by omega)
  | depth + 1 => by
    intro node w h hnew hkey htop hdepth
    obtain ⟨m, hm⟩ := OrdMap.mem_keys_iff.mp hkey
    obtain ⟨henter, hsame⟩ := h.enter hnew htop
    have hless := Walk.uncoloured_enter hkey hnew
    obtain ⟨hwithin, hleaves⟩ := visitNeighbors_leaves hknown (visit_leaves hknown depth) m.dependencies.keys
      (w.enter node) henter (List.getLast?_concat ..) (fun b hb => ⟨m, hm, hb⟩) (by omega)
    rw [visit_succ hm, visitWithin_succ hm]
    rw [hwithin]
    match hafter : visitNeighbors (visit modules depth) m.dependencies.keys (w.enter node) with
    | (some cycle, w') =>
      rw [hafter] at hleaves
      exact ⟨rfl, hleaves⟩
    | (none, w') =>
      rw [hafter] at hleaves
      obtain ⟨hsound, hstack, hdone, hall⟩ := hleaves
      have hnext : ∀ b, DependsOn modules node b → b ∈ w'.done := by
        rintro b ⟨m', hm', hb⟩
        cases hm.symm.trans hm'
        exact hall b hb
      obtain ⟨hsound', hstack', hdone'⟩ := hsound.leave hstack hnext
      refine ⟨rfl, hsound', hstack', ?_, by simp [hdone']⟩
      rw [hdone', ← hsame]
      exact hdone.trans (Set.subset_insert _ _)

/-! ## The walk from every module -/

/-- What the walk from these modules leaves: a cycle, or each of them done. -/
def LeavesFrom (modules : ModuleMap) (ids : List Nat) : Option (List Nat) → Prop
  | some cycle => IsCycle (DependsOn modules) cycle
  | none       => ∀ id ∈ ids, ¬ TransGen (DependsOn modules) id id

theorem findCycleFrom_leaves (hknown : Known modules) : ∀ (ids : List Nat) (w : Walk), w.Sound modules → w.stack = [] →
    (∀ id ∈ ids, id ∈ modules.keys) →
      findCycleFromWithin modules.keys.length modules ids w = some (findCycleFrom modules ids w) ∧
        LeavesFrom modules ids (findCycleFrom modules ids w)
  | [], _, _, _, _ => ⟨rfl, by simp [findCycleFrom, LeavesFrom]⟩
  | id :: ids, w, h, hstack, hkeys => by
    obtain ⟨hkey, hrest⟩ := List.forall_mem_cons.mp hkeys
    -- the walk goes on from `w'`, where `id` is done
    have hgo : ∀ w' : Walk, w'.Sound modules → w'.stack = [] → id ∈ w'.done →
        findCycleFromWithin modules.keys.length modules ids w' = some (findCycleFrom modules ids w') ∧
          LeavesFrom modules (id :: ids) (findCycleFrom modules ids w') := by
      intro w' h' hstack' hdone
      obtain ⟨hwithin, hleaves⟩ := findCycleFrom_leaves hknown ids w' h' hstack' hrest
      refine ⟨hwithin, ?_⟩
      cases hresult : findCycleFrom modules ids w' with
      | some cycle =>
        rw [hresult] at hleaves
        exact hleaves
      | none =>
        rw [hresult] at hleaves
        exact List.forall_mem_cons.mpr ⟨h'.search.acyclic id hdone, hleaves⟩
    unfold findCycleFromWithin findCycleFrom
    rcases h.colour_cases id with ⟨hc, -⟩ | ⟨-, hmem⟩ | ⟨hc, hmem⟩
    · rw [if_pos hc, if_pos hc]
      have hdepth : (w.uncoloured modules).length ≤ modules.keys.length := List.length_filter_le ..
      obtain ⟨hwithin, hleaves⟩ := visit_leaves hknown modules.keys.length id w h hc hkey (by simp [hstack]) hdepth
      rw [hwithin]
      match hresult : visit modules modules.keys.length id w with
      | (some cycle, w') =>
        rw [hresult] at hleaves
        exact ⟨rfl, hleaves⟩
      | (none, w') =>
        rw [hresult] at hleaves
        obtain ⟨hsound, hstack', -, hone⟩ := hleaves
        exact hgo w' hsound (hstack'.trans hstack) (hone id List.mem_cons_self)
    · rw [hstack] at hmem
      cases hmem
    · rw [if_neg (by omega), if_neg (by omega)]
      exact hgo w h hstack hmem

/-- **`find_cycle` is correct.**  Where dependencies are modules of the map, it returns, within as many nested visits as there
are modules; it returns a cycle exactly when the dependency graph has one, and what it returns is one. -/
theorem findCycle_correct (modules : ModuleMap) (hknown : Known modules) :
    findCycleWithin modules.keys.length modules = some (findCycle modules) ∧
    ((findCycle modules).isSome = true ↔ ∃ a, TransGen (DependsOn modules) a a) ∧
    ∀ cycle ∈ findCycle modules, 2 ≤ cycle.length ∧ cycle.head? = cycle.getLast? ∧ cycle.dropLast.Nodup ∧
      cycle.IsChain (DependsOn modules) := by
  obtain ⟨hwithin, hleaves⟩ := findCycleFrom_leaves hknown modules.keys ⟨OrdMap.empty, []⟩ (Walk.Sound.start modules) rfl
    fun _ hid => hid
  have hcycle : ∀ cycle, findCycle modules = some cycle → IsCycle (DependsOn modules) cycle := by
    intro cycle hfound
    unfold findCycle at hfound
    rw [hfound] at hleaves
    exact hleaves
  refine ⟨hwithin, ⟨fun hsome => ?_, ?_⟩, fun cycle hfound => ?_⟩
  · obtain ⟨cycle, hfound⟩ := Option.isSome_iff_exists.mp hsome
    exact (hcycle cycle hfound).transGen
  · rintro ⟨a, ha⟩
    obtain ⟨b, hedge, -⟩ := Relation.TransGen.head'_iff.mp ha
    cases hfound : findCycle modules with
    | some cycle => rfl
    | none =>
      unfold findCycle at hfound
      rw [hfound] at hleaves
      exact absurd ha (hleaves a hedge.known)
  · obtain ⟨hlong, hclosed, hnodup, hpath⟩ := hcycle cycle hfound
    exact ⟨hlong, hclosed, hnodup, hpath⟩

theorem known_of_entries {modules : ModuleMap}
    (h : ∀ e ∈ modules.entries, ∀ b ∈ e.2.dependencies.keys, b ∈ modules.keys) : Known modules := by
  rintro a b ⟨m, hm, hb⟩
  exact h (a, m) (OrdMap.get?_eq_some_iff.mp hm) b hb

def dependentModule (id : Nat) (dependencies : List Nat) : Nat × ResolvedModule :=
  (id, ⟨id, "", [], OrdMap.empty, OrdMap.empty, OrdMap.ofList (dependencies.map (·, ()))⟩)

/-- The first module needs the second and the third, which need each other. -/
def knotted : ModuleMap := OrdMap.ofList [dependentModule 0 [1, 2], dependentModule 1 [2], dependentModule 2 [1]]

theorem knotted_cycle :
    (∃ a, TransGen (DependsOn knotted) a a) ∧ findCycle knotted = some [1, 2, 1] ∧ [1, 2, 1].IsChain (DependsOn knotted) := by
  have hfound : findCycle knotted = some [1, 2, 1] := by decide
  obtain ⟨-, hiff, hshape⟩ := findCycle_correct knotted (known_of_entries (by decide))
  exact ⟨hiff.mp (by rw [hfound]; rfl), hfound, (hshape _ hfound).2.2.2⟩

end Modules
end Syllog
