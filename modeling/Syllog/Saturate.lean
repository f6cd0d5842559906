import Syllog.OrdMap
import Mathlib.Data.Finset.Union
import Mathlib.Logic.Relation
import Mathlib.Data.Fintype.Card
import Mathlib.Algebra.BigOperators.Group.Finset.Basic
import Mathlib.Algebra.Order.BigOperators.Group.List
import Mathlib.Algebra.Order.Ring.Nat
/-!
# Saturate — labels that grow along the edges of a graph

A graph is a map from its nodes to what they are; `own` gives a node its labels, `next` its edges.  A pass gives every
node, besides the labels it has, those its targets had before the pass, and the passes repeat until one changes nothing.
The loop is written with a budget, which `stable_saturate` shows to be enough.
-/
namespace Syllog
namespace Saturate

variable {κ α ε : Type} [LinearOrder κ]

def labelOf (labels : OrdMap κ (Finset ε)) (k : κ) : Finset ε := (labels.get? k).getD ∅

def start (own : α → Finset ε) (g : OrdMap κ α) : OrdMap κ (Finset ε) := g.filterMap fun _ node => some (own node)

/-- The labels are of the nodes of the graph. -/
def Labels (g : OrdMap κ α) (labels : OrdMap κ (Finset ε)) : Prop := ∀ k, (labels.get? k).isSome = (g.get? k).isSome

theorem labels_start {own : α → Finset ε} {g : OrdMap κ α} : Labels g (start own g) := by
  intro k
  simp only [start, OrdMap.get?_filterMap]
  cases g.get? k <;> rfl

theorem labelOf_start {own : α → Finset ε} {g : OrdMap κ α} {k : κ} {node : α} (h : g.get? k = some node) :
    labelOf (start own g) k = own node := by
  simp only [labelOf, start, OrdMap.get?_filterMap, h, Option.bind_some, Option.getD_some]

theorem labelOf_of_not_node {g : OrdMap κ α} {labels : OrdMap κ (Finset ε)} (hl : Labels g labels) {k : κ}
    (h : g.get? k = none) : labelOf labels k = ∅ := by
  have hk := hl k
  rw [h] at hk
  cases hlabel : labels.get? k with
  | none => simp [labelOf, hlabel]
  | some E => simp [hlabel] at hk

variable [DecidableEq ε]

def pass (next : α → Finset κ) (g : OrdMap κ α) (labels : OrdMap κ (Finset ε)) : OrdMap κ (Finset ε) :=
  g.filterMap fun k node => some (labelOf labels k ∪ (next node).biUnion (labelOf labels))

def saturateFor (next : α → Finset κ) (g : OrdMap κ α) : Nat → OrdMap κ (Finset ε) → OrdMap κ (Finset ε)
  | 0, labels     => labels
  | n + 1, labels =>
    if pass next g labels = labels then labels else saturateFor next g n (pass next g labels)

/-- The passes from the nodes' own labels on. -/
def saturate [Fintype ε] (own : α → Finset ε) (next : α → Finset κ) (g : OrdMap κ α) : OrdMap κ (Finset ε) :=
  saturateFor next g (g.keys.length * Fintype.card ε + 1) (start own g)

variable {own : α → Finset ε} {next : α → Finset κ} {g : OrdMap κ α} {labels : OrdMap κ (Finset ε)}

/-! ## One pass -/

theorem labels_pass : Labels g (pass next g labels) := by
  intro k
  simp only [pass, OrdMap.get?_filterMap]
  cases g.get? k <;> rfl

theorem labelOf_pass {k : κ} {node : α} (h : g.get? k = some node) :
    labelOf (pass next g labels) k = labelOf labels k ∪ (next node).biUnion (labelOf labels) := by
  simp only [labelOf, pass, OrdMap.get?_filterMap, h, Option.bind_some, Option.getD_some]

/-- A pass takes no label away. -/
theorem labelOf_subset_pass (hl : Labels g labels) (k : κ) : labelOf labels k ⊆ labelOf (pass next g labels) k := by
  cases hk : g.get? k with
  | none =>
    rw [labelOf_of_not_node hl hk]
    exact Finset.empty_subset _
  | some node =>
    rw [labelOf_pass hk]
    exact Finset.subset_union_left

/-! ## The loop comes to an end -/

/-- The number of labels the nodes have. -/
def weight (g : OrdMap κ α) (labels : OrdMap κ (Finset ε)) : Nat := (g.keys.map fun k => (labelOf labels k).card).sum

omit [DecidableEq ε] in
theorem weight_le [Fintype ε] : weight g labels ≤ g.keys.length * Fintype.card ε := by
  have h := List.sum_le_card_nsmul (g.keys.map fun k => (labelOf labels k).card) (Fintype.card ε) (by
    intro n hn
    obtain ⟨k, -, rfl⟩ := List.mem_map.mp hn
    exact Finset.card_le_univ _)
  simpa [weight] using h

theorem weight_le_pass (hl : Labels g labels) : weight g labels ≤ weight g (pass next g labels) :=
  List.sum_le_sum fun k _ => Finset.card_le_card (labelOf_subset_pass hl k)

/-- **A pass that adds no label changes nothing.** -/
theorem pass_eq_of_weight (hl : Labels g labels) (h : weight g (pass next g labels) = weight g labels) :
    pass next g labels = labels := by
  have hsame : ∀ k, labelOf (pass next g labels) k = labelOf labels k := by
    intro k
    by_contra hne
    have hnode : k ∈ g.keys := by
      rw [OrdMap.mem_keys_iff]
      cases hk : g.get? k with
      | none => exact absurd ((labelOf_of_not_node labels_pass hk).trans (labelOf_of_not_node hl hk).symm) hne
      | some node => exact ⟨node, rfl⟩
    have hlt : (labelOf labels k).card < (labelOf (pass next g labels) k).card :=
      Finset.card_lt_card ⟨labelOf_subset_pass hl k, fun hsub =>
        hne (Finset.Subset.antisymm hsub (labelOf_subset_pass hl k))⟩
    have hsum : weight g labels < weight g (pass next g labels) :=
      List.sum_lt_sum _ _ (fun j _ => Finset.card_le_card (labelOf_subset_pass hl j)) ⟨k, hnode, hlt⟩
    omega
  refine OrdMap.ext_get? fun k => ?_
  have hk : ((pass next g labels).get? k).isSome = (labels.get? k).isSome := (labels_pass k).trans (hl k).symm
  have heq := hsame k
  unfold labelOf at heq
  cases hp : (pass next g labels).get? k <;> cases hq : labels.get? k <;> simp_all

theorem stable_saturateFor [Fintype ε] : ∀ (n : Nat) {labels : OrdMap κ (Finset ε)}, Labels g labels →
    g.keys.length * Fintype.card ε < weight g labels + n →
      pass next g (saturateFor next g n labels) = saturateFor next g n labels
  | 0, labels, _, h => by
    have hle : weight g labels ≤ g.keys.length * Fintype.card ε := weight_le
    omega
  | n + 1, labels, hl, h => by
    rw [saturateFor]
    by_cases hp : pass next g labels = labels
    · rw [if_pos hp]
      exact hp
    · rw [if_neg hp]
      have hle : weight g labels ≤ weight g (pass next g labels) := weight_le_pass hl
      have hne : weight g (pass next g labels) ≠ weight g labels := fun heq => hp (pass_eq_of_weight hl heq)
      exact stable_saturateFor n labels_pass (by omega)

/-- **The last pass of the loop changes nothing.** -/
theorem stable_saturate [Fintype ε] : pass next g (saturate own next g) = saturate own next g :=
  stable_saturateFor _ labels_start (by omega)

/-! ## What the loop computes -/

/-- **What every pass keeps, the loop keeps.** -/
theorem saturateFor_induction {P : OrdMap κ (Finset ε) → Prop} (hpass : ∀ labels, P labels → P (pass next g labels)) :
    ∀ (n : Nat) {labels : OrdMap κ (Finset ε)}, P labels → P (saturateFor next g n labels)
  | 0, _, h => h
  | n + 1, labels, h => by
    rw [saturateFor]
    by_cases hp : pass next g labels = labels
    · rw [if_pos hp]
      exact h
    · rw [if_neg hp]
      exact saturateFor_induction hpass n (hpass labels h)

section
variable [Fintype ε]

theorem labels_saturate : Labels g (saturate own next g) :=
  saturateFor_induction (fun _ _ => labels_pass) _ labels_start

/-- A node keeps its own labels. -/
theorem own_subset_saturate {k : κ} {node : α} (h : g.get? k = some node) :
    own node ⊆ labelOf (saturate own next g) k := by
  refine (saturateFor_induction (P := fun labels => Labels g labels ∧ own node ⊆ labelOf labels k) ?_ _ ?_).2
  · rintro labels ⟨hl, hsub⟩
    exact ⟨labels_pass, hsub.trans (labelOf_subset_pass hl k)⟩
  · exact ⟨labels_start, by rw [labelOf_start h]⟩

/-- **A node has the labels of the nodes it leads to.** -/
theorem next_subset_saturate {k c : κ} {node : α} (h : g.get? k = some node) (hc : c ∈ next node) :
    labelOf (saturate own next g) c ⊆ labelOf (saturate own next g) k := by
  have hstable : pass next g (saturate own next g) = saturate own next g := stable_saturate
  calc labelOf (saturate own next g) c
      ⊆ labelOf (saturate own next g) k ∪ (next node).biUnion (labelOf (saturate own next g)) :=
        (Finset.subset_biUnion_of_mem _ hc).trans Finset.subset_union_right
    _ = labelOf (saturate own next g) k := by rw [← labelOf_pass h, hstable]

/-- The loop without a budget: passes until one changes nothing. -/
inductive Saturates (next : α → Finset κ) (g : OrdMap κ α) : OrdMap κ (Finset ε) → OrdMap κ (Finset ε) → Prop
  | last {labels : OrdMap κ (Finset ε)} (same : pass next g labels = labels) : Saturates next g labels labels
  | again {labels result : OrdMap κ (Finset ε)} (changed : pass next g labels ≠ labels)
      (rest : Saturates next g (pass next g labels) result) : Saturates next g labels result

theorem saturates_saturateFor : ∀ (n : Nat) {labels : OrdMap κ (Finset ε)}, Labels g labels →
    g.keys.length * Fintype.card ε < weight g labels + n → Saturates next g labels (saturateFor next g n labels)
  | 0, labels, _, h => by
    have hle : weight g labels ≤ g.keys.length * Fintype.card ε := weight_le
    omega
  | n + 1, labels, hl, h => by
    rw [saturateFor]
    by_cases hp : pass next g labels = labels
    · rw [if_pos hp]
      exact .last hp
    · rw [if_neg hp]
      have hle : weight g labels ≤ weight g (pass next g labels) := weight_le_pass hl
      have hne : weight g (pass next g labels) ≠ weight g labels := fun heq => hp (pass_eq_of_weight hl heq)
      exact .again hp (saturates_saturateFor n labels_pass (by omega))

/-- **The loop comes to an end**, with the result of the budgeted one. -/
theorem saturates_saturate : Saturates next g (start own g) (saturate own next g) :=
  saturates_saturateFor _ labels_start (by omega)

/-- A node with an edge to `c`. -/
def Leads (next : α → Finset κ) (g : OrdMap κ α) (k c : κ) : Prop := ∃ node, g.get? k = some node ∧ c ∈ next node

/-- **The labels of a node are those of the nodes it leads to**, over any number of edges. -/
theorem mem_saturate_iff {k : κ} {e : ε} : e ∈ labelOf (saturate own next g) k ↔
    ∃ c node, Relation.ReflTransGen (Leads next g) k c ∧ g.get? c = some node ∧ e ∈ own node := by
  constructor
  · let P : OrdMap κ (Finset ε) → Prop := fun labels => Labels g labels ∧ ∀ k, ∀ e ∈ labelOf labels k,
      ∃ c node, Relation.ReflTransGen (Leads next g) k c ∧ g.get? c = some node ∧ e ∈ own node
    have hall : P (saturate own next g) := by
      refine saturateFor_induction ?_ _ ⟨labels_start, fun k e he => ?_⟩
      · rintro labels ⟨hl, hfrom⟩
        refine ⟨labels_pass, fun k e he => ?_⟩
        cases hk : g.get? k with
        | none =>
          rw [labelOf_of_not_node labels_pass hk] at he
          cases he
        | some node =>
          rw [labelOf_pass hk] at he
          rcases Finset.mem_union.mp he with he | he
          · exact hfrom k e he
          · obtain ⟨c, hc, he⟩ := Finset.mem_biUnion.mp he
            obtain ⟨c', node', hreach, hnode, howns⟩ := hfrom c e he
            exact ⟨c', node', .head ⟨node, hk, hc⟩ hreach, hnode, howns⟩
      · cases hk : g.get? k with
        | none =>
          rw [labelOf_of_not_node labels_start hk] at he
          cases he
        | some node =>
          rw [labelOf_start hk] at he
          exact ⟨k, node, .refl, hk, he⟩
    exact fun he => hall.2 k e he
  · rintro ⟨c, node, hreach, hnode, howns⟩
    induction hreach using Relation.ReflTransGen.head_induction_on with
    | refl => exact own_subset_saturate hnode howns
    | head hstep _ ih =>
      obtain ⟨node', hk, hc⟩ := hstep
      exact next_subset_saturate hk hc ih

end

end Saturate
end Syllog
