import Mathlib.Logic.Relation
import Mathlib.Data.List.Chain
import Mathlib.Data.List.Nodup
import Mathlib.Data.Set.Insert
/-!
# Colours — depth-first search in three colours

A search keeps the stack of what it is inside of and the set of what it is done with.  The stack is a path, and what is done
leads to what is done only and lies on no cycle: `Coloured`, kept by entering and by leaving a node.  An edge back into the
stack closes a cycle.
-/
namespace Syllog
namespace Colours

open Relation (TransGen)

variable {α : Type} (edge : α → α → Prop)

/-- **The invariant of the search.** -/
structure Coloured (stack : List α) (done : Set α) : Prop where
  nodup : stack.Nodup
  path : stack.IsChain edge
  apart : ∀ a ∈ stack, a ∉ done
  closed : ∀ a ∈ done, ∀ b, edge a b → b ∈ done
  acyclic : ∀ a ∈ done, ¬ TransGen edge a a

/-- A closed walk in which no node but the last repeats. -/
structure IsCycle (cycle : List α) : Prop where
  long : 2 ≤ cycle.length
  closed : cycle.head? = cycle.getLast?
  nodup : cycle.dropLast.Nodup
  path : cycle.IsChain edge

variable {edge} {stack : List α} {done : Set α} {a b : α}

theorem Coloured.start : Coloured edge [] ∅ :=
  ⟨.nil, .nil, by simp, by simp, by simp⟩

/-- Entering a node of neither colour, along an edge from the top of the stack. -/
theorem Coloured.enter (h : Coloured edge stack done) (hstack : a ∉ stack) (hdone : a ∉ done)
    (htop : ∀ top ∈ stack.getLast?, edge top a) : Coloured edge (stack ++ [a]) done where
  nodup := List.nodup_append'.mpr ⟨h.nodup, List.nodup_singleton a, by simpa using hstack⟩
  path := List.isChain_append.mpr ⟨h.path, .singleton a, fun top hmem b hb => by
    cases hb
    exact htop top hmem⟩
  apart := by
    intro b hb
    rcases List.mem_append.mp hb with hb | hb
    · exact h.apart b hb
    · rwa [List.mem_singleton.mp hb]
  closed := h.closed
  acyclic := h.acyclic

theorem Coloured.reaches_done (h : Coloured edge stack done) (ha : a ∈ done) (hab : TransGen edge a b) : b ∈ done := by
  induction hab with
  | single hedge => exact h.closed _ ha _ hedge
  | tail _ hedge ih => exact h.closed _ ih _ hedge

/-- Leaving a node that leads to done nodes only. -/
theorem Coloured.leave (h : Coloured edge (stack ++ [a]) done) (hnext : ∀ b, edge a b → b ∈ done) :
    Coloured edge stack (insert a done) where
  nodup := (List.nodup_append'.mp h.nodup).1
  path := (List.isChain_append.mp h.path).1
  apart := by
    intro b hb hmem
    rcases Set.mem_insert_iff.mp hmem with rfl | hmem
    · exact (List.nodup_append'.mp h.nodup).2.2 hb (List.mem_singleton_self b)
    · exact h.apart b (List.mem_append_left _ hb) hmem
  closed := by
    intro b hb c hedge
    rcases Set.mem_insert_iff.mp hb with rfl | hb
    · exact Set.mem_insert_of_mem _ (hnext c hedge)
    · exact Set.mem_insert_of_mem _ (h.closed b hb c hedge)
  acyclic := by
    have hapart : a ∉ done := h.apart a (by simp)
    intro b hb hcycle
    rcases Set.mem_insert_iff.mp hb with rfl | hb
    · -- a way back to the node goes through what is done, and does not leave it
      obtain ⟨c, hedge, hrest⟩ := Relation.TransGen.head'_iff.mp hcycle
      rcases Relation.reflTransGen_iff_eq_or_transGen.mp hrest with rfl | hrest
      · exact hapart (hnext _ hedge)
      · exact hapart (h.reaches_done (hnext _ hedge) hrest)
    · exact h.acyclic b hb hcycle

/-- **An edge from the top back into the stack closes a cycle.** -/
theorem Coloured.isCycle {before rest : List α} (h : Coloured edge (before ++ b :: rest) done)
    (hedge : ∀ top ∈ (before ++ b :: rest).getLast?, edge top b) : IsCycle edge (b :: rest ++ [b]) where
  long := by simp
  closed := by
    rw [List.getLast?_concat]
    rfl
  nodup := by
    rw [List.dropLast_concat]
    exact (List.nodup_append'.mp h.nodup).2.1
  path := by
    refine List.isChain_append.mpr ⟨(List.isChain_append.mp h.path).2.1, .singleton b, fun top hmem c hc => ?_⟩
    cases hc
    refine hedge top ?_
    rwa [List.getLast?_append_cons]

theorem transGen_of_chain : ∀ {path : List α} {a b : α}, (a :: path).IsChain edge → path.getLast? = some b →
    TransGen edge a b
  | [], _, _, _, hlast => by cases hlast
  | [c], a, b, hchain, hlast => by
    cases hlast
    exact .single (List.isChain_cons_cons.mp hchain).1
  | c :: d :: path, a, b, hchain, hlast => by
    obtain ⟨hedge, hrest⟩ := List.isChain_cons_cons.mp hchain
    exact .head hedge (transGen_of_chain hrest (by simpa using hlast))

/-- A cycle is a way from a node back to it. -/
theorem IsCycle.transGen {cycle : List α} (h : IsCycle edge cycle) : ∃ a, TransGen edge a a := by
  obtain ⟨hlong, hclosed, -, hpath⟩ := h
  match cycle with
  | a :: b :: rest =>
    refine ⟨a, transGen_of_chain hpath ?_⟩
    rw [← List.getLast?_cons_cons (a := a), ← hclosed]
    rfl

end Colours
end Syllog
