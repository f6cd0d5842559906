import Mathlib.Data.Finset.Basic
import Mathlib.Data.Finset.Card
import Mathlib.Logic.Relation
import Mathlib.Algebra.GroupWithZero.Nat
/-!
# Dataflow — forward must-analyses over a finite graph

A graph is its successor lists on the nodes `0 … size - 1`.  `reachable` marks the nodes a queue started at node zero
meets.  `fixpoint` is the round-robin loop of a must-analysis: every node holds the facts known on entry, an edge
intersects its target's facts with the facts its source leaves, and the passes over the nodes repeat until one changes
nothing.

The loops are written with a step budget.  `closed_reachable` and `stable_fixpoint` show the budgets are enough: the
queue runs dry, and the last pass changes nothing.  `le_fixpoint` says the result is the greatest solution below the
start.
-/
namespace Syllog
namespace Dataflow

/-! ## Reachable nodes -/

/-- One queue run: an unmarked node is marked and its successors queued; anything else is dropped. -/
def markFrom (succ : Nat → List Nat) : Nat → List Nat → List Bool → List Bool
  | 0, _, marks           => marks
  | _ + 1, [], marks      => marks
  | n + 1, b :: q, marks  =>
    if marks[b]? = some false then markFrom succ n (q ++ succ b) (marks.set b true) else markFrom succ n q marks

/-- The successors of the unmarked nodes, which the queue may still receive. -/
def pending (succ : Nat → List Nat) : Nat → List Bool → Nat
  | _, []              => 0
  | k, true :: marks   => pending succ (k + 1) marks
  | k, false :: marks  => (succ k).length + pending succ (k + 1) marks

/-- The marked nodes of a graph, from node zero. -/
def reachable (size : Nat) (succ : Nat → List Nat) : List Bool :=
  markFrom succ (1 + pending succ 0 (List.replicate size false)) [0] (List.replicate size false)

/-- An edge of the graph between nodes in range. -/
def Edge (size : Nat) (succ : Nat → List Nat) (a b : Nat) : Prop := a < size ∧ b ∈ succ a ∧ b < size

theorem pending_set (succ : Nat → List Nat) : ∀ (marks : List Bool) (k b : Nat), marks[b]? = some false →
    pending succ k (marks.set b true) + (succ (k + b)).length = pending succ k marks
  | [], _, _, h => by simp at h
  | m :: marks, k, 0, h => by
    simp only [List.getElem?_cons_zero, Option.some.injEq] at h
    subst h
    simp only [List.set_cons_zero, pending, Nat.add_zero]
    omega
  | m :: marks, k, b + 1, h => by
    have ih := pending_set succ marks (k + 1) b (by simpa using h)
    rw [show k + 1 + b = k + (b + 1) by omega] at ih
    cases m <;> simp only [List.set_cons_succ, pending] <;> omega

/-- **The queue run keeps what is marked, and ends with every queued node in range marked and every marked node's
successors marked**, once they are marked or queued at its start and the budget covers the queue and the pending
successors. -/
theorem markFrom_closed (succ : Nat → List Nat) : ∀ (n : Nat) (q : List Nat) (marks : List Bool),
    q.length + pending succ 0 marks ≤ n →
    (∀ a : Nat, marks[a]? = some true → ∀ b ∈ succ a, b < marks.length → marks[b]? = some true ∨ b ∈ q) →
    (markFrom succ n q marks).length = marks.length ∧
    (∀ a : Nat, marks[a]? = some true → (markFrom succ n q marks)[a]? = some true) ∧
    (∀ b ∈ q, b < marks.length → (markFrom succ n q marks)[b]? = some true) ∧
    (∀ a : Nat, (markFrom succ n q marks)[a]? = some true → ∀ b ∈ succ a, b < marks.length →
      (markFrom succ n q marks)[b]? = some true)
  | 0, q, marks, hn, hq => by
    have hq0 : q = [] := List.eq_nil_of_length_eq_zero (by omega)
    subst hq0
    refine ⟨rfl, fun _ h => h, by simp, fun a ha b hb hlt => ?_⟩
    exact (hq a ha b hb hlt).resolve_right (by simp)
  | n + 1, [], marks, _, hq => by
    refine ⟨rfl, fun _ h => h, by simp, fun a ha b hb hlt => ?_⟩
    exact (hq a ha b hb hlt).resolve_right (by simp)
  | n + 1, b :: q, marks, hn, hq => by
    unfold markFrom
    by_cases hb : marks[b]? = some false
    · rw [if_pos hb]
      have hblt : b < marks.length := (List.getElem?_eq_some_iff.1 hb).1
      have hw := pending_set succ marks 0 b hb
      rw [Nat.zero_add] at hw
      have hself : (marks.set b true)[b]? = some true := by simp [hblt]
      have hkeep : ∀ a : Nat, marks[a]? = some true → (marks.set b true)[a]? = some true := by
        intro a ha
        by_cases hab : b = a
        · subst hab; exact hself
        · rw [List.getElem?_set_ne hab]; exact ha
      obtain ⟨hlen, hk, hqm, hc⟩ := markFrom_closed succ n (q ++ succ b) (marks.set b true)
        (by simp only [List.length_append, List.length_cons] at hn ⊢; omega) (by
          intro a ha c hc hlt
          rw [List.length_set] at hlt
          by_cases hab : b = a
          · subst hab; exact .inr (List.mem_append_right _ hc)
          · rw [List.getElem?_set_ne hab] at ha
            rcases hq a ha c hc hlt with h | h
            · exact .inl (hkeep c h)
            · rcases List.mem_cons.1 h with rfl | h
              · exact .inl hself
              · exact .inr (List.mem_append_left _ h))
      rw [List.length_set] at hlen hqm hc
      refine ⟨hlen, fun a ha => hk a (hkeep a ha), fun c hc' hlt => ?_, hc⟩
      rcases List.mem_cons.1 hc' with rfl | h
      · exact hk _ hself
      · exact hqm c (List.mem_append_left _ h) hlt
    · rw [if_neg hb]
      have hmark : b < marks.length → marks[b]? = some true := by
        intro hlt
        rw [List.getElem?_eq_getElem hlt] at hb ⊢
        cases hm : marks[b] with
        | true => rfl
        | false => rw [hm] at hb; exact absurd rfl hb
      obtain ⟨hlen, hk, hqm, hc⟩ := markFrom_closed succ n q marks
        (by simp only [List.length_cons] at hn; omega) (by
          intro a ha c hc hlt
          rcases hq a ha c hc hlt with h | h
          · exact .inl h
          · rcases List.mem_cons.1 h with rfl | h
            · exact .inl (hmark hlt)
            · exact .inr h)
      refine ⟨hlen, hk, fun c hc' hlt => ?_, hc⟩
      rcases List.mem_cons.1 hc' with rfl | h
      · exact hk _ (hmark hlt)
      · exact hqm c h hlt

theorem getElem?_replicate_false_ne_true (n a : Nat) : (List.replicate n false)[a]? ≠ some true := by
  rw [List.getElem?_replicate]
  split <;> simp

theorem length_reachable (size : Nat) (succ : Nat → List Nat) : (reachable size succ).length = size := by
  have h := (markFrom_closed succ (1 + pending succ 0 (List.replicate size false)) [0] (List.replicate size false)
    (by simp) (fun a ha => absurd ha (getElem?_replicate_false_ne_true size a))).1
  rw [List.length_replicate] at h
  exact h

/-- **Node zero is marked, and the marks are closed under the edges.** -/
theorem closed_reachable (size : Nat) (succ : Nat → List Nat) :
    (0 < size → (reachable size succ)[0]? = some true) ∧
    ∀ a, (reachable size succ)[a]? = some true → ∀ b ∈ succ a, b < size → (reachable size succ)[b]? = some true := by
  obtain ⟨-, -, hq, hc⟩ := markFrom_closed succ (1 + pending succ 0 (List.replicate size false)) [0]
    (List.replicate size false) (by simp) (fun a ha => absurd ha (getElem?_replicate_false_ne_true size a))
  rw [List.length_replicate] at hq hc
  exact ⟨fun h => hq 0 (by simp) h, hc⟩

theorem markFrom_sound (succ : Nat → List Nat) (P : Nat → Prop) (size : Nat)
    (hstep : ∀ a b, P a → Edge size succ a b → P b) : ∀ (n : Nat) (q : List Nat) (marks : List Bool),
    marks.length = size → (∀ a, marks[a]? = some true → P a) → (∀ b ∈ q, b < size → P b) →
    ∀ a, (markFrom succ n q marks)[a]? = some true → P a
  | 0, _, _, _, hm, _, a, ha => hm a ha
  | _ + 1, [], _, _, hm, _, a, ha => hm a ha
  | n + 1, b :: q, marks, hlen, hm, hq, a, ha => by
    unfold markFrom at ha
    by_cases hb : marks[b]? = some false
    · rw [if_pos hb] at ha
      have hblt : b < size := hlen ▸ (List.getElem?_eq_some_iff.1 hb).1
      have hPb : P b := hq b List.mem_cons_self hblt
      refine markFrom_sound succ P size hstep n (q ++ succ b) (marks.set b true) (by simpa using hlen) ?_ ?_ a ha
      · intro c hc
        by_cases hcb : b = c
        · exact hcb ▸ hPb
        · rw [List.getElem?_set_ne hcb] at hc; exact hm c hc
      · intro c hc hlt
        rcases List.mem_append.1 hc with h | h
        · exact hq c (List.mem_cons_of_mem _ h) hlt
        · exact hstep b c hPb ⟨hblt, h, hlt⟩
    · rw [if_neg hb] at ha
      exact markFrom_sound succ P size hstep n q marks hlen hm
        (fun c hc => hq c (List.mem_cons_of_mem _ hc)) a ha

/-- **The marked nodes are those met on a walk from node zero.** -/
theorem reachable_iff (size : Nat) (succ : Nat → List Nat) (h0 : 0 < size) (a : Nat) :
    (reachable size succ)[a]? = some true ↔ Relation.ReflTransGen (Edge size succ) 0 a := by
  constructor
  · refine markFrom_sound succ (Relation.ReflTransGen (Edge size succ) 0) size (fun _ _ hP he => hP.tail he) _ _ _
      (List.length_replicate ..) (fun b hb => absurd hb (getElem?_replicate_false_ne_true size b)) (fun b hb _ => ?_) a
    rw [List.mem_singleton.1 hb]
  · intro hw
    induction hw with
    | refl => exact (closed_reachable size succ).1 h0
    | tail _ he ih => exact (closed_reachable size succ).2 _ ih _ he.2.1 he.2.2

/-! ## The round-robin loop -/

/-- The facts held on entry by each node; `none` at a node that takes no part. -/
abbrev Incoming (α : Type) := List (Option (Finset α))

/-- A forward must-analysis: the edges, what a node leaves of the facts it was entered with, and the nodes no edge may
change. -/
structure Analysis (α : Type) where
  succ : Nat → List Nat
  transfer : Nat → Finset α → Finset α
  pinned : Nat → Bool

def cardOf {α : Type} (o : Option (Finset α)) : Nat := (o.map Finset.card).getD 0

/-- The number of facts held, over all nodes. -/
def weight {α : Type} (inc : Incoming α) : Nat := (inc.map cardOf).sum

theorem weight_set_lt {α : Type} : ∀ (inc : Incoming α) (s : Nat) (cur new : Finset α), inc[s]? = some (some cur) →
    new.card < cur.card → weight (inc.set s (some new)) < weight inc
  | [], _, _, _, h, _ => by simp at h
  | o :: inc, 0, cur, new, h, hlt => by
    simp only [List.getElem?_cons_zero, Option.some.injEq] at h
    subst h
    simp only [List.set_cons_zero, weight, List.map_cons, List.sum_cons, cardOf, Option.map_some, Option.getD_some]
    omega
  | o :: inc, s + 1, cur, new, h, hlt => by
    have ih := weight_set_lt inc s cur new (by simpa using h) hlt
    simp only [List.set_cons_succ, weight, List.map_cons, List.sum_cons] at ih ⊢
    omega

/-- **No edge loses anything more**: what an unpinned successor holds, the node leaves. -/
def Stable {α : Type} (a : Analysis α) (inc : Incoming α) : Prop :=
  ∀ (i : Nat) (st : Finset α), inc[i]? = some (some st) → ∀ s ∈ a.succ i, a.pinned s = false →
    ∀ cur, inc[s]? = some (some cur) → cur ⊆ a.transfer i st

/-- Entry facts that lost facts only: the same nodes take part, and pinned nodes keep theirs. -/
structure Below {α : Type} (a : Analysis α) (x y : Incoming α) : Prop where
  length : y.length = x.length
  none : ∀ i : Nat, x[i]? = some none → y[i]? = some none
  some : ∀ (i : Nat) (st : Finset α), x[i]? = some (some st) → ∃ st', y[i]? = some (some st') ∧ st' ⊆ st
  pinned : ∀ i : Nat, a.pinned i = true → y[i]? = x[i]?

theorem Below.refl {α : Type} (a : Analysis α) (x : Incoming α) : Below a x x :=
  ⟨rfl, fun _ h => h, fun _ st h => ⟨st, h, Finset.Subset.refl _⟩, fun _ _ => rfl⟩

theorem Below.trans {α : Type} {a : Analysis α} {x y z : Incoming α} (h : Below a x y) (h' : Below a y z) :
    Below a x z := by
  refine ⟨h'.length.trans h.length, fun i hi => h'.none i (h.none i hi), fun i st hi => ?_,
    fun i hi => (h'.pinned i hi).trans (h.pinned i hi)⟩
  obtain ⟨st', hy, hsub⟩ := h.some i st hi
  obtain ⟨st'', hz, hsub'⟩ := h'.some i st' hy
  exact ⟨st'', hz, hsub'.trans hsub⟩

/-- A node that takes part after facts were lost took part before. -/
theorem Below.of_some {α : Type} {a : Analysis α} {x y : Incoming α} (h : Below a x y) {i : Nat} {st : Finset α}
    (hy : y[i]? = Option.some (Option.some st)) : ∃ st', x[i]? = Option.some (Option.some st') ∧ st ⊆ st' := by
  have hlt : i < x.length := h.length ▸ (List.getElem?_eq_some_iff.1 hy).1
  cases hx : x[i] with
  | none =>
    rw [h.none i (by rw [List.getElem?_eq_getElem hlt, hx])] at hy; cases hy
  | some st' =>
    have hx' : x[i]? = Option.some (Option.some st') := by rw [List.getElem?_eq_getElem hlt, hx]
    obtain ⟨st'', hy', hsub⟩ := h.some i st' hx'
    rw [hy'] at hy
    cases hy
    exact ⟨st', hx', hsub⟩

/-- What a part of a pass does: facts are only lost, and the flag is up once any were. -/
structure Shrinks {α : Type} (a : Analysis α) (x y : Incoming α × Bool) : Prop where
  below : Below a x.1 y.1
  kept : y.2 = false → y = x
  lost : y.2 = true → x.2 = true ∨ weight y.1 < weight x.1
  weight_le : weight y.1 ≤ weight x.1

theorem Shrinks.refl {α : Type} (a : Analysis α) (x : Incoming α × Bool) : Shrinks a x x :=
  ⟨Below.refl a x.1, fun _ => rfl, .inl, Nat.le_refl _⟩

theorem Shrinks.trans {α : Type} {a : Analysis α} {x y z : Incoming α × Bool} (h : Shrinks a x y)
    (h' : Shrinks a y z) : Shrinks a x z := by
  refine ⟨h.below.trans h'.below, fun hz => ?_, fun hz => ?_, h'.weight_le.trans h.weight_le⟩
  · have hzy := h'.kept hz
    exact hzy.trans (h.kept (hzy ▸ hz))
  · rcases h'.lost hz with hy | hlt
    · exact (h.lost hy).imp id (fun hlt => Nat.lt_of_le_of_lt h'.weight_le hlt)
    · exact .inr (Nat.lt_of_lt_of_le hlt h.weight_le)

theorem shrinks_foldl {α β : Type} (a : Analysis α) (f : Incoming α × Bool → β → Incoming α × Bool)
    (hf : ∀ acc b, Shrinks a acc (f acc b)) : ∀ (l : List β) (acc : Incoming α × Bool), Shrinks a acc (l.foldl f acc)
  | [], acc => Shrinks.refl a acc
  | b :: l, acc => (hf acc b).trans (shrinks_foldl a f hf l (f acc b))

/-- **A fold that raises no flag left the accumulator alone at every step.** -/
theorem foldl_kept {α β : Type} (a : Analysis α) (f : Incoming α × Bool → β → Incoming α × Bool)
    (hf : ∀ acc b, Shrinks a acc (f acc b)) : ∀ (l : List β) (acc : Incoming α × Bool),
    (l.foldl f acc).2 = false → ∀ b ∈ l, f acc b = acc
  | [], _, _, _, hb => by cases hb
  | c :: l, acc, h, b, hb => by
    rw [List.foldl_cons] at h
    have hkeep := (shrinks_foldl a f hf l (f acc c)).kept h
    have hc : f acc c = acc := (hf acc c).kept (hkeep ▸ h)
    rcases List.mem_cons.1 hb with rfl | hb
    · exact hc
    · rw [hc] at h; exact foldl_kept a f hf l acc h b hb

/-- The nodes taking part are live and hold at least `sol`. -/
def Above {α : Type} (live : Nat → Prop) (sol : Nat → Finset α) (inc : Incoming α) : Prop :=
  ∀ (i : Nat) (st : Finset α), inc[i]? = some (some st) → live i ∧ sol i ⊆ st

theorem foldl_above {α β : Type} {live : Nat → Prop} {sol : Nat → Finset α}
    (f : Incoming α × Bool → β → Incoming α × Bool) : ∀ (l : List β) (acc : Incoming α × Bool),
    (∀ acc, ∀ b ∈ l, Above live sol acc.1 → Above live sol (f acc b).1) → Above live sol acc.1 →
    Above live sol (l.foldl f acc).1
  | [], _, _, h => h
  | b :: l, acc, hf, h =>
    foldl_above f l (f acc b) (fun acc c hc => hf acc c (List.mem_cons_of_mem _ hc)) (hf acc b List.mem_cons_self h)

section
variable {α : Type} [DecidableEq α]

/-- Merges the facts `out` into node `s`, noting whether anything was lost. -/
def mergeInto (a : Analysis α) (out : Finset α) (acc : Incoming α × Bool) (s : Nat) : Incoming α × Bool :=
  if a.pinned s then acc else
  match acc.1[s]? with
  | some (some cur) => if cur ∩ out = cur then acc else (acc.1.set s (some (cur ∩ out)), true)
  | _               => acc

/-- Merges what node `i` leaves into its successors. -/
def visit (a : Analysis α) (acc : Incoming α × Bool) (i : Nat) : Incoming α × Bool :=
  match acc.1[i]? with
  | some (some st) => (a.succ i).foldl (mergeInto a (a.transfer i st)) acc
  | _              => acc

/-- One pass over the nodes in order. -/
def pass (a : Analysis α) (inc : Incoming α) : Incoming α × Bool :=
  (List.range inc.length).foldl (visit a) (inc, false)

/-- Passes repeat while the last one changed something. -/
def solve (a : Analysis α) : Nat → Incoming α → Incoming α
  | 0, inc     => inc
  | n + 1, inc => if (pass a inc).2 then solve a n (pass a inc).1 else (pass a inc).1

def fixpoint (a : Analysis α) (inc : Incoming α) : Incoming α := solve a (weight inc + 1) inc

theorem mergeInto_shrinks (a : Analysis α) (out : Finset α) (acc : Incoming α × Bool) (s : Nat) :
    Shrinks a acc (mergeInto a out acc s) := by
  unfold mergeInto
  by_cases hp : a.pinned s = true
  · rw [if_pos hp]; exact Shrinks.refl a acc
  rw [if_neg hp]
  split
  · rename_i cur hcur
    by_cases heq : cur ∩ out = cur
    · rw [if_pos heq]; exact Shrinks.refl a acc
    rw [if_neg heq]
    have hlt : (cur ∩ out).card < cur.card :=
      Finset.card_lt_card (Finset.ssubset_iff_subset_ne.2 ⟨Finset.inter_subset_left, heq⟩)
    have hw := weight_set_lt acc.1 s cur (cur ∩ out) hcur hlt
    have hslt : s < acc.1.length := (List.getElem?_eq_some_iff.1 hcur).1
    refine ⟨⟨List.length_set .., fun i hi => ?_, fun i st hi => ?_, fun i hi => ?_⟩, fun h => ?_, fun _ => .inr hw,
      Nat.le_of_lt hw⟩
    · have hne : s ≠ i := by rintro rfl; rw [hcur] at hi; cases hi
      rw [List.getElem?_set_ne hne]; exact hi
    · by_cases hsi : s = i
      · subst hsi
        rw [hcur] at hi
        cases hi
        exact ⟨cur ∩ out, by simp [hslt], Finset.inter_subset_left⟩
      · rw [List.getElem?_set_ne hsi]; exact ⟨st, hi, Finset.Subset.refl _⟩
    · have hne : s ≠ i := by rintro rfl; exact hp hi
      rw [List.getElem?_set_ne hne]
    · cases h
  · exact Shrinks.refl a acc

theorem visit_shrinks (a : Analysis α) (acc : Incoming α × Bool) (i : Nat) : Shrinks a acc (visit a acc i) := by
  unfold visit
  split
  · exact shrinks_foldl a _ (mergeInto_shrinks a _) _ acc
  · exact Shrinks.refl a acc

theorem pass_shrinks (a : Analysis α) (inc : Incoming α) : Shrinks a (inc, false) (pass a inc) :=
  shrinks_foldl a _ (visit_shrinks a) _ _

/-- **A pass that changes nothing shows the facts stable.** -/
theorem stable_of_pass (a : Analysis α) (inc : Incoming α) (h : (pass a inc).2 = false) : Stable a inc := by
  intro i st hi s hs hp cur hcur
  have hlt : i < inc.length := (List.getElem?_eq_some_iff.1 hi).1
  have hv := foldl_kept a _ (visit_shrinks a) _ _ h i (List.mem_range.2 hlt)
  unfold visit at hv
  simp only [hi] at hv
  have hm := foldl_kept a _ (mergeInto_shrinks a (a.transfer i st)) (a.succ i) (inc, false) (by rw [hv]) s hs
  unfold mergeInto at hm
  simp only [hp, Bool.false_eq_true, if_false, hcur] at hm
  by_cases heq : cur ∩ a.transfer i st = cur
  · exact Finset.inter_eq_left.1 heq
  · rw [if_neg heq, Prod.mk.injEq] at hm; cases hm.2

theorem solve_stable (a : Analysis α) : ∀ (n : Nat) (inc : Incoming α), weight inc < n →
    Stable a (solve a n inc) ∧ Below a inc (solve a n inc)
  | 0, _, h => by omega
  | n + 1, inc, h => by
    unfold solve
    have hp := pass_shrinks a inc
    by_cases hc : (pass a inc).2 = true
    · rw [if_pos hc]
      have hlt : weight (pass a inc).1 < weight inc := (hp.lost hc).resolve_left (by simp)
      obtain ⟨hs, hb⟩ := solve_stable a n (pass a inc).1 (by omega)
      exact ⟨hs, hp.below.trans hb⟩
    · rw [if_neg hc]
      have hc' : (pass a inc).2 = false := by simpa using hc
      have hk := hp.kept hc'
      rw [hk]
      exact ⟨stable_of_pass a inc hc', Below.refl a inc⟩

/-- The loop without a budget: passes until one changes nothing. -/
inductive Solves (a : Analysis α) : Incoming α → Incoming α → Prop
  | last {inc : Incoming α} (same : (pass a inc).2 = false) : Solves a inc (pass a inc).1
  | again {inc result : Incoming α} (changed : (pass a inc).2 = true) (rest : Solves a (pass a inc).1 result) :
      Solves a inc result

theorem solve_solves (a : Analysis α) : ∀ (n : Nat) (inc : Incoming α), weight inc < n → Solves a inc (solve a n inc)
  | 0, _, h => by omega
  | n + 1, inc, h => by
    unfold solve
    by_cases hc : (pass a inc).2 = true
    · rw [if_pos hc]
      have hlt : weight (pass a inc).1 < weight inc := ((pass_shrinks a inc).lost hc).resolve_left (by simp)
      exact .again hc (solve_solves a n (pass a inc).1 (by omega))
    · rw [if_neg hc]
      exact .last (by simpa using hc)

/-- **The loop comes to an end**, with the result of the budgeted one. -/
theorem solves_fixpoint (a : Analysis α) (inc : Incoming α) : Solves a inc (fixpoint a inc) :=
  solve_solves a _ inc (Nat.lt_succ_self _)

/-- **The loop ends with every edge satisfied.** -/
theorem stable_fixpoint (a : Analysis α) (inc : Incoming α) : Stable a (fixpoint a inc) :=
  (solve_stable a _ inc (Nat.lt_succ_self _)).1

theorem below_fixpoint (a : Analysis α) (inc : Incoming α) : Below a inc (fixpoint a inc) :=
  (solve_stable a _ inc (Nat.lt_succ_self _)).2

/-! ## The greatest solution -/

theorem mergeInto_above (a : Analysis α) {live : Nat → Prop} {sol : Nat → Finset α} {out : Finset α}
    {acc : Incoming α × Bool} {s : Nat} (h : Above live sol acc.1)
    (hout : live s → a.pinned s = false → sol s ⊆ out) : Above live sol (mergeInto a out acc s).1 := by
  unfold mergeInto
  split
  · exact h
  rename_i hp
  split
  · rename_i cur hcur
    split
    · exact h
    · intro i st hi
      by_cases hsi : s = i
      · subst hsi
        have hslt : s < acc.1.length := (List.getElem?_eq_some_iff.1 hcur).1
        obtain ⟨hl, hsub⟩ := h s cur hcur
        simp only [List.getElem?_set_self hslt, Option.some.injEq] at hi
        subst hi
        exact ⟨hl, Finset.subset_inter hsub (hout hl (by simpa using hp))⟩
      · rw [List.getElem?_set_ne hsi] at hi; exact h i st hi
  · exact h

/-- **Every solution below the start stays below the result.** -/
theorem le_fixpoint (a : Analysis α) (inc : Incoming α) (live : Nat → Prop) (sol : Nat → Finset α)
    (hmono : ∀ i S T, S ⊆ T → a.transfer i S ⊆ a.transfer i T) (hstart : Above live sol inc)
    (hsol : ∀ i s, live i → live s → s ∈ a.succ i → a.pinned s = false → sol s ⊆ a.transfer i (sol i)) :
    Above live sol (fixpoint a inc) := by
  have hvisit : ∀ acc i, Above live sol acc.1 → Above live sol (visit a acc i).1 := by
    intro acc i h
    unfold visit
    split
    · rename_i st hst
      obtain ⟨hl, hsub⟩ := h i st hst
      refine foldl_above _ _ acc (fun acc s hs hacc => mergeInto_above a hacc (fun hls hp => ?_)) h
      exact (hsol i s hl hls hs hp).trans (hmono i _ _ hsub)
    · exact h
  have hsolve : ∀ (n : Nat) (inc : Incoming α), Above live sol inc → Above live sol (solve a n inc) := by
    intro n
    induction n with
    | zero => exact fun _ h => h
    | succ n ih =>
      intro inc h
      have hp : Above live sol (pass a inc).1 := foldl_above _ _ (inc, false) (fun acc i _ => hvisit acc i) h
      unfold solve
      split
      · exact ih _ hp
      · exact hp
  exact hsolve _ inc hstart

/-- The facts a node holds; none where it takes no part. -/
def heldAt (inc : Incoming α) (i : Nat) : Finset α :=
  match inc[i]? with
  | some (some st) => st
  | _              => ∅

omit [DecidableEq α] in
theorem heldAt_of_some {inc : Incoming α} {i : Nat} {st : Finset α} (h : inc[i]? = some (some st)) : heldAt inc i = st := by
  unfold heldAt
  rw [h]

/-- Stable facts below the start stay below the result. -/
theorem above_fixpoint {a b : Analysis α} {inc x : Incoming α} (hmono : ∀ i S T, S ⊆ T → a.transfer i S ⊆ a.transfer i T)
    (hbelow : Below b inc x) (hstable : Stable a x) :
    Above (fun i => ∃ st, x[i]? = some (some st)) (heldAt x) (fixpoint a inc) := by
  refine le_fixpoint a inc _ _ hmono (fun i st hi => ?_) ?_
  · obtain ⟨st', hst', hsub⟩ := hbelow.some i st hi
    refine ⟨⟨st', hst'⟩, ?_⟩
    rw [heldAt_of_some hst']
    exact hsub
  · rintro i s ⟨st, hi⟩ ⟨cur, hcur⟩ hs hp
    rw [heldAt_of_some hi, heldAt_of_some hcur]
    exact hstable i st hi s hs hp cur hcur

/-- **A smaller transfer under which the result is still stable has the same result.** -/
theorem fixpoint_eq_of_stable {a b : Analysis α} {inc : Incoming α} (hsucc : b.succ = a.succ) (hpinned : b.pinned = a.pinned)
    (hmono : ∀ i S T, S ⊆ T → a.transfer i S ⊆ a.transfer i T) (hmono' : ∀ i S T, S ⊆ T → b.transfer i S ⊆ b.transfer i T)
    (hle : ∀ i S, b.transfer i S ⊆ a.transfer i S) (hstable : Stable b (fixpoint a inc)) : fixpoint b inc = fixpoint a inc := by
  have hup := above_fixpoint hmono' (below_fixpoint a inc) hstable
  have hstable' : Stable a (fixpoint b inc) := by
    intro i st hi s hs hp cur hcur
    rw [← hsucc] at hs
    rw [← hpinned] at hp
    exact (stable_fixpoint b inc i st hi s hs hp cur hcur).trans (hle i st)
  have hdown := above_fixpoint hmono (below_fixpoint b inc) hstable'
  refine List.ext_getElem? fun i => ?_
  have hlength := (below_fixpoint b inc).length.trans (below_fixpoint a inc).length.symm
  cases hi : (fixpoint b inc)[i]? with
  | none =>
    rw [List.getElem?_eq_none_iff, hlength] at hi
    exact (List.getElem?_eq_none hi).symm
  | some o =>
    cases o with
    | none =>
      cases hi' : (fixpoint a inc)[i]? with
      | none =>
        rw [List.getElem?_eq_none_iff, ← hlength, ← List.getElem?_eq_none_iff, hi] at hi'
        cases hi'
      | some o' =>
        cases o' with
        | none => rfl
        | some st =>
          obtain ⟨st', hst'⟩ := (hdown i st hi').1
          rw [hi] at hst'
          cases hst'
    | some st =>
      obtain ⟨⟨st', hst'⟩, hsub⟩ := hup i st hi
      rw [heldAt_of_some hst'] at hsub
      have hsub' := (hdown i st' hst').2
      rw [heldAt_of_some hi] at hsub'
      rw [hst', hsub.antisymm hsub']

/-! ## Walks -/

/-- Facts decided one at a time: what a node leaves of a fact depends on that fact alone. -/
def Separable (a : Analysis α) : Prop :=
  ∀ (i : Nat) (S T : Finset α) (x : α), (x ∈ S → x ∈ T) → x ∈ a.transfer i S → x ∈ a.transfer i T

/-- The facts carried to a node along one walk from node zero. -/
inductive Carries (a : Analysis α) (size : Nat) (start : Finset α) : Nat → Finset α → Prop
  | zero : Carries a size start 0 start
  | edge {i s : Nat} {S : Finset α} (walk : Carries a size start i S) (source : i < size) (step : s ∈ a.succ i)
      (target : s < size) : Carries a size start s (a.transfer i S)

omit [DecidableEq α] in
theorem exists_carries (a : Analysis α) (size : Nat) (start : Finset α) {i : Nat}
    (h : Relation.ReflTransGen (Edge size a.succ) 0 i) : ∃ S, Carries a size start i S := by
  induction h with
  | refl => exact ⟨start, .zero⟩
  | tail _ he ih =>
    obtain ⟨S, hS⟩ := ih
    exact ⟨_, .edge hS he.1 he.2.1 he.2.2⟩

omit [DecidableEq α] in
theorem Carries.walk {a : Analysis α} {size : Nat} {start : Finset α} {i : Nat} {S : Finset α}
    (h : Carries a size start i S) : Relation.ReflTransGen (Edge size a.succ) 0 i := by
  induction h with
  | zero => exact .refl
  | edge _ hi hs ht ih => exact ih.tail ⟨hi, hs, ht⟩

/-- **A fact every walk to a node carries is held there by the loop's result**, when the facts are separable and the
loop started from at least the facts `U` elsewhere than at the entry. -/
theorem mem_fixpoint_of_carries (a : Analysis α) (hsep : Separable a) (inc : Incoming α) (U : Finset α) {size : Nat}
    {start : Finset α} (hzero : ∀ st, inc[0]? = some (some st) → start ⊆ st)
    (hrest : ∀ (i : Nat) (st : Finset α), 0 < i → inc[i]? = some (some st) → U ⊆ st)
    (hsize : inc.length ≤ size) (hlive : ∀ (i : Nat) (st : Finset α), inc[i]? = some (some st) →
      ∃ S, Carries a size start i S)
    {i : Nat} {st : Finset α} {x : α} (hi : (fixpoint a inc)[i]? = some (some st)) (hx : x ∈ U)
    (hall : ∀ S, Carries a size start i S → x ∈ S) : x ∈ st := by
  classical
  let sol : Nat → Finset α := fun i => U.filter (fun x => ∀ S, Carries a size start i S → x ∈ S)
  have hsol : ∀ {i : Nat} {x : α}, x ∈ sol i ↔ x ∈ U ∧ ∀ S, Carries a size start i S → x ∈ S :=
    Finset.mem_filter
  have habove := le_fixpoint a inc (fun i => i < size ∧ ∃ S, Carries a size start i S) sol
    (fun i S T hST x hx => hsep i S T x (fun h => hST h) hx) ?_ ?_
  · exact (habove i st hi).2 (hsol.2 ⟨hx, hall⟩)
  · intro i st hi
    have hlt : i < size := Nat.lt_of_lt_of_le (List.getElem?_eq_some_iff.1 hi).1 hsize
    refine ⟨⟨hlt, hlive i st hi⟩, fun x hx => ?_⟩
    rcases Nat.eq_zero_or_pos i with rfl | hpos
    · exact hzero st hi ((hsol.1 hx).2 start .zero)
    · exact hrest i st hpos hi (hsol.1 hx).1
  · -- the fact is made by the node, or every walk to the node already carries it
    rintro i s ⟨hilt, S, hS⟩ ⟨hslt, -⟩ hs hp x hx
    obtain ⟨hxu, hxall⟩ := hsol.1 hx
    by_cases hmade : x ∈ a.transfer i ∅
    · exact hsep i ∅ (sol i) x (fun h => absurd h (Finset.notMem_empty x)) hmade
    · have hcarried : ∀ S, Carries a size start i S → x ∈ S := by
        intro T hT
        by_contra hn
        exact hmade (hsep i T ∅ x (fun h => absurd h hn) (hxall _ (.edge hT hilt hs hslt)))
      exact hsep i S (sol i) x (fun _ => hsol.2 ⟨hxu, hcarried⟩) (hxall _ (.edge hS hilt hs hslt))

end
end Dataflow
end Syllog
