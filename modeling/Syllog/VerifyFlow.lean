import Syllog.Verify
/-!
# VerifyFlow — what the verifier's two analyses satisfy

Along every edge of the control-flow graph the sets an analysis holds on entry are among those its source block leaves
(`ownedOnEntry_edge`, `definiteInitialization_edge`).  A local defined on every path is assigned somewhere
(`definiteInitialization_subset`), which is what lets the flow-insensitive `everInitialized` filter of the ownership
checks stand beside the flow-sensitive definition check.
-/
namespace Syllog
namespace Mir

open Dataflow

theorem successorsAt_of_block {f : MirFunction} {i : Nat} {b : BasicBlock} (h : f.blocks[i]? = some b) :
    successorsAt f i = b.successors := by
  unfold successorsAt
  rw [h]

/-! ## Blocks that take part -/

theorem startIncoming_length (f : MirFunction) : (startIncoming f).length = f.blocks.length := by
  unfold startIncoming
  rw [List.length_set, List.length_map]
  exact length_reachable _ _

theorem startIncoming_zero (f : MirFunction) (h : 0 < f.blocks.length) :
    (startIncoming f)[0]? = some (some (parameters f)) := by
  have hlen := startIncoming_length f
  unfold startIncoming at hlen ⊢
  rw [List.length_set] at hlen
  exact List.getElem?_set_self (by omega)

theorem startIncoming_pos (f : MirFunction) {i : Nat} (hi : 0 < i) :
    (startIncoming f)[i]? = (reachableBlocks f)[i]?.map (fun r => if r then some (localUniverse f) else none) := by
  unfold startIncoming
  rw [List.getElem?_set_ne (Nat.ne_of_lt hi), List.getElem?_map]

/-- A block takes part in the analyses exactly when it is marked reachable. -/
theorem startIncoming_isSome_iff (f : MirFunction) (i : Nat) :
    (∃ st, (startIncoming f)[i]? = some (some st)) ↔ (reachableBlocks f)[i]? = some true := by
  have hlen : (reachableBlocks f).length = f.blocks.length := length_reachable _ _
  rcases Nat.eq_zero_or_pos i with rfl | hi
  · constructor
    · rintro ⟨st, h⟩
      have hlt := (List.getElem?_eq_some_iff.1 h).1
      rw [startIncoming_length] at hlt
      exact (closed_reachable f.blocks.length (successorsAt f)).1 hlt
    · intro h
      have hlt := (List.getElem?_eq_some_iff.1 h).1
      exact ⟨_, startIncoming_zero f (by omega)⟩
  · rw [startIncoming_pos f hi]
    constructor
    · rintro ⟨st, h⟩
      cases hr : (reachableBlocks f)[i]? with
      | none => rw [hr] at h; cases h
      | some r =>
        rw [hr] at h
        cases r with
        | true => rfl
        | false => simp at h
    · intro h
      rw [h]
      exact ⟨localUniverse f, rfl⟩

theorem reachableBlocks_edge {f : MirFunction} {i s : Nat} {b : BasicBlock} (hb : f.blocks[i]? = some b)
    (hi : (reachableBlocks f)[i]? = some true) (hs : s ∈ b.successors) (hlt : s < f.blocks.length) :
    (reachableBlocks f)[s]? = some true :=
  (closed_reachable f.blocks.length (successorsAt f)).2 i hi s (by rw [successorsAt_of_block hb]; exact hs) hlt

/-- **A family of sets indexed by the blocks, as either analysis computes it.** -/
structure Flow (f : MirFunction) (a : Analysis Nat) (inc : Incoming Nat) : Prop where
  succ : a.succ = successorsAt f
  stable : Stable a inc
  below : Below a (startIncoming f) inc

theorem Flow.isSome_iff {f : MirFunction} {a : Analysis Nat} {inc : Incoming Nat} (h : Flow f a inc)
    (i : Nat) : (∃ st, inc[i]? = some (some st)) ↔ (reachableBlocks f)[i]? = some true := by
  rw [← startIncoming_isSome_iff]
  constructor
  · rintro ⟨st, hst⟩
    obtain ⟨st', hst', -⟩ := h.below.of_some hst
    exact ⟨st', hst'⟩
  · rintro ⟨st, hst⟩
    obtain ⟨st', hst', -⟩ := h.below.some i st hst
    exact ⟨st', hst'⟩

/-- **Along an edge, what the target holds is what the source leaves**, where the target is not pinned. -/
theorem Flow.edge {f : MirFunction} {a : Analysis Nat} {inc : Incoming Nat} (h : Flow f a inc) {i s : Nat}
    {b : BasicBlock} {st : Finset Nat} (hb : f.blocks[i]? = some b) (hi : inc[i]? = some (some st))
    (hs : s ∈ b.successors) (hlt : s < f.blocks.length) :
    ∃ st', inc[s]? = some (some st') ∧ (a.pinned s = false → st' ⊆ a.transfer i st) := by
  have hr := (h.isSome_iff i).1 ⟨st, hi⟩
  obtain ⟨st', hst'⟩ := (h.isSome_iff s).2 (reachableBlocks_edge hb hr hs hlt)
  refine ⟨st', hst', fun hp => h.stable i st hi s ?_ hp st' hst'⟩
  rw [h.succ, successorsAt_of_block hb]
  exact hs

theorem ownedOnEntry_flow (f : MirFunction) : Flow f (ownershipAnalysis f) (ownedOnEntry f) :=
  ⟨rfl, stable_fixpoint _ _, below_fixpoint _ _⟩

theorem definiteInitialization_flow (f : MirFunction) : Flow f (initializationAnalysis f) (definiteInitialization f) :=
  ⟨rfl, stable_fixpoint _ _, below_fixpoint _ _⟩

/-- The locals owned on entry to a successor are among those owned when the block ends. -/
theorem ownedOnEntry_edge {f : MirFunction} {i s : Nat} {b : BasicBlock} {st : Finset Nat}
    (hb : f.blocks[i]? = some b) (hi : (ownedOnEntry f)[i]? = some (some st)) (hs : s ∈ b.successors)
    (hlt : s < f.blocks.length) : ∃ st', (ownedOnEntry f)[s]? = some (some st') ∧ st' ⊆ transferBlock b st := by
  obtain ⟨st', hst', hsub⟩ := (ownedOnEntry_flow f).edge hb hi hs hlt
  refine ⟨st', hst', ?_⟩
  have := hsub rfl
  simpa only [ownershipAnalysis, hb] using this

theorem ownedOnEntry_zero (f : MirFunction) (h : 0 < f.blocks.length) :
    ∃ st, (ownedOnEntry f)[0]? = some (some st) ∧ st ⊆ parameters f :=
  (ownedOnEntry_flow f).below.some 0 _ (startIncoming_zero f h)

theorem definiteInitialization_zero (f : MirFunction) (h : 0 < f.blocks.length) :
    (definiteInitialization f)[0]? = some (some (parameters f)) := by
  rw [(definiteInitialization_flow f).below.pinned 0 rfl]
  exact startIncoming_zero f h

/-! ## Reads add nothing -/

theorem consumeOperand_subset (o : Operand) (S : Finset Nat) : consumeOperand o S ⊆ S := by
  cases o with
  | move k => exact Finset.erase_subset k S
  | const c => exact Finset.Subset.refl S
  | copy k => exact Finset.Subset.refl S

theorem consumeOperands_subset : ∀ (os : List Operand) (S : Finset Nat), consumeOperands os S ⊆ S
  | [], S => Finset.Subset.refl S
  | o :: os, S => (consumeOperands_subset os (consumeOperand o S)).trans (consumeOperand_subset o S)

/-! ## What is defined on every path is assigned somewhere -/

theorem subset_insertPlace (place : Place) (st : Finset Nat) : st ⊆ insertPlace place st := by
  cases place with
  | loc l => exact Finset.subset_insert l st
  | field b k => exact Finset.Subset.refl st

theorem insertPlace_mono (place : Place) {s t : Finset Nat} (h : s ⊆ t) : insertPlace place s ⊆ insertPlace place t := by
  cases place with
  | loc l => exact Finset.insert_subset_insert l h
  | field b k => exact h

theorem defineStatement_mono (statement : Statement) {s t : Finset Nat} (h : s ⊆ t) :
    defineStatement s statement ⊆ defineStatement t statement := by
  cases statement with
  | assign destination value => exact insertPlace_mono destination h
  | drop place => exact h

theorem subset_defineStatement (st : Finset Nat) (statement : Statement) : st ⊆ defineStatement st statement := by
  cases statement with
  | assign destination value => exact subset_insertPlace destination st
  | drop place => exact Finset.Subset.refl st

theorem foldl_defineStatement_mono : ∀ (ss : List Statement) {s t : Finset Nat}, s ⊆ t →
    ss.foldl defineStatement s ⊆ ss.foldl defineStatement t
  | [], _, _, h => h
  | x :: ss, _, _, h => foldl_defineStatement_mono ss (defineStatement_mono x h)

theorem subset_foldl_defineStatement : ∀ (ss : List Statement) (s : Finset Nat), s ⊆ ss.foldl defineStatement s
  | [], s => Finset.Subset.refl s
  | x :: ss, s => (subset_defineStatement s x).trans (subset_foldl_defineStatement ss _)

theorem defineBlock_mono (b : BasicBlock) {s t : Finset Nat} (h : s ⊆ t) : defineBlock b s ⊆ defineBlock b t := by
  unfold defineBlock
  have hm := foldl_defineStatement_mono b.statements h
  split
  · exact insertPlace_mono _ hm
  · exact hm

theorem subset_defineBlock (b : BasicBlock) (s : Finset Nat) : s ⊆ defineBlock b s := by
  unfold defineBlock
  have hm := subset_foldl_defineStatement b.statements s
  split
  · exact hm.trans (subset_insertPlace _ _)
  · exact hm

theorem subset_foldl_defineBlock : ∀ (bs : List BasicBlock) (s : Finset Nat),
    s ⊆ bs.foldl (fun st b => defineBlock b st) s
  | [], s => Finset.Subset.refl s
  | b :: bs, s => (subset_defineBlock b s).trans (subset_foldl_defineBlock bs _)

/-- A block adds only what the fold over all blocks has, once it starts from the fold's set or less. -/
theorem defineBlock_subset_foldl : ∀ (bs : List BasicBlock) (s : Finset Nat) {b : BasicBlock}, b ∈ bs →
    defineBlock b s ⊆ bs.foldl (fun st b => defineBlock b st) s
  | [], _, _, hb => by cases hb
  | c :: bs, s, b, hb => by
    rw [List.foldl_cons]
    rcases List.mem_cons.1 hb with rfl | hb
    · exact subset_foldl_defineBlock bs _
    · exact (defineBlock_mono b (subset_defineBlock c s)).trans (defineBlock_subset_foldl bs _ hb)

/-- Defining a set of locals and then running a block adds the block's assignments to the set. -/
theorem insertPlace_union (place : Place) (s t : Finset Nat) : insertPlace place (s ∪ t) = insertPlace place s ∪ t := by
  cases place with
  | loc l => exact (Finset.insert_union l s t).symm
  | field b k => rfl

theorem foldl_defineStatement_union : ∀ (ss : List Statement) (s t : Finset Nat),
    ss.foldl defineStatement (s ∪ t) = ss.foldl defineStatement s ∪ t
  | [], _, _ => rfl
  | x :: ss, s, t => by
    rw [List.foldl_cons, List.foldl_cons]
    have : defineStatement (s ∪ t) x = defineStatement s x ∪ t := by
      cases x with
      | assign destination value => exact insertPlace_union destination s t
      | drop place => rfl
    rw [this]
    exact foldl_defineStatement_union ss _ t

theorem defineBlock_union (b : BasicBlock) (s t : Finset Nat) : defineBlock b (s ∪ t) = defineBlock b s ∪ t := by
  unfold defineBlock
  simp only [foldl_defineStatement_union]
  split
  · exact insertPlace_union _ _ t
  · rfl

theorem parameters_subset_everInitialized (f : MirFunction) : parameters f ⊆ everInitialized f :=
  subset_foldl_defineBlock f.blocks _

theorem defineBlock_everInitialized {f : MirFunction} {b : BasicBlock} (hb : b ∈ f.blocks) :
    defineBlock b (everInitialized f) = everInitialized f := by
  refine Finset.Subset.antisymm ?_ (subset_defineBlock b _)
  have hsub : parameters f ⊆ everInitialized f := parameters_subset_everInitialized f
  have h := defineBlock_subset_foldl f.blocks (parameters f) hb
  have hu : everInitialized f = parameters f ∪ everInitialized f := (Finset.union_eq_right.2 hsub).symm
  calc defineBlock b (everInitialized f)
      = defineBlock b (parameters f) ∪ everInitialized f := by
        conv_lhs => rw [hu]
        exact defineBlock_union b _ _
    _ ⊆ everInitialized f := Finset.union_subset h (Finset.Subset.refl _)

/-- **A local defined on every path to a block is assigned somewhere in the function.** -/
theorem definiteInitialization_subset {f : MirFunction} {i : Nat} {st : Finset Nat}
    (hi : (definiteInitialization f)[i]? = some (some st)) : st ⊆ everInitialized f := by
  have hflow := definiteInitialization_flow f
  have hlt : i < f.blocks.length := by
    have := (List.getElem?_eq_some_iff.1 hi).1
    rwa [hflow.below.length, startIncoming_length] at this
  have hiff := reachable_iff f.blocks.length (successorsAt f) (Nat.zero_lt_of_lt hlt)
  have hwalk := (hiff i).1 ((hflow.isSome_iff i).1 ⟨st, hi⟩)
  -- along the walk from the entry: the entry holds the parameters, an edge adds a block's assignments
  induction hwalk generalizing st with
  | refl =>
    rw [definiteInitialization_zero f hlt] at hi
    cases hi
    exact parameters_subset_everInitialized f
  | @tail a c hw he ih =>
    obtain ⟨ha, hc, -⟩ := he
    obtain ⟨b, hb⟩ : ∃ b, f.blocks[a]? = some b := ⟨_, List.getElem?_eq_getElem ha⟩
    obtain ⟨sa, hsa⟩ := (hflow.isSome_iff a).2 ((hiff a).2 hw)
    rw [successorsAt_of_block hb] at hc
    obtain ⟨st', hst', hsub⟩ := hflow.edge hb hsa hc hlt
    rw [hst'] at hi
    cases hi
    rcases Nat.eq_zero_or_pos c with rfl | hpos
    · rw [definiteInitialization_zero f hlt] at hst'
      cases hst'
      exact parameters_subset_everInitialized f
    · have hd := hsub (by simpa [initializationAnalysis] using Nat.ne_of_gt hpos)
      simp only [initializationAnalysis, hb] at hd
      exact hd.trans ((defineBlock_mono b (ih hsa ha)).trans
        (defineBlock_everInitialized (List.mem_of_getElem? hb)).subset)

end Mir
end Syllog
