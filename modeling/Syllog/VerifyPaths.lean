import Syllog.VerifySpec
/-!
# VerifyPaths — ownership along single paths

`PathOwns f i S`: some path of the control-flow graph leads to block `i` owning exactly `S`.  The verifier's state on
entry to a block is what every such path owns (`ownedOnEntry_of_paths`): the transfer decides each local by itself, so
the loop's intersection loses nothing a path-by-path account would keep.
-/
namespace Syllog
namespace Mir

open Dataflow

/-! ## The transfer decides each local by itself -/

section
variable {l : Nat} {S T : Finset Nat}

theorem mem_consumeOperand (o : Operand) (h : l ∈ S → l ∈ T) (hl : l ∈ consumeOperand o S) : l ∈ consumeOperand o T := by
  cases o with
  | move k =>
    obtain ⟨hne, hmem⟩ := Finset.mem_erase.1 hl
    exact Finset.mem_erase.2 ⟨hne, h hmem⟩
  | const c => exact h hl
  | copy k => exact h hl

theorem mem_insertPlace (place : Place) (h : l ∈ S → l ∈ T) (hl : l ∈ insertPlace place S) : l ∈ insertPlace place T := by
  cases place with
  | loc k =>
    rcases Finset.mem_insert.1 hl with rfl | hmem
    · exact Finset.mem_insert_self l T
    · exact Finset.mem_insert_of_mem (h hmem)
  | field base k => exact h hl

end

theorem mem_consumeOperands {l : Nat} : ∀ (os : List Operand) {S T : Finset Nat}, (l ∈ S → l ∈ T) →
    l ∈ consumeOperands os S → l ∈ consumeOperands os T
  | [], _, _, h, hl => h hl
  | o :: os, _, _, h, hl => mem_consumeOperands os (mem_consumeOperand o h) hl

theorem mem_consumeRvalue {l : Nat} {S T : Finset Nat} (value : Rvalue) (h : l ∈ S → l ∈ T)
    (hl : l ∈ consumeRvalue value S) : l ∈ consumeRvalue value T := by
  cases value with
  | borrow mutable place => exact h hl
  | use o => exact mem_consumeOperand o h hl
  | discriminant o => exact mem_consumeOperand o h hl
  | aggregate ty d fields => exact mem_consumeOperands fields h hl
  | binary operator left right => exact mem_consumeOperand right (mem_consumeOperand left h) hl

theorem mem_transferStatement {l : Nat} {S T : Finset Nat} (s : Statement) (h : l ∈ S → l ∈ T)
    (hl : l ∈ transferStatement S s) : l ∈ transferStatement T s := by
  cases s with
  | assign destination value => exact mem_insertPlace destination (mem_consumeRvalue value h) hl
  | drop place =>
    obtain ⟨hne, hmem⟩ := Finset.mem_erase.1 hl
    exact Finset.mem_erase.2 ⟨hne, h hmem⟩

theorem mem_foldl_transferStatement {l : Nat} : ∀ (ss : List Statement) {S T : Finset Nat}, (l ∈ S → l ∈ T) →
    l ∈ ss.foldl transferStatement S → l ∈ ss.foldl transferStatement T
  | [], _, _, h, hl => h hl
  | s :: ss, _, _, h, hl => mem_foldl_transferStatement ss (mem_transferStatement s h) hl

theorem mem_consumeTerminator {l : Nat} {S T : Finset Nat} (t : Terminator) (h : l ∈ S → l ∈ T)
    (hl : l ∈ consumeTerminator t S) : l ∈ consumeTerminator t T := by
  cases t with
  | ret => exact h hl
  | goto target => exact h hl
  | switchInt value targets otherwise => exact mem_consumeOperand value h hl
  | call callee args destination next => exact mem_insertPlace destination (mem_consumeOperands args h) hl

theorem mem_transferBlock {l : Nat} {S T : Finset Nat} (b : BasicBlock) (h : l ∈ S → l ∈ T)
    (hl : l ∈ transferBlock b S) : l ∈ transferBlock b T := by
  have hm := mem_foldl_transferStatement b.statements h
  unfold transferBlock at hl ⊢
  cases ht : b.terminator with
  | none => rw [ht] at hl; exact hm hl
  | some t =>
    rw [ht] at hl
    exact mem_consumeTerminator t hm hl

/-! ## Only a write makes a local owned -/

theorem consumeRvalue_subset (value : Rvalue) (S : Finset Nat) : consumeRvalue value S ⊆ S := by
  cases value with
  | borrow mutable place => exact Finset.Subset.refl S
  | use o => exact consumeOperand_subset o S
  | discriminant o => exact consumeOperand_subset o S
  | aggregate ty d fields => exact consumeOperands_subset fields S
  | binary operator left right => exact (consumeOperand_subset right _).trans (consumeOperand_subset left S)

theorem mem_of_transferStatement {l : Nat} {S : Finset Nat} {st : Statement} (h : l ∈ transferStatement S st)
    (hst : ∀ value, st ≠ .assign (.loc l) value) : l ∈ S := by
  cases st with
  | drop place => exact Finset.mem_of_mem_erase h
  | assign destination value =>
    cases destination with
    | field base k => exact consumeRvalue_subset value S h
    | loc k =>
      rcases Finset.mem_insert.1 h with rfl | h
      · exact absurd rfl (hst value)
      · exact consumeRvalue_subset value S h

theorem mem_of_foldl_transferStatement {l : Nat} : ∀ {ss : List Statement} {S : Finset Nat},
    l ∈ ss.foldl transferStatement S → (∀ value, .assign (.loc l) value ∉ ss) → l ∈ S
  | [], _, h, _ => h
  | st :: ss, S, h, hss => by
    have hrest : l ∈ transferStatement S st := mem_of_foldl_transferStatement h (fun value hm => hss value (List.mem_cons_of_mem _ hm))
    exact mem_of_transferStatement hrest (fun value he => hss value (he ▸ List.mem_cons_self))

theorem ownershipAnalysis_separable (f : MirFunction) : Separable (ownershipAnalysis f) := by
  intro i S T l h hl
  simp only [ownershipAnalysis] at hl ⊢
  split
  · rename_i b hb
    rw [hb] at hl
    exact mem_transferBlock b h hl
  · rename_i hb
    rw [hb] at hl
    exact h hl

/-! ## Paths -/

/-- **One path to a block, and the locals it owns there**: the entry owns the parameters, a block passes on what its
transfer leaves. -/
def PathOwns (f : MirFunction) : Nat → Finset Nat → Prop :=
  Carries (ownershipAnalysis f) f.blocks.length (parameters f)

theorem PathOwns.entry (f : MirFunction) : PathOwns f 0 (parameters f) := .zero

theorem PathOwns.next {f : MirFunction} {i s : Nat} {S : Finset Nat} {b : BasicBlock} (h : PathOwns f i S)
    (hb : f.blocks[i]? = some b) (hs : s ∈ b.successors) (hlt : s < f.blocks.length) :
    PathOwns f s (transferBlock b S) := by
  have hi : i < f.blocks.length := (List.getElem?_eq_some_iff.1 hb).1
  have hstep : s ∈ (ownershipAnalysis f).succ i := by
    show s ∈ successorsAt f i
    rw [successorsAt_of_block hb]
    exact hs
  have htransfer : (ownershipAnalysis f).transfer i S = transferBlock b S := by
    simp only [ownershipAnalysis, hb]
  rw [← htransfer]
  exact Carries.edge h hi hstep hlt

theorem PathOwns.ownedOnEntry {f : MirFunction} {i : Nat} {S : Finset Nat} (h : PathOwns f i S)
    (h0 : 0 < f.blocks.length) : ∃ owned, (ownedOnEntry f)[i]? = some (some owned) :=
  ((ownedOnEntry_flow f).isSome_iff i).2 ((reachable_iff _ _ h0 i).2 (Carries.walk h))

/-- Paths grow by one edge at a time. -/
theorem PathOwns.induction {f : MirFunction} {P : Nat → Finset Nat → Prop} (entry : P 0 (parameters f))
    (next : ∀ {i s : Nat} {S : Finset Nat} {b : BasicBlock}, PathOwns f i S → P i S → f.blocks[i]? = some b →
      s ∈ b.successors → s < f.blocks.length → P s (transferBlock b S))
    {i : Nat} {S : Finset Nat} (h : PathOwns f i S) : P i S := by
  induction h with
  | zero => exact entry
  | @edge i s S walk source step target ih =>
    have hb : f.blocks[i]? = some f.blocks[i] := List.getElem?_eq_getElem source
    have hs : s ∈ f.blocks[i].successors := by
      rw [← successorsAt_of_block hb]
      exact step
    simp only [ownershipAnalysis, hb]
    exact next walk ih hb hs target

/-- The verifier's state owns nothing a path does not. -/
theorem PathOwns.owned_subset {f : MirFunction} (h0 : 0 < f.blocks.length) {i : Nat} {S : Finset Nat}
    (h : PathOwns f i S) : ∃ owned, (Mir.ownedOnEntry f)[i]? = some (some owned) ∧ owned ⊆ S := by
  refine PathOwns.induction (P := fun i S => ∃ owned, (Mir.ownedOnEntry f)[i]? = some (some owned) ∧ owned ⊆ S)
    (ownedOnEntry_zero f h0) ?_ h
  rintro i s S b - ⟨owned, ho, hsub⟩ hb hs hlt
  obtain ⟨owned', ho', hsub'⟩ := ownedOnEntry_edge hb ho hs hlt
  exact ⟨owned', ho', fun l hl => mem_transferBlock b (fun hl => hsub hl) (hsub' hl)⟩

/-- **A fact that every walk to a block carries is held there by the loop's result.** -/
theorem mem_of_carries {f : MirFunction} {a : Analysis Nat} (hsucc : a.succ = successorsAt f) (hsep : Separable a)
    {i l : Nat} {st : Finset Nat} (hl : l < f.locals.length) (hi : (fixpoint a (startIncoming f))[i]? = some (some st))
    (hall : ∀ S, Carries a f.blocks.length (parameters f) i S → l ∈ S) : l ∈ st := by
  have hlen : 0 < f.blocks.length := by
    have := (List.getElem?_eq_some_iff.1 hi).1
    rw [(below_fixpoint a (startIncoming f)).length, startIncoming_length] at this
    omega
  refine mem_fixpoint_of_carries a hsep (startIncoming f) (localUniverse f) ?_ ?_ ?_ ?_ hi (Finset.mem_range.2 hl) hall
  · intro st hst
    rw [startIncoming_zero f hlen] at hst
    cases hst
    exact Finset.Subset.refl _
  · intro j st hj hst
    rw [startIncoming_pos f hj] at hst
    cases hr : (reachableBlocks f)[j]? with
    | none => rw [hr] at hst; cases hst
    | some r =>
      rw [hr] at hst
      cases r with
      | true => cases hst; exact Finset.Subset.refl _
      | false => simp at hst
  · rw [startIncoming_length]
  · intro j st hst
    have hr := (startIncoming_isSome_iff f j).1 ⟨st, hst⟩
    refine exists_carries _ _ _ ?_
    rw [hsucc]
    exact (reachable_iff _ _ hlen j).1 hr

/-- **A local every path to a block owns is owned there by the verifier's state.** -/
theorem ownedOnEntry_of_paths {f : MirFunction} {i l : Nat} {owned : Finset Nat} (hl : l < f.locals.length)
    (hi : (ownedOnEntry f)[i]? = some (some owned)) (hall : ∀ S, PathOwns f i S → l ∈ S) : l ∈ owned :=
  mem_of_carries rfl (ownershipAnalysis_separable f) hl hi hall

end Mir
end Syllog
