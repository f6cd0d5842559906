import Syllog.InterpOverwrite
import Syllog.LowerShape
/-!
# LowerDrops — compiled programs drop what they own, once

Drops are added at jumps and returns, from the locals owned on every path before any drop is there.  In a function whose
control flow follows a plan, only jumps lead to a block with several predecessors, so with the drops in place all paths
to a block own the same non-Copy locals (`paths_agree`), and none is left at a return.  The account of `InterpOverwrite`
carries this to the slots of every run (`lowered_drops_once`).
-/
namespace Syllog
namespace Lower

open Mir Hir Interp Runs

/-! ## The drops of a block -/

theorem localNeedsDrop_eq (f : MirFunction) (l : Nat) : localNeedsDrop f l = localIsAffine f l := by
  unfold localNeedsDrop localIsAffine
  cases f.locals[l]? with
  | none => rfl
  | some ty => cases ty <;> simp [mirTypeNeedsDrop, mirTypeIsCopy]

section
variable {f : MirFunction}

theorem insertFunctionDrops_eq (h : f.blocks ≠ []) :
    insertFunctionDrops f = { f with blocks := f.blocks.mapIdx (fun index block =>
      { block with statements := block.statements ++ blockDrops f (ownedOnEntry f) index block }) } := by
  unfold insertFunctionDrops
  rw [if_neg h]

/-- What does not read the blocks of a function reads the same with the drops. -/
theorem insertFunctionDrops_reads {α : Type} (g : MirFunction → α) (hg : ∀ f blocks, g { f with blocks := blocks } = g f)
    (f : MirFunction) : g (insertFunctionDrops f) = g f := by
  unfold insertFunctionDrops
  split
  · rfl
  · exact hg f _

theorem insertFunctionDrops_id (f : MirFunction) : (insertFunctionDrops f).id = f.id :=
  insertFunctionDrops_reads (·.id) (fun _ _ => rfl) f

theorem insertFunctionDrops_locals (f : MirFunction) : (insertFunctionDrops f).locals = f.locals :=
  insertFunctionDrops_reads (·.locals) (fun _ _ => rfl) f

theorem insertFunctionDrops_parameterCount (f : MirFunction) : (insertFunctionDrops f).parameterCount = f.parameterCount :=
  insertFunctionDrops_reads (·.parameterCount) (fun _ _ => rfl) f

theorem insertFunctionDrops_returnType (f : MirFunction) : (insertFunctionDrops f).returnType = f.returnType :=
  insertFunctionDrops_reads (·.returnType) (fun _ _ => rfl) f

theorem insertFunctionDrops_parameters (f : MirFunction) : parameters (insertFunctionDrops f) = parameters f := by
  unfold parameters
  rw [insertFunctionDrops_parameterCount]

theorem insertFunctionDrops_affine (f : MirFunction) (l : Nat) :
    localIsAffine (insertFunctionDrops f) l = localIsAffine f l := by
  unfold localIsAffine
  rw [insertFunctionDrops_locals]

theorem insertFunctionDrops_length (f : MirFunction) : (insertFunctionDrops f).blocks.length = f.blocks.length := by
  unfold insertFunctionDrops
  split
  · rfl
  · exact List.length_mapIdx

/-- A block with its drops. -/
theorem insertFunctionDrops_block {i : Nat} {b : BasicBlock} (h : (insertFunctionDrops f).blocks[i]? = some b) :
    ∃ b₀, f.blocks[i]? = some b₀ ∧ b.terminator = b₀.terminator ∧
      b.statements = b₀.statements ++ blockDrops f (ownedOnEntry f) i b₀ := by
  by_cases hne : f.blocks = []
  · have hlt := (List.getElem?_eq_some_iff.1 h).1
    rw [insertFunctionDrops_length, hne] at hlt
    cases hlt
  · rw [insertFunctionDrops_eq hne, List.getElem?_mapIdx] at h
    obtain ⟨b₀, hb₀, rfl⟩ := Option.map_eq_some_iff.1 h
    exact ⟨b₀, hb₀, rfl, rfl⟩

/-- What a run of drops leaves. -/
theorem mem_foldl_drops {l : Nat} {ls : List Nat} {S : Finset Nat} :
    l ∈ (ls.map (fun l => Statement.drop (.loc l))).foldl transferStatement S ↔ l ∈ S ∧ l ∉ ls := by
  induction ls generalizing S with
  | nil => simp
  | cons k ls ih =>
    rw [List.map_cons, List.foldl_cons, ih]
    simp only [transferStatement, placeLocal, Finset.mem_erase, List.mem_cons, not_or]
    rw [and_comm (a := l ≠ k), and_assoc]

/-- The locals dropped at the end of a reachable block. -/
structure Drops (f : MirFunction) (i : Nat) (b : BasicBlock) (entry : Finset Nat) (ls : List Nat) : Prop where
  eq : blockDrops f (ownedOnEntry f) i b = ls.map (fun l => Statement.drop (.loc l))
  nodup : ls.Nodup
  mem : ∀ l, l ∈ ls ↔ l ∈ dropCandidates (ownedOnEntry f) (b.statements.foldl transferStatement entry) b.terminator ∧
    l ≠ 0 ∧ localIsAffine f l = true

theorem exists_drops {i : Nat} {b : BasicBlock} {entry : Finset Nat} (h : (ownedOnEntry f)[i]? = some (some entry)) :
    ∃ ls, Drops f i b entry ls := by
  refine ⟨_, by unfold blockDrops; rw [h], (List.nodup_reverse.mpr List.nodup_range).filter _, fun l => ?_⟩
  simp only [List.mem_filter, List.mem_reverse, List.mem_range, decide_eq_true_eq, localNeedsDrop_eq]
  exact ⟨fun h => h.2, fun h => ⟨localIsAffine_lt h.2.2, h⟩⟩

/-- The drops of a block, reachable or not, are of whole locals other than the return slot. -/
theorem blockDrops_locals (f : MirFunction) (incoming : Dataflow.Incoming Nat) (i : Nat) (block : BasicBlock) :
    ∃ ls : List Nat, blockDrops f incoming i block = ls.map (fun l => Statement.drop (.loc l)) ∧ 0 ∉ ls := by
  unfold blockDrops
  split
  · refine ⟨_, rfl, fun h => ?_⟩
    simp at h
  · exact ⟨[], rfl, by simp⟩

end

/-! ## Paths with the drops in place -/

section
variable {f : MirFunction} {plan : Plan} (hs : Shaped plan f.locals.length f.blocks)
include hs

/-- No edge leads to the entry. -/
theorem Shaped.entry_free {i : Nat} {b : BasicBlock} (hb : f.blocks[i]? = some b) : 0 ∉ b.successors := by
  intro h0
  unfold BasicBlock.successors at h0
  split at h0
  · rename_i t ht
    have hrole := (hs.edges i b t hb ht 0 h0).2
    rw [hs.entry] at hrole
    cases t <;> cases hrole
  · cases h0

/-- A block a switch or a call leads to has that block as its only predecessor. -/
theorem Shaped.only_source {i j s : Nat} {b b' : BasicBlock} {t : Terminator} (hb : f.blocks[i]? = some b)
    (ht : b.terminator = some t) (hsucc : s ∈ successors t) (hrole : targetRole i t = .only i)
    (hb' : f.blocks[j]? = some b') (hsucc' : s ∈ b'.successors) : j = i := by
  have h1 := (hs.edges i b t hb ht s hsucc).2
  unfold BasicBlock.successors at hsucc'
  split at hsucc'
  · rename_i t' ht'
    have h2 := (hs.edges j b' t' hb' ht' s hsucc').2
    rw [h1, hrole] at h2
    cases t' with
    | ret => cases h2
    | goto target => cases h2
    | switchInt value targets otherwise => exact (Role.only.inj h2).symm
    | call callee args destination next => exact (Role.only.inj h2).symm
  · cases hsucc'

/-- Behind a switch or a call the analysis loses nothing. -/
theorem owned_behind {i s l : Nat} {b : BasicBlock} {t : Terminator} {owned owned' : Finset Nat}
    (hb : f.blocks[i]? = some b) (ht : b.terminator = some t) (hsucc : s ∈ successors t)
    (hrole : targetRole i t = .only i) (ho : (ownedOnEntry f)[i]? = some (some owned))
    (ho' : (ownedOnEntry f)[s]? = some (some owned')) (hl : l < f.locals.length) (hmem : l ∈ transferBlock b owned) :
    l ∈ owned' := by
  have h0 : 0 < f.blocks.length := Nat.lt_of_le_of_lt (Nat.zero_le i) (List.getElem?_eq_some_iff.1 hb).1
  refine ownedOnEntry_of_paths hl ho' fun S hS => ?_
  -- the last edge of the path comes from `i`, and `i` owns on this path what it owns on all
  refine PathOwns.induction (P := fun k S => k = s → l ∈ S) ?_ ?_ hS rfl
  · intro he
    have hfree := hs.entry_free hb
    rw [BasicBlock.successors, ht, he] at hfree
    exact absurd hsucc hfree
  · intro j k S b' hS _ hb' hk _ he
    rw [he] at hk
    have hj := hs.only_source hb ht hsucc hrole hb' hk
    rw [hj, hb] at hb'
    rw [hj] at hS
    cases hb'
    obtain ⟨owned'', ho'', hsub⟩ := hS.owned_subset h0
    rw [ho] at ho''
    cases ho''
    exact mem_transferBlock b (fun h => hsub h) hmem

/-- **With the drops in place all paths to a block own the same non-Copy locals**: those owned on every path before the
drops were there, the return slot apart. -/
theorem paths_agree {i : Nat} {S : Finset Nat} (h : PathOwns (insertFunctionDrops f) i S) (h0 : 0 < f.blocks.length) :
    ∃ owned, (ownedOnEntry f)[i]? = some (some owned) ∧ owned ⊆ S ∧
      ∀ l ∈ S, localIsAffine f l = true → l ≠ 0 → l ∈ owned := by
  refine PathOwns.induction (P := fun i S => ∃ owned, (ownedOnEntry f)[i]? = some (some owned) ∧ owned ⊆ S ∧
    ∀ l ∈ S, localIsAffine f l = true → l ≠ 0 → l ∈ owned) ?_ ?_ h
  · obtain ⟨owned, ho, hsub⟩ := ownedOnEntry_zero f h0
    rw [insertFunctionDrops_parameters]
    refine ⟨owned, ho, hsub, fun l hl ha _ => ownedOnEntry_of_paths (localIsAffine_lt ha) ho fun S hS => ?_⟩
    refine PathOwns.induction (P := fun k S => k = 0 → l ∈ S) (fun _ => hl) ?_ hS rfl
    rintro j k S b - - hb hk - rfl
    exact absurd hk (hs.entry_free hb)
  · rintro i s S b - ⟨owned, ho, hsub, hown⟩ hb hsucc hlt
    obtain ⟨b₀, hb₀, hterm, hstmts⟩ := insertFunctionDrops_block hb
    have hsucc₀ : s ∈ b₀.successors := by
      unfold BasicBlock.successors at hsucc ⊢
      rw [← hterm]
      exact hsucc
    rw [insertFunctionDrops_length] at hlt
    obtain ⟨owned', ho', hsub'⟩ := ownedOnEntry_edge hb₀ ho hsucc₀ hlt
    obtain ⟨ls, hls, -, hmem⟩ := exists_drops (b := b₀) ho
    refine ⟨owned', ho', ?_⟩
    -- what the statements leave, on this path and on all
    have hout : ∀ l, l ∈ b₀.statements.foldl transferStatement owned → l ∈ b₀.statements.foldl transferStatement S :=
      fun l => mem_foldl_transferStatement b₀.statements (fun h => hsub h)
    have hin : ∀ l, localIsAffine f l = true → l ≠ 0 → l ∈ b₀.statements.foldl transferStatement S →
        l ∈ b₀.statements.foldl transferStatement owned :=
      fun l ha hne => mem_foldl_transferStatement b₀.statements (fun h => hown l h ha hne)
    unfold BasicBlock.successors at hsucc₀
    cases ht : b₀.terminator with
    | none =>
      rw [ht] at hsucc₀
      cases hsucc₀
    | some t =>
      rw [ht] at hsucc₀
      have hblock : ∀ T, transferBlock b T = consumeTerminator t
          ((ls.map (fun l => Statement.drop (.loc l))).foldl transferStatement (b₀.statements.foldl transferStatement T)) := by
        intro T
        unfold transferBlock
        rw [hterm, ht, hstmts, hls, List.foldl_append]
      have hblock₀ : ∀ T, transferBlock b₀ T = consumeTerminator t (b₀.statements.foldl transferStatement T) := by
        intro T
        unfold transferBlock
        rw [ht]
      have hkept : ∀ l, l ∈ owned' → l ∈ consumeTerminator t (b₀.statements.foldl transferStatement S) := by
        intro l hl
        have := hsub' hl
        rw [hblock₀] at this
        exact mem_consumeTerminator t (hout l) this
      -- a block that is entered from here alone owns what is left, and nothing is dropped before it
      have hbehind : targetRole i t = .only i → (∀ l, l ∉ ls) → owned' ⊆ transferBlock b S ∧
          ∀ l ∈ transferBlock b S, localIsAffine f l = true → l ≠ 0 → l ∈ owned' := by
        intro hrole hnone
        rw [hblock, List.eq_nil_iff_forall_not_mem.2 hnone]
        refine ⟨fun l hl => hkept l hl, fun l hl ha hne => ?_⟩
        refine owned_behind hs hb₀ ht hsucc₀ hrole ho ho' (localIsAffine_lt ha) ?_
        rw [hblock₀]
        exact mem_consumeTerminator _ (hin l ha hne) hl
      cases t with
      | ret => cases hsucc₀
      | goto target =>
        cases List.mem_singleton.1 hsucc₀
        have hcand : ∀ l, l ∈ ls ↔ (l ∈ b₀.statements.foldl transferStatement owned ∧ l ∉ owned') ∧ l ≠ 0 ∧
            localIsAffine f l = true := by
          intro l
          rw [hmem, ht]
          simp only [dropCandidates, ho', Finset.mem_sdiff]
        rw [hblock]
        refine ⟨fun l hl => mem_foldl_drops.2 ⟨hkept l hl, fun hdrop => ((hcand l).1 hdrop).1.2 hl⟩, ?_⟩
        intro l hl ha hne
        obtain ⟨hl, hdrop⟩ := mem_foldl_drops.1 hl
        by_contra hnot
        exact hdrop ((hcand l).2 ⟨⟨hin l ha hne hl, hnot⟩, hne, ha⟩)
      | switchInt value targets otherwise => exact hbehind rfl fun l hl => by simp [hmem, ht, dropCandidates] at hl
      | call callee args destination next => exact hbehind rfl fun l hl => by simp [hmem, ht, dropCandidates] at hl

/-- Nothing is left to drop at a return. -/
theorem return_owns_none {i l : Nat} {S : Finset Nat} {b : BasicBlock} (h : PathOwns (insertFunctionDrops f) i S)
    (hb : (insertFunctionDrops f).blocks[i]? = some b) (ht : b.terminator = some .ret) (ha : localIsAffine f l = true)
    (hne : l ≠ 0) : l ∉ b.statements.foldl transferStatement S := by
  obtain ⟨b₀, hb₀, hterm, hstmts⟩ := insertFunctionDrops_block hb
  obtain ⟨owned, ho, -, hown⟩ := paths_agree hs h (Nat.zero_lt_of_lt (List.getElem?_eq_some_iff.1 hb₀).1)
  obtain ⟨ls, hls, -, hmem⟩ := exists_drops (b := b₀) ho
  rw [hstmts, hls, List.foldl_append, mem_foldl_drops]
  rintro ⟨hl, hdrop⟩
  refine hdrop ((hmem l).2 ⟨?_, hne, ha⟩)
  rw [← hterm, ht]
  exact mem_foldl_transferStatement b₀.statements (fun h => hown l h ha hne) hl

/-- The statements of a block with its drops write whole locals that no call writes, and drop whole locals. -/
theorem dropped_statement {i : Nat} {b : BasicBlock} {st : Statement}
    (hb : (insertFunctionDrops f).blocks[i]? = some b) (hst : st ∈ b.statements) :
    (∃ l value, st = .assign (.loc l) value ∧ plan.home l = none) ∨ ∃ l, st = .drop (.loc l) := by
  obtain ⟨b₀, hb₀, -, hstmts⟩ := insertFunctionDrops_block hb
  rw [hstmts] at hst
  rcases List.mem_append.1 hst with hst | hst
  · obtain ⟨l, -, value, he, hh⟩ := hs.writes i b₀ hb₀ st hst
    exact .inl ⟨l, value, he, hh⟩
  · unfold blockDrops at hst
    split at hst
    · obtain ⟨l, -, rfl⟩ := List.mem_map.1 hst
      exact .inr ⟨l, rfl⟩
    · cases hst

theorem no_field_drop {i : Nat} {b : BasicBlock} (hb : (insertFunctionDrops f).blocks[i]? = some b) (base k : Nat) :
    .drop (.field base k) ∉ b.statements := by
  intro hst
  obtain ⟨_, _, he, -⟩ | ⟨_, he⟩ := dropped_statement hs hb hst
  · cases he
  · cases he

/-- The destination of a call is written by that call only. -/
theorem call_home {i l next : Nat} {b : BasicBlock} {callee : DefId} {args : List Operand}
    (hb : (insertFunctionDrops f).blocks[i]? = some b) (ht : b.terminator = some (.call callee args (.loc l) next)) :
    plan.home l = some i := by
  obtain ⟨b₀, hb₀, hterm, -⟩ := insertFunctionDrops_block hb
  obtain ⟨k, -, hk, hh⟩ := hs.calls i b₀ callee args (.loc l) next hb₀ (hterm ▸ ht)
  cases hk
  exact hh

theorem mem_of_statements {i j l : Nat} {b : BasicBlock} {S : Finset Nat} (hhome : plan.home l = some i)
    (hb : (insertFunctionDrops f).blocks[j]? = some b) (h : l ∈ b.statements.foldl transferStatement S) : l ∈ S := by
  refine mem_of_foldl_transferStatement h (fun value hst => ?_)
  obtain ⟨k, v, he, hnone⟩ | ⟨_, he⟩ := dropped_statement hs hb hst
  · cases he
    rw [hhome] at hnone
    cases hnone
  · cases he

/-- A path owns the destination of a call only behind that call: some path reaches the call without it. -/
theorem call_reached_without {i l : Nat} (hhome : plan.home l = some i) (hparams : ∀ l ≤ f.parameterCount, plan.home l = none)
    {k : Nat} {S : Finset Nat} (h : PathOwns (insertFunctionDrops f) k S) (hl : l ∈ S) :
    ∃ S₀, PathOwns (insertFunctionDrops f) i S₀ ∧ l ∉ S₀ := by
  refine PathOwns.induction (P := fun _ S => l ∈ S → ∃ S₀, PathOwns (insertFunctionDrops f) i S₀ ∧ l ∉ S₀) ?_ ?_ h hl
  · intro hl
    rw [insertFunctionDrops_parameters] at hl
    obtain ⟨j, hj, rfl⟩ := Finset.mem_image.1 hl
    have := hparams (j + 1) (Finset.mem_range.1 hj)
    rw [hhome] at this
    cases this
  · intro j s S b hS ih hb hsucc _ hl
    by_cases hin : l ∈ S
    · exact ih hin
    -- the block gained the local: its terminator is the call
    · have hout : l ∉ b.statements.foldl transferStatement S := fun h => hin (mem_of_statements hs hhome hb h)
      unfold transferBlock at hl
      split at hl
      · rename_i t ht
        cases t with
        | ret => exact absurd hl hout
        | goto target => exact absurd hl hout
        | switchInt value targets otherwise => exact absurd (consumeOperand_subset value _ hl) hout
        | call callee args destination next =>
          cases destination with
          | field base k => exact absurd (consumeOperands_subset args _ hl) hout
          | loc k =>
            rcases Finset.mem_insert.1 hl with rfl | hl
            · have := call_home hs hb ht
              rw [hhome] at this
              cases this
              exact ⟨S, hS, hin⟩
            · exact absurd (consumeOperands_subset args _ hl) hout
      · exact absurd hl hout

end

/-! ## Programs -/

/-- What `lower_to_mir` returns: every function lowered without a diagnostic, with its drops, and verified. -/
theorem lowerToMir_ok {hir : HirProgram} {p : MirProgram} (h : lowerToMir hir = .ok p) :
    verify p = .ok () ∧ (∀ d f, (d, f) ∈ HirProgram.functions hir → (lowerFunction (ProgramIndex.new hir) d f).2 = []) ∧
      p = ⟨(HirProgram.functions hir).map
        (fun df => insertFunctionDrops (lowerFunction (ProgramIndex.new hir) df.1 df.2).1), hir.entry⟩ := by
  simp only [lowerToMir] at h
  split at h
  · rename_i hempty
    split at h
    · rename_i hv
      cases h
      refine ⟨hv, fun d f hf => ?_, by rw [List.map_map]; rfl⟩
      rw [List.isEmpty_iff, List.flatMap_eq_nil_iff] at hempty
      exact hempty _ (List.mem_map.2 ⟨(d, f), hf, rfl⟩)
    · cases h
  · cases h

section
variable {hir : HirProgram} {p : MirProgram}

theorem lowered_function (h : lowerToMir hir = .ok p) {f : MirFunction} (hf : f ∈ p.functions) :
    ∃ f₀ plan, f = insertFunctionDrops f₀ ∧ Shaped plan f₀.locals.length f₀.blocks ∧
      ∀ l ≤ f₀.parameterCount, plan.home l = none := by
  obtain ⟨-, -, rfl⟩ := lowerToMir_ok h
  obtain ⟨df, -, rfl⟩ := List.mem_map.1 hf
  obtain ⟨plan, hs, hparams⟩ := lowerFunction_shaped (ProgramIndex.new hir) df.1 df.2
  exact ⟨_, plan, rfl, hs, hparams⟩

theorem reaches_heldState (h : lowerToMir hir = .ok p) {limits : InterpreterLimits} {id : DefId}
    {arguments : List Value} {s₀ s : State} (h₀ : startCall p limits id arguments = .ok s₀)
    (hr : Reaches (step p limits) s₀ s) : HeldState p s := by
  refine hr.invariant (fun a b ha hab => step_held (fun f hf i b S hb _ base k => ?_) ha hab) (startCall_held h₀)
  obtain ⟨f₀, plan, rfl, hs, -⟩ := lowered_function h hf
  exact no_field_drop hs hb base k

/-- No value a local other than the return slot owns is lost to a write. -/
theorem lowered_not_overwritesAt (h : lowerToMir hir = .ok p) {limits : InterpreterLimits} {s : State}
    (hheld : HeldState p s) {l : Nat} (hne : l ≠ 0) : ¬ OverwritesAt limits s l := by
  refine heldState_not_overwritesAt (lowerToMir_ok h).1 hheld ?_ ?_
  · intro f hf i b value hb _ ha S S' hS hS' hl
    obtain ⟨f₀, plan, rfl, hs, -⟩ := lowered_function h hf
    obtain ⟨b₀, hb₀, -, -⟩ := insertFunctionDrops_block hb
    have h0 := Nat.zero_lt_of_lt (List.getElem?_eq_some_iff.1 hb₀).1
    rw [insertFunctionDrops_affine] at ha
    obtain ⟨owned, ho, -, hown⟩ := paths_agree hs hS h0
    obtain ⟨owned', ho', hsub, -⟩ := paths_agree hs hS' h0
    rw [ho] at ho'
    cases ho'
    exact hsub (hown l hl ha hne)
  · intro f hf i b callee args next hb ht ha S hS hl
    obtain ⟨f₀, plan, rfl, hs, hparams⟩ := lowered_function h hf
    obtain ⟨b₀, hb₀, -, -⟩ := insertFunctionDrops_block hb
    have h0 := Nat.zero_lt_of_lt (List.getElem?_eq_some_iff.1 hb₀).1
    rw [insertFunctionDrops_affine] at ha
    have hhome := call_home hs hb ht
    have hmem : l ∈ S := mem_of_statements hs hhome hb (consumeOperands_subset args _ hl)
    -- if this path owns the destination so do all, but one does not
    obtain ⟨S₀, hS₀, hnot⟩ := call_reached_without hs hhome hparams hS hmem
    obtain ⟨owned, ho, -, hown⟩ := paths_agree hs hS h0
    obtain ⟨owned', ho', hsub, -⟩ := paths_agree hs hS₀ h0
    rw [ho] at ho'
    cases ho'
    exact hnot (hsub (hown l hmem ha hne))

theorem startCall_ok_stateOk (hv : verify p = .ok ()) {limits : InterpreterLimits} {id : DefId} {arguments : List Value}
    {s : State} (h : startCall p limits id arguments = .ok s) : StateOk p s := by
  obtain ⟨fr, hfr, -⟩ := bind_eq_ok h
  obtain ⟨g, b, hg, hlen, -, -⟩ := enterCall_ok hfr
  have := startCall_stateOk hv limits arguments hg hlen
  rw [h] at this
  exact this

/-- **Compiled programs drop what they own once.**  In every state of every run: at a return the slots of the locals that
need a drop are empty, the return slot apart; the next step overwrites no value such a local holds; and it finds no empty
slot where it moves or drops. -/
theorem lowered_drops_once (h : lowerToMir hir = .ok p) (limits : InterpreterLimits) (id : DefId)
    (arguments : List Value) {s₀ s : State} (h₀ : startCall p limits id arguments = .ok s₀)
    (hr : Reaches (step p limits) s₀ s) :
    (s.frame.rest = [] → s.frame.terminator = some .ret → ∀ l, l ≠ 0 → localNeedsDrop s.frame.function l = true →
      s.frame.locals[l]? = some none) ∧
    (∀ l, l ≠ 0 → ¬ OverwritesAt limits s l) ∧ ∀ e, step p limits s = .error e → e.ownership = false := by
  have hv := (lowerToMir_ok h).1
  have hheld := reaches_heldState h h₀ hr
  have hok := reaches_stateOk hv hr (startCall_ok_stateOk hv h₀)
  refine ⟨fun hrest hret l hne hneeds => ?_, fun l hne => lowered_not_overwritesAt h hheld hne, fun e he => ?_⟩
  · rw [localNeedsDrop_eq] at hneeds
    obtain ⟨⟨hf, b, before, S, hb, hcode, hpath, hin⟩, -⟩ := hheld
    obtain ⟨-, owned, t, -, -, hlen, -⟩ := hok.frame
    rw [hrest, List.append_nil] at hcode
    have hlast := Frame.terminator_eq hb hret
    have hlt : l < s.frame.locals.length := by
      rw [hlen]
      exact localIsAffine_lt hneeds
    cases hslot : s.frame.locals[l]? with
    | none => exact absurd hslot (by rw [List.getElem?_eq_getElem hlt]; simp)
    | some slot =>
      cases slot with
      | none => rfl
      | some v =>
        have hmem := hin l v hneeds hslot
        rw [← hcode] at hmem
        obtain ⟨f₀, plan, hfun, hs, -⟩ := lowered_function h hf
        rw [hfun] at hpath hb
        rw [hfun, insertFunctionDrops_affine] at hneeds
        exact absurd hmem (return_owns_none hs hpath hb hlast hneeds hne)
  · have := step_stateOk hv limits hok
    rw [he] at this
    exact this

end

/-- One arm moves the string to a function that drops it, the other leaves it to the jump. -/
def choiceProgram : HirProgram where
  modules := [⟨0, [
    ⟨⟨0, 1⟩, "Choice", .enum [⟨⟨0, 2⟩, []⟩, ⟨⟨0, 3⟩, []⟩], default⟩,
    ⟨⟨0, 4⟩, "consume", .function ⟨[⟨⟨0, 5⟩, .primitive .string, default⟩], .primitive (.unsigned "U64"),
      [.expression (.mk (.literal (.integer 1)) .integerLiteral default)], false, none⟩, default⟩,
    ⟨⟨0, 6⟩, "main", .function ⟨[], .primitive (.unsigned "U64"), [
      .let_ ⟨0, 7⟩ (.primitive .string) (.mk (.literal (.string "s")) (.primitive .string) default),
      .expression (.mk (.match_ (.mk (.reference ⟨0, 3⟩) (.enum "Choice") default) [
        .mk (.variant ⟨0, 2⟩ []) none (.mk (.call (.mk (.reference ⟨0, 4⟩) .unknown default)
          [.mk (.reference ⟨0, 7⟩) (.primitive .string) default]) (.primitive (.unsigned "U64")) default) default,
        .mk .wildcard none (.mk (.literal (.integer 7)) .integerLiteral default) default])
        (.primitive (.unsigned "U64")) default)], false, none⟩, default⟩]⟩]
  entry := some ⟨0, 6⟩

theorem choiceProgram_drops_the_string : ∃ p s₀ s, lowerToMir choiceProgram = .ok p ∧
    startCall p ⟨99, 9, 99⟩ ⟨0, 6⟩ [] = .ok s₀ ∧ Reaches (step p ⟨99, 9, 99⟩) s₀ s ∧
    s.frame.terminator = some .ret ∧ s.machine.dropsExecuted = 1 ∧ s.frame.locals[1]? = some none := by
  refine ⟨_, _, _, rfl, rfl, Reaches.head rfl (Reaches.head rfl (Reaches.head rfl (Reaches.head rfl (Reaches.head rfl
    (Reaches.head rfl (Reaches.head rfl (Reaches.head rfl (Reaches.refl _ _)))))))), rfl, rfl, ?_⟩
  refine (lowered_drops_once (show lowerToMir choiceProgram = _ from rfl) ⟨99, 9, 99⟩ ⟨0, 6⟩ [] rfl ?_).1 rfl rfl 1 (by decide) rfl
  exact Reaches.head rfl (Reaches.head rfl (Reaches.head rfl (Reaches.head rfl (Reaches.head rfl
    (Reaches.head rfl (Reaches.head rfl (Reaches.head rfl (Reaches.refl _ _))))))))

end Lower
end Syllog
