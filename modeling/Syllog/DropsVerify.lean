import Syllog.LowerDrops
/-!
# DropsVerify — drops keep what the verifier finds

The drops of a block are computed from the ownership analysis and change the transfers it runs on.  A local is only dropped
where no target owns it, so the entry sets stay stable under the new transfers, and smaller transfers have no larger
solution: the analysis finds the same sets again (`ownedOnEntry_insertFunctionDrops`).  What is dropped is owned, hence
defined, so every check that passed still passes (`verify_insertDrops`).
-/
namespace Syllog
namespace Lower

open Mir Hir Dataflow

/-- `insert_drops`. -/
def insertDrops (p : MirProgram) : MirProgram := { p with functions := p.functions.map insertFunctionDrops }

/-- A compiled program is its lowered functions with the drops inserted. -/
theorem lowerToMir_insertDrops {hir : HirProgram} {p : MirProgram} (h : lowerToMir hir = .ok p) :
    p = insertDrops ⟨(HirProgram.functions hir).map (fun df => (lowerFunction (ProgramIndex.new hir) df.1 df.2).1), hir.entry⟩ := by
  obtain ⟨-, -, rfl⟩ := lowerToMir_ok h
  simp [insertDrops]

theorem lookup_insertDrops (p : MirProgram) (id : DefId) :
    (insertDrops p).lookup id = (p.lookup id).map insertFunctionDrops := by
  unfold MirProgram.lookup insertDrops
  simp only [← List.map_reverse, List.find?_map, Function.comp_def, insertFunctionDrops_id]

/-! ## Blocks with their drops -/

/-- Block `i` with its drops. -/
def withDrops (f : MirFunction) (i : Nat) (b : BasicBlock) : BasicBlock :=
  { b with statements := b.statements ++ blockDrops f (ownedOnEntry f) i b }

theorem insertFunctionDrops_getElem? (f : MirFunction) (i : Nat) :
    (insertFunctionDrops f).blocks[i]? = f.blocks[i]?.map (withDrops f i) := by
  by_cases hne : f.blocks = []
  · simp [insertFunctionDrops, hne]
  · rw [insertFunctionDrops_eq hne, List.getElem?_mapIdx]
    rfl

section
variable {f : MirFunction} {i : Nat} {b : BasicBlock} {entry : Finset Nat} {ls : List Nat}

theorem dropCandidates_subset (incoming : Incoming Nat) (state : Finset Nat) (t : Option Terminator) :
    dropCandidates incoming state t ⊆ state := by
  unfold dropCandidates
  split
  · exact Finset.Subset.refl _
  · split
    · exact Finset.sdiff_subset
    · exact Finset.empty_subset _
  · exact Finset.empty_subset _

/-- What is dropped was owned. -/
theorem Drops.owned (h : Drops f i b entry ls) {l : Nat} (hl : l ∈ ls) : l ∈ b.statements.foldl transferStatement entry :=
  dropCandidates_subset _ _ _ ((h.mem l).mp hl).1

/-- **Nothing is dropped that the target of an edge owns.** -/
theorem Drops.not_mem_target (h : Drops f i b entry ls) {l s : Nat} {next : Finset Nat} (hs : s ∈ b.successors)
    (hnext : (ownedOnEntry f)[s]? = some (some next)) (hl : l ∈ ls) : l ∉ next := by
  have hcand := ((h.mem l).mp hl).1
  unfold BasicBlock.successors at hs
  cases ht : b.terminator with
  | none =>
    rw [ht] at hs
    cases hs
  | some t =>
    rw [ht] at hs hcand
    cases t with
    | ret => cases hs
    | goto target =>
      cases List.mem_singleton.mp hs
      simp only [dropCandidates, hnext, Finset.mem_sdiff] at hcand
      exact hcand.2
    | switchInt value targets otherwise => exact absurd hcand (Finset.notMem_empty l)
    | call callee args destination next => exact absurd hcand (Finset.notMem_empty l)

/-- A block that ends in a switch or a call drops nothing. -/
theorem Drops.eq_nil (h : Drops f i b entry ls) {t : Terminator} (ht : b.terminator = some t) (hret : t ≠ .ret)
    (hgoto : ∀ target, t ≠ .goto target) : ls = [] := by
  refine List.eq_nil_iff_forall_not_mem.mpr fun l hl => ?_
  have hcand := ((h.mem l).mp hl).1
  rw [ht] at hcand
  cases t with
  | ret => exact hret rfl
  | goto target => exact hgoto target rfl
  | switchInt value targets otherwise => exact Finset.notMem_empty l hcand
  | call callee args destination next => exact Finset.notMem_empty l hcand

theorem Drops.foldl (h : Drops f i b entry ls) (S : Finset Nat) : (withDrops f i b).statements.foldl transferStatement S =
    (ls.map (fun l => Statement.drop (.loc l))).foldl transferStatement (b.statements.foldl transferStatement S) := by
  unfold withDrops
  rw [h.eq, List.foldl_append]

/-- What a block with its drops leaves: all it left, less what it drops. -/
theorem Drops.mem_transferBlock (h : Drops f i b entry ls) {l : Nat} {S : Finset Nat} (hl : l ∈ transferBlock b S)
    (hout : l ∉ ls) : l ∈ transferBlock (withDrops f i b) S := by
  unfold transferBlock at hl ⊢
  rw [h.foldl]
  have hkept : l ∈ b.statements.foldl transferStatement S →
      l ∈ (ls.map (fun l => Statement.drop (.loc l))).foldl transferStatement (b.statements.foldl transferStatement S) :=
    fun hl => mem_foldl_drops.mpr ⟨hl, hout⟩
  rw [show (withDrops f i b).terminator = b.terminator from rfl]
  cases ht : b.terminator with
  | none =>
    rw [ht] at hl
    exact hkept hl
  | some t =>
    rw [ht] at hl
    exact mem_consumeTerminator t hkept hl

end

section
variable (f : MirFunction)

theorem transferBlock_withDrops_subset (i : Nat) (b : BasicBlock) (S : Finset Nat) :
    transferBlock (withDrops f i b) S ⊆ transferBlock b S := by
  obtain ⟨ls, hls, -⟩ := blockDrops_locals f (ownedOnEntry f) i b
  have hsub : ∀ l, l ∈ (withDrops f i b).statements.foldl transferStatement S → l ∈ b.statements.foldl transferStatement S := by
    intro l hl
    unfold withDrops at hl
    rw [hls, List.foldl_append, mem_foldl_drops] at hl
    exact hl.1
  intro l hl
  unfold transferBlock at hl ⊢
  rw [show (withDrops f i b).terminator = b.terminator from rfl] at hl
  cases ht : b.terminator with
  | none =>
    rw [ht] at hl
    exact hsub l hl
  | some t =>
    rw [ht] at hl
    exact mem_consumeTerminator t (hsub l) hl

theorem defineBlock_withDrops (i : Nat) (b : BasicBlock) : defineBlock (withDrops f i b) = defineBlock b := by
  obtain ⟨ls, hls, -⟩ := blockDrops_locals f (ownedOnEntry f) i b
  have hdrops : ∀ (ls : List Nat) (S : Finset Nat), (ls.map (fun l => Statement.drop (.loc l))).foldl defineStatement S = S := by
    intro ls
    induction ls with
    | nil => exact fun S => rfl
    | cons l ls ih => exact ih
  funext S
  unfold defineBlock withDrops
  simp only [hls, List.foldl_append, hdrops]

/-! ## The analyses find the same sets -/

theorem successorsAt_insertFunctionDrops : successorsAt (insertFunctionDrops f) = successorsAt f := by
  funext i
  unfold successorsAt
  rw [insertFunctionDrops_getElem?]
  cases f.blocks[i]? <;> rfl

theorem startIncoming_insertFunctionDrops : startIncoming (insertFunctionDrops f) = startIncoming f := by
  unfold startIncoming reachableBlocks localUniverse
  rw [insertFunctionDrops_length, successorsAt_insertFunctionDrops, insertFunctionDrops_locals, insertFunctionDrops_parameters]

theorem ownershipAnalysis_mono (i : Nat) (S T : Finset Nat) (h : S ⊆ T) :
    (ownershipAnalysis f).transfer i S ⊆ (ownershipAnalysis f).transfer i T :=
  fun l => ownershipAnalysis_separable f i S T l fun hl => h hl

/-- **The ownership analysis finds with the drops what it found without them.** -/
theorem ownedOnEntry_insertFunctionDrops : ownedOnEntry (insertFunctionDrops f) = ownedOnEntry f := by
  unfold ownedOnEntry
  rw [startIncoming_insertFunctionDrops]
  refine fixpoint_eq_of_stable (successorsAt_insertFunctionDrops f) rfl (ownershipAnalysis_mono f)
    (ownershipAnalysis_mono (insertFunctionDrops f)) (fun i S => ?_) ?_
  · simp only [ownershipAnalysis, insertFunctionDrops_getElem?]
    cases f.blocks[i]? with
    | none => exact Finset.Subset.refl S
    | some b => exact transferBlock_withDrops_subset f i b S
  · intro i st hi s hs hp cur hcur l hl
    have hs' : s ∈ (ownershipAnalysis f).succ i := by
      rw [show (ownershipAnalysis f).succ = successorsAt f from rfl, ← successorsAt_insertFunctionDrops]
      exact hs
    have hmem := stable_fixpoint (ownershipAnalysis f) (startIncoming f) i st hi s hs' hp cur hcur hl
    simp only [ownershipAnalysis, insertFunctionDrops_getElem?] at hmem hs' ⊢
    cases hb : f.blocks[i]? with
    | none =>
      rw [hb] at hmem
      exact hmem
    | some b =>
      rw [hb] at hmem
      rw [successorsAt_of_block hb] at hs'
      obtain ⟨ls, hdrops⟩ := exists_drops (b := b) hi
      exact hdrops.mem_transferBlock hmem fun hdrop => hdrops.not_mem_target hs' hcur hdrop hl

theorem definiteInitialization_insertFunctionDrops :
    definiteInitialization (insertFunctionDrops f) = definiteInitialization f := by
  have hanalysis : initializationAnalysis (insertFunctionDrops f) = initializationAnalysis f := by
    unfold initializationAnalysis
    rw [successorsAt_insertFunctionDrops]
    congr 1
    funext i S
    rw [insertFunctionDrops_getElem?]
    cases f.blocks[i]? with
    | none => rfl
    | some b => exact congrFun (defineBlock_withDrops f i b) S
  unfold definiteInitialization
  rw [hanalysis, startIncoming_insertFunctionDrops]

theorem everInitialized_insertFunctionDrops : everInitialized (insertFunctionDrops f) = everInitialized f := by
  have hblocks : (insertFunctionDrops f).blocks.map defineBlock = f.blocks.map defineBlock := by
    refine List.ext_getElem? fun i => ?_
    rw [List.getElem?_map, List.getElem?_map, insertFunctionDrops_getElem?, Option.map_map]
    exact congrFun (congrArg _ (funext fun b => defineBlock_withDrops f i b)) _
  have hfoldl : ∀ (bs : List BasicBlock) (S : Finset Nat),
      bs.foldl (fun st b => defineBlock b st) S = (bs.map defineBlock).foldl (fun st g => g st) S :=
    fun bs S => by rw [List.foldl_map]
  unfold everInitialized
  rw [hfoldl, hfoldl, hblocks, insertFunctionDrops_parameters]

end

/-! ## Owned locals are defined -/

theorem foldl_transferStatement_subset : ∀ (ss : List Statement) {S T : Finset Nat}, S ⊆ T →
    ss.foldl transferStatement S ⊆ ss.foldl defineStatement T
  | [], _, _, h => h
  | s :: ss, S, T, h => by
    refine foldl_transferStatement_subset ss ?_
    cases s with
    | assign destination value => exact insertPlace_mono destination ((consumeRvalue_subset value S).trans h)
    | drop place => exact (Finset.erase_subset _ S).trans h

theorem transferBlock_subset_defineBlock (b : BasicBlock) (S : Finset Nat) : transferBlock b S ⊆ defineBlock b S := by
  have hsub := foldl_transferStatement_subset b.statements (Finset.Subset.refl S)
  unfold transferBlock defineBlock
  cases b.terminator with
  | none => exact hsub
  | some t =>
    cases t with
    | ret => exact hsub
    | goto target => exact hsub
    | switchInt value targets otherwise => exact (consumeOperand_subset value _).trans hsub
    | call callee args destination next => exact insertPlace_mono destination ((consumeOperands_subset args _).trans hsub)

/-- **What is owned on entry to a block is defined there.** -/
theorem owned_subset_defined {f : MirFunction} {i : Nat} {owned defined : Finset Nat}
    (ho : (ownedOnEntry f)[i]? = some (some owned)) (hd : (definiteInitialization f)[i]? = some (some defined)) :
    owned ⊆ defined := by
  have hmono : ∀ i S T, S ⊆ T → (initializationAnalysis f).transfer i S ⊆ (initializationAnalysis f).transfer i T := by
    intro i S T hST
    simp only [initializationAnalysis]
    cases f.blocks[i]? with
    | none => exact hST
    | some b => exact defineBlock_mono b hST
  have hstable : Stable (initializationAnalysis f) (ownedOnEntry f) := by
    intro i st hi s hs _ cur hcur
    have hsub := stable_fixpoint (ownershipAnalysis f) (startIncoming f) i st hi s hs rfl cur hcur
    simp only [ownershipAnalysis] at hsub
    simp only [initializationAnalysis]
    cases hb : f.blocks[i]? with
    | none => simpa only [hb] using hsub
    | some b =>
      simp only [hb] at hsub
      exact hsub.trans (transferBlock_subset_defineBlock b st)
  have habove := (above_fixpoint hmono (ownedOnEntry_flow f).below hstable i defined hd).2
  rwa [heldAt_of_some ho] at habove

/-! ## The checks of a block -/

section
variable (f : MirFunction) (i : Nat)

theorem checkOperandOwnership_insertFunctionDrops (initialized : Finset Nat) :
    checkOperandOwnership (insertFunctionDrops f) i initialized = checkOperandOwnership f i initialized :=
  insertFunctionDrops_reads (fun f => checkOperandOwnership f i initialized) (fun _ _ => rfl) f

theorem checkRead_insertFunctionDrops (initialized : Finset Nat) :
    checkRead (insertFunctionDrops f) i initialized = checkRead f i initialized :=
  insertFunctionDrops_reads (fun f => checkRead f i initialized) (fun _ _ => rfl) f

theorem checkOperandsOwnership_insertFunctionDrops (initialized : Finset Nat) : ∀ (os : List Operand) (S : Finset Nat),
    checkOperandsOwnership (insertFunctionDrops f) i initialized os S = checkOperandsOwnership f i initialized os S
  | [], _ => rfl
  | o :: os, S => by
    unfold checkOperandsOwnership
    simp only [checkOperandOwnership_insertFunctionDrops, checkOperandsOwnership_insertFunctionDrops initialized os]

theorem checkStatementOwnership_insertFunctionDrops (initialized : Finset Nat) (s : Statement) (S : Finset Nat) :
    checkStatementOwnership (insertFunctionDrops f) i initialized s S = checkStatementOwnership f i initialized s S := by
  have hvalue : ∀ value S, checkRvalueOwnership (insertFunctionDrops f) i initialized value S =
      checkRvalueOwnership f i initialized value S := by
    intro value S
    unfold checkRvalueOwnership
    simp only [checkRead_insertFunctionDrops, checkOperandOwnership_insertFunctionDrops, checkOperandsOwnership_insertFunctionDrops]
  unfold checkStatementOwnership
  simp only [hvalue, insertFunctionDrops_id, insertFunctionDrops_affine]

theorem checkStatementsOwnership_insertFunctionDrops (initialized : Finset Nat) : ∀ (ss : List Statement) (S : Finset Nat),
    checkStatementsOwnership (insertFunctionDrops f) i initialized ss S = checkStatementsOwnership f i initialized ss S
  | [], _ => rfl
  | s :: ss, S => by
    unfold checkStatementsOwnership
    simp only [checkStatementOwnership_insertFunctionDrops, checkStatementsOwnership_insertFunctionDrops initialized ss]

theorem checkTerminatorOwnership_insertFunctionDrops (initialized : Finset Nat) (t : Terminator) (S : Finset Nat) :
    checkTerminatorOwnership (insertFunctionDrops f) i initialized t S = checkTerminatorOwnership f i initialized t S := by
  unfold checkTerminatorOwnership
  simp only [checkRead_insertFunctionDrops, checkOperandOwnership_insertFunctionDrops, checkOperandsOwnership_insertFunctionDrops]

theorem operandType_insertFunctionDrops : operandType (insertFunctionDrops f) i = operandType f i :=
  insertFunctionDrops_reads (operandType · i) (fun _ _ => rfl) f

theorem placeType_insertFunctionDrops : placeType (insertFunctionDrops f) i = placeType f i :=
  insertFunctionDrops_reads (placeType · i) (fun _ _ => rfl) f

theorem verifyLocalUse_insertFunctionDrops : verifyLocalUse (insertFunctionDrops f) i = verifyLocalUse f i :=
  insertFunctionDrops_reads (verifyLocalUse · i) (fun _ _ => rfl) f

theorem verifyStatement_insertFunctionDrops (s : Statement) (defined : Finset Nat) :
    verifyStatement (insertFunctionDrops f) i s defined = verifyStatement f i s defined := by
  have hbinary : binaryType (insertFunctionDrops f) i = binaryType f i :=
    insertFunctionDrops_reads (binaryType · i) (fun _ _ => rfl) f
  have hvalue : ∀ value, verifyRvalue (insertFunctionDrops f) i value defined = verifyRvalue f i value defined := by
    intro value
    unfold verifyRvalue
    simp only [operandType_insertFunctionDrops, placeType_insertFunctionDrops, verifyLocalUse_insertFunctionDrops, insertFunctionDrops_id, hbinary]
  unfold verifyStatement
  simp only [hvalue, placeType_insertFunctionDrops, verifyLocalUse_insertFunctionDrops, insertFunctionDrops_id]

theorem verifyStatements_insertFunctionDrops : ∀ (ss : List Statement) (defined : Finset Nat),
    verifyStatements (insertFunctionDrops f) i ss defined = verifyStatements f i ss defined
  | [], _ => rfl
  | s :: ss, defined => by
    unfold verifyStatements
    simp only [verifyStatement_insertFunctionDrops, verifyStatements_insertFunctionDrops ss]

theorem verifyArguments_insertFunctionDrops (g : MirFunction) : ∀ (k : Nat) (args : List Operand) (defined : Finset Nat),
    verifyArguments (insertFunctionDrops f) i (insertFunctionDrops g) k args defined = verifyArguments f i g k args defined
  | _, [], _ => rfl
  | k, o :: os, defined => by
    unfold verifyArguments
    simp only [operandType_insertFunctionDrops, insertFunctionDrops_locals, insertFunctionDrops_id,
      verifyArguments_insertFunctionDrops g (k + 1) os]

theorem verifyTerminator_insertFunctionDrops (p : MirProgram) (t : Terminator) (defined : Finset Nat) :
    verifyTerminator (insertFunctionDrops f) i (insertDrops p) t defined = verifyTerminator f i p t defined := by
  cases t with
  | ret => simp only [verifyTerminator, verifyLocalUse_insertFunctionDrops]
  | goto target => rfl
  | switchInt value targets otherwise => simp only [verifyTerminator, operandType_insertFunctionDrops, insertFunctionDrops_id]
  | call callee args destination next =>
    simp only [verifyTerminator, lookup_insertDrops]
    cases p.lookup callee with
    | none => rfl
    | some g =>
      simp only [Option.map_some, verifyArguments_insertFunctionDrops, placeType_insertFunctionDrops, insertFunctionDrops_id,
        insertFunctionDrops_parameterCount, insertFunctionDrops_returnType]

variable {f i}

theorem checkStatementsOwnership_append {initialized : Finset Nat} : ∀ {ss ts : List Statement} {S : Finset Nat},
    (checkStatementsOwnership f i initialized ss S).1 = [] →
    checkStatementsOwnership f i initialized (ss ++ ts) S =
      checkStatementsOwnership f i initialized ts (checkStatementsOwnership f i initialized ss S).2
  | [], _, _, _ => rfl
  | s :: ss, ts, S, h => by
    obtain ⟨hfirst, hrest⟩ := List.append_eq_nil_iff.mp h
    simp only [List.cons_append, checkStatementsOwnership, hfirst, checkStatementsOwnership_append hrest, List.nil_append]

theorem verifyStatements_append : ∀ {ss ts : List Statement} {S : Finset Nat}, (verifyStatements f i ss S).1 = [] →
    verifyStatements f i (ss ++ ts) S = verifyStatements f i ts (verifyStatements f i ss S).2
  | [], _, _, _ => rfl
  | s :: ss, ts, S, h => by
    obtain ⟨hfirst, hrest⟩ := List.append_eq_nil_iff.mp h
    simp only [List.cons_append, verifyStatements, hfirst, verifyStatements_append hrest, List.nil_append]

/-- Owned locals are dropped without a complaint. -/
theorem checkStatementsOwnership_drops {initialized : Finset Nat} : ∀ {ls : List Nat} {S : Finset Nat}, ls.Nodup →
    (∀ l ∈ ls, l ∈ S) → checkStatementsOwnership f i initialized (ls.map fun l => Statement.drop (.loc l)) S =
      ([], (ls.map fun l => Statement.drop (.loc l)).foldl transferStatement S)
  | [], _, _, _ => rfl
  | l :: ls, S, hnodup, hmem => by
    rw [List.nodup_cons] at hnodup
    have hl : l ∈ S := hmem l List.mem_cons_self
    have hrest : ∀ k ∈ ls, k ∈ S.erase l := fun k hk =>
      Finset.mem_erase.mpr ⟨fun h => hnodup.1 (h ▸ hk), hmem k (List.mem_cons_of_mem _ hk)⟩
    simp only [List.map_cons, checkStatementsOwnership, checkStatementOwnership, placeLocal, List.foldl_cons, transferStatement,
      checkStatementsOwnership_drops hnodup.2 hrest]
    simp [hl]

theorem verifyStatements_drops : ∀ {ls : List Nat} {S : Finset Nat}, (∀ l ∈ ls, l < f.locals.length ∧ l ∈ S) →
    verifyStatements f i (ls.map fun l => Statement.drop (.loc l)) S = ([], S)
  | [], _, _ => rfl
  | l :: ls, S, h => by
    obtain ⟨hlt, hmem⟩ := h l List.mem_cons_self
    have hrest := verifyStatements_drops fun k hk => h k (List.mem_cons_of_mem l hk)
    simp only [List.map_cons, verifyStatements, verifyStatement, placeLocal, hrest, verifyLocalUse, if_neg (Nat.not_le.mpr hlt),
      hmem, not_true_eq_false, if_false, List.append_nil]

/-- **A block that passed the ownership checks passes them with its drops.** -/
theorem checkBlockOwnership_withDrops {b : BasicBlock} {owned : Finset Nat} {ls : List Nat} (h : Drops f i b owned ls)
    (hstate : (checkStatementsOwnership f i (everInitialized f) b.statements owned).2 = b.statements.foldl transferStatement owned)
    (hcheck : checkBlockOwnership f i (everInitialized f) b owned = []) :
    checkBlockOwnership (insertFunctionDrops f) i (everInitialized (insertFunctionDrops f)) (withDrops f i b) owned = [] := by
  obtain ⟨hbody, hlast⟩ := List.append_eq_nil_iff.mp hcheck
  unfold checkBlockOwnership
  rw [everInitialized_insertFunctionDrops]
  have hdrops : checkStatementsOwnership (insertFunctionDrops f) i (everInitialized f) (withDrops f i b).statements owned =
      ([], (ls.map fun l => Statement.drop (.loc l)).foldl transferStatement (b.statements.foldl transferStatement owned)) := by
    rw [checkStatementsOwnership_insertFunctionDrops, show (withDrops f i b).statements = b.statements ++ _ from rfl,
      checkStatementsOwnership_append hbody, hstate, h.eq]
    exact checkStatementsOwnership_drops h.nodup fun l hl => h.owned hl
  simp only [hdrops, List.nil_append]
  rw [hstate] at hlast
  rw [show (withDrops f i b).terminator = b.terminator from rfl]
  cases ht : b.terminator with
  | none => rfl
  | some t =>
    simp only [ht] at hlast
    simp only [checkTerminatorOwnership_insertFunctionDrops]
    cases t with
    | goto target => rfl
    | ret =>
      -- the return slot is not among the dropped locals
      have hout : 0 ∉ ls := fun hl => ((h.mem 0).mp hl).2.1 rfl
      have hread := (checkRead_fst hlast).1
      simp only [checkTerminatorOwnership, checkRead]
      rw [if_neg]
      rintro ⟨hmem, hinit⟩
      rcases hread with hread | hread
      · exact hmem (mem_foldl_drops.mpr ⟨hread, hout⟩)
      · exact hread hinit
    | switchInt value targets otherwise =>
      rw [h.eq_nil ht (fun h => by cases h) fun _ h => by cases h]
      exact hlast
    | call callee args destination next =>
      rw [h.eq_nil ht (fun h => by cases h) fun _ h => by cases h]
      exact hlast

/-- **A block that passed the type and definition checks passes them with its drops.** -/
theorem verifyBlock_withDrops {p : MirProgram} {b : BasicBlock} {owned defined : Finset Nat} {ls : List Nat}
    (h : Drops f i b owned ls)
    (hstate : (verifyStatements f i b.statements defined).2 = b.statements.foldl defineStatement defined)
    (hsub : owned ⊆ defined) (hverify : verifyBlock f i p b defined = []) :
    verifyBlock (insertFunctionDrops f) i (insertDrops p) (withDrops f i b) defined = [] := by
  obtain ⟨hbody, hlast⟩ := List.append_eq_nil_iff.mp hverify
  have hdrops : verifyStatements (insertFunctionDrops f) i (withDrops f i b).statements defined =
      ([], b.statements.foldl defineStatement defined) := by
    rw [verifyStatements_insertFunctionDrops, show (withDrops f i b).statements = b.statements ++ _ from rfl,
      verifyStatements_append hbody, hstate, h.eq]
    refine verifyStatements_drops fun l hl => ⟨Interp.localIsAffine_lt ((h.mem l).mp hl).2.2, ?_⟩
    exact foldl_transferStatement_subset b.statements hsub (h.owned hl)
  unfold verifyBlock
  simp only [hdrops, List.nil_append]
  rw [hstate] at hlast
  rw [show (withDrops f i b).terminator = b.terminator from rfl]
  cases ht : b.terminator with
  | none => rfl
  | some t =>
    rw [ht] at hlast
    exact (verifyTerminator_insertFunctionDrops f i p t _).trans hlast

end

/-! ## Functions and programs -/

theorem verifyTargets_insertFunctionDrops {p : MirProgram} {f : MirFunction} (h : verifyTargets p f = []) :
    verifyTargets (insertDrops p) (insertFunctionDrops f) = [] := by
  refine flatMap_zipIdx_eq_nil fun i b' hb' => ?_
  rw [insertFunctionDrops_getElem?] at hb'
  obtain ⟨b, hb, rfl⟩ := Option.map_eq_some_iff.mp hb'
  have hcheck := flatMap_zipIdx_nil h hb
  simp only [insertFunctionDrops_id, insertFunctionDrops_length, lookup_insertDrops, Option.isNone_map]
  exact hcheck

/-- **The drops of a function change none of its checks.** -/
theorem verify_insertFunctionDrops {p : MirProgram} {f : MirFunction} (hfun : verifyFunction p f = [])
    (hown : verifyAffineOwnership f = []) :
    verifyFunction (insertDrops p) (insertFunctionDrops f) = [] ∧ verifyAffineOwnership (insertFunctionDrops f) = [] := by
  obtain ⟨hblocks, hret, hparams, htargets, hbody⟩ := verifyFunction_nil hfun
  -- the checks of every block that takes part, with its drops
  have hblock : ∀ i b owned defined, f.blocks[i]? = some b → (ownedOnEntry f)[i]? = some (some owned) →
      (definiteInitialization f)[i]? = some (some defined) →
      checkBlockOwnership (insertFunctionDrops f) i (everInitialized (insertFunctionDrops f)) (withDrops f i b) owned = [] ∧
      verifyBlock (insertFunctionDrops f) i (insertDrops p) (withDrops f i b) defined = [] := by
    intro i b owned defined hb ho hd
    have hcheck := verifyAffineOwnership_nil hown hb ho
    have hverify := hbody i b defined hb hd
    obtain ⟨-, hs, hv⟩ := statementsOk_of_checks (statements_subset_everInitialized hb hd)
      (List.append_eq_nil_iff.mp hcheck).1 (List.append_eq_nil_iff.mp hverify).1
    obtain ⟨ls, hdrops⟩ := exists_drops (b := b) ho
    exact ⟨checkBlockOwnership_withDrops hdrops hs hcheck,
      verifyBlock_withDrops hdrops hv (owned_subset_defined ho hd) hverify⟩
  have hsome := fun i => ((ownedOnEntry_flow f).isSome_iff i).trans ((definiteInitialization_flow f).isSome_iff i).symm
  constructor
  · refine verifyFunction_eq_nil (by rwa [insertFunctionDrops_length]) ?_ ?_ (verifyTargets_insertFunctionDrops htargets) ?_
    · rw [insertFunctionDrops_locals, hret, insertFunctionDrops_returnType]
    · rw [insertFunctionDrops_locals, insertFunctionDrops_parameterCount]
      exact hparams
    · intro i b' defined hb' hd
      rw [insertFunctionDrops_getElem?] at hb'
      rw [definiteInitialization_insertFunctionDrops] at hd
      obtain ⟨b, hb, rfl⟩ := Option.map_eq_some_iff.mp hb'
      obtain ⟨owned, ho⟩ := (hsome i).mpr ⟨defined, hd⟩
      exact (hblock i b owned defined hb ho hd).2
  · unfold verifyAffineOwnership
    split
    · rfl
    refine flatMap_zipIdx_eq_nil fun i b' hb' => ?_
    rw [insertFunctionDrops_getElem?] at hb'
    obtain ⟨b, hb, rfl⟩ := Option.map_eq_some_iff.mp hb'
    dsimp only
    rw [ownedOnEntry_insertFunctionDrops]
    split
    · rename_i owned ho
      obtain ⟨defined, hd⟩ := (hsome i).mp ⟨owned, ho⟩
      exact (hblock i b owned defined hb ho hd).1
    · rfl

/-- **Drops keep a program verified.** -/
theorem verify_insertDrops {p : MirProgram} (h : verify p = .ok ()) : verify (insertDrops p) = .ok () := by
  have hnil : ((insertDrops p).functions.flatMap fun f => verifyFunction (insertDrops p) f ++ verifyAffineOwnership f) = [] := by
    rw [List.flatMap_eq_nil_iff]
    intro f' hf'
    obtain ⟨f, hf, rfl⟩ := List.mem_map.mp hf'
    obtain ⟨hfun, hown⟩ := verify_insertFunctionDrops (verify_ok h f hf).1 (verify_ok h f hf).2
    rw [hfun, hown]
    rfl
  unfold verify
  rw [hnil]
  rfl

end Lower
end Syllog
