import Syllog.Lower
/-!
# LowerShape — what lowering does to the builder

`Grows b b'` is the frame of every lowering function: locals, diagnostics and bindings are only added, the current block
is extended and all other old blocks are left alone, control ends where it was or in a fresh block.  `Shaped` reads the
control flow built so far: a block that a switch or a call leads to is entered from there only, the others by jumps.
-/
namespace Syllog
namespace Lower

open Mir Hir

/-! ## The shape of the control flow -/

/-- How a block is entered: as the function's start, from one switch or call, or by jumps. -/
inductive Role where
  | entry
  | only (source : Nat)
  | join
deriving DecidableEq, Repr

/-- The role of the blocks a terminator of block `source` leads to. -/
def targetRole (source : Nat) : Terminator → Role
  | .goto _ | .ret => .join
  | _              => .only source

/-- A role for each block, and for each local the block whose call writes it, if one does. -/
structure Plan where
  role : Nat → Role
  home : Nat → Option Nat

/-- **The control flow follows the plan**, over `size` locals: whole locals are written, by statements or by one call. -/
structure Shaped (plan : Plan) (size : Nat) (blocks : List BasicBlock) : Prop where
  entry : plan.role 0 = .entry
  result : 0 < size ∧ plan.home 0 = none
  edges : ∀ (i : Nat) (block : BasicBlock) (t : Terminator), blocks[i]? = some block → block.terminator = some t →
    ∀ s ∈ successors t, s < blocks.length ∧ plan.role s = targetRole i t
  calls : ∀ (i : Nat) (block : BasicBlock) (callee : DefId) (args : List Operand) (place : Place) (next : Nat),
    blocks[i]? = some block → block.terminator = some (.call callee args place next) →
    ∃ l < size, place = .loc l ∧ plan.home l = some i
  writes : ∀ (i : Nat) (block : BasicBlock), blocks[i]? = some block → ∀ st ∈ block.statements,
    ∃ l < size, ∃ value, st = .assign (.loc l) value ∧ plan.home l = none

/-- The plans agree on `size` locals and `count` blocks. -/
structure Plan.Extends (plan plan' : Plan) (size count : Nat) : Prop where
  role : ∀ i < count, plan'.role i = plan.role i
  home : ∀ l < size, plan'.home l = plan.home l

theorem Plan.Extends.refl (plan : Plan) (size count : Nat) : plan.Extends plan size count :=
  ⟨fun _ _ => rfl, fun _ _ => rfl⟩

theorem Plan.Extends.trans {p1 p2 p3 : Plan} {size count size' count' : Nat} (h : p1.Extends p2 size count)
    (h' : p2.Extends p3 size' count') (hs : size ≤ size') (hc : count ≤ count') : p1.Extends p3 size count :=
  ⟨fun i hi => (h'.role i (by omega)).trans (h.role i hi), fun l hl => (h'.home l (by omega)).trans (h.home l hl)⟩

/-- What is not there yet is free, and more locals do no harm. -/
theorem Shaped.extend {plan plan' : Plan} {size n : Nat} {blocks : List BasicBlock} (h : Shaped plan size blocks)
    (hpos : 0 < blocks.length) (hle : size ≤ n) (he : plan.Extends plan' size blocks.length) :
    Shaped plan' n blocks := by
  refine ⟨(he.role 0 hpos).trans h.entry, ⟨?_, ?_⟩, ?_, ?_, ?_⟩
  · exact Nat.lt_of_lt_of_le h.result.1 hle
  · exact (he.home 0 h.result.1).trans h.result.2
  · intro i block t hb ht s hs
    obtain ⟨hlt, hr⟩ := h.edges i block t hb ht s hs
    exact ⟨hlt, (he.role s hlt).trans hr⟩
  · intro i block callee args place next hb ht
    obtain ⟨l, hl, hp, hh⟩ := h.calls i block callee args place next hb ht
    exact ⟨l, by omega, hp, (he.home l hl).trans hh⟩
  · intro i block hb st hst
    obtain ⟨l, hl, value, hs, hh⟩ := h.writes i block hb st hst
    exact ⟨l, by omega, value, hs, (he.home l hl).trans hh⟩

/-- A statement that writes a local no call writes. -/
theorem shaped_assign {plan : Plan} {size l : Nat} {blocks : List BasicBlock} {k : Nat} {v : Rvalue}
    (h : Shaped plan size blocks) (hl : l < size) (hh : plan.home l = none) : Shaped plan size
      (blocks.modify k (fun block => { block with statements := block.statements ++ [.assign (.loc l) v] })) := by
  have hget : ∀ (i : Nat) (block : BasicBlock),
      (blocks.modify k (fun block => { block with statements := block.statements ++ [.assign (.loc l) v] }))[i]? =
        some block → ∃ old, blocks[i]? = some old ∧ block.terminator = old.terminator ∧
          ∀ st ∈ block.statements, st ∈ old.statements ∨ st = .assign (.loc l) v := by
    intro i block hb
    by_cases hik : k = i
    · subst hik
      rw [List.getElem?_modify_eq] at hb
      obtain ⟨old, hold, rfl⟩ := Option.map_eq_some_iff.1 hb
      exact ⟨old, hold, rfl, fun st hst => by simpa using hst⟩
    · rw [List.getElem?_modify_ne _ _ hik] at hb
      exact ⟨block, hb, rfl, fun st hst => .inl hst⟩
  refine ⟨h.entry, h.result, ?_, ?_, ?_⟩
  · intro i block t hb ht s hs
    obtain ⟨old, hold, hterm, -⟩ := hget i block hb
    rw [List.length_modify]
    exact h.edges i old t hold (hterm ▸ ht) s hs
  · intro i block callee args place next hb ht
    obtain ⟨old, hold, hterm, -⟩ := hget i block hb
    exact h.calls i old callee args place next hold (hterm ▸ ht)
  · intro i block hb st hst
    obtain ⟨old, hold, -, hmem⟩ := hget i block hb
    rcases hmem st hst with hst | rfl
    · exact h.writes i old hold st hst
    · exact ⟨l, hl, v, rfl, hh⟩

/-- Blocks that are empty lead nowhere. -/
theorem shaped_append {plan : Plan} {size : Nat} {blocks : List BasicBlock} (h : Shaped plan size blocks) (count : Nat) :
    Shaped plan size (blocks ++ List.replicate count ⟨[], none⟩) := by
  have hget : ∀ (i : Nat) (block : BasicBlock), (blocks ++ List.replicate count ⟨[], none⟩)[i]? = some block →
      blocks[i]? = some block ∨ block = ⟨[], none⟩ := by
    intro i block hb
    by_cases hi : i < blocks.length
    · rw [List.getElem?_append_left hi] at hb
      exact .inl hb
    · rw [List.getElem?_append_right (by omega)] at hb
      exact .inr (List.eq_of_mem_replicate (List.mem_of_getElem? hb))
  refine ⟨h.entry, h.result, ?_, ?_, ?_⟩
  · intro i block t hb ht s hs
    rcases hget i block hb with hb | rfl
    · obtain ⟨hlt, hr⟩ := h.edges i block t hb ht s hs
      exact ⟨by rw [List.length_append]; omega, hr⟩
    · cases ht
  · intro i block callee args place next hb ht
    rcases hget i block hb with hb | rfl
    · exact h.calls i block callee args place next hb ht
    · cases ht
  · intro i block hb st hst
    rcases hget i block hb with hb | rfl
    · exact h.writes i block hb st hst
    · cases hst

/-- Ending a block as planned. -/
theorem shaped_terminate {plan : Plan} {size : Nat} {blocks : List BasicBlock} {k : Nat} {t : Terminator}
    (h : Shaped plan size blocks) (ht : ∀ s ∈ successors t, s < blocks.length ∧ plan.role s = targetRole k t)
    (hcall : ∀ callee args place next, t = .call callee args place next →
      ∃ l < size, place = .loc l ∧ plan.home l = some k) :
    Shaped plan size (blocks.modify k (fun block => { block with terminator := some t })) := by
  have hget : ∀ (i : Nat) (block : BasicBlock),
      (blocks.modify k (fun block => { block with terminator := some t }))[i]? = some block →
        ∃ old, blocks[i]? = some old ∧ block.statements = old.statements ∧
          (block.terminator = old.terminator ∨ (i = k ∧ block.terminator = some t)) := by
    intro i block hb
    by_cases hik : k = i
    · subst hik
      rw [List.getElem?_modify_eq] at hb
      obtain ⟨old, hold, rfl⟩ := Option.map_eq_some_iff.1 hb
      exact ⟨old, hold, rfl, .inr ⟨rfl, rfl⟩⟩
    · rw [List.getElem?_modify_ne _ _ hik] at hb
      exact ⟨block, hb, rfl, .inl rfl⟩
  refine ⟨h.entry, h.result, ?_, ?_, ?_⟩
  · intro i block t' hb ht' s hs
    obtain ⟨old, hold, -, hterm⟩ := hget i block hb
    rw [List.length_modify]
    rcases hterm with hterm | ⟨rfl, hterm⟩
    · exact h.edges i old t' hold (hterm ▸ ht') s hs
    · cases hterm.symm.trans ht'
      exact ht s hs
  · intro i block callee args place next hb ht'
    obtain ⟨old, hold, -, hterm⟩ := hget i block hb
    rcases hterm with hterm | ⟨rfl, hterm⟩
    · exact h.calls i old callee args place next hold (hterm ▸ ht')
    · cases hterm.symm.trans ht'
      exact hcall callee args place next rfl
  · intro i block hb st hst
    obtain ⟨old, hold, hstmts, -⟩ := hget i block hb
    exact h.writes i old hold st (hstmts ▸ hst)

theorem shaped_ret {plan : Plan} {size : Nat} {blocks : List BasicBlock} {k : Nat} (h : Shaped plan size blocks) :
    Shaped plan size (blocks.modify k (fun block => { block with terminator := some .ret })) :=
  shaped_terminate h (fun s hs => by simp [successors] at hs) (fun _ _ _ _ ht => by cases ht)

/-- The plan for one more local. -/
def Plan.withHome (plan : Plan) (size : Nat) (home : Option Nat) : Plan :=
  { plan with home := fun l => if l < size then plan.home l else home }

/-- The plan for more blocks. -/
def Plan.withRoles (plan : Plan) (count : Nat) (role : Nat → Role) : Plan :=
  { plan with role := fun i => if i < count then plan.role i else role i }

theorem Plan.extends_withHome (plan : Plan) (size count : Nat) (home : Option Nat) :
    plan.Extends (plan.withHome size home) size count :=
  ⟨fun _ _ => rfl, fun _ hl => if_pos hl⟩

theorem Plan.extends_withRoles (plan : Plan) (size count : Nat) (role : Nat → Role) :
    plan.Extends (plan.withRoles count role) size count :=
  ⟨fun _ hi => if_pos hi, fun _ _ => rfl⟩

/-- The builder's control flow follows a plan that extends every plan it followed before. -/
def Reshapes (b b' : FunctionBuilder) : Prop :=
  ∀ plan, Shaped plan b.locals.length b.blocks →
    ∃ plan', plan.Extends plan' b.locals.length b.blocks.length ∧ Shaped plan' b'.locals.length b'.blocks

/-! ## The frame -/

/-- The builder at a place where a lowering function may start. -/
def Open (b : FunctionBuilder) : Prop := b.current < b.blocks.length

/-- The old parts of the builder that stay. -/
structure Keeps (b b' : FunctionBuilder) : Prop where
  size : b.blocks.length ≤ b'.blocks.length
  live : Open b'
  locals : b.locals <+: b'.locals
  diagnostics : b.diagnostics <+: b'.diagnostics
  bindings : ∃ new, b'.bindings = new ++ b.bindings ∧
    ∀ entry ∈ new, b.locals.length ≤ entry.2 ∧ entry.2 < b'.locals.length
  others : ∀ i < b.blocks.length, i ≠ b.current → b'.blocks[i]? = b.blocks[i]?
  filled : ∃ block block', b.blocks[b.current]? = some block ∧ b'.blocks[b.current]? = some block' ∧
    block.statements <+: block'.statements ∧
    (b'.current = b.current ∨ b.blocks.length ≤ b'.current ∧ block'.terminator.isSome)

/-- **What a lowering function does to the builder.** -/
structure Grows (b b' : FunctionBuilder) : Prop extends Keeps b b' where
  shape : Reshapes b b'

theorem Open.block {b : FunctionBuilder} (h : Open b) : ∃ block, b.blocks[b.current]? = some block :=
  ⟨_, List.getElem?_eq_getElem h⟩

theorem Keeps.trans {a b c : FunctionBuilder} (h : Keeps a b) (h' : Keeps b c) : Keeps a c := by
  obtain ⟨block, block1, hb, hb1, hpre, hmoved⟩ := h.filled
  obtain ⟨block1', block2, hb1', hb2, hpre', hmoved'⟩ := h'.filled
  have hlt : a.current < a.blocks.length := (List.getElem?_eq_some_iff.1 hb).1
  have hsize := h.size
  have hsize' := h'.size
  refine ⟨by omega, h'.live, h.locals.trans h'.locals, h.diagnostics.trans h'.diagnostics, ?_, ?_, ?_⟩
  · obtain ⟨new, hnew, hrange⟩ := h.bindings
    obtain ⟨new', hnew', hrange'⟩ := h'.bindings
    have hl := h.locals.length_le
    have hl' := h'.locals.length_le
    refine ⟨new' ++ new, by rw [hnew', hnew, List.append_assoc], fun entry he => ?_⟩
    rcases List.mem_append.1 he with he | he
    · have := hrange' entry he
      omega
    · have := hrange entry he
      omega
  · intro i hi hne
    rw [h'.others i (by omega) (by rcases hmoved with hm | ⟨hm, -⟩ <;> omega), h.others i hi hne]
  · rcases hmoved with hm | ⟨hm, hsome⟩
    · rw [hm, hb1] at hb1'
      cases hb1'
      rw [hm] at hb2
      exact ⟨block, block2, hb, hb2, hpre.trans hpre', by
        rcases hmoved' with hm' | ⟨hm', hsome'⟩
        · exact .inl (hm'.trans hm)
        · exact .inr ⟨by omega, hsome'⟩⟩
    · refine ⟨block, block1, hb, ?_, hpre, .inr ⟨?_, hsome⟩⟩
      · rw [h'.others a.current (by omega) (by omega), hb1]
      · rcases hmoved' with hm' | ⟨hm', -⟩ <;> omega

theorem Grows.trans {a b c : FunctionBuilder} (h : Grows a b) (h' : Grows b c) : Grows a c := by
  refine ⟨h.toKeeps.trans h'.toKeeps, fun plan hs => ?_⟩
  obtain ⟨plan1, he1, hs1⟩ := h.shape plan hs
  obtain ⟨plan2, he2, hs2⟩ := h'.shape plan1 hs1
  exact ⟨plan2, he1.trans he2 h.locals.length_le h.size, hs2⟩

section
variable {b : FunctionBuilder}

/-- Changes outside the blocks. -/
theorem keeps_of_blocks_eq {b' : FunctionBuilder} (h : Open b) (hb : b'.blocks = b.blocks) (hc : b'.current = b.current)
    (hl : b.locals <+: b'.locals) (hd : b.diagnostics <+: b'.diagnostics) (hbind : b'.bindings = b.bindings) :
    Keeps b b' := by
  obtain ⟨block, hblock⟩ := h.block
  refine ⟨by rw [hb], ?_, hl, hd, ⟨[], hbind, by simp⟩, fun _ _ _ => by rw [hb],
    ⟨block, block, hblock, by rw [hb, hblock], List.prefix_rfl, .inl hc⟩⟩
  unfold Open
  rw [hb, hc]
  exact h

theorem Grows.refl (h : Open b) : Grows b b :=
  ⟨keeps_of_blocks_eq h rfl rfl List.prefix_rfl List.prefix_rfl rfl, fun plan hs => ⟨plan, .refl _ _ _, hs⟩⟩

theorem grows_error (h : Open b) (span : Span) (message : DiagnosticMessage) : Grows b (b.error span message) :=
  ⟨keeps_of_blocks_eq h rfl rfl List.prefix_rfl (List.prefix_append _ _) rfl, fun plan hs => ⟨plan, .refl _ _ _, hs⟩⟩

/-- An edit of the current block. -/
theorem keeps_modify (h : Open b) {edit : BasicBlock → BasicBlock}
    (hst : ∀ block, block.statements <+: (edit block).statements) :
    Keeps b { b with blocks := b.blocks.modify b.current edit } := by
  obtain ⟨block, hb⟩ := h.block
  refine ⟨by simp, by simpa [Open] using h, List.prefix_rfl, List.prefix_rfl, ⟨[], rfl, by simp⟩, ?_, ?_⟩
  · intro i _ hne
    exact List.getElem?_modify_ne _ _ (Ne.symm hne)
  · refine ⟨block, edit block, hb, ?_, hst block, .inl rfl⟩
    simp [hb]

theorem keeps_assign (h : Open b) (destination : Place) (value : Rvalue) : Keeps b (b.assign destination value) :=
  keeps_modify h (fun _ => List.prefix_append _ _)

theorem grows_ret (h : Open b) : Grows b (b.terminate .ret) :=
  ⟨keeps_modify h (fun _ => List.prefix_rfl), fun plan hs => ⟨plan, .refl _ _ _, shaped_ret hs⟩⟩

theorem grows_setResult (h : Open b) (value : Operand) : Grows b (setResult value b) := by
  have hassign : Grows b (b.assign (.loc 0) (.use value)) :=
    ⟨keeps_assign h _ _, fun plan hs => ⟨plan, .refl _ _ _, shaped_assign hs hs.result.1 hs.result.2⟩⟩
  exact hassign.trans (grows_ret hassign.live)

theorem grows_returnUnit (h : Open b) (result : MirType) : Grows b (returnUnit result b) := by
  unfold returnUnit
  split
  · exact grows_setResult h unitOperand
  · exact grows_ret h

/-- A fresh local and the statement that writes it. -/
theorem grows_storeFresh (h : Open b) (ty : MirType) (value : Rvalue) :
    Grows b ((b.newLocal ty).2.assign (.loc b.locals.length) value) := by
  have hlocal : Keeps b (b.newLocal ty).2 :=
    keeps_of_blocks_eq h rfl rfl (List.prefix_append _ _) List.prefix_rfl rfl
  refine ⟨hlocal.trans (keeps_assign hlocal.live _ _), fun plan hs => ?_⟩
  have hpos : 0 < b.blocks.length := Nat.lt_of_le_of_lt (Nat.zero_le _) h
  have he := plan.extends_withHome b.locals.length b.blocks.length none
  have hlen : (b.newLocal ty).2.locals.length = b.locals.length + 1 := List.length_append
  refine ⟨_, he, shaped_assign (hs.extend hpos ?_ he) ?_ (if_neg (Nat.lt_irrefl _))⟩
  · show b.locals.length ≤ (b.newLocal ty).2.locals.length
    omega
  · show b.locals.length < (b.newLocal ty).2.locals.length
    omega

theorem grows_bindLocal (h : Open b) (definition : DefId) (ty : MirType) (value : Operand) :
    Grows b (bindLocal definition ty value b) := by
  have hstore := grows_storeFresh h ty (.use value)
  refine ⟨⟨hstore.size, hstore.live, hstore.locals, hstore.diagnostics, ⟨[(definition, b.locals.length)], rfl, ?_⟩,
    hstore.others, hstore.filled⟩, hstore.shape⟩
  intro entry he
  cases List.mem_singleton.1 he
  exact ⟨Nat.le_refl _, by simp [bindLocal, FunctionBuilder.newLocal, FunctionBuilder.assign, FunctionBuilder.bind]⟩

theorem grows_requiredType (h : Open b) (ix : ProgramIndex) (ty : ResolvedType) (span : Span) :
    Grows b (b.requiredType ix ty span).2 := by
  unfold FunctionBuilder.requiredType
  split
  · exact .refl h
  · exact grows_error h _ _

theorem grows_lowerLiteral (h : Open b) (literal : Literal) (span : Span) (expected : Option MirType) :
    Grows b (lowerLiteral literal span expected b).2 := by
  unfold lowerLiteral
  split
  · exact .refl h
  · exact grows_error h _ _

theorem grows_lowerReference (h : Open b) (ix : ProgramIndex) (definition : DefId) (span : Span) :
    Grows b (lowerReference ix definition span b).2 := by
  unfold lowerReference
  split
  · split
    · exact .refl h
    · exact .refl h
  · split
    · exact grows_storeFresh h _ _
    · exact grows_error h _ _

theorem grows_lowerBorrow (h : Open b) (ix : ProgramIndex) (mutable : Bool) (operand : TypedExpr) (ty : ResolvedType)
    (span : Span) : Grows b (lowerBorrow ix mutable operand ty span b).2 := by
  unfold lowerBorrow
  split
  · split
    · exact grows_storeFresh h _ _
    · exact grows_error h _ _
  · exact grows_error h _ _

theorem grows_finishBinary (h : Open b) (operator : BinaryOperator) (left right : Operand) (operandTy : Option MirType)
    (span : Span) : Grows b (finishBinary operator left right operandTy span b).2 := by
  unfold finishBinary
  dsimp only
  split
  · exact grows_error h _ _
  · exact grows_storeFresh h _ _

end

/-! ## Calls and matches -/

/-- Fresh blocks, to which the block `k` then leads. -/
theorem shaped_lead {plan : Plan} {size : Nat} {blocks : List BasicBlock} {k n : Nat} {t : Terminator}
    {r : Nat → Role} (h : Shaped plan size blocks) (hpos : 0 < blocks.length)
    (ht : ∀ s ∈ successors t, blocks.length ≤ s ∧ s < blocks.length + n ∧ r s = targetRole k t)
    (hcall : ∀ callee args place next, t = .call callee args place next →
      ∃ l < size, place = .loc l ∧ plan.home l = some k) :
    Shaped (plan.withRoles blocks.length r) size
      ((blocks ++ List.replicate n (⟨[], none⟩ : BasicBlock)).modify k
        (fun block => { block with terminator := some t })) := by
  have hext := h.extend hpos (Nat.le_refl size) (plan.extends_withRoles size blocks.length r)
  refine shaped_terminate (shaped_append hext n) (fun s hs => ?_) hcall
  obtain ⟨hle, hlt, hf⟩ := ht s hs
  rw [List.length_append, List.length_replicate]
  refine ⟨hlt, ?_⟩
  rw [← hf]
  exact if_neg (by omega)

theorem grows_finishCall {b : FunctionBuilder} (h : Open b) (callee : DefId) (args : List Operand) (result : MirType) :
    Grows b (finishCall callee args result b).2 := by
  obtain ⟨block, hb⟩ := h.block
  have hlt : b.current < b.blocks.length := h
  refine ⟨⟨?_, ?_, List.prefix_append _ _, List.prefix_rfl, ⟨[], rfl, by simp⟩, ?_, ?_⟩, ?_⟩
  · simp [finishCall, FunctionBuilder.newLocal, FunctionBuilder.newBlock, FunctionBuilder.terminate,
      FunctionBuilder.enter]
  · simp [Open, finishCall, FunctionBuilder.newLocal, FunctionBuilder.newBlock, FunctionBuilder.terminate,
      FunctionBuilder.enter]
  · intro i hi hne
    show ((b.blocks ++ [_]).modify b.current _)[i]? = _
    rw [List.getElem?_modify_ne _ _ (Ne.symm hne), List.getElem?_append_left hi]
  · refine ⟨block, { block with terminator := some (.call callee args (.loc b.locals.length) b.blocks.length) }, hb, ?_,
      List.prefix_rfl, .inr ⟨Nat.le_refl _, rfl⟩⟩
    show ((b.blocks ++ [_]).modify b.current _)[b.current]? = _
    rw [List.getElem?_modify_eq, List.getElem?_append_left hlt, hb]
    rfl
  · intro plan hs
    have hhome := plan.extends_withHome b.locals.length b.blocks.length (some b.current)
    have hext := hs.extend (n := b.locals.length + 1) (by omega) (by omega) hhome
    have hroles := (plan.withHome b.locals.length (some b.current)).extends_withRoles b.locals.length b.blocks.length
      (fun _ => .only b.current)
    have hlen : (finishCall callee args result b).2.locals.length = b.locals.length + 1 := List.length_append
    refine ⟨_, hhome.trans hroles (Nat.le_refl _) (Nat.le_refl _), ?_⟩
    rw [hlen]
    refine shaped_lead (k := b.current) (n := 1) hext (by omega) ?_ ?_
    · intro s hs
      simp only [successors, List.mem_singleton] at hs
      subst hs
      exact ⟨Nat.le_refl _, by omega, rfl⟩
    · intro callee' args' place next ht
      cases ht
      exact ⟨b.locals.length, by omega, rfl, if_neg (Nat.lt_irrefl _)⟩

theorem matchTargets_builder (ix : ProgramIndex) : ∀ (arms : List HirMatchArm) (block : Nat) (b : FunctionBuilder),
    ∃ ds, (matchTargets ix block arms b).2 = { b with diagnostics := b.diagnostics ++ ds } ∧
      ∀ edge ∈ (matchTargets ix block arms b).1, block ≤ edge.2 ∧ edge.2 + 1 < block + arms.length
  | [], block, b => ⟨[], by simp [matchTargets], by simp [matchTargets]⟩
  | [_], block, b => ⟨[], by simp [matchTargets], by simp [matchTargets]⟩
  | .mk pattern guard body span :: next :: arms, block, b => by
    simp only [matchTargets]
    split
    · rename_i d hd
      obtain ⟨ds, hds, hrange⟩ := matchTargets_builder ix (next :: arms) (block + 1) b
      refine ⟨ds, hds, fun edge he => ?_⟩
      rcases List.mem_cons.1 he with rfl | he
      · simp only [List.length_cons]
        omega
      · have := hrange edge he
        simp only [List.length_cons] at this ⊢
        omega
    · obtain ⟨ds, hds, hrange⟩ := matchTargets_builder ix (next :: arms) (block + 1)
        (b.error span (.text "non-final match arms require a closed discriminant"))
      refine ⟨⟨"SYL3101", .text "non-final match arms require a closed discriminant", span⟩ :: ds, ?_, fun edge he => ?_⟩
      · rw [hds]
        simp only [FunctionBuilder.error, List.append_assoc, List.singleton_append]
      · have := hrange edge he
        simp only [List.length_cons] at this ⊢
        omega

/-- The builder in front of the arms: the switch is in place, the join and the arms are empty. -/
structure Opened (b b' : FunctionBuilder) (value : Operand) (resultTy : MirType) (targets : List (Nat × Nat))
    (count : Nat) : Prop where
  locals : b'.locals = b.locals ++ [.u64, resultTy]
  bindings : b'.bindings = b.bindings
  diagnostics : b.diagnostics <+: b'.diagnostics
  current : b'.current = b.current
  size : b'.blocks.length = b.blocks.length + 1 + count
  others : ∀ i < b.blocks.length, i ≠ b.current → b'.blocks[i]? = b.blocks[i]?
  filled : ∃ block, b.blocks[b.current]? = some block ∧ b'.blocks[b.current]? = some
    ⟨block.statements ++ [.assign (.loc b.locals.length) (.discriminant value)],
      some (.switchInt (.copy b.locals.length) targets (b.blocks.length + count))⟩
  fresh : ∀ i, b.blocks.length ≤ i → i < b.blocks.length + 1 + count → b'.blocks[i]? = some ⟨[], none⟩
  shape : ∀ plan, Shaped plan b.locals.length b.blocks → ∃ plan', plan.Extends plan' b.locals.length b.blocks.length ∧
    plan'.role b.blocks.length = .join ∧ plan'.home (b.locals.length + 1) = none ∧
    Shaped plan' b'.locals.length b'.blocks

theorem matchTargets_fst (ix : ProgramIndex) : ∀ (arms : List HirMatchArm) (block : Nat) (b b' : FunctionBuilder),
    (matchTargets ix block arms b).1 = (matchTargets ix block arms b').1
  | [], _, _, _ => by simp [matchTargets]
  | [_], _, _, _ => by simp [matchTargets]
  | .mk pattern guard body span :: next :: arms, block, b, b' => by
    simp only [matchTargets]
    split
    · rw [matchTargets_fst ix (next :: arms) (block + 1) b b']
    · exact matchTargets_fst ix (next :: arms) (block + 1) _ _

theorem openMatch_eq {b : FunctionBuilder} (h : Open b) (ix : ProgramIndex) (value : Operand) (resultTy : MirType)
    {arms : List HirMatchArm} (hne : arms ≠ []) :
    ∃ b', openMatch ix value resultTy arms b = (b.locals.length + 1, b.blocks.length, b') ∧
      Opened b b' value resultTy (matchTargets ix (b.blocks.length + 1) arms b).1 arms.length := by
  have hlt : b.current < b.blocks.length := h
  obtain ⟨block, hb⟩ := h.block
  have hcount : 0 < arms.length := List.length_pos_iff.2 hne
  -- the builder in front of the edges
  let b1 : FunctionBuilder := ((b.newLocal .u64).2.assign (.loc b.locals.length) (.discriminant value))
  let b2 : FunctionBuilder := (((b1.newLocal resultTy).2.newBlock).2.newBlocks arms.length)
  obtain ⟨ds, hds, hrange⟩ := matchTargets_builder ix arms (b.blocks.length + 1) b2
  have hfst := matchTargets_fst ix arms (b.blocks.length + 1) b b2
  have hlen1 : b1.blocks.length = b.blocks.length := List.length_modify ..
  have hsize : b2.blocks = b.blocks.modify b.current (fun block =>
      { block with statements := block.statements ++ [.assign (.loc b.locals.length) (.discriminant value)] }) ++
      List.replicate (1 + arms.length) ⟨[], none⟩ := by
    rw [List.replicate_add, ← List.append_assoc]
    rfl
  refine ⟨(matchTargets ix (b.blocks.length + 1) arms b2).2.terminate
    (.switchInt (.copy b.locals.length) (matchTargets ix (b.blocks.length + 1) arms b2).1
      (b.blocks.length + arms.length)), ?_, ?_⟩
  · have hresult : b1.locals.length = b.locals.length + 1 := List.length_append
    rw [← hlen1, ← hresult]
    rfl
  · rw [hds, hfst]
    refine ⟨?_, rfl, ⟨ds, rfl⟩, rfl, ?_, ?_, ?_, ?_, ?_⟩
    · show (b.locals ++ [_]) ++ [_] = _
      rw [List.append_assoc]
      rfl
    · show (b2.blocks.modify b.current _).length = _
      rw [List.length_modify, hsize]
      simp
      omega
    · intro i hi hne
      show (b2.blocks.modify b.current _)[i]? = _
      rw [List.getElem?_modify_ne _ _ (Ne.symm hne), hsize, List.getElem?_append_left (by simpa using hi),
        List.getElem?_modify_ne _ _ (Ne.symm hne)]
    · refine ⟨block, hb, ?_⟩
      show (b2.blocks.modify b.current _)[b.current]? = _
      rw [List.getElem?_modify_eq, hsize, List.getElem?_append_left (by simpa using hlt), List.getElem?_modify_eq, hb]
      rfl
    · intro i hle hi
      show (b2.blocks.modify b.current _)[i]? = _
      rw [List.getElem?_modify_ne _ _ (by omega), hsize, List.getElem?_append_right (by simpa using hle)]
      rw [List.getElem?_replicate, if_pos (by simp; omega)]
    · intro plan hs
      have hhome := plan.extends_withHome b.locals.length b.blocks.length none
      have hext := hs.extend (n := b.locals.length + 2) (by omega) (by omega) hhome
      have hassigned := shaped_assign (k := b.current) (v := .discriminant value) hext
        (show b.locals.length < b.locals.length + 2 by omega) (if_neg (Nat.lt_irrefl _))
      have hroles := (plan.withHome b.locals.length none).extends_withRoles b.locals.length b.blocks.length
        (fun i => if i = b.blocks.length then .join else .only b.current)
      have hlead := shaped_lead (k := b.current) (n := 1 + arms.length)
        (t := .switchInt (.copy b.locals.length) (matchTargets ix (b.blocks.length + 1) arms b2).1
          (b.blocks.length + arms.length))
        (r := fun i => if i = b.blocks.length then .join else .only b.current) hassigned
      rw [List.length_modify] at hlead
      refine ⟨_, hhome.trans hroles (Nat.le_refl _) (Nat.le_refl _), ?_, if_neg (by omega), ?_⟩
      · exact (if_neg (Nat.lt_irrefl _)).trans (if_pos rfl)
      · show Shaped _ ((b.locals ++ [_]) ++ [_]).length (b2.blocks.modify b.current _)
        rw [hsize, List.length_append, List.length_append]
        refine hlead (by omega) (fun s hmem => ?_) (fun _ _ _ _ ht => by cases ht)
        simp only [successors, List.mem_append, List.mem_map, List.mem_singleton] at hmem
        rcases hmem with ⟨edge, he, rfl⟩ | rfl
        · have := hrange edge he
          exact ⟨by omega, by omega, if_neg (by omega)⟩
        · exact ⟨by omega, by omega, if_neg (by omega)⟩

/-! ## The lowering functions -/

/-- What the arms of a match do, in the blocks `block, block + 1, …`: they fill their own blocks and lead to the join. -/
structure Fills (result join block count : Nat) (b b' : FunctionBuilder) : Prop where
  size : b.blocks.length ≤ b'.blocks.length
  locals : b.locals <+: b'.locals
  diagnostics : b.diagnostics <+: b'.diagnostics
  bindings : ∃ new, b'.bindings = new ++ b.bindings ∧
    ∀ entry ∈ new, b.locals.length ≤ entry.2 ∧ entry.2 < b'.locals.length
  others : ∀ i < b.blocks.length, ¬ (block ≤ i ∧ i < block + count) → b'.blocks[i]? = b.blocks[i]?
  shape : ∀ plan, Shaped plan b.locals.length b.blocks → plan.role join = .join → plan.home result = none →
    ∃ plan', plan.Extends plan' b.locals.length b.blocks.length ∧ Shaped plan' b'.locals.length b'.blocks

theorem grows_openArm {b : FunctionBuilder} {block : Nat} (h : block < b.blocks.length) (guard : Option TypedExpr)
    (span : Span) : Grows (b.enter block) (openArm block guard span b) := by
  have hopen : Open (b.enter block) := h
  unfold openArm
  split
  · exact grows_error hopen _ _
  · exact .refl hopen

/-- One arm: its body, then the jump. -/
theorem fills_arm {b b1 : FunctionBuilder} {join block result : Nat} (hjoin : join < b.blocks.length)
    (hresult : result < b.locals.length) (value : Operand) (h : Grows (b.enter block) b1) :
    Fills result join block 1 b (closeArm result join value b1) := by
  obtain ⟨blk, blk1, hb, hb1, hpre, hmoved⟩ := h.filled
  have hsize : b.blocks.length ≤ b1.blocks.length := h.size
  have hcur : b1.current = block ∨ b.blocks.length ≤ b1.current := by
    rcases hmoved with hm | ⟨hm, -⟩
    · exact .inl hm
    · exact .inr hm
  have hlocals : b.locals.length ≤ b1.locals.length := h.locals.length_le
  refine ⟨?_, h.locals, h.diagnostics, h.bindings, ?_, ?_⟩
  · simpa [closeArm, FunctionBuilder.assign, FunctionBuilder.terminate] using hsize
  · intro i hi hne
    show ((b1.blocks.modify b1.current _).modify b1.current _)[i]? = _
    rw [List.getElem?_modify_ne _ _ (by omega), List.getElem?_modify_ne _ _ (by omega),
      h.others i hi (by show i ≠ block; omega)]
    rfl
  · intro plan hs hrole hhome
    obtain ⟨plan1, he, hs1⟩ := h.shape plan hs
    have hassign := shaped_assign (k := b1.current) (v := .use value) hs1
      (show result < b1.locals.length by omega) ((he.home result hresult).trans hhome)
    refine ⟨plan1, he, shaped_terminate hassign (fun s hmem => ?_) (fun _ _ _ _ ht => by cases ht)⟩
    simp only [successors, List.mem_singleton] at hmem
    subst hmem
    have hlen : (b1.assign (.loc result) (.use value)).blocks.length = b1.blocks.length := List.length_modify ..
    exact ⟨by omega, (he.role s hjoin).trans hrole⟩

theorem Fills.trans {result join block m n : Nat} {a b c : FunctionBuilder} (h : Fills result join block m a b)
    (h' : Fills result join (block + m) n b c) (hjoin : join < a.blocks.length) (hresult : result < a.locals.length) :
    Fills result join block (m + n) a c := by
  have hsize := h.size
  have hsize' := h'.size
  have hl := h.locals.length_le
  have hl' := h'.locals.length_le
  refine ⟨by omega, h.locals.trans h'.locals, h.diagnostics.trans h'.diagnostics, ?_, ?_, ?_⟩
  · obtain ⟨new, hnew, hrange⟩ := h.bindings
    obtain ⟨new', hnew', hrange'⟩ := h'.bindings
    refine ⟨new' ++ new, by rw [hnew', hnew, List.append_assoc], fun entry he => ?_⟩
    rcases List.mem_append.1 he with he | he
    · have := hrange' entry he
      omega
    · have := hrange entry he
      omega
  · intro i hi hne
    rw [h'.others i (by omega) (by omega), h.others i hi (by omega)]
  · intro plan hs hrole hhome
    obtain ⟨plan1, he1, hs1⟩ := h.shape plan hs hrole hhome
    obtain ⟨plan2, he2, hs2⟩ := h'.shape plan1 hs1 ((he1.role join hjoin).trans hrole)
      ((he1.home result hresult).trans hhome)
    exact ⟨plan2, he1.trans he2 hl hsize, hs2⟩

/-- A whole match, from the scrutinee's operand to the join. -/
theorem grows_match {b bm ba : FunctionBuilder} {value : Operand} {resultTy : MirType} {targets : List (Nat × Nat)}
    {count : Nat} (h : Open b) (ho : Opened b bm value resultTy targets count)
    (hf : Fills (b.locals.length + 1) b.blocks.length (b.blocks.length + 1) count bm ba) :
    Grows b (ba.enter b.blocks.length) := by
  have hlt : b.current < b.blocks.length := h
  have hsize := ho.size
  have hsize' := hf.size
  have hl : bm.locals.length = b.locals.length + 2 := by rw [ho.locals]; simp
  obtain ⟨block, hb, hb'⟩ := ho.filled
  refine ⟨⟨?_, ?_, ?_, ho.diagnostics.trans hf.diagnostics, ?_, ?_, ?_⟩, ?_⟩
  · show b.blocks.length ≤ ba.blocks.length
    omega
  · show b.blocks.length < ba.blocks.length
    omega
  · have hpre : b.locals <+: bm.locals := by rw [ho.locals]; exact List.prefix_append _ _
    exact hpre.trans hf.locals
  · obtain ⟨new, hnew, hrange⟩ := hf.bindings
    refine ⟨new, by rw [← ho.bindings]; exact hnew, fun entry he => ?_⟩
    have := hrange entry he
    exact ⟨by omega, this.2⟩
  · intro i hi hne
    show ba.blocks[i]? = _
    rw [hf.others i (by omega) (by omega), ho.others i hi hne]
  · refine ⟨block, _, hb, (hf.others b.current (by omega) (by omega)).trans hb', List.prefix_append _ _,
      .inr ⟨Nat.le_refl _, rfl⟩⟩
  · intro plan hs
    obtain ⟨plan1, he1, hjoin, hhome, hs1⟩ := ho.shape plan hs
    obtain ⟨plan2, he2, hs2⟩ := hf.shape plan1 hs1 hjoin hhome
    exact ⟨plan2, he1.trans he2 (by omega) (by omega), hs2⟩

mutual
/-- **Lowering an expression only adds to the builder.** -/
theorem lowerExpression_grows (ix : ProgramIndex) : ∀ (e : TypedExpr) (expected : Option MirType) (b : FunctionBuilder),
    Open b → Grows b (lowerExpression ix e expected b).2
  | .mk (.borrow mutable operand) ty span, expected, b, h => by
    rw [lowerExpression]
    exact grows_lowerBorrow h ix mutable operand ty span
  | .mk (.await operand) _ _, expected, b, h => by
    rw [lowerExpression]
    exact lowerExpression_grows ix operand expected b h
  | .mk (.literal literal) _ span, expected, b, h => by
    rw [lowerExpression]
    exact grows_lowerLiteral h literal span expected
  | .mk (.reference definition) _ span, expected, b, h => by
    rw [lowerExpression]
    exact grows_lowerReference h ix definition span
  | .mk (.binary operator left right) _ span, expected, b, h => by
    rw [lowerExpression]
    have hl := lowerExpression_grows ix left expected b h
    have hr := lowerExpression_grows ix right
      (((lowerExpression ix left expected b).2.operandType (lowerExpression ix left expected b).1).or expected) _ hl.live
    exact (hl.trans hr).trans (grows_finishBinary hr.live _ _ _ _ _)
  | .mk (.call callee arguments) ty span, expected, b, h => by
    rw [lowerExpression]
    split
    · have ha := lowerArguments_grows ix arguments b h
      exact ha.trans (grows_finishCall ha.live _ _ _)
    · exact grows_error h _ _
  | .mk (.match_ value []) ty span, expected, b, h => by
    rw [lowerExpression]
    exact grows_error h _ _
  | .mk (.match_ value (arm :: rest)) ty span, expected, b, h => by
    rw [lowerExpression]
    have hv := lowerExpression_grows ix value none b h
    obtain ⟨bm, heq, ho⟩ := openMatch_eq hv.live ix (lowerExpression ix value none b).1 (storedType ix ty expected)
      (List.cons_ne_nil arm rest)
    simp only [heq]
    have hsize := ho.size
    have hl : bm.locals.length = (lowerExpression ix value none b).2.locals.length + 2 := by rw [ho.locals]; simp
    exact hv.trans (grows_match hv.live ho
      (lowerArms_fills ix _ _ _ (arm :: rest) _ bm (by omega) (by omega) (by omega)))
  | .mk (.block statements) _ _, expected, b, h => by
    rw [lowerExpression]
    exact lowerBlock_grows ix statements _ b h
  | .mk (.array _) _ span, _, b, h => by
    rw [lowerExpression]
    exact grows_error h _ _
  | .mk (.field _ _) _ span, _, b, h => by
    rw [lowerExpression]
    exact grows_error h _ _
  | .mk (.unary _ _) _ span, _, b, h => by
    rw [lowerExpression]
    exact grows_error h _ _
theorem lowerArguments_grows (ix : ProgramIndex) : ∀ (es : List TypedExpr) (b : FunctionBuilder), Open b →
    Grows b (lowerArguments ix es b).2
  | [], b, h => by
    rw [lowerArguments]
    exact .refl h
  | e :: es, b, h => by
    rw [lowerArguments]
    have he := lowerExpression_grows ix e none b h
    exact he.trans (lowerArguments_grows ix es _ he.live)
theorem lowerArms_fills (ix : ProgramIndex) (resultTy : MirType) (result join : Nat) : ∀ (arms : List HirMatchArm)
    (block : Nat) (b : FunctionBuilder), join < b.blocks.length → result < b.locals.length →
    block + arms.length ≤ b.blocks.length →
    Fills result join block arms.length b (lowerArms ix resultTy result join block arms b)
  | [], block, b, hjoin, hresult, hblock => by
    rw [lowerArms]
    exact ⟨Nat.le_refl _, List.prefix_rfl, List.prefix_rfl, ⟨[], rfl, by simp⟩, fun _ _ _ => rfl,
      fun plan hs _ _ => ⟨plan, .refl _ _ _, hs⟩⟩
  | .mk pattern guard body span :: arms, block, b, hjoin, hresult, hblock => by
    rw [lowerArms]
    simp only [List.length_cons] at hblock
    have hopen := grows_openArm (show block < b.blocks.length by omega) guard span
    have hbody := lowerExpression_grows ix body (some resultTy) _ hopen.live
    have harm := fills_arm hjoin hresult
      (lowerExpression ix body (some resultTy) (openArm block guard span b)).1 (hopen.trans hbody)
    have hsize := harm.size
    have hlocals := harm.locals.length_le
    have hrest := lowerArms_fills ix resultTy result join arms (block + 1)
      (closeArm result join (lowerExpression ix body (some resultTy) (openArm block guard span b)).1
        (lowerExpression ix body (some resultTy) (openArm block guard span b)).2) (by omega) (by omega) (by omega)
    rw [List.length_cons, Nat.add_comm]
    exact harm.trans hrest hjoin hresult
theorem lowerBlock_grows (ix : ProgramIndex) : ∀ (statements : List HirStatement) (result : MirType)
    (b : FunctionBuilder), Open b → Grows b (lowerBlock ix statements result b)
  | [], result, b, h => by
    rw [lowerBlock]
    exact .refl h
  | .let_ definition ty value :: rest, result, b, h => by
    rw [lowerBlock]
    split
    · exact .refl h
    · have hty := grows_requiredType h ix ty value.span
      have hv := hty.trans (lowerExpression_grows ix value (some (b.requiredType ix ty value.span).1) _ hty.live)
      exact hv.trans ((grows_bindLocal hv.live definition _ _).trans
        (lowerBlock_grows ix rest result _ (grows_bindLocal hv.live _ _ _).live))
  | .return_ (some value) :: rest, result, b, h => by
    rw [lowerBlock]
    split
    · exact .refl h
    · have hv := lowerExpression_grows ix value (some result) b h
      exact hv.trans ((grows_setResult hv.live _).trans
        (lowerBlock_grows ix rest result _ (grows_setResult hv.live _).live))
  | .return_ none :: rest, result, b, h => by
    rw [lowerBlock]
    split
    · exact .refl h
    · have hret := grows_returnUnit h result
      exact hret.trans (lowerBlock_grows ix rest result _ hret.live)
  | [.expression e], result, b, h => by
    rw [lowerBlock]
    split
    · exact .refl h
    · have hv := lowerExpression_grows ix e (some result) b h
      exact hv.trans (grows_setResult hv.live _)
  | .expression e :: next :: rest, result, b, h => by
    rw [lowerBlock]
    split
    · exact .refl h
    · have hv := lowerExpression_grows ix e none b h
      exact hv.trans (lowerBlock_grows ix (next :: rest) result _ hv.live)
end

/-! ## Functions -/

theorem requiredType_eq (b : FunctionBuilder) (ix : ProgramIndex) (ty : ResolvedType) (span : Span) :
    ∃ ds, (b.requiredType ix ty span).2 = { b with diagnostics := b.diagnostics ++ ds } := by
  unfold FunctionBuilder.requiredType
  split
  · exact ⟨[], by simp⟩
  · exact ⟨_, rfl⟩

theorem lowerParameters_blocks (ix : ProgramIndex) : ∀ (ps : List HirParameter) (b : FunctionBuilder),
    (lowerParameters ix ps b).blocks = b.blocks ∧ (lowerParameters ix ps b).current = b.current ∧
    (lowerParameters ix ps b).locals.length = b.locals.length + ps.length
  | [], b => ⟨rfl, rfl, rfl⟩
  | parameter :: ps, b => by
    obtain ⟨ds, hds⟩ := requiredType_eq b ix parameter.ty parameter.span
    obtain ⟨hb, hc, hl⟩ := lowerParameters_blocks ix ps
      (((b.requiredType ix parameter.ty parameter.span).2.newLocal (b.requiredType ix parameter.ty parameter.span).1).2.bind
        parameter.id (b.requiredType ix parameter.ty parameter.span).2.locals.length)
    rw [lowerParameters]
    refine ⟨hb.trans ?_, hc.trans ?_, hl.trans ?_⟩
    · rw [hds]
      rfl
    · rw [hds]
      rfl
    · rw [hds]
      simp [FunctionBuilder.newLocal, FunctionBuilder.bind]
      omega

/-- The start of the body: one empty block, the return slot and the parameters. -/
theorem openFunction_blocks (ix : ProgramIndex) (definition : HirDefinition) (function : HirFunction) :
    (openFunction ix definition function).2.blocks = [⟨[], none⟩] ∧
    (openFunction ix definition function).2.current = 0 ∧
    (openFunction ix definition function).2.locals.length = function.parameters.length + 1 := by
  obtain ⟨ds, hds⟩ := requiredType_eq FunctionBuilder.new ix function.result definition.span
  obtain ⟨hb, hc, hl⟩ := lowerParameters_blocks ix function.parameters
    ((FunctionBuilder.new.requiredType ix function.result definition.span).2.newLocal
      (FunctionBuilder.new.requiredType ix function.result definition.span).1).2
  unfold openFunction
  refine ⟨hb.trans ?_, hc.trans ?_, hl.trans ?_⟩
  · rw [hds]
    rfl
  · rw [hds]
    rfl
  · rw [hds]
    simp [FunctionBuilder.newLocal, FunctionBuilder.new]
    omega

theorem openFunction_open (ix : ProgramIndex) (definition : HirDefinition) (function : HirFunction) :
    Open (openFunction ix definition function).2 := by
  obtain ⟨hb, hc, -⟩ := openFunction_blocks ix definition function
  unfold Open
  rw [hb, hc]
  exact Nat.zero_lt_one

theorem grows_closeFunction {b : FunctionBuilder} (h : Open b) (result : MirType) : Grows b (closeFunction result b) := by
  unfold closeFunction
  split
  · exact .refl h
  · exact grows_returnUnit h result

theorem lowerBody_grows (ix : ProgramIndex) (definition : HirDefinition) (function : HirFunction) :
    Grows (openFunction ix definition function).2 (lowerBody ix definition function).2 := by
  have hbody := lowerBlock_grows ix function.body (openFunction ix definition function).1 _
    (openFunction_open ix definition function)
  exact hbody.trans (grows_closeFunction hbody.live _)

/-- **The control flow of a lowered function follows a plan** in which no call writes the return slot or a parameter. -/
theorem lowerFunction_shaped (ix : ProgramIndex) (definition : HirDefinition) (function : HirFunction) :
    ∃ plan, Shaped plan (lowerFunction ix definition function).1.locals.length
        (lowerFunction ix definition function).1.blocks ∧
      ∀ l ≤ (lowerFunction ix definition function).1.parameterCount, plan.home l = none := by
  obtain ⟨hb, -, hl⟩ := openFunction_blocks ix definition function
  have hstart : Shaped ⟨fun _ => .entry, fun _ => none⟩ (openFunction ix definition function).2.locals.length
      (openFunction ix definition function).2.blocks := by
    have hget : ∀ (i : Nat) (block : BasicBlock),
        (openFunction ix definition function).2.blocks[i]? = some block → block = ⟨[], none⟩ := by
      intro i block hi
      rw [hb] at hi
      exact List.mem_singleton.1 (List.mem_of_getElem? hi)
    refine ⟨rfl, ⟨by omega, rfl⟩, ?_, ?_, ?_⟩
    · intro i block t hi ht
      cases hget i block hi
      cases ht
    · intro i block callee args place next hi ht
      cases hget i block hi
      cases ht
    · intro i block hi st hst
      cases hget i block hi
      cases hst
  obtain ⟨plan, he, hs⟩ := (lowerBody_grows ix definition function).shape _ hstart
  refine ⟨plan, hs, fun l hle => he.home l ?_⟩
  rw [hl]
  exact Nat.lt_succ_of_le hle

end Lower
end Syllog
