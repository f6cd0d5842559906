import Syllog.Effects
import Syllog.Interp
import Syllog.InterpLimits
import Syllog.LowerDrops
/-!
# EffectsSound — allocation is declared

A body whose effects the traversal collected lowers to code that names no string and builds no aggregate with fields unless
`alloc` is among them, and that calls only what is among its calls.  Running it, through any calls, then charges no bytes
unless `alloc` was inferred.
-/
namespace Syllog
namespace Effects

open Mir Hir Lower Interp Runs

/-! ## The traversal only adds -/

/-- Every effect and every call of one is in the other. -/
def LocalEffects.Within (a b : LocalEffects) : Prop := a.direct ⊆ b.direct ∧ a.calls ⊆ b.calls

theorem LocalEffects.Within.refl (a : LocalEffects) : a.Within a := ⟨Finset.Subset.refl _, Finset.Subset.refl _⟩

theorem LocalEffects.Within.trans {a b c : LocalEffects} (h : a.Within b) (h' : b.Within c) : a.Within c :=
  ⟨h.1.trans h'.1, h.2.trans h'.2⟩

theorem LocalEffects.within_insert (a : LocalEffects) (effect : Effect) : a.Within (a.insert effect) :=
  ⟨Finset.subset_insert _ _, Finset.Subset.refl _⟩

theorem within_recordCall (callee : TypedExpr) (a : LocalEffects) : a.Within (recordCall callee a) := by
  unfold recordCall
  split
  · exact ⟨Finset.Subset.refl _, Finset.subset_insert _ _⟩
  · exact .refl a

mutual
theorem within_inspectExpr : ∀ (e : TypedExpr) (a : LocalEffects), a.Within (inspectExpr e a)
  | .mk (.await operand) _ _, a => (a.within_insert .async).trans (within_inspectExpr operand _)
  | .mk (.literal (.string _)) _ _, a => a.within_insert .alloc
  | .mk (.literal (.identifier _)) _ _, a => .refl a
  | .mk (.literal (.integer _)) _ _, a => .refl a
  | .mk (.literal (.float _)) _ _, a => .refl a
  | .mk (.literal (.boolean _)) _ _, a => .refl a
  | .mk (.reference _) _ _, a => .refl a
  | .mk (.array items) _ _, a => (a.within_insert .alloc).trans (within_inspectAll items _)
  | .mk (.call callee arguments) _ _, a =>
    (within_recordCall callee a).trans ((within_inspectExpr callee _).trans (within_inspectAll arguments _))
  | .mk (.borrow _ operand) _ _, a => within_inspectExpr operand a
  | .mk (.field base _) _ _, a => within_inspectExpr base a
  | .mk (.unary _ operand) _ _, a => within_inspectExpr operand a
  | .mk (.binary _ left right) _ _, a => (within_inspectExpr left a).trans (within_inspectExpr right _)
  | .mk (.match_ value arms) _ _, a => (within_inspectExpr value a).trans (within_inspectArms arms _)
  | .mk (.block statements) _ _, a => within_inspectBlock statements a
theorem within_inspectAll : ∀ (es : List TypedExpr) (a : LocalEffects), a.Within (inspectAll es a)
  | [], a => .refl a
  | e :: es, a => (within_inspectExpr e a).trans (within_inspectAll es _)
theorem within_inspectArms : ∀ (arms : List HirMatchArm) (a : LocalEffects), a.Within (inspectArms arms a)
  | [], a => .refl a
  | .mk _ (some guard) body _ :: arms, a =>
    (within_inspectExpr guard a).trans ((within_inspectExpr body _).trans (within_inspectArms arms _))
  | .mk _ none body _ :: arms, a => (within_inspectExpr body a).trans (within_inspectArms arms _)
theorem within_inspectBlock : ∀ (statements : List HirStatement) (a : LocalEffects), a.Within (inspectBlock statements a)
  | [], a => .refl a
  | .let_ _ _ value :: rest, a => (within_inspectExpr value a).trans (within_inspectBlock rest _)
  | .expression value :: rest, a => (within_inspectExpr value a).trans (within_inspectBlock rest _)
  | .return_ (some value) :: rest, a => (within_inspectExpr value a).trans (within_inspectBlock rest _)
  | .return_ none :: rest, a => within_inspectBlock rest a
end

/-! ## Code within its effects -/

/-- A string constant is an allocation. -/
def OperandWithin (E : LocalEffects) : Operand → Prop
  | .const (.string _) => .alloc ∈ E.direct
  | _                  => True

/-- So is an aggregate with fields. -/
def RvalueWithin (E : LocalEffects) : Rvalue → Prop
  | .borrow _ _              => True
  | .use o                   => OperandWithin E o
  | .discriminant o          => OperandWithin E o
  | .aggregate _ _ fields    => (fields ≠ [] → .alloc ∈ E.direct) ∧ ∀ o ∈ fields, OperandWithin E o
  | .binary _ left right     => OperandWithin E left ∧ OperandWithin E right

def StatementWithin (E : LocalEffects) : Statement → Prop
  | .assign _ value => RvalueWithin E value
  | .drop _         => True

def TerminatorWithin (E : LocalEffects) : Terminator → Prop
  | .ret                => True
  | .goto _             => True
  | .switchInt value _ _ => OperandWithin E value
  | .call callee args _ _ => callee ∈ E.calls ∧ ∀ o ∈ args, OperandWithin E o

structure BlockWithin (E : LocalEffects) (block : BasicBlock) : Prop where
  statements : ∀ st ∈ block.statements, StatementWithin E st
  terminator : ∀ t, block.terminator = some t → TerminatorWithin E t

/-- **The code built so far stays within the effects.** -/
def CodeWithin (E : LocalEffects) (b : FunctionBuilder) : Prop := ∀ block ∈ b.blocks, BlockWithin E block

section
variable {E : LocalEffects} {b : FunctionBuilder}

theorem blockWithin_empty : BlockWithin E ⟨[], none⟩ := ⟨by simp, by simp⟩

theorem mem_modify {α : Type} {f : α → α} {a : α} : ∀ {xs : List α} {i : Nat}, a ∈ xs.modify i f →
    a ∈ xs ∨ ∃ x ∈ xs, a = f x
  | [], i, h => by cases i <;> simp at h
  | x :: xs, 0, h => by
    rw [List.modify_zero_cons, List.mem_cons] at h
    rcases h with rfl | h
    · exact .inr ⟨x, List.mem_cons_self, rfl⟩
    · exact .inl (List.mem_cons_of_mem _ h)
  | x :: xs, i + 1, h => by
    rw [List.modify_succ_cons, List.mem_cons] at h
    rcases h with rfl | h
    · exact .inl List.mem_cons_self
    · rcases mem_modify h with h | ⟨y, hy, rfl⟩
      · exact .inl (List.mem_cons_of_mem _ h)
      · exact .inr ⟨y, List.mem_cons_of_mem _ hy, rfl⟩

theorem codeWithin_assign (h : CodeWithin E b) (destination : Place) (value : Rvalue) (hv : RvalueWithin E value) :
    CodeWithin E (b.assign destination value) := by
  intro block hblock
  rcases mem_modify hblock with hblock | ⟨old, hold, rfl⟩
  · exact h block hblock
  · refine ⟨fun st hst => ?_, (h old hold).terminator⟩
    rcases List.mem_append.mp hst with hst | hst
    · exact (h old hold).statements st hst
    · cases List.mem_singleton.mp hst
      exact hv

theorem codeWithin_terminate (h : CodeWithin E b) {t : Terminator} (ht : TerminatorWithin E t) :
    CodeWithin E (b.terminate t) := by
  intro block hblock
  rcases mem_modify hblock with hblock | ⟨old, hold, rfl⟩
  · exact h block hblock
  · refine ⟨(h old hold).statements, fun t' ht' => ?_⟩
    cases ht'
    exact ht

theorem codeWithin_newBlocks (h : CodeWithin E b) (count : Nat) : CodeWithin E (b.newBlocks count) := by
  intro block hblock
  rcases List.mem_append.mp hblock with hblock | hblock
  · exact h block hblock
  · rw [List.eq_of_mem_replicate hblock]
    exact blockWithin_empty

theorem codeWithin_newBlock (h : CodeWithin E b) : CodeWithin E b.newBlock.2 := codeWithin_newBlocks h 1

theorem codeWithin_setResult (h : CodeWithin E b) {value : Operand} (hv : OperandWithin E value) :
    CodeWithin E (setResult value b) :=
  codeWithin_terminate (codeWithin_assign h _ (.use value) hv) trivial

theorem codeWithin_returnUnit (h : CodeWithin E b) (result : MirType) : CodeWithin E (returnUnit result b) := by
  unfold returnUnit
  refine codeWithin_terminate ?_ trivial
  split
  · exact codeWithin_assign h _ (.use unitOperand) trivial
  · exact h

theorem codeWithin_requiredType (h : CodeWithin E b) (ix : ProgramIndex) (ty : ResolvedType) (span : Span) :
    CodeWithin E (b.requiredType ix ty span).2 := by
  unfold FunctionBuilder.requiredType
  split
  · exact h
  · exact h

theorem codeWithin_finishBinary (h : CodeWithin E b) (operator : BinaryOperator) {left right : Operand}
    (hl : OperandWithin E left) (hr : OperandWithin E right) (operandTy : Option MirType) (span : Span) :
    OperandWithin E (finishBinary operator left right operandTy span b).1 ∧
      CodeWithin E (finishBinary operator left right operandTy span b).2 := by
  simp only [finishBinary]
  cases lowerBinary operator with
  | none => exact ⟨trivial, h⟩
  | some o => exact ⟨trivial, codeWithin_assign (b := (b.newLocal _).2) h _ (.binary o left right) ⟨hl, hr⟩⟩

theorem codeWithin_openMatch (h : CodeWithin E b) (ix : ProgramIndex) {value : Operand} (hv : OperandWithin E value)
    (resultTy : MirType) (arms : List HirMatchArm) : CodeWithin E (openMatch ix value resultTy arms b).2.2 := by
  simp only [openMatch]
  refine codeWithin_terminate ?_ trivial
  obtain ⟨ds, hds, -⟩ := matchTargets_builder ix arms _ ((((((b.newLocal .u64).2.assign (.loc (b.newLocal .u64).1)
    (.discriminant value)).newLocal resultTy).2.newBlock).2).newBlocks arms.length)
  rw [hds]
  refine codeWithin_newBlocks (codeWithin_newBlock ?_) arms.length
  exact codeWithin_assign (b := (b.newLocal .u64).2) h _ (.discriminant value) hv

end

/-! ## Lowering stays within the effects -/

mutual
theorem lowerExpression_within {E : LocalEffects} (ix : ProgramIndex) : ∀ (e : TypedExpr) (expected : Option MirType)
    (b : FunctionBuilder) (a : LocalEffects), (inspectExpr e a).Within E → CodeWithin E b →
      OperandWithin E (lowerExpression ix e expected b).1 ∧ CodeWithin E (lowerExpression ix e expected b).2
  | .mk (.borrow mutable operand) ty span, expected, b, a, _, hb => by
    simp only [lowerExpression, lowerBorrow]
    split
    · split
      · exact ⟨trivial, codeWithin_assign (b := (b.newLocal _).2) hb _ (.borrow mutable _) trivial⟩
      · exact ⟨trivial, hb⟩
    · exact ⟨trivial, hb⟩
  | .mk (.await operand) _ _, expected, b, a, h, hb => lowerExpression_within ix operand expected b _ h hb
  | .mk (.literal literal) _ span, expected, b, a, h, hb => by
    simp only [lowerExpression, lowerLiteral]
    refine ⟨?_, by split <;> exact hb⟩
    cases literal with
    | string s => exact h.1 (Finset.mem_insert_self _ _)
    | integer v =>
      simp only [literalConstant]
      split_ifs <;> trivial
    | identifier name => trivial
    | float text => trivial
    | boolean v => trivial
  | .mk (.reference definition) _ span, expected, b, a, _, hb => by
    simp only [lowerExpression, lowerReference]
    split
    · split_ifs
      · exact ⟨trivial, hb⟩
      · exact ⟨trivial, hb⟩
    · split
      · exact ⟨trivial, codeWithin_assign (b := (b.newLocal _).2) hb _ (.aggregate _ _ [])
          ⟨fun hne => absurd rfl hne, by simp⟩⟩
      · exact ⟨trivial, hb⟩
  | .mk (.binary operator left right) _ span, expected, b, a, h, hb => by
    simp only [lowerExpression]
    have hleft := lowerExpression_within ix left expected b a ((within_inspectExpr right _).trans h) hb
    have hright := lowerExpression_within ix right
      (((lowerExpression ix left expected b).2.operandType (lowerExpression ix left expected b).1).or expected) _ _ h hleft.2
    exact codeWithin_finishBinary hright.2 operator hleft.1 hright.1 _ span
  | .mk (.call callee arguments) ty span, expected, b, a, h, hb => by
    simp only [lowerExpression]
    have hwithin : (inspectAll arguments (inspectExpr callee (recordCall callee a))).Within E := h
    split
    · rename_i definition hcallee
      have hargs := lowerArguments_within ix arguments b _ hwithin hb
      have hcall : definition ∈ E.calls := by
        have hrecord : definition ∈ (recordCall callee a).calls := by
          simp only [recordCall, hcallee]
          exact Finset.mem_insert_self _ _
        exact (((within_inspectExpr callee _).trans (within_inspectAll arguments _)).trans hwithin).2 hrecord
      unfold finishCall
      exact ⟨trivial, codeWithin_terminate (codeWithin_newBlock (b := (FunctionBuilder.newLocal _ _).2) hargs.2)
        ⟨hcall, hargs.1⟩⟩
    · exact ⟨trivial, hb⟩
  | .mk (.match_ value []) ty span, expected, b, a, h, hb => by
    simp only [lowerExpression]
    exact ⟨trivial, hb⟩
  | .mk (.match_ value (arm :: rest)) ty span, expected, b, a, h, hb => by
    simp only [lowerExpression]
    have hwithin : (inspectArms (arm :: rest) (inspectExpr value a)).Within E := h
    have hvalue := lowerExpression_within ix value none b a ((within_inspectArms (arm :: rest) _).trans hwithin) hb
    have hopen := codeWithin_openMatch hvalue.2 ix hvalue.1 (storedType ix ty expected) (arm :: rest)
    exact ⟨trivial, lowerArms_within ix _ _ _ (arm :: rest) _ _ _ hwithin hopen⟩
  | .mk (.block statements) _ _, expected, b, a, h, hb => by
    simp only [lowerExpression]
    exact ⟨trivial, lowerBlock_within ix statements _ b a h hb⟩
  | .mk (.array _) _ span, _, b, _, _, hb => ⟨trivial, hb⟩
  | .mk (.field _ _) _ span, _, b, _, _, hb => ⟨trivial, hb⟩
  | .mk (.unary _ _) _ span, _, b, _, _, hb => ⟨trivial, hb⟩
theorem lowerArguments_within {E : LocalEffects} (ix : ProgramIndex) : ∀ (es : List TypedExpr) (b : FunctionBuilder)
    (a : LocalEffects), (inspectAll es a).Within E → CodeWithin E b →
      (∀ o ∈ (lowerArguments ix es b).1, OperandWithin E o) ∧ CodeWithin E (lowerArguments ix es b).2
  | [], b, a, _, hb => ⟨by simp [lowerArguments], hb⟩
  | e :: es, b, a, h, hb => by
    simp only [lowerArguments]
    have he := lowerExpression_within ix e none b a ((within_inspectAll es _).trans h) hb
    have hes := lowerArguments_within ix es _ _ h he.2
    refine ⟨fun o ho => ?_, hes.2⟩
    rcases List.mem_cons.mp ho with rfl | ho
    · exact he.1
    · exact hes.1 o ho
theorem lowerArms_within {E : LocalEffects} (ix : ProgramIndex) (resultTy : MirType) (result join : Nat) :
    ∀ (arms : List HirMatchArm) (block : Nat) (b : FunctionBuilder) (a : LocalEffects), (inspectArms arms a).Within E →
      CodeWithin E b → CodeWithin E (lowerArms ix resultTy result join block arms b)
  | [], block, b, a, _, hb => hb
  | .mk pattern (some guard) body span :: arms, block, b, a, h, hb => by
    simp only [lowerArms, openArm]
    have hbody := lowerExpression_within ix body (some resultTy)
      ((b.enter block).error span (.text "guarded matches are not in the executable subset")) _
      ((within_inspectArms arms _).trans h) hb
    exact lowerArms_within ix resultTy result join arms _ _ _ h
      (codeWithin_terminate (codeWithin_assign hbody.2 _ (.use _) hbody.1) trivial)
  | .mk pattern none body span :: arms, block, b, a, h, hb => by
    simp only [lowerArms, openArm]
    have hbody := lowerExpression_within ix body (some resultTy) (b.enter block) _ ((within_inspectArms arms _).trans h) hb
    exact lowerArms_within ix resultTy result join arms _ _ _ h
      (codeWithin_terminate (codeWithin_assign hbody.2 _ (.use _) hbody.1) trivial)
theorem lowerBlock_within {E : LocalEffects} (ix : ProgramIndex) : ∀ (statements : List HirStatement) (result : MirType)
    (b : FunctionBuilder) (a : LocalEffects), (inspectBlock statements a).Within E → CodeWithin E b →
      CodeWithin E (lowerBlock ix statements result b)
  | [], _, b, _, _, hb => hb
  | .let_ definition ty value :: rest, result, b, a, h, hb => by
    simp only [lowerBlock]
    split
    · exact hb
    · have hty := codeWithin_requiredType hb ix ty value.span
      have hvalue := lowerExpression_within ix value (some (b.requiredType ix ty value.span).1) _ a
        ((within_inspectBlock rest _).trans h) hty
      refine lowerBlock_within ix rest result _ _ h ?_
      exact codeWithin_assign (b := (FunctionBuilder.newLocal _ _).2) hvalue.2 _ (.use _) hvalue.1
  | .return_ (some value) :: rest, result, b, a, h, hb => by
    simp only [lowerBlock]
    split
    · exact hb
    · have hvalue := lowerExpression_within ix value (some result) b a ((within_inspectBlock rest _).trans h) hb
      exact lowerBlock_within ix rest result _ _ h (codeWithin_setResult hvalue.2 hvalue.1)
  | .return_ none :: rest, result, b, a, h, hb => by
    simp only [lowerBlock]
    split
    · exact hb
    · exact lowerBlock_within ix rest result _ _ h (codeWithin_returnUnit hb result)
  | [.expression e], result, b, a, h, hb => by
    simp only [lowerBlock]
    split
    · exact hb
    · have he := lowerExpression_within ix e (some result) b a h hb
      exact codeWithin_setResult he.2 he.1
  | .expression e :: next :: rest, result, b, a, h, hb => by
    simp only [lowerBlock]
    split
    · exact hb
    · have he := lowerExpression_within ix e none b a ((within_inspectBlock (next :: rest) _).trans h) hb
      exact lowerBlock_within ix (next :: rest) result _ _ h he.2
end

/-! ## Functions and programs -/

def FunctionWithin (E : LocalEffects) (g : MirFunction) : Prop :=
  ∀ (i : Nat) (block : BasicBlock), g.blocks[i]? = some block → BlockWithin E block

theorem lowerFunction_within (ix : ProgramIndex) (d : HirDefinition) (f : HirFunction) :
    FunctionWithin (functionEffects f) (lowerFunction ix d f).1 := by
  have hopen : CodeWithin (functionEffects f) (openFunction ix d f).2 := by
    intro block hblock
    rw [(openFunction_blocks ix d f).1, List.mem_singleton] at hblock
    rw [hblock]
    exact blockWithin_empty
  have hbody := lowerBlock_within ix f.body (openFunction ix d f).1 _ _ (LocalEffects.Within.refl (functionEffects f)) hopen
  have hclose : CodeWithin (functionEffects f) (lowerBody ix d f).2 := by
    simp only [lowerBody, closeFunction]
    split
    · exact hbody
    · exact codeWithin_returnUnit hbody _
  exact fun i block hi => hclose block (List.mem_of_getElem? hi)

theorem insertFunctionDrops_within {E : LocalEffects} {g : MirFunction} (h : FunctionWithin E g) :
    FunctionWithin E (insertFunctionDrops g) := by
  intro i block hi
  obtain ⟨block₀, hi₀, hterminator, hstatements⟩ := insertFunctionDrops_block hi
  obtain ⟨hs, ht⟩ := h i block₀ hi₀
  refine ⟨fun st hst => ?_, fun t htt => ht t (hterminator ▸ htt)⟩
  rw [hstatements] at hst
  rcases List.mem_append.mp hst with hst | hst
  · exact hs st hst
  · unfold blockDrops at hst
    split at hst
    · obtain ⟨l, -, rfl⟩ := List.mem_map.mp hst
      trivial
    · cases hst

/-- **The code of every function is within the effects of the definition it was lowered from.** -/
theorem lowered_within {hir : HirProgram} {p : MirProgram} (h : lowerToMir hir = .ok p) {g : MirFunction}
    (hg : g ∈ p.functions) :
    ∃ d f, (d, f) ∈ HirProgram.functions hir ∧ d.id = g.id ∧ FunctionWithin (functionEffects f) g := by
  obtain ⟨-, -, rfl⟩ := lowerToMir_ok h
  obtain ⟨df, hdf, rfl⟩ := List.mem_map.mp hg
  have hid : (lowerFunction (ProgramIndex.new hir) df.1 df.2).1.id = df.1.id := rfl
  exact ⟨df.1, df.2, hdf, by rw [insertFunctionDrops_id, hid], insertFunctionDrops_within (lowerFunction_within _ _ _)⟩

/-! ## The inferred effects -/

section
variable {hir : HirProgram} (hids : (hir.definitions.map (·.id)).Nodup)
include hids

theorem functions_nodup : ((HirProgram.functions hir).map (·.1.id)).Nodup := by
  refine OrdMap.nodup_map_filterMap (·.id) ?_ hids
  intro d df hd
  split at hd
  · cases hd
    rfl
  · cases hd

/-- Every function is found under its identity. -/
theorem functions_get {d : HirDefinition} {f : HirFunction} (h : (d, f) ∈ HirProgram.functions hir) :
    (localEffects hir).get? d.id = some (functionEffects f) := by
  refine OrdMap.get?_ofList (OrdMap.nodup_map_filterMap (·.id) ?_ hids) ?_
  · intro d e he
    obtain ⟨effects, -, rfl⟩ := Option.map_eq_some_iff.mp he
    rfl
  · obtain ⟨d', hd', hdf⟩ := List.mem_filterMap.mp h
    split at hdf
    · rename_i f' hkind
      cases hdf
      exact List.mem_filterMap.mpr ⟨d, hd', by simp [definitionEffects, hkind]⟩
    · cases hdf

/-- A function has its own effects, and those of the functions it calls. -/
theorem inferred_closed {d : HirDefinition} {f : HirFunction} (h : (d, f) ∈ HirProgram.functions hir) :
    (functionEffects f).direct ⊆ Saturate.labelOf (inferredEffects hir) d.id ∧
    ∀ callee ∈ (functionEffects f).calls,
      Saturate.labelOf (inferredEffects hir) callee ⊆ Saturate.labelOf (inferredEffects hir) d.id :=
  ⟨Saturate.own_subset_saturate (functions_get hids h), fun _ hc => Saturate.next_subset_saturate (functions_get hids h) hc⟩

end

/-! ## Running without `alloc` charges nothing -/

section
variable {E : LocalEffects} {limits : InterpreterLimits} {n : Nat}

/-- An error that is no refused allocation, unless the account was overdrawn before. -/
def Unrefused (limits : InterpreterLimits) (n : Nat) (e : Fault) : Prop :=
  (∀ limit, e ≠ .error (.allocationLimitExceeded limit)) ∨ limits.maxAllocatedBytes < n

/-- **The account does not grow beyond `n` bytes**, and no allocation is refused. -/
def Frugal {α : Type} (limits : InterpreterLimits) (n : Nat) (machine : α → Machine) (r : Except Fault α) : Prop :=
  Yields r (Unrefused limits n) (fun a => (machine a).allocatedBytes ≤ n)

theorem unrefused_trap (t : Trap) : Unrefused limits n (.error (.trap t)) := .inl (by intro limit h; cases h)

theorem unrefused_panic (message : String) : Unrefused limits n (.panic message) := .inl (by intro limit h; cases h)

theorem tick_frugal {m : Machine} (h : m.allocatedBytes ≤ n) : Frugal limits n id (tick limits m) := by
  unfold Frugal tick
  simp only
  split
  · exact .inl (by intro limit h; cases h)
  · exact h

theorem chargeAllocation_zero {m : Machine} (h : m.allocatedBytes ≤ n) : Frugal limits n id (chargeAllocation limits m 0) := by
  unfold Frugal chargeAllocation Interp.saturatingAdd
  simp only
  split
  · refine .inr ?_
    omega
  · simp only [Yields, id]
    omega

/-! Reads and writes of places charge nothing: they fail by a trap. -/

theorem localSlot_traps (locals : Locals) (l : Nat) : Yields (localSlot locals l) (Unrefused limits n) (fun _ => True) := by
  unfold localSlot
  split
  · trivial
  · exact unrefused_trap _

theorem localValue_traps (locals : Locals) (l : Nat) : Yields (localValue locals l) (Unrefused limits n) (fun _ => True) := by
  unfold localValue
  split
  · trivial
  · exact unrefused_trap _

theorem readPlace_traps (place : Place) (locals : Locals) :
    Yields (readPlace place locals) (Unrefused limits n) (fun _ => True) := by
  cases place with
  | loc l => exact localValue_traps locals l
  | field base k =>
    rw [readPlace]
    refine Yields.bind (localValue_traps locals base) (fun v _ => ?_)
    split
    · split
      · trivial
      · exact unrefused_trap _
    · exact unrefused_trap _

theorem setField_traps (base k : Nat) (value : Value) (locals : Locals) :
    Yields (setField base k value locals) (Unrefused limits n) (fun _ => True) := by
  rw [setField]
  refine Yields.bind (localSlot_traps locals base) (fun slot _ => ?_)
  split
  · exact unrefused_trap _
  · split
    · trivial
    · exact unrefused_trap _
  · exact unrefused_trap _

theorem assign_traps (place : Place) (value : Value) (locals : Locals) :
    Yields (assign place value locals) (Unrefused limits n) (fun _ => True) := by
  cases place with
  | loc l =>
    rw [assign]
    exact Yields.bind (localSlot_traps locals l) (fun _ _ => trivial)
  | field base k => exact setField_traps base k value locals

theorem binary_traps (operator : BinaryOp) (a b : Value) :
    Yields (binary operator a b) (Unrefused limits n) (fun _ => True) := by
  cases h : binary operator a b with
  | ok v => trivial
  | error e =>
    obtain ⟨t, rfl, -⟩ := binary_error h
    exact unrefused_trap t

theorem switchValue_traps (v : Value) : Yields (switchValue v) (Unrefused limits n) (fun _ => True) := by
  unfold switchValue
  split
  · trivial
  · trivial
  · split
    · exact unrefused_trap _
    · trivial
  · exact unrefused_trap _

theorem operand_frugal (hE : .alloc ∉ E.direct) {o : Operand} (ho : OperandWithin E o) {m : Machine}
    (hm : m.allocatedBytes ≤ n) (locals : Locals) : Frugal limits n (fun r => r.2.1) (operand limits o m locals) := by
  cases o with
  | const c =>
    cases c with
    | string s => exact absurd ho hE
    | _ => exact hm
  | copy l =>
    simp only [operand, localValue]
    split
    · exact hm
    · exact unrefused_trap _
  | move l =>
    simp only [operand, localSlot]
    split
    · rename_i slot _
      cases slot with
      | some v => exact hm
      | none => exact unrefused_trap _
    · exact unrefused_trap _

theorem operands_frugal (hE : .alloc ∉ E.direct) : ∀ {os : List Operand}, (∀ o ∈ os, OperandWithin E o) → ∀ {m : Machine},
    m.allocatedBytes ≤ n → ∀ locals : Locals, Frugal limits n (fun r => r.2.1) (operands limits os m locals)
  | [], _, m, hm, locals => hm
  | o :: os, ho, m, hm, locals => by
    rw [operands]
    refine Yields.bind (operand_frugal hE (ho o List.mem_cons_self) hm locals) ?_
    rintro ⟨v, m', locals'⟩ hm'
    refine Yields.bind (operands_frugal hE (fun o ho' => ho o (List.mem_cons_of_mem _ ho')) hm' locals') ?_
    rintro ⟨vs, m'', locals''⟩ hm''
    exact hm''

theorem rvalue_frugal (hE : .alloc ∉ E.direct) {value : Rvalue} (hv : RvalueWithin E value) {m : Machine}
    (hm : m.allocatedBytes ≤ n) (locals : Locals) : Frugal limits n (fun r => r.2.1) (rvalue limits value m locals) := by
  cases value with
  | borrow mutable place =>
    rw [rvalue]
    exact Yields.bind (readPlace_traps place locals) (fun _ _ => hm)
  | use o => exact operand_frugal hE hv hm locals
  | discriminant o =>
    rw [rvalue]
    refine Yields.bind (operand_frugal hE hv hm locals) ?_
    rintro ⟨v, m', locals'⟩ hm'
    cases v with
    | aggregate d fields => exact hm'
    | _ => exact unrefused_trap _
  | aggregate ty d fields =>
    have hnil : fields = [] := by
      by_contra hne
      exact hE (hv.1 hne)
    subst hnil
    rw [rvalue]
    refine Yields.bind (P := fun r => r = ([], m, locals)) rfl ?_
    rintro _ rfl
    simp only [List.length_nil, Nat.zero_mul, Nat.zero_min]
    exact Yields.bind (chargeAllocation_zero hm) (fun _ hm' => hm')
  | binary operator left right =>
    rw [rvalue]
    refine Yields.bind (operand_frugal hE hv.1 hm locals) ?_
    rintro ⟨a, m', locals'⟩ hm'
    refine Yields.bind (operand_frugal hE hv.2 hm' locals') ?_
    rintro ⟨b, m'', locals''⟩ hm''
    exact Yields.bind (binary_traps operator a b) (fun _ _ => hm'')

theorem executeStatement_frugal (hE : .alloc ∉ E.direct) {st : Statement} (hst : StatementWithin E st) {m : Machine}
    (hm : m.allocatedBytes ≤ n) (locals : Locals) : Frugal limits n Prod.fst (executeStatement limits st m locals) := by
  cases st with
  | assign destination value =>
    rw [executeStatement]
    refine Yields.bind (rvalue_frugal hE hst hm locals) ?_
    rintro ⟨v, m', locals'⟩ hm'
    exact Yields.bind (assign_traps destination v locals') (fun _ _ => hm')
  | drop place =>
    cases place with
    | loc l =>
      simp only [executeStatement, dropPlace]
      refine Yields.bind (localSlot_traps locals l) ?_
      intro slot _
      cases slot with
      | some v => exact hm
      | none => exact unrefused_trap _
    | field base k =>
      simp only [executeStatement, dropPlace]
      exact Yields.bind (setField_traps base k .unit locals) (fun _ _ => hm)

theorem enterBlock_traps (fr : Frame) (target : Nat) :
    Yields (enterBlock fr target) (Unrefused limits n) (fun _ => True) := by
  unfold enterBlock
  split
  · trivial
  · exact unrefused_trap _

theorem enterCall_traps (p : MirProgram) (id : DefId) (arguments : List Value) (depth : Nat) :
    Yields (enterCall p limits id arguments depth) (Unrefused limits n) (fun _ => True) := by
  unfold enterCall
  split
  · exact .inl (by intro limit h; cases h)
  · split
    · exact .inl (by intro limit h; cases h)
    · split
      · exact unrefused_trap _
      · split
        · exact unrefused_panic _
        · exact enterBlock_traps _ _

/-- The machine after a step. -/
def after (r : State ⊕ (Value × Machine)) : Machine :=
  match r with
  | .inl s => s.machine
  | .inr v => v.2

theorem stepTerminator_frugal (p : MirProgram) (hE : .alloc ∉ E.direct) {t : Terminator} (ht : TerminatorWithin E t)
    {m : Machine} (hm : m.allocatedBytes ≤ n) (fr : Frame) (callers : List Caller) :
    Frugal limits n after (stepTerminator p limits m fr callers t) := by
  cases t with
  | ret =>
    simp only [stepTerminator]
    split
    · exact unrefused_panic _
    · exact unrefused_trap _
    · split
      · exact hm
      · refine Yields.bind (assign_traps _ _ _) (fun locals _ => ?_)
        exact Yields.bind (enterBlock_traps _ _) (fun _ _ => hm)
  | goto target =>
    rw [stepTerminator]
    exact Yields.bind (enterBlock_traps _ _) (fun _ _ => hm)
  | switchInt value targets otherwise =>
    rw [stepTerminator]
    refine Yields.bind (P := fun r => r.2.1.allocatedBytes ≤ n) ?_ ?_
    · rw [integerOperand]
      refine Yields.bind (operand_frugal hE ht hm _) ?_
      rintro ⟨v, m', locals'⟩ hm'
      exact Yields.bind (switchValue_traps v) (fun _ _ => hm')
    · rintro ⟨k, m', locals'⟩ hm'
      exact Yields.bind (enterBlock_traps _ _) (fun _ _ => hm')
  | call callee args destination next =>
    rw [stepTerminator]
    refine Yields.bind (operands_frugal hE ht.2 hm _) ?_
    rintro ⟨vs, m', locals'⟩ hm'
    exact Yields.bind (enterCall_traps p callee vs _) (fun _ _ => hm')

end

/-! ## Executions -/

/-- A step of a call: the frames that waited when it was entered are still waiting after it. -/
def Inside (p : MirProgram) (limits : InterpreterLimits) (callers : List Caller) (s s' : State) : Prop :=
  step p limits s = .ok (.inl s') ∧ callers <:+ s'.callers

/-- The step charges bytes: on an empty account that may hold none it is refused. -/
def Charges (p : MirProgram) (limits : InterpreterLimits) (s : State) : Prop :=
  step p { limits with maxAllocatedBytes := 0 } { s with machine := { s.machine with allocatedBytes := 0 } } =
    .error (.error (.allocationLimitExceeded 0))

/-- The functions that run satisfy `P`, and the running one executes statements of one of its blocks. -/
structure Running (P : MirFunction → Prop) (callers : List Caller) (s : State) : Prop where
  frame : P s.frame.function
  code : ∃ (i : Nat) (block : BasicBlock), s.frame.function.blocks[i]? = some block ∧
    ∀ st ∈ s.frame.rest, st ∈ block.statements
  waiting : ∃ inner, s.callers = inner ++ callers ∧ ∀ c ∈ inner, P c.frame.function

/-- The calls of a function that satisfies `P` go to functions that do. -/
def ClosedUnderCalls (p : MirProgram) (P : MirFunction → Prop) : Prop :=
  ∀ (g : MirFunction) (i : Nat) (block : BasicBlock) (callee : DefId) (args : List Operand) (destination : Place)
    (next : Nat) (g' : MirFunction), P g → g.blocks[i]? = some block →
      block.terminator = some (.call callee args destination next) → p.lookup callee = some g' → P g'

/-- **What every call keeps, the steps of an execution keep.** -/
theorem running_step {p : MirProgram} {limits : InterpreterLimits} {P : MirFunction → Prop} {callers : List Caller}
    (hcall : ClosedUnderCalls p P) {s s' : State} (hs : Running P callers s) (h : Inside p limits callers s s') :
    Running P callers s' := by
  obtain ⟨hstep, hsuffix⟩ := h
  obtain ⟨hframe, ⟨i, block, hi, hrest⟩, inner, hcallers, hinner⟩ := hs
  cases step_moves hstep with
  | statement hticked hcode hrun =>
    refine ⟨hframe, ⟨i, block, hi, fun st hst => hrest st ?_⟩, inner, hcallers, hinner⟩
    rw [hcode]
    exact List.mem_cons_of_mem _ hst
  | goto hticked hcode hlast hblock => exact ⟨hframe, ⟨_, _, hblock, fun _ hst => hst⟩, inner, hcallers, hinner⟩
  | switchInt hticked hcode hlast hrun hblock => exact ⟨hframe, ⟨_, _, hblock, fun _ hst => hst⟩, inner, hcallers, hinner⟩
  | call hticked hcode hlast hrun hfunction hcount hblock =>
    obtain ⟨last, hi', ht⟩ := Option.bind_eq_some_iff.mp hlast
    refine ⟨hcall _ _ _ _ _ _ _ _ hframe hi' ht hfunction, ⟨0, _, hblock, fun _ hst => hst⟩, _ :: inner,
      by rw [hcallers]; rfl, ?_⟩
    intro c hc
    rcases List.mem_cons.mp hc with rfl | hc
    · exact hframe
    · exact hinner c hc
  | ret hticked hcode hlast hvalue hwaiting hrun hblock =>
    rw [hwaiting] at hcallers
    cases inner with
    | nil =>
      -- The call itself would return: one of the frames that waited for it is gone.
      have hlength : callers.length ≤ _ := hsuffix.length_le
      rw [show callers = _ from hcallers.symm] at hlength
      simp only [List.length_cons] at hlength
      omega
    | cons c inner =>
      obtain ⟨rfl, hrest'⟩ := List.cons.inj hcallers
      exact ⟨hinner _ List.mem_cons_self, ⟨_, _, hblock, fun _ hst => hst⟩, inner, hrest',
        fun c' hc' => hinner c' (List.mem_cons_of_mem _ hc')⟩

/-- A step of a function whose effects omit `alloc` does not spend. -/
theorem step_frugal {p : MirProgram} {limits : InterpreterLimits} {n : Nat} {E : LocalEffects} (hE : .alloc ∉ E.direct)
    {s : State} (hcode : FunctionWithin E s.frame.function)
    (hrest : ∀ st ∈ s.frame.rest, StatementWithin E st) (hm : s.machine.allocatedBytes ≤ n) :
    Frugal limits n after (step p limits s) := by
  rw [step]
  refine Yields.bind (tick_frugal hm) (fun m hm' => ?_)
  cases hr : s.frame.rest with
  | cons st rest =>
    simp only
    refine Yields.bind (executeStatement_frugal hE (hrest st (by simp [hr])) hm' _) ?_
    rintro ⟨m', locals'⟩ hm''
    exact hm''
  | nil =>
    simp only
    cases ht : s.frame.terminator with
    | none => exact unrefused_panic _
    | some t =>
      obtain ⟨block, hi, hterm⟩ := Option.bind_eq_some_iff.mp ht
      exact stepTerminator_frugal p hE ((hcode _ block hi).terminator t hterm) hm' _ _

section
variable {hir : HirProgram} {p : MirProgram} (hids : (hir.definitions.map (·.id)).Nodup) (hp : lowerToMir hir = .ok p)
include hids hp

/-- A function of the program for which no `alloc` was inferred. -/
def Unallocating (hir : HirProgram) (p : MirProgram) (g : MirFunction) : Prop :=
  g ∈ p.functions ∧ .alloc ∉ Saturate.labelOf (inferredEffects hir) g.id

theorem unallocating_calls : ClosedUnderCalls p (Unallocating hir p) := by
  rintro g i block callee args destination next g' ⟨hg, halloc⟩ hi ht hlookup
  obtain ⟨d, f, hdf, hid, hwithin⟩ := lowered_within hp hg
  have hmem := MirProgram.lookup_mem hlookup
  have hcallee : g'.id = callee := by simpa using List.find?_some hlookup
  refine ⟨hmem, fun hin => halloc ?_⟩
  have hcalls : callee ∈ (functionEffects f).calls := ((hwithin i block hi).terminator _ ht).1
  rw [← hid]
  refine (inferred_closed hids hdf).2 callee hcalls ?_
  rw [← hcallee]
  exact hin

/-- Every step of an execution in which no function was inferred to allocate is frugal. -/
theorem running_frugal {callers : List Caller} {s : State} (hs : Running (Unallocating hir p) callers s)
    (limits : InterpreterLimits) {n : Nat} (machine : Machine) (hm : machine.allocatedBytes ≤ n) :
    Frugal limits n after (step p limits { s with machine := machine }) := by
  obtain ⟨⟨hg, halloc⟩, ⟨i, block, hi, hrest⟩, -⟩ := hs
  obtain ⟨d, f, hdf, hid, hwithin⟩ := lowered_within hp hg
  have hE : .alloc ∉ (functionEffects f).direct := by
    intro hin
    rw [← hid] at halloc
    exact halloc ((inferred_closed hids hdf).1 hin)
  exact step_frugal (s := { s with machine := machine }) hE hwithin
    (fun st hst => (hwithin i block hi).statements st (hrest st hst)) hm

/-- **An execution of a function for which no `alloc` was inferred charges no bytes**, up to any state it reaches and in
the step from there. -/
theorem unallocating_execution {limits : InterpreterLimits} {id : DefId} {arguments : List Value} {depth : Nat}
    {frame : Frame} (hf : enterCall p limits id arguments depth = .ok frame)
    (halloc : .alloc ∉ Saturate.labelOf (inferredEffects hir) id) {m : Machine} {callers : List Caller} {s : State}
    (hs : Relation.ReflTransGen (Inside p limits callers) ⟨m, frame, callers⟩ s) :
    s.machine.allocatedBytes ≤ m.allocatedBytes ∧ ¬ Charges p limits s := by
  obtain ⟨g, block, hlookup, -, hblock, rfl⟩ := enterCall_ok hf
  have hid : g.id = id := by simpa using List.find?_some hlookup
  have hclosed := unallocating_calls hids hp
  have hall : Running (Unallocating hir p) callers s ∧ s.machine.allocatedBytes ≤ m.allocatedBytes := by
    induction hs with
    | refl =>
      refine ⟨⟨⟨MirProgram.lookup_mem hlookup, by rw [hid]; exact halloc⟩, ⟨0, block, hblock, fun _ hst => hst⟩, [], rfl, ?_⟩,
        Nat.le_refl _⟩
      intro c hc
      cases hc
    | tail _ hstep ih =>
      refine ⟨running_step hclosed ih.1 hstep, ?_⟩
      have hfrugal := running_frugal hids hp ih.1 limits _ ih.2
      rw [Frugal, hstep.1] at hfrugal
      exact hfrugal
  refine ⟨hall.2, fun hcharges => ?_⟩
  have hfrugal := running_frugal hids hp hall.1 { limits with maxAllocatedBytes := 0 } (n := 0)
    { s.machine with allocatedBytes := 0 } (Nat.le_refl 0)
  rw [Frugal, show step p _ _ = _ from hcharges] at hfrugal
  rcases hfrugal with hnot | hlt
  · exact hnot 0 rfl
  · cases hlt

end

/-! ## The analysis -/

theorem analyzeEffects_ok {hir : HirProgram} {a : EffectAnalysis} (h : analyzeEffects hir = .ok a) :
    effectErrors hir = [] ∧ a.functions = inferredEffects hir ∧
      a.manifest.required = (inferredEffects hir).values.foldr (· ∪ ·) ∅ := by
  unfold analyzeEffects at h
  split_ifs at h with herrors
  cases h
  exact ⟨by simpa using herrors, rfl, rfl⟩

theorem mem_foldr_union_iff {effect : Effect} : ∀ {sets : List (Finset Effect)},
    effect ∈ sets.foldr (· ∪ ·) ∅ ↔ ∃ E ∈ sets, effect ∈ E
  | [] => by simp
  | E :: sets => by simp [List.foldr_cons, Finset.mem_union, mem_foldr_union_iff]

/-- An effect that was inferred is in the result and in the manifest. -/
theorem inferred_required {hir : HirProgram} {a : EffectAnalysis} (h : analyzeEffects hir = .ok a) {id : DefId}
    {effect : Effect} (he : effect ∈ Saturate.labelOf (inferredEffects hir) id) :
    (∃ E, a.functions.get? id = some E ∧ effect ∈ E) ∧ effect ∈ a.manifest.required := by
  obtain ⟨-, hfunctions, hrequired⟩ := analyzeEffects_ok h
  unfold Saturate.labelOf at he
  cases hget : (inferredEffects hir).get? id with
  | none => simp [hget] at he
  | some E =>
    rw [hget, Option.getD_some] at he
    refine ⟨⟨E, by rw [hfunctions, hget], he⟩, ?_⟩
    rw [hrequired]
    exact mem_foldr_union_iff.mpr ⟨E, List.mem_map.mpr ⟨(id, E), OrdMap.get?_eq_some_iff.mp hget, rfl⟩, he⟩

/-! ## Declared bounds -/

theorem fromSource_asStr {name : String} {effect : Effect} (h : Effect.fromSource name = some effect) :
    name = effect.asStr := by
  unfold Effect.fromSource at h
  split_ifs at h <;> cases h <;> assumption

/-- What a declaration allows it names. -/
theorem mem_parseNames {span : Span} {effect : Effect} : ∀ {names seen : List String},
    effect ∈ (parseNames span seen names).1 → effect.asStr ∈ names
  | [], _, h => by simp [parseNames] at h
  | name :: rest, seen, h => by
    have hrest : effect ∈ (parseNames span (name :: seen) rest).1 → effect.asStr ∈ name :: rest :=
      fun h => List.mem_cons_of_mem _ (mem_parseNames h)
    simp only [parseNames] at h
    split at h
    · exact hrest h
    · split at h
      · exact hrest h
      · split at h
        · rename_i parsed hparsed
          rcases Finset.mem_insert.mp h with rfl | h
          · rw [← fromSource_asStr hparsed]
            exact List.mem_cons_self
          · exact hrest h
        · exact hrest h

/-- **A function without a diagnostic has no effect its declaration does not name.** -/
theorem declared_named {hir : HirProgram} (hids : (hir.definitions.map (·.id)).Nodup) (herrors : effectErrors hir = [])
    {d : HirDefinition} {f : HirFunction} (hdf : (d, f) ∈ HirProgram.functions hir) {names : List String}
    (hnames : f.declaredEffects = some names) {effect : Effect}
    (he : effect ∈ Saturate.labelOf (inferredEffects hir) d.id) : effect.asStr ∈ names := by
  have hfunctions := functions_nodup hids
  have hget : (declarations hir).get? d.id = some (some (parseNames d.span [] names).1, d.span) := by
    refine OrdMap.get?_ofList ?_ ?_
    · simpa [Function.comp_def] using hfunctions
    · exact List.mem_map.mpr ⟨(d, f), hdf, by simp [parseDeclaration, hnames]⟩
  have hbound : boundErrors (inferredEffects hir) d.id (some (parseNames d.span [] names).1, d.span) = [] := by
    have hnone := (List.append_eq_nil_iff.mp herrors).2
    rw [List.flatMap_eq_nil_iff] at hnone
    exact hnone _ (OrdMap.get?_eq_some_iff.mp hget)
  simp only [boundErrors] at hbound
  split at hbound
  · rename_i hmissing
    exact mem_parseNames (Finset.sdiff_eq_empty_iff_subset.mp hmissing he)
  · cases hbound

/-- **Allocation is inferred**: an execution of a function that charges bytes, on whatever path and through whatever
calls, has `alloc` among the function's inferred effects and in the manifest; one whose declaration does not name `alloc`
never charges any. -/
theorem allocation_inferred {hir : HirProgram} {a : EffectAnalysis} {p : MirProgram}
    (hids : (hir.definitions.map (·.id)).Nodup) (ha : analyzeEffects hir = .ok a) (hp : lowerToMir hir = .ok p)
    {limits : InterpreterLimits} {id : DefId} {arguments : List Value} {depth : Nat} {frame : Frame}
    (hf : enterCall p limits id arguments depth = .ok frame) {m : Machine} {callers : List Caller} {s : State}
    (hs : Relation.ReflTransGen (Inside p limits callers) ⟨m, frame, callers⟩ s) :
    ((m.allocatedBytes < s.machine.allocatedBytes ∨ Charges p limits s) →
      (∃ E, a.functions.get? id = some E ∧ .alloc ∈ E) ∧ .alloc ∈ a.manifest.required) ∧
    (∀ d f names, (d, f) ∈ HirProgram.functions hir → d.id = id → f.declaredEffects = some names → "alloc" ∉ names →
      ¬ (m.allocatedBytes < s.machine.allocatedBytes ∨ Charges p limits s)) := by
  have hinferred : m.allocatedBytes < s.machine.allocatedBytes ∨ Charges p limits s →
      .alloc ∈ Saturate.labelOf (inferredEffects hir) id := by
    intro hspent
    by_contra halloc
    obtain ⟨hle, hnot⟩ := unallocating_execution hids hp hf halloc hs
    rcases hspent with hlt | hcharges
    · omega
    · exact hnot hcharges
  refine ⟨fun hspent => inferred_required ha (hinferred hspent), ?_⟩
  rintro d f names hdf rfl hnames hnot hspent
  exact hnot (declared_named hids (analyzeEffects_ok ha).1 hdf hnames (hinferred hspent))

/-- `fn main() -> U64 effects [alloc] { let note: String = "n"; 7 }`. -/
def noteProgram : HirProgram where
  modules := [⟨0, [
    ⟨⟨0, 1⟩, "main", .function ⟨[], .primitive (.unsigned "U64"), [
      .let_ ⟨0, 2⟩ (.primitive .string) (.mk (.literal (.string "n")) (.primitive .string) default),
      .expression (.mk (.literal (.integer 7)) .integerLiteral default)], false, some ["alloc"]⟩, default⟩]⟩]
  entry := some ⟨0, 1⟩

theorem noteProgram_allocates : ∃ a p frame s, analyzeEffects noteProgram = .ok a ∧ lowerToMir noteProgram = .ok p ∧
    enterCall p unlimited ⟨0, 1⟩ [] 1 = .ok frame ∧
    Relation.ReflTransGen (Inside p unlimited []) ⟨Machine.start, frame, []⟩ s ∧
    0 < s.machine.allocatedBytes ∧ .alloc ∈ a.manifest.required := by
  obtain ⟨a, ha⟩ : ∃ a, analyzeEffects noteProgram = .ok a := ⟨_, rfl⟩
  obtain ⟨p, hp, frame, hf, s, hs, hspent⟩ : ∃ p, lowerToMir noteProgram = .ok p ∧
      ∃ frame, enterCall p unlimited ⟨0, 1⟩ [] 1 = .ok frame ∧
      ∃ s, Relation.ReflTransGen (Inside p unlimited []) ⟨Machine.start, frame, []⟩ s ∧ 0 < s.machine.allocatedBytes :=
    ⟨_, rfl, _, rfl, _, .single ⟨rfl, List.nil_suffix⟩, by decide⟩
  exact ⟨a, p, frame, s, ha, hp, hf, hs, hspent, ((allocation_inferred (by decide) ha hp hf hs).1 (.inl hspent)).2⟩

end Effects
end Syllog
