import Syllog.VerifyFlow
/-!
# VerifySpec — what an accepted function satisfies

The verifier's checks, read as one judgement over the locals owned at a point: `OperandOk`, `RvalueOk`, `StatementOk`,
`TerminatorOk` and `BlockOk` carry no error lists and no definition sets.  `verify_blockOk` is the only place where the
two analyses and the `everInitialized` filter meet: a read that passes both the definition check and the ownership check
reads an owned local in range.
-/
namespace Syllog
namespace Mir

/-! ## The judgement -/

def OperandOk (f : MirFunction) (owned : Finset Nat) : Operand → Prop
  | .const _ => True
  | .copy l  => l ∈ owned ∧ l < f.locals.length ∧ localIsAffine f l = false
  | .move l  => l ∈ owned ∧ l < f.locals.length

/-- Operands read from left to right, each move giving up its local. -/
def OperandsOk (f : MirFunction) : Finset Nat → List Operand → Prop
  | _, []          => True
  | owned, o :: os => OperandOk f owned o ∧ OperandsOk f (consumeOperand o owned) os

/-- The declared type of an operand. -/
def declaredType (f : MirFunction) : Operand → Option MirType
  | .const c => some c.ty
  | .copy l  => f.locals[l]?
  | .move l  => f.locals[l]?

/-- The type an rvalue is stored at; a borrow of a field has none. -/
def rvalueType (f : MirFunction) : Rvalue → Option MirType
  | .borrow mutable (.loc l)     => f.locals[l]?.map (MirType.reference mutable)
  | .borrow _ (.field _ _)       => none
  | .use o                       => declaredType f o
  | .discriminant _              => some .u64
  | .aggregate ty _ _            => some (.aggregate ty)
  | .binary .equal _ _           => some .bool
  | .binary .less _ _            => some .bool
  | .binary .and _ _             => some .bool
  | .binary .or _ _              => some .bool
  | .binary _ left _             => declaredType f left

def RvalueOk (f : MirFunction) (owned : Finset Nat) : Rvalue → Prop
  | .borrow _ place              => placeLocal place ∈ owned ∧ placeLocal place < f.locals.length
  | .use o                       => OperandOk f owned o
  | .discriminant o              => OperandOk f owned o
  | .aggregate _ _ fields        => OperandsOk f owned fields
  | .binary operator left right  => OperandsOk f owned [left, right] ∧ ∃ ty, declaredType f left = some ty ∧
    declaredType f right = some ty ∧ (operator = .and ∨ operator = .or → ty = .bool)

def StatementOk (f : MirFunction) (owned : Finset Nat) : Statement → Prop
  | .assign destination value => RvalueOk f owned value ∧ placeLocal destination < f.locals.length ∧
    ∀ l, destination = .loc l → (∀ ty, rvalueType f value = some ty → f.locals[l]? = some ty) ∧
      (l ∈ consumeRvalue value owned → localIsAffine f l = false)
  | .drop place               => placeLocal place ∈ owned ∧ placeLocal place < f.locals.length

def StatementsOk (f : MirFunction) : Finset Nat → List Statement → Prop
  | _, []          => True
  | owned, s :: ss => StatementOk f owned s ∧ StatementsOk f (transferStatement owned s) ss

/-- Arguments have the types of the callee's locals from index `k + 1` on. -/
def ArgumentsTyped (f signature : MirFunction) : Nat → List Operand → Prop
  | _, []      => True
  | k, o :: os => (∀ actual expected, declaredType f o = some actual → signature.locals[k + 1]? = some expected →
    actual = expected) ∧ ArgumentsTyped f signature (k + 1) os

def IntegerLike (ty : MirType) : Prop := ty = .bool ∨ ty = .i64 ∨ ty = .u64

def TerminatorOk (p : MirProgram) (f : MirFunction) (owned : Finset Nat) : Terminator → Prop
  | .ret                            => 0 ∈ owned ∧ 0 < f.locals.length
  | .goto _                         => True
  | .switchInt value _ _            => OperandOk f owned value ∧ ∃ ty, declaredType f value = some ty ∧ IntegerLike ty
  | .call callee args destination _ => OperandsOk f owned args ∧ placeLocal destination < f.locals.length ∧
    ∃ signature, p.lookup callee = some signature ∧ args.length = signature.parameterCount ∧
      ArgumentsTyped f signature 0 args ∧ ∀ l, destination = .loc l → f.locals[l]? = some signature.returnType

/-- Every edge of the terminator leads to a block that owns no more than the terminator leaves. -/
def FlowsTo (f : MirFunction) (terminator : Terminator) (owned : Finset Nat) : Prop :=
  ∀ s ∈ successors terminator, s < f.blocks.length ∧
    ∃ entry, (ownedOnEntry f)[s]? = some (some entry) ∧ entry ⊆ consumeTerminator terminator owned

/-- What is left of a block is safe to execute from the given owned locals. -/
structure CodeOk (p : MirProgram) (f : MirFunction) (owned : Finset Nat) (rest : List Statement)
    (terminator : Terminator) : Prop where
  statements : StatementsOk f owned rest
  final : TerminatorOk p f (rest.foldl transferStatement owned) terminator
  flows : FlowsTo f terminator (rest.foldl transferStatement owned)

structure FunctionOk (p : MirProgram) (f : MirFunction) : Prop where
  blocks : 0 < f.blocks.length
  result : f.locals[0]? = some f.returnType
  params : f.parameterCount < f.locals.length
  block : ∀ (i : Nat) (b : BasicBlock) (owned : Finset Nat), f.blocks[i]? = some b →
    (ownedOnEntry f)[i]? = some (some owned) → ∃ t, b.terminator = some t ∧ CodeOk p f owned b.statements t
  callees : ∀ b ∈ f.blocks, ∃ t, b.terminator = some t ∧ (∀ s ∈ successors t, s < f.blocks.length) ∧
    ∀ callee args destination next, t = .call callee args destination next → ∃ g, p.lookup callee = some g

/-! ## From the checks to the judgement -/

section
variable {f : MirFunction} {block : Nat} {initialized : Finset Nat}

theorem checkRead_fst {l : Nat} {consume : Bool} {state : Finset Nat}
    (h : (checkRead f block initialized l consume state).1 = []) :
    (l ∈ state ∨ l ∉ initialized) ∧
    (checkRead f block initialized l consume state).2 = if consume then state.erase l else state := by
  unfold checkRead at h ⊢
  by_cases hc : l ∉ state ∧ l ∈ initialized
  · rw [if_pos hc] at h; cases h
  · rw [if_neg hc]
    refine ⟨?_, rfl⟩
    by_cases hl : l ∈ state
    · exact .inl hl
    · exact .inr (fun hi => hc ⟨hl, hi⟩)

theorem verifyLocalUse_nil {l : Nat} {defined : Finset Nat} (h : verifyLocalUse f block l defined = []) :
    l < f.locals.length ∧ l ∈ defined := by
  unfold verifyLocalUse at h
  split at h
  · cases h
  · rename_i hlt
    split at h
    · cases h
    · rename_i hd
      exact ⟨by omega, by simpa using hd⟩

/-- **A read both checks let through is of an owned local in range.** -/
theorem read_owned {l : Nat} {consume : Bool} {state defined : Finset Nat} (hd : defined ⊆ initialized)
    (h : (checkRead f block initialized l consume state).1 = []) (h' : verifyLocalUse f block l defined = []) :
    l ∈ state ∧ l < f.locals.length := by
  obtain ⟨hlt, hmem⟩ := verifyLocalUse_nil h'
  exact ⟨(checkRead_fst h).1.resolve_right (fun hn => hn (hd hmem)), hlt⟩

theorem checkOperandOwnership_snd {o : Operand} {state : Finset Nat}
    (h : (checkOperandOwnership f block initialized o state).1 = []) :
    (checkOperandOwnership f block initialized o state).2 = consumeOperand o state := by
  cases o with
  | const c => rfl
  | copy l =>
    simp only [checkOperandOwnership, List.append_eq_nil_iff] at h ⊢
    exact (checkRead_fst h.1).2
  | move l =>
    simp only [checkOperandOwnership] at h ⊢
    exact (checkRead_fst h).2

theorem operandOk_of_checks {o : Operand} {state defined : Finset Nat} (hd : defined ⊆ initialized)
    (h : (checkOperandOwnership f block initialized o state).1 = []) (h' : (operandType f block o defined).1 = []) :
    OperandOk f state o := by
  cases o with
  | const c => trivial
  | copy l =>
    simp only [checkOperandOwnership, List.append_eq_nil_iff] at h
    obtain ⟨hm, hlt⟩ := read_owned hd h.1 h'
    refine ⟨hm, hlt, ?_⟩
    cases ha : localIsAffine f l with
    | false => rfl
    | true => rw [ha] at h; simp at h
  | move l =>
    exact read_owned hd h h'

theorem checkOperandsOwnership_snd : ∀ {os : List Operand} {state : Finset Nat},
    (checkOperandsOwnership f block initialized os state).1 = [] →
    (checkOperandsOwnership f block initialized os state).2 = consumeOperands os state
  | [], _, _ => rfl
  | o :: os, state, h => by
    simp only [checkOperandsOwnership, List.append_eq_nil_iff] at h ⊢
    have ho := checkOperandOwnership_snd h.1
    rw [ho] at h ⊢
    rw [checkOperandsOwnership_snd h.2]
    rfl

theorem operandsOk_of_checks : ∀ {os : List Operand} {state defined : Finset Nat}, defined ⊆ initialized →
    (checkOperandsOwnership f block initialized os state).1 = [] →
    (∀ o ∈ os, (operandType f block o defined).1 = []) → OperandsOk f state os
  | [], _, _, _, _, _ => trivial
  | o :: os, state, defined, hd, h, h' => by
    simp only [checkOperandsOwnership, List.append_eq_nil_iff] at h
    have ho := checkOperandOwnership_snd h.1
    rw [ho] at h
    exact ⟨operandOk_of_checks hd h.1 (h' o List.mem_cons_self),
      operandsOk_of_checks hd h.2 (fun o' ho' => h' o' (List.mem_cons_of_mem _ ho'))⟩

theorem operandType_snd (o : Operand) (defined : Finset Nat) :
    (operandType f block o defined).2 = declaredType f o := by
  cases o <;> rfl

theorem checkRvalueOwnership_snd {value : Rvalue} {state : Finset Nat}
    (h : (checkRvalueOwnership f block initialized value state).1 = []) :
    (checkRvalueOwnership f block initialized value state).2 = consumeRvalue value state := by
  cases value with
  | borrow mutable place => exact (checkRead_fst h).2
  | use o => exact checkOperandOwnership_snd h
  | discriminant o => exact checkOperandOwnership_snd h
  | aggregate ty d fields => exact checkOperandsOwnership_snd h
  | binary operator left right => exact checkOperandsOwnership_snd h

theorem declaredType_isSome {o : Operand} {defined : Finset Nat} (h : (operandType f block o defined).1 = []) :
    ∃ ty, declaredType f o = some ty := by
  cases o with
  | const c => exact ⟨_, rfl⟩
  | copy l => exact ⟨_, List.getElem?_eq_getElem (verifyLocalUse_nil h).1⟩
  | move l => exact ⟨_, List.getElem?_eq_getElem (verifyLocalUse_nil h).1⟩

/-- The operands of an accepted binary rvalue have one type, and its own type is read off its operator. -/
theorem verifyRvalue_binary {operator : BinaryOp} {left right : Operand} {defined : Finset Nat}
    (h : (verifyRvalue f block (.binary operator left right) defined).1 = []) :
    (operandType f block left defined).1 = [] ∧ (operandType f block right defined).1 = [] ∧
    (∃ ty, declaredType f left = some ty ∧ declaredType f right = some ty ∧
      (operator = .and ∨ operator = .or → ty = .bool)) ∧
    (verifyRvalue f block (.binary operator left right) defined).2 = rvalueType f (.binary operator left right) := by
  have hl : (operandType f block left defined).1 = [] := by
    simp only [verifyRvalue] at h
    split at h
    · exact h
    · split at h
      · exact (List.append_eq_nil_iff.1 h).1
      · simp only [List.append_eq_nil_iff] at h
        exact h.1.1.1
  obtain ⟨lt, hlt⟩ := declaredType_isSome hl
  have hr : (operandType f block right defined).1 = [] := by
    simp only [verifyRvalue, operandType_snd, hlt] at h
    split at h
    · exact (List.append_eq_nil_iff.1 h).2
    · simp only [List.append_eq_nil_iff] at h
      exact h.1.1.2
  obtain ⟨rt, hrt⟩ := declaredType_isSome hr
  simp only [verifyRvalue, operandType_snd, hlt, hrt, List.append_eq_nil_iff] at h ⊢
  obtain ⟨⟨-, h3⟩, h4⟩ := h
  have heq : lt = rt := by
    by_contra hne
    rw [if_pos hne] at h3
    cases h3
  subst heq
  refine ⟨hl, hr, ⟨lt, rfl, rfl, ?_⟩, ?_⟩
  · intro hop
    by_contra hne
    rcases hop with rfl | rfl <;> simp [binaryType, hne] at h4
  · cases operator <;> simp only [binaryType, rvalueType, hlt]
    · split <;> rfl
    · split <;> rfl

theorem placeType_nil {place : Place} (h : (placeType f block place).1 = []) :
    placeLocal place < f.locals.length ∧
    (placeType f block place).2 = match place with | .loc l => f.locals[l]? | .field _ _ => none := by
  cases hty : f.locals[placeLocal place]? with
  | none => simp [placeType, hty] at h
  | some ty =>
    refine ⟨(List.getElem?_eq_some_iff.1 hty).1, ?_⟩
    cases place with
    | loc l =>
      simp only [placeLocal] at hty
      simp [placeType, placeLocal, hty]
    | field b k => simp [placeType, hty]

theorem rvalueOk_of_checks {value : Rvalue} {state defined : Finset Nat} (hd : defined ⊆ initialized)
    (h : (checkRvalueOwnership f block initialized value state).1 = [])
    (h' : (verifyRvalue f block value defined).1 = []) :
    RvalueOk f state value ∧ (verifyRvalue f block value defined).2 = rvalueType f value := by
  cases value with
  | borrow mutable place =>
    simp only [verifyRvalue, List.append_eq_nil_iff] at h'
    refine ⟨read_owned hd h h'.1, ?_⟩
    simp only [verifyRvalue, (placeType_nil h'.2).2]
    cases place <;> rfl
  | use o => exact ⟨operandOk_of_checks hd h h', operandType_snd o defined⟩
  | discriminant o => exact ⟨operandOk_of_checks hd h h', rfl⟩
  | aggregate ty d fields =>
    simp only [verifyRvalue, List.flatMap_eq_nil_iff] at h'
    exact ⟨operandsOk_of_checks hd h h', rfl⟩
  | binary operator left right =>
    obtain ⟨hl, hr, hty, hsnd⟩ := verifyRvalue_binary h'
    refine ⟨⟨operandsOk_of_checks hd h ?_, hty⟩, hsnd⟩
    intro o ho
    simp only [List.mem_cons, List.not_mem_nil, or_false] at ho
    rcases ho with rfl | rfl
    · exact hl
    · exact hr

theorem statementOk_of_checks {s : Statement} {state defined : Finset Nat} (hd : defined ⊆ initialized)
    (h : (checkStatementOwnership f block initialized s state).1 = []) (h' : (verifyStatement f block s defined).1 = []) :
    StatementOk f state s ∧ (checkStatementOwnership f block initialized s state).2 = transferStatement state s ∧
    (verifyStatement f block s defined).2 = defineStatement defined s := by
  cases s with
  | assign destination value =>
    have hv : (checkRvalueOwnership f block initialized value state).1 = [] := by
      cases destination with
      | loc l => exact (List.append_eq_nil_iff.1 h).1
      | field b k => exact h
    have hr := checkRvalueOwnership_snd hv
    have hv' : (verifyRvalue f block value defined).1 = [] ∧ (placeType f block destination).1 = [] := by
      simp only [verifyStatement] at h'
      split at h'
      · exact List.append_eq_nil_iff.1 h'
      · simp only [List.append_eq_nil_iff] at h'
        exact h'.1
    obtain ⟨hlt, hpt⟩ := placeType_nil hv'.2
    obtain ⟨hok, hty⟩ := rvalueOk_of_checks hd hv hv'.1
    cases destination with
    | field b k =>
      refine ⟨⟨hok, hlt, fun l hl => by cases hl⟩, hr, ?_⟩
      simp only [verifyStatement, hpt]
      rfl
    | loc l =>
      simp only [placeLocal] at hlt
      have hdt : f.locals[l]? = some f.locals[l] := List.getElem?_eq_getElem hlt
      simp only [hdt] at hpt
      simp only [verifyStatement, hpt, hty, List.append_eq_nil_iff] at h'
      simp only [checkStatementOwnership, hr, List.append_eq_nil_iff] at h
      refine ⟨⟨hok, hlt, ?_⟩, ?_, ?_⟩
      · rintro l' ⟨⟩
        refine ⟨fun ty hty' => ?_, fun hmem => ?_⟩
        · rw [hty'] at h'
          by_contra hne
          have hne' : f.locals[l] ≠ ty := fun e => hne (by rw [hdt, e])
          simp [hne'] at h'
        · cases ha : localIsAffine f l with
          | false => rfl
          | true => simp [hmem, ha] at h
      · simp only [checkStatementOwnership, hr]
        rfl
      · simp only [verifyStatement, hpt]
        rfl
  | drop place =>
    obtain ⟨hlt, hmem⟩ := verifyLocalUse_nil h'
    refine ⟨⟨?_, hlt⟩, rfl, rfl⟩
    by_contra hn
    simp [checkStatementOwnership, hn, hd hmem] at h

theorem statementsOk_of_checks : ∀ {ss : List Statement} {state defined : Finset Nat},
    ss.foldl defineStatement defined ⊆ initialized →
    (checkStatementsOwnership f block initialized ss state).1 = [] → (verifyStatements f block ss defined).1 = [] →
    StatementsOk f state ss ∧
    (checkStatementsOwnership f block initialized ss state).2 = ss.foldl transferStatement state ∧
    (verifyStatements f block ss defined).2 = ss.foldl defineStatement defined
  | [], _, _, _, _, _ => ⟨trivial, rfl, rfl⟩
  | s :: ss, state, defined, hd, h, h' => by
    simp only [checkStatementsOwnership, List.append_eq_nil_iff] at h
    simp only [verifyStatements, List.append_eq_nil_iff] at h'
    have hd0 : defined ⊆ initialized := (subset_foldl_defineStatement (s :: ss) defined).trans hd
    obtain ⟨hok, hs, hv⟩ := statementOk_of_checks hd0 h.1 h'.1
    rw [hs] at h
    rw [hv] at h'
    rw [List.foldl_cons] at hd
    obtain ⟨hoks, hss, hvs⟩ := statementsOk_of_checks hd h.2 h'.2
    refine ⟨⟨hok, hoks⟩, ?_, ?_⟩
    · simp only [checkStatementsOwnership, hs, hss, List.foldl_cons]
    · simp only [verifyStatements, hv, hvs, List.foldl_cons]

theorem argumentsTyped_of_checks {signature : MirFunction} : ∀ {args : List Operand} {k : Nat} {defined : Finset Nat},
    verifyArguments f block signature k args defined = [] →
    ArgumentsTyped f signature k args ∧ ∀ o ∈ args, (operandType f block o defined).1 = []
  | [], _, _, _ => ⟨trivial, fun _ h => by cases h⟩
  | o :: os, k, defined, h => by
    simp only [verifyArguments, operandType_snd, List.append_eq_nil_iff] at h
    obtain ⟨ht, ho⟩ := argumentsTyped_of_checks h.2
    refine ⟨⟨fun actual expected ha he => ?_, ht⟩, fun o' ho' => ?_⟩
    · by_contra hne
      have := h.1.2
      rw [ha, he] at this
      simp [hne] at this
    · rcases List.mem_cons.1 ho' with rfl | ho'
      · exact h.1.1
      · exact ho o' ho'

theorem terminatorOk_of_checks {p : MirProgram} {t : Terminator} {state defined : Finset Nat} (hd : defined ⊆ initialized)
    (hcallee : ∀ callee args destination next, t = .call callee args destination next → ∃ g, p.lookup callee = some g)
    (h : (checkTerminatorOwnership f block initialized t state).1 = [])
    (h' : verifyTerminator f block p t defined = []) : TerminatorOk p f state t := by
  cases t with
  | ret => exact read_owned hd h h'
  | goto target => trivial
  | switchInt value targets otherwise =>
    simp only [verifyTerminator, operandType_snd, List.append_eq_nil_iff] at h'
    refine ⟨operandOk_of_checks hd h h'.1, ?_⟩
    obtain ⟨ty, hty⟩ := declaredType_isSome h'.1
    refine ⟨ty, hty, ?_⟩
    have h2 := h'.2
    rw [hty] at h2
    cases ty <;> simp [IntegerLike] at h2 ⊢
  | call callee args destination next =>
    obtain ⟨g, hg⟩ := hcallee callee args destination next rfl
    simp only [verifyTerminator, hg, List.append_eq_nil_iff] at h'
    obtain ⟨⟨hcount, hargs⟩, hdest, hret⟩ := h'
    obtain ⟨htyped, hops⟩ := argumentsTyped_of_checks hargs
    obtain ⟨hlt, hpt⟩ := placeType_nil hdest
    refine ⟨operandsOk_of_checks hd h hops, hlt, g, hg, ?_, htyped, ?_⟩
    · by_contra hne
      simp [hne] at hcount
    · rintro l rfl
      simp only [placeLocal] at hlt
      have hdt : f.locals[l]? = some f.locals[l] := List.getElem?_eq_getElem hlt
      simp only [hdt] at hpt
      simp only [hpt] at hret
      by_contra hne
      have hne' : f.locals[l] ≠ g.returnType := fun e => hne (by rw [hdt, e])
      simp [hne'] at hret

end

/-! ## Accepted functions -/

theorem verify_ok {p : MirProgram} (h : verify p = .ok ()) :
    ∀ f ∈ p.functions, verifyFunction p f = [] ∧ verifyAffineOwnership f = [] := by
  unfold verify at h
  simp only at h
  split at h
  · rename_i he
    rw [List.isEmpty_iff, List.flatMap_eq_nil_iff] at he
    intro f hf
    exact List.append_eq_nil_iff.1 (he f hf)
  · cases h

/-- The checks of a zipped list of blocks, block by block. -/
theorem flatMap_zipIdx_nil {α β : Type} {g : α × Nat → List β} {l : List α} (h : l.zipIdx.flatMap g = []) {i : Nat} {a : α}
    (hi : l[i]? = some a) : g (a, i) = [] := by
  rw [List.flatMap_eq_nil_iff] at h
  refine h (a, i) (List.mem_iff_getElem?.2 ⟨i, ?_⟩)
  rw [List.getElem?_zipIdx, hi]
  simp

/-- The checks of the blocks, put together. -/
theorem flatMap_zipIdx_eq_nil {α β : Type} {g : α × Nat → List β} {l : List α}
    (h : ∀ i a, l[i]? = some a → g (a, i) = []) : l.zipIdx.flatMap g = [] := by
  rw [List.flatMap_eq_nil_iff]
  rintro ⟨a, i⟩ hmem
  exact h i a (List.mem_zipIdx_iff_getElem?.mp hmem)

theorem verifyTargets_nil {p : MirProgram} {f : MirFunction} (h : verifyTargets p f = []) :
    ∀ b ∈ f.blocks, ∃ t, b.terminator = some t ∧ (∀ s ∈ successors t, s < f.blocks.length) ∧
      ∀ callee args destination next, t = .call callee args destination next → ∃ g, p.lookup callee = some g := by
  intro b hb
  obtain ⟨i, hi⟩ := List.mem_iff_getElem?.1 hb
  have hc := flatMap_zipIdx_nil h hi
  simp only at hc
  cases ht : b.terminator with
  | none => rw [ht] at hc; cases hc
  | some t =>
    rw [ht] at hc
    simp only [List.append_eq_nil_iff, List.flatMap_eq_nil_iff] at hc
    refine ⟨t, rfl, fun s hs => ?_, ?_⟩
    · have := hc.1 s hs
      by_contra hlt
      simp [Nat.not_lt.1 hlt] at this
    · rintro callee args destination next rfl
      cases hg : p.lookup callee with
      | none => simp [hg] at hc
      | some g => exact ⟨g, rfl⟩

theorem verifyFunction_nil {p : MirProgram} {f : MirFunction} (h : verifyFunction p f = []) :
    0 < f.blocks.length ∧ f.locals[0]? = some f.returnType ∧ f.parameterCount < f.locals.length ∧
    verifyTargets p f = [] ∧ ∀ (i : Nat) (b : BasicBlock) (defined : Finset Nat), f.blocks[i]? = some b →
      (definiteInitialization f)[i]? = some (some defined) → verifyBlock f i p b defined = [] := by
  unfold verifyFunction at h
  split at h
  · cases h
  · cases h
  · rename_i ret rest b bs hl hb
    simp only at h
    split at h
    · simp at h
    · rename_i hlt
      simp only [List.append_eq_nil_iff] at h
      refine ⟨by rw [hb]; simp, ?_, by omega, h.1.2, ?_⟩
      · rw [hl]
        by_contra hne
        have hne' : ret ≠ f.returnType := fun e => hne (by rw [e]; rfl)
        simp [hne'] at h
      · intro i b defined hi hdef
        have hc := flatMap_zipIdx_nil h.2 hi
        simp only [hdef] at hc
        exact hc

theorem verifyFunction_eq_nil {p : MirProgram} {f : MirFunction} (hblocks : 0 < f.blocks.length)
    (hret : f.locals[0]? = some f.returnType) (hparams : f.parameterCount < f.locals.length) (htargets : verifyTargets p f = [])
    (hbody : ∀ (i : Nat) (b : BasicBlock) (defined : Finset Nat), f.blocks[i]? = some b →
      (definiteInitialization f)[i]? = some (some defined) → verifyBlock f i p b defined = []) : verifyFunction p f = [] := by
  obtain ⟨ret, rest, hl⟩ := List.exists_cons_of_length_pos (Nat.zero_lt_of_lt hparams)
  obtain ⟨b, bs, hb⟩ := List.exists_cons_of_length_pos hblocks
  rw [hl, List.getElem?_cons_zero, Option.some_inj] at hret
  rw [hl, List.length_cons] at hparams
  unfold verifyFunction
  simp only [hl, hb, hret, ne_eq, not_true_eq_false, if_false, List.nil_append, htargets]
  rw [← hb, List.length_cons, if_neg (by omega)]
  refine flatMap_zipIdx_eq_nil fun i b hi => ?_
  split
  · rename_i defined hdef
    exact hbody i b defined hi hdef
  · rfl

theorem verifyAffineOwnership_nil {f : MirFunction} (h : verifyAffineOwnership f = []) {i : Nat} {b : BasicBlock}
    {owned : Finset Nat} (hi : f.blocks[i]? = some b) (ho : (ownedOnEntry f)[i]? = some (some owned)) :
    checkBlockOwnership f i (everInitialized f) b owned = [] := by
  unfold verifyAffineOwnership at h
  have hne : f.blocks.isEmpty = false := by
    cases hb : f.blocks with
    | nil => rw [hb] at hi; simp at hi
    | cons c cs => rfl
  rw [hne] at h
  simp only [Bool.false_eq_true, if_false] at h
  have hc := flatMap_zipIdx_nil h hi
  simp only [ho] at hc
  exact hc

/-- What the statements of a block that takes part define is assigned somewhere. -/
theorem statements_subset_everInitialized {f : MirFunction} {i : Nat} {b : BasicBlock} {defined : Finset Nat}
    (hb : f.blocks[i]? = some b) (hdef : (definiteInitialization f)[i]? = some (some defined)) :
    b.statements.foldl defineStatement defined ⊆ everInitialized f := by
  refine Finset.Subset.trans ?_ (defineBlock_everInitialized (List.mem_of_getElem? hb)).subset
  refine Finset.Subset.trans ?_ (defineBlock_mono b (definiteInitialization_subset hdef))
  unfold defineBlock
  simp only
  split
  · exact subset_insertPlace _ _
  · exact Finset.Subset.refl _

/-- **Every function of a verified program satisfies the judgement.** -/
theorem verify_functionOk {p : MirProgram} (h : verify p = .ok ()) {f : MirFunction} (hf : f ∈ p.functions) :
    FunctionOk p f := by
  obtain ⟨hfun, hown⟩ := verify_ok h f hf
  obtain ⟨hblocks, hret, hparams, htargets, hbody⟩ := verifyFunction_nil hfun
  have hcallees := verifyTargets_nil htargets
  refine ⟨hblocks, hret, hparams, ?_, hcallees⟩
  intro i b owned hb ho
  have hmem : b ∈ f.blocks := List.mem_of_getElem? hb
  obtain ⟨t, ht, hsucc, hcallee⟩ := hcallees b hmem
  obtain ⟨defined, hdef⟩ := ((definiteInitialization_flow f).isSome_iff i).2
    (((ownedOnEntry_flow f).isSome_iff i).1 ⟨owned, ho⟩)
  have hchecked := verifyAffineOwnership_nil hown hb ho
  have hverified := hbody i b defined hb hdef
  simp only [checkBlockOwnership, ht, List.append_eq_nil_iff] at hchecked
  simp only [verifyBlock, ht, List.append_eq_nil_iff] at hverified
  have hdsub := statements_subset_everInitialized hb hdef
  obtain ⟨hstmts, hs, hv⟩ := statementsOk_of_checks hdsub hchecked.1 hverified.1
  rw [hs] at hchecked
  rw [hv] at hverified
  refine ⟨t, ht, hstmts, terminatorOk_of_checks hdsub hcallee hchecked.2 hverified.2, ?_⟩
  intro s hsm
  refine ⟨hsucc s hsm, ?_⟩
  obtain ⟨entry, he, hsub⟩ := ownedOnEntry_edge hb ho (by simpa [BasicBlock.successors, ht] using hsm) (hsucc s hsm)
  refine ⟨entry, he, ?_⟩
  simpa only [transferBlock, ht] using hsub

end Mir
end Syllog
