import Syllog.CodegenValues
/-!
# CodegenSim — the compiled code follows the interpreter

A running interpreter frame and a Wasm frame match when the Wasm frame stands in the arm of the frame's block, at the
code of the statements still to come, inside the dispatch loop, and every held MIR local is encoded in its Wasm local.
A waiting caller matches a Wasm frame that stores the result and continues.  Every step of the interpreter is matched by
steps of the compiled code (`step_matched`); only a drop is matched by none.
-/
namespace Syllog
namespace Codegen

open Mir Interp Runs
open Wasm hiding Trap Frame step

/-! ## Locals -/

theorem wasmLocal_lt {f : MirFunction} {l : Nat} (hp : f.parameterCount < f.locals.length) (hl : l < f.locals.length) :
    wasmLocal f l < f.locals.length := by
  unfold wasmLocal
  split
  · exact hp
  · split <;> omega

theorem wasmLocal_inj {f : MirFunction} {l k : Nat} (h : wasmLocal f l = wasmLocal f k) : l = k := by
  unfold wasmLocal at h
  split at h <;> split at h <;> (try split at h) <;> (try split at h) <;> omega

/-- Every held local is encoded in its Wasm local. -/
def LocalsMatch (f : MirFunction) (locals : Locals) (words : Nat → Word) : Prop :=
  ∀ (l : Nat) (v : Value), locals[l]? = some (some v) → words (wasmLocal f l) = encode v

section
variable {f : MirFunction} {locals : Locals} {words : Nat → Word}

theorem LocalsMatch.set_none (h : LocalsMatch f locals words) (l : Nat) : LocalsMatch f (locals.set l none) words := by
  intro k v hk
  by_cases hlk : l = k
  · subst hlk
    rw [List.getElem?_set] at hk
    simp only [if_true] at hk
    split at hk <;> cases hk
  · rw [List.getElem?_set_ne hlk] at hk
    exact h k v hk

theorem LocalsMatch.set_some (h : LocalsMatch f locals words) (l : Nat) (v : Value) :
    LocalsMatch f (locals.set l (some v)) (setLocal words (wasmLocal f l) (encode v)) := by
  intro k w hk
  by_cases hlk : l = k
  · subst hlk
    rw [List.getElem?_set] at hk
    simp only [if_true] at hk
    split at hk
    · cases hk
      exact setLocal_self _ _ _
    · cases hk
  · rw [List.getElem?_set_ne hlk] at hk
    rw [setLocal_ne _ _ (fun e => hlk (wasmLocal_inj e).symm)]
    exact h k w hk

theorem LocalsMatch.set_pc (h : LocalsMatch f locals words) (hp : f.parameterCount < f.locals.length)
    (hlen : locals.length = f.locals.length) (w : Word) : LocalsMatch f locals (setLocal words f.locals.length w) := by
  intro k v hk
  have hlt : k < f.locals.length := hlen ▸ (List.getElem?_eq_some_iff.1 hk).1
  rw [setLocal_ne _ _ (Nat.ne_of_lt (wasmLocal_lt hp hlt))]
  exact h k v hk

end

/-! ## Operands, rvalues and statements -/

section
variable {f : MirFunction} {limits : InterpreterLimits} {M : Module} {m m' : Machine} {locals locals' : Locals}
  {words : Nat → Word} {code : List Instruction}

/-- Reading an operand at most empties its slot. -/
theorem operand_match {o : Operand} {v : Value} (hm : LocalsMatch f locals words)
    (h : operand limits o m locals = .ok (v, m', locals')) : LocalsMatch f locals' words := by
  cases o with
  | const c =>
    obtain ⟨r, -, hr⟩ := bind_eq_ok h
    cases hr
    exact hm
  | copy l =>
    obtain ⟨w, -, hr⟩ := bind_eq_ok h
    cases hr
    exact hm
  | move l =>
    obtain ⟨slot, -, hr⟩ := bind_eq_ok h
    cases slot with
    | none => cases hr
    | some w =>
      cases hr
      exact hm.set_none l

theorem operand_does {o : Operand} {v : Value} (hm : LocalsMatch f locals words) (hcode : encodeOperand f o = .ok code)
    (h : operand limits o m locals = .ok (v, m', locals')) (stack : List Word) :
    Does M code stack words (encode v :: stack) words := by
  cases o with
  | const c =>
    obtain ⟨r, hc, hr⟩ := bind_eq_ok h
    cases hr
    cases c with
    | string s => cases hcode
    | _ =>
      cases hcode
      cases hc
      exact Does.const _
  | copy l =>
    cases hcode
    obtain ⟨w, hw, hr⟩ := bind_eq_ok h
    cases hr
    rw [← hm l _ (localValue_ok hw)]
    exact Does.get _
  | move l =>
    cases hcode
    obtain ⟨slot, hs, hr⟩ := bind_eq_ok h
    cases slot with
    | none => cases hr
    | some w =>
      cases hr
      rw [← hm l _ (localSlot_ok hs)]
      exact Does.get _

end

theorem operands_match {f : MirFunction} {limits : InterpreterLimits} {words : Nat → Word} : ∀ {os : List Operand}
    {m m' : Machine} {locals locals' : Locals} {vs : List Value}, LocalsMatch f locals words →
    operands limits os m locals = .ok (vs, m', locals') → LocalsMatch f locals' words
  | [], _, _, _, _, _, hm, h => by
    cases h
    exact hm
  | o :: os, _, _, _, _, _, hm, h => by
    obtain ⟨r, ho, h⟩ := bind_eq_ok h
    obtain ⟨r', hos, h⟩ := bind_eq_ok h
    cases h
    exact operands_match (operand_match hm ho) hos

/-- The arguments of a call end up on the stack, the last one on top. -/
theorem operands_does {f : MirFunction} {limits : InterpreterLimits} {M : Module} {words : Nat → Word} :
    ∀ {os : List Operand} {m m' : Machine} {locals locals' : Locals} {vs : List Value} {code : List Instruction}
      (stack : List Word), LocalsMatch f locals words → encodeAll (encodeOperand f) os = .ok code →
    operands limits os m locals = .ok (vs, m', locals') →
    Does M code stack words ((vs.map encode).reverse ++ stack) words
  | [], _, _, _, _, _, _, _, hm, hcode, h => by
    cases hcode
    cases h
    exact Does.nil
  | o :: os, _, _, _, _, _, _, stack, hm, hcode, h => by
    obtain ⟨first, hfirst, hcode⟩ := bind_eq_ok hcode
    obtain ⟨rest, hrest, hcode⟩ := bind_eq_ok hcode
    cases hcode
    obtain ⟨r, ho, h⟩ := bind_eq_ok h
    obtain ⟨r', hos, h⟩ := bind_eq_ok h
    cases h
    have hd1 := operand_does (M := M) hm hfirst ho stack
    have hd2 := operands_does (M := M) (encode r.1 :: stack) (operand_match hm ho) hrest hos
    simpa using hd1.append hd2

/-- The operands of an equality have the same word only when they are equal. -/
def EqualityFaithful (limits : InterpreterLimits) (locals : Locals) : Rvalue → Prop
  | .binary .equal left right => ∀ m a m1 locals1 b m2 locals2, operand limits left m locals = .ok (a, m1, locals1) →
    operand limits right m1 locals1 = .ok (b, m2, locals2) → encode a = encode b → a = b
  | _                         => True

theorem operandType_eq (f : MirFunction) (o : Operand) : operandType f o = declaredType f o := by
  cases o <;> rfl

section
variable {f : MirFunction} {limits : InterpreterLimits} {M : Module} {m m' : Machine} {locals locals' : Locals}
  {words : Nat → Word} {code : List Instruction} {depth : Depth}

theorem rvalue_does {value : Rvalue} {v : Value} {owned : Finset Nat} (hok : RvalueOk f owned value)
    (ht : TypedLocals depth f locals) (hm : LocalsMatch f locals words)
    (hfaithful : EqualityFaithful limits locals value) (hcode : encodeRvalue f value = .ok code)
    (h : rvalue limits value m locals = .ok (v, m', locals')) (stack : List Word) :
    Does M code stack words (encode v :: stack) words ∧ LocalsMatch f locals' words := by
  cases value with
  | borrow mutable place =>
    cases place with
    | field base k => cases hcode
    | loc l =>
      cases hcode
      obtain ⟨w, hw, hr⟩ := bind_eq_ok h
      cases hr
      simp only [readPlace, localValue] at hw
      split at hw
      · rename_i w' hl
        cases hw
        refine ⟨?_, hm⟩
        show Does M _ stack words (encode w :: stack) words
        rw [← hm l _ hl]
        exact Does.get _
      · cases hw
  | use o => exact ⟨operand_does hm hcode h stack, operand_match hm h⟩
  | discriminant o =>
    obtain ⟨⟨w, m1, l1⟩, ho, hr⟩ := bind_eq_ok h
    have hdoes := operand_does (M := M) hm hcode ho stack
    have hm1 := operand_match hm ho
    cases w with
    | aggregate d fields => cases hr; exact ⟨hdoes, hm1⟩
    | _ => cases hr
  | aggregate ty d fields =>
    cases hcode
    obtain ⟨r, hos, hr⟩ := bind_eq_ok h
    obtain ⟨m1, -, hr⟩ := bind_eq_ok hr
    cases hr
    exact ⟨Does.const _, operands_match hm hos⟩
  | binary operator left right =>
    obtain ⟨cl, hcl, hcode⟩ := bind_eq_ok hcode
    obtain ⟨cr, hcr, hcode⟩ := bind_eq_ok hcode
    cases hcode
    obtain ⟨⟨a, m1, l1⟩, ha, h⟩ := bind_eq_ok h
    obtain ⟨⟨b, m2, l2⟩, hb, h⟩ := bind_eq_ok h
    obtain ⟨w, hw, h⟩ := bind_eq_ok h
    cases h
    obtain ⟨-, ty, hl, -⟩ := hok
    have hd1 := operand_does (M := M) hm hcl ha stack
    have hd2 := operand_does (M := M) (operand_match hm ha) hcr hb (encode a :: stack)
    have hta := ((operand_typed ht ha).2 ty hl).shallow
    have heq : operator = .equal → encode a = encode b → a = b := by
      rintro rfl
      exact hfaithful m a m1 l1 b _ _ ha hb
    have happly := binary_apply hta heq hw
    rw [operandType_eq, hl]
    exact ⟨(hd1.append hd2).append (Does.numeric happly), operand_match (operand_match hm ha) hb⟩

end

/-! ## Blocks -/

theorem encodeOperand_plain {f : MirFunction} {o : Operand} {code : List Instruction} (h : encodeOperand f o = .ok code) :
    ∀ i ∈ code, i.plain = true := by
  cases o with
  | const c => cases c <;> cases h <;> simp [Instruction.plain]
  | copy l => cases h; simp [Instruction.plain]
  | move l => cases h; simp [Instruction.plain]

theorem encodeAll_balanced {α : Type} {encode : α → Emit} (he : ∀ a code, encode a = .ok code → Balanced code) :
    ∀ {as : List α} {code : List Instruction}, encodeAll encode as = .ok code → Balanced code
  | [], _, h => by
    cases h
    exact Balanced.nil
  | a :: as, _, h => by
    obtain ⟨first, hfirst, h⟩ := bind_eq_ok h
    obtain ⟨rest, hrest, h⟩ := bind_eq_ok h
    cases h
    exact (he a first hfirst).append (encodeAll_balanced he hrest)

theorem encodeContinue_balanced (pc target depth : Nat) : Balanced (encodeContinue pc target depth) :=
  Balanced.ofPlain (by simp [encodeContinue, Instruction.plain])

section
variable {p : MirProgram} {f : MirFunction} {pc : Nat} {code : List Instruction}

theorem encodeOperand_balanced {o : Operand} (h : encodeOperand f o = .ok code) : Balanced code :=
  Balanced.ofPlain (encodeOperand_plain h)

theorem encodeSetPlace_balanced {place : Place} (h : encodeSetPlace f place = .ok code) : Balanced code := by
  cases place with
  | loc l => cases h; exact Balanced.plain rfl
  | field base k => cases h

theorem encodeStatement_balanced {st : Statement} (h : encodeStatement f st = .ok code) : Balanced code := by
  cases st with
  | assign destination value =>
    obtain ⟨v, hv, h⟩ := bind_eq_ok h
    obtain ⟨d, hd, h⟩ := bind_eq_ok h
    cases h
    refine Balanced.append ?_ (encodeSetPlace_balanced hd)
    cases value with
    | borrow mutable place =>
      cases place with
      | loc l => cases hv; exact Balanced.plain rfl
      | field base k => cases hv
    | use o => exact encodeOperand_balanced hv
    | discriminant o => exact encodeOperand_balanced hv
    | aggregate ty d fields => cases hv; exact Balanced.plain rfl
    | binary operator left right =>
      obtain ⟨cl, hcl, hv⟩ := bind_eq_ok hv
      obtain ⟨cr, hcr, hv⟩ := bind_eq_ok hv
      cases hv
      exact ((encodeOperand_balanced hcl).append (encodeOperand_balanced hcr)).append (Balanced.plain rfl)
  | drop place =>
    cases place with
    | loc l => cases h; exact Balanced.nil
    | field base k => cases h

theorem encodeTarget_eq {value : Operand} {edge : Nat × Nat} (h : encodeTarget f pc value edge = .ok code) :
    ∃ v, encodeOperand f value = .ok v ∧ edge.1 < 2 ^ 64 ∧
      code = v ++ [.i64Const (BitVec.ofNat 64 edge.1), .i64 .eq] ++ ([.ifEmpty] ++ encodeContinue pc edge.2 2 ++ [.end_]) := by
  obtain ⟨v, hv, h⟩ := bind_eq_ok h
  split at h
  · rename_i hlt
    cases h
    exact ⟨v, hv, hlt, by simp⟩
  · cases h

theorem encodeTarget_balanced {value : Operand} {edge : Nat × Nat} (h : encodeTarget f pc value edge = .ok code) :
    Balanced code := by
  obtain ⟨v, hv, -, rfl⟩ := encodeTarget_eq h
  have hmid : Balanced [.i64Const (BitVec.ofNat 64 edge.1), .i64 .eq] :=
    Balanced.ofPlain (by simp [Instruction.plain])
  exact ((encodeOperand_balanced hv).append hmid).append (encodeContinue_balanced _ _ _).ifEmpty

theorem encodeTerminator_balanced {t : Terminator} (h : encodeTerminator p f pc t = .ok code) : Balanced code := by
  cases t with
  | ret => cases h; exact Balanced.ofPlain (by simp [Instruction.plain])
  | goto target => cases h; exact encodeContinue_balanced _ _ _
  | switchInt value targets otherwise =>
    obtain ⟨edges, he, h⟩ := bind_eq_ok h
    cases h
    exact (encodeAll_balanced (fun _ _ => encodeTarget_balanced) he).append (encodeContinue_balanced _ _ _)
  | call callee args destination next =>
    obtain ⟨arguments, ha, h⟩ := bind_eq_ok h
    split at h
    · cases h
    · obtain ⟨d, hd, h⟩ := bind_eq_ok h
      cases h
      have hargs := encodeAll_balanced (fun _ _ => encodeOperand_balanced) ha
      exact ((hargs.append (Balanced.plain rfl)).append (encodeSetPlace_balanced hd)).append
        (encodeContinue_balanced _ _ _)

theorem encodeBlock_eq {b : BasicBlock} (h : encodeBlock p f pc b = .ok code) :
    ∃ body t last, encodeAll (encodeStatement f) b.statements = .ok body ∧ b.terminator = some t ∧
      encodeTerminator p f pc t = .ok last ∧ code = body ++ last := by
  obtain ⟨body, hbody, h⟩ := bind_eq_ok h
  split at h
  · cases h
  · rename_i t ht
    obtain ⟨last, hlast, h⟩ := bind_eq_ok h
    cases h
    exact ⟨body, t, last, hbody, ht, hlast, rfl⟩

theorem encodeBlock_balanced {b : BasicBlock} (h : encodeBlock p f pc b = .ok code) : Balanced code := by
  obtain ⟨body, t, last, hbody, -, hlast, rfl⟩ := encodeBlock_eq h
  exact (encodeAll_balanced (fun _ _ => encodeStatement_balanced) hbody).append (encodeTerminator_balanced hlast)

theorem encodeBlocks_cons {index : Nat} {b : BasicBlock} {bs : List BasicBlock}
    (h : encodeBlocks p f pc index (b :: bs) = .ok code) :
    ∃ body arms, index < 2 ^ 63 ∧ encodeBlock p f pc b = .ok body ∧ encodeBlocks p f pc (index + 1) bs = .ok arms ∧
      code = [.localGet pc, .i64Const (BitVec.ofNat 64 index), .i64 .eq, .ifEmpty] ++ body ++ [.end_] ++ arms := by
  unfold encodeBlocks at h
  split at h
  · rename_i hlt
    obtain ⟨body, hbody, h⟩ := bind_eq_ok h
    obtain ⟨arms, harms, h⟩ := bind_eq_ok h
    cases h
    exact ⟨body, arms, hlt, hbody, harms, rfl⟩
  · cases h

end

theorem encodeBlocks_index_lt {p : MirProgram} {f : MirFunction} {pc : Nat} : ∀ {bs : List BasicBlock} {index : Nat}
    {code : List Instruction} {k : Nat} {b : BasicBlock}, encodeBlocks p f pc index bs = .ok code → bs[k]? = some b →
    index + k < 2 ^ 63
  | [], _, _, _, _, _, hk => by simp at hk
  | c :: bs, index, _, 0, _, h, _ => (encodeBlocks_cons h).elim (fun _ ⟨_, hlt, _⟩ => hlt)
  | c :: bs, index, _, k + 1, b, h, hk => by
    obtain ⟨body, arms, -, -, harms, -⟩ := encodeBlocks_cons h
    have := encodeBlocks_index_lt harms (by simpa using hk)
    omega

/-- **The arms of the loop send the program counter to its block.** -/
theorem dispatch_arms {p : MirProgram} {f : MirFunction} {M : Module} {pc : Nat} {words : Nat → Word}
    {callers : List Wasm.Frame} {labels : List Label} : ∀ {bs : List BasicBlock} {index : Nat} {arms : List Instruction}
    {k : Nat} {b : BasicBlock} (rest : List Instruction), encodeBlocks p f pc index bs = .ok arms → bs[k]? = some b →
    words pc = BitVec.ofNat 64 (index + k) → ∃ body after label, encodeBlock p f pc b = .ok body ∧
      Reaches (Wasm.step M) ⟨⟨arms ++ rest, labels, [], words⟩, callers⟩
        ⟨⟨body ++ after, label :: labels, [], words⟩, callers⟩
  | [], _, _, _, _, _, _, hk, _ => by simp at hk
  | c :: bs, index, _, k, b, rest, h, hk, hpc => by
    have hlt := encodeBlocks_index_lt h hk
    obtain ⟨body, arms, hindex, hbody, harms, rfl⟩ := encodeBlocks_cons h
    have hhead : Does M [.localGet pc, .i64Const (BitVec.ofNat 64 index), .i64 .eq] [] words
        [truth (words pc = BitVec.ofNat 64 index)] words :=
      ((Does.get pc).append (Does.const _)).append (Does.numeric rfl)
    have hstart := hhead labels (.ifEmpty :: (body ++ .end_ :: (arms ++ rest))) callers
    cases k with
    | zero =>
      cases hk
      refine ⟨body, .end_ :: (arms ++ rest), ⟨skipToEnd 0 (body ++ .end_ :: (arms ++ rest)), 0⟩, hbody, ?_⟩
      rw [hpc, Nat.add_zero] at hstart
      simp only [decide_true] at hstart
      refine Reaches.trans (by simpa using hstart) (Reaches.single ?_)
      exact step_if_taken M _ labels [] words callers (by decide)
    | succ k =>
      have hne : words pc ≠ BitVec.ofNat 64 index := by
        rw [hpc]
        intro e
        have := congrArg BitVec.toNat e
        simp only [BitVec.toNat_ofNat] at this
        omega
      obtain ⟨body', after, label, hbody', hreach⟩ := dispatch_arms (M := M) rest harms
        (by simpa using hk) (show words pc = BitVec.ofNat 64 (index + 1 + k) by rw [hpc]; congr 1; omega)
      refine ⟨body', after, label, hbody', Reaches.trans ?_ hreach⟩
      simp only [hne, decide_false] at hstart
      refine Reaches.trans (by simpa using hstart) (Reaches.single ?_)
      exact step_if_skipped M (encodeBlock_balanced hbody) (arms ++ rest) labels [] words callers

end Codegen
end Syllog
