import Syllog.CodegenRun
import Syllog.WasmValid
/-!
# CodegenValid — which emitted bodies are valid

A body is checked arm by arm, reachable block or not.  The encoders' code is valid exactly when it compares nothing (a
comparison leaves an `i32` where the store needs an `i64`), names no local beyond the program counter's, and gives every
callee at least its parameters: the MIR verifier checks the last two only in blocks a path reaches, and the first never.
`emit_validates` states this for whole modules, and that `emit` does not panic on verified MIR.
-/
namespace Syllog
namespace Codegen

open Mir Interp Runs
open Wasm hiding Trap Frame step

/-- The local is declared, or is the program counter's. -/
def ValidLocal (f : MirFunction) (l : Nat) : Prop := l ≤ f.locals.length

def ValidOperand (f : MirFunction) : Operand → Prop
  | .const _ => True
  | .copy l  => ValidLocal f l
  | .move l  => ValidLocal f l

def ValidRvalue (f : MirFunction) : Rvalue → Prop
  | .borrow _ place             => ValidLocal f (placeLocal place)
  | .use o                      => ValidOperand f o
  | .discriminant o             => ValidOperand f o
  | .aggregate _ _ _            => True
  | .binary operator left right => operator ≠ .equal ∧ operator ≠ .less ∧ ValidOperand f left ∧ ValidOperand f right

def ValidStatement (f : MirFunction) : Statement → Prop
  | .assign destination value => ValidRvalue f value ∧ ValidLocal f (placeLocal destination)
  | .drop _                   => True

def ValidTerminator (p : MirProgram) (f : MirFunction) : Terminator → Prop
  | .ret                            => True
  | .goto _                         => True
  | .switchInt value targets _      => targets ≠ [] → ValidOperand f value
  | .call callee args destination _ => (∀ o ∈ args, ValidOperand f o) ∧ ValidLocal f (placeLocal destination) ∧
    ∀ g, p.lookup callee = some g → g.parameterCount ≤ args.length

/-- **What makes a function's body valid**, in every block: the verifier looks at reachable blocks only and at no
operator's result type. -/
structure WellEncoded (p : MirProgram) (f : MirFunction) : Prop where
  counter : ¬ (f.parameterCount = 0 ∧ f.locals.length = 2 ^ 32 - 1)
  statements : ∀ b ∈ f.blocks, ∀ st ∈ b.statements, ValidStatement f st
  terminators : ∀ b ∈ f.blocks, ∀ t, b.terminator = some t → ValidTerminator p f t

/-! ## Blocks -/

section
variable {p : MirProgram} {f : MirFunction} {ctx : Context} {ctrl : Control} {cs : List Control}
  {ops : List (Option ValType)} {code : List Instruction}

theorem wasmLocal_valid (hp : f.parameterCount < f.locals.length) (hctx : ctx.locals = f.locals.length + 1) (l : Nat) :
    wasmLocal f l < ctx.locals ↔ ValidLocal f l := by
  rw [hctx]
  unfold wasmLocal ValidLocal
  split
  · omega
  · split <;> omega

theorem operand_checks (hp : f.parameterCount < f.locals.length) (hctx : ctx.locals = f.locals.length + 1) {o : Operand}
    (h : encodeOperand f o = .ok code) :
    Checks ctx code ⟨ops, ctrl :: cs⟩ (ValidOperand f o) ⟨some .i64 :: ops, ctrl :: cs⟩ := by
  cases o with
  | const k =>
    cases k with
    | string s => cases h
    | _ =>
      cases h
      exact const_checks _
  | copy l =>
    cases h
    exact (get_checks _).of_iff (wasmLocal_valid hp hctx l)
  | move l =>
    cases h
    exact (get_checks _).of_iff (wasmLocal_valid hp hctx l)

/-- An operator leaves a word but for a comparison. -/
theorem result_eq_i64 (operator : BinaryOp) (isU64 : Bool) :
    (binaryInstruction operator isU64).result = .i64 ↔ operator ≠ .equal ∧ operator ≠ .less := by
  cases operator <;> cases isU64 <;> simp [binaryInstruction, Numeric.result]

/-- What a value leaves on the stack, and when it does. -/
theorem rvalue_checks (hp : f.parameterCount < f.locals.length) (hctx : ctx.locals = f.locals.length + 1) (hf : ctrl.Fresh)
    {value : Rvalue} (h : encodeRvalue f value = .ok code) : ∃ actual valid,
      Checks ctx code ⟨ops, ctrl :: cs⟩ valid ⟨some actual :: ops, ctrl :: cs⟩ ∧ (valid ∧ actual = .i64 ↔ ValidRvalue f value) := by
  cases value with
  | borrow mutable place =>
    cases place with
    | field base k => cases h
    | loc k =>
      cases h
      exact ⟨_, _, (get_checks _).of_iff (wasmLocal_valid hp hctx k), by simp [ValidRvalue, placeLocal]⟩
  | use o => exact ⟨_, _, operand_checks hp hctx h, by simp [ValidRvalue]⟩
  | discriminant o => exact ⟨_, _, operand_checks hp hctx h, by simp [ValidRvalue]⟩
  | aggregate ty d fields =>
    cases h
    exact ⟨_, _, const_checks _, by simp [ValidRvalue]⟩
  | binary operator left right =>
    obtain ⟨cl, hcl, h⟩ := bind_eq_ok h
    obtain ⟨cr, hcr, h⟩ := bind_eq_ok h
    cases h
    refine ⟨_, _, ((operand_checks hp hctx hcl).append (operand_checks hp hctx hcr)).append (numeric_checks hf _), ?_⟩
    rw [result_eq_i64, ValidRvalue]
    tauto

theorem assign_checks (hp : f.parameterCount < f.locals.length) (hctx : ctx.locals = f.locals.length + 1)
    (hf : ctrl.Fresh) {destination : Place} {value : Rvalue} (h : encodeStatement f (.assign destination value) = .ok code) :
    Checks ctx code ⟨ops, ctrl :: cs⟩ (ValidStatement f (.assign destination value)) ⟨ops, ctrl :: cs⟩ := by
  obtain ⟨cv, hcv, h⟩ := bind_eq_ok h
  obtain ⟨cd, hcd, h⟩ := bind_eq_ok h
  cases h
  cases destination with
  | field base k => cases hcd
  | loc l =>
    cases hcd
    obtain ⟨actual, valid, hvalue, hvalid⟩ := @rvalue_checks f ctx ctrl cs ops cv hp hctx hf value hcv
    refine (hvalue.append (set_checks hf _ _)).of_iff ?_
    rw [wasmLocal_valid hp hctx, ValidStatement, placeLocal, ← hvalid]
    tauto

theorem statement_checks (hp : f.parameterCount < f.locals.length) (hctx : ctx.locals = f.locals.length + 1)
    (hf : ctrl.Fresh) {st : Statement} (h : encodeStatement f st = .ok code) :
    Checks ctx code ⟨ops, ctrl :: cs⟩ (ValidStatement f st) ⟨ops, ctrl :: cs⟩ := by
  cases st with
  | assign destination value => exact assign_checks hp hctx hf h
  | drop place =>
    cases place with
    | field base k => cases h
    | loc l =>
      cases h
      exact checks_nil

end

/-- Code made of pieces that each leave the checker where it was. -/
theorem encodeAll_checks {α : Type} {encode : α → Emit} {ctx : Context} {c : Checker} {valid : α → Prop}
    (he : ∀ a code, encode a = .ok code → Checks ctx code c (valid a) c) :
    ∀ {as : List α} {code : List Instruction}, encodeAll encode as = .ok code → Checks ctx code c (∀ a ∈ as, valid a) c
  | [], _, h => by
    cases h
    exact checks_nil.of_iff (by simp)
  | a :: as, _, h => by
    obtain ⟨first, rest, hfirst, hrest, rfl⟩ := encodeAll_cons h
    rw [List.forall_mem_cons]
    exact (he a first hfirst).append (encodeAll_checks he hrest)

section
variable {p : MirProgram} {f : MirFunction} {ctx : Context} {code : List Instruction}

/-- The labels around a block's code: its arm, the loop, the function. -/
def armControls : List Control := [⟨false, [], 0, false⟩, ⟨true, [], 0, false⟩, ⟨false, [.i64], 0, false⟩]

/-- What a block's terminator leaves: the arm's rest is unreachable. -/
def doneControls : List Control := [⟨false, [], 0, true⟩, ⟨true, [], 0, false⟩, ⟨false, [.i64], 0, false⟩]

theorem continue_checks (hctx : ctx.locals = f.locals.length + 1) {ctrl : Control} {cs : List Control} (hf : ctrl.Fresh)
    {depth : Nat} (hl : (ctrl :: cs)[depth]? = some ⟨true, [], 0, false⟩) (target : Nat)
    {ops : List (Option ValType)} :
    Checks ctx (encodeContinue f.locals.length target depth) ⟨ops, ctrl :: cs⟩ True ⟨[], { ctrl with unreachable := true } :: cs⟩ := by
  have hcounter : f.locals.length < ctx.locals := by omega
  have hstore : Checks ctx [.i64Const (BitVec.ofNat 64 target), .localSet f.locals.length] ⟨ops, ctrl :: cs⟩ True
      ⟨ops, ctrl :: cs⟩ :=
    ((const_checks _).append (set_checks hf f.locals.length .i64)).of_iff (by simp [hcounter])
  exact (hstore.append (br_checks hf hl rfl)).of_iff (by simp)

theorem target_checks (hp : f.parameterCount < f.locals.length) (hctx : ctx.locals = f.locals.length + 1)
    {value : Operand} {edge : Nat × Nat} (h : encodeTarget f f.locals.length value edge = .ok code) :
    Checks ctx code ⟨[], armControls⟩ (ValidOperand f value) ⟨[], armControls⟩ := by
  obtain ⟨cv, hcv, -, rfl⟩ := encodeTarget_eq h
  have hfa : Control.Fresh ⟨false, [], 0, false⟩ := ⟨rfl, rfl⟩
  have htest : Checks ctx [.i64Const (BitVec.ofNat 64 edge.1), .i64 .eq] ⟨[some .i64], armControls⟩ True
      ⟨[some .i32], armControls⟩ := .of_eq rfl
  have hopen : Checks ctx [.ifEmpty] ⟨[some .i32], armControls⟩ True ⟨[], ⟨false, [], 0, false⟩ :: armControls⟩ := .of_eq rfl
  have hclose : Checks ctx [.end_] ⟨[], ⟨false, [], 0, true⟩ :: armControls⟩ True ⟨[], armControls⟩ := .of_eq rfl
  have hcontinue : Checks ctx (encodeContinue f.locals.length edge.2 2) ⟨[], ⟨false, [], 0, false⟩ :: armControls⟩ True
      ⟨[], ⟨false, [], 0, true⟩ :: armControls⟩ := continue_checks hctx hfa rfl edge.2
  have htail := (hopen.append hcontinue).append hclose
  exact (((operand_checks hp hctx hcv).append htest).append htail).of_iff (by simp)

/-- Arguments pile up. -/
theorem arguments_check (hp : f.parameterCount < f.locals.length) (hctx : ctx.locals = f.locals.length + 1)
    {ctrl : Control} {cs : List Control} : ∀ {args : List Operand} {k : Nat} {code : List Instruction},
    encodeAll (encodeOperand f) args = .ok code →
    Checks ctx code ⟨List.replicate k (some .i64), ctrl :: cs⟩ (∀ o ∈ args, ValidOperand f o)
      ⟨List.replicate (k + args.length) (some .i64), ctrl :: cs⟩
  | [], k, _, h => by
    cases h
    exact checks_nil.of_iff (by simp)
  | o :: args, k, _, h => by
    obtain ⟨first, rest, hfirst, hrest, rfl⟩ := encodeAll_cons h
    have hk : k + (o :: args).length = k + 1 + args.length := by simp; omega
    rw [List.forall_mem_cons, hk]
    exact (operand_checks hp hctx hfirst).append (arguments_check hp hctx (k := k + 1) hrest)

theorem terminator_checks (hp : f.parameterCount < f.locals.length) (hctx : ctx.locals = f.locals.length + 1)
    (hcallees : ∀ id index g, functionIndex p id = some index → p.lookup id = some g →
      ctx.callees[index]? = some g.parameterCount)
    {t : Terminator} (h : encodeTerminator p f f.locals.length t = .ok code) :
    Checks ctx code ⟨[], armControls⟩ (ValidTerminator p f t) ⟨[], doneControls⟩ := by
  have hfa : Control.Fresh ⟨false, [], 0, false⟩ := ⟨rfl, rfl⟩
  have hcont : ∀ (target : Nat) (ops : List (Option ValType)),
      Checks ctx (encodeContinue f.locals.length target 1) ⟨ops, armControls⟩ True ⟨[], doneControls⟩ :=
    fun target ops => continue_checks hctx hfa rfl target
  cases t with
  | ret =>
    cases h
    have hzero : wasmLocal f 0 < ctx.locals := (wasmLocal_valid hp hctx 0).mpr (Nat.zero_le _)
    exact ((get_checks (wasmLocal f 0)).append (ret_checks hfa rfl rfl)).of_iff (by simp [hzero, ValidTerminator])
  | goto target =>
    cases h
    exact hcont target []
  | switchInt value targets otherwise =>
    obtain ⟨edges, hedges, h⟩ := bind_eq_ok h
    cases h
    have hall : Checks ctx edges ⟨[], armControls⟩ (∀ edge ∈ targets, ValidOperand f value) ⟨[], armControls⟩ :=
      encodeAll_checks (fun edge code he => target_checks hp hctx he) hedges
    refine (hall.append (hcont _ _)).of_iff ?_
    rw [and_true, ValidTerminator]
    cases targets with
    | nil => simp
    | cons edge targets => exact ⟨fun h _ => h edge (List.mem_cons_self ..), fun h _ _ => h (List.cons_ne_nil _ _)⟩
  | call callee args destination next =>
    obtain ⟨arguments, hargs, h⟩ := bind_eq_ok h
    split at h
    · cases h
    rename_i index hindex
    obtain ⟨cd, hcd, h⟩ := bind_eq_ok h
    cases h
    obtain ⟨g, -, hg⟩ := functionIndex_lookup hindex
    have hn := hcallees callee index g hindex hg
    cases destination with
    | field base k => cases hcd
    | loc l =>
      cases hcd
      have hvalues : Checks ctx arguments ⟨List.replicate 0 (some .i64), armControls⟩ (∀ o ∈ args, ValidOperand f o)
          ⟨List.replicate (0 + args.length) (some .i64), armControls⟩ := arguments_check hp hctx hargs
      have hcall := (hvalues.append (call_checks hfa hn)).append (set_checks hfa (wasmLocal f l) .i64)
      refine (hcall.append (hcont next _)).of_iff ?_
      rw [wasmLocal_valid hp hctx, ValidTerminator, placeLocal, Nat.zero_add, hg]
      simp only [and_true, Option.some.injEq, forall_eq']
      tauto

/-- The labels around the arms: the loop, the function. -/
def loopControls : List Control := [⟨true, [], 0, false⟩, ⟨false, [.i64], 0, false⟩]

/-- Every statement of the block and its terminator. -/
def ValidBlock (p : MirProgram) (f : MirFunction) (b : BasicBlock) : Prop :=
  (∀ st ∈ b.statements, ValidStatement f st) ∧ ∀ t, b.terminator = some t → ValidTerminator p f t

theorem block_checks (hp : f.parameterCount < f.locals.length) (hctx : ctx.locals = f.locals.length + 1)
    (hcallees : ∀ id index g, functionIndex p id = some index → p.lookup id = some g →
      ctx.callees[index]? = some g.parameterCount)
    {b : BasicBlock} (h : encodeBlock p f f.locals.length b = .ok code) :
    Checks ctx code ⟨[], armControls⟩ (ValidBlock p f b) ⟨[], doneControls⟩ := by
  have hfa : Control.Fresh ⟨false, [], 0, false⟩ := ⟨rfl, rfl⟩
  obtain ⟨body, hbody, h⟩ := bind_eq_ok h
  split at h
  · cases h
  rename_i t ht
  obtain ⟨last, hlast, h⟩ := bind_eq_ok h
  cases h
  have hall : Checks ctx body ⟨[], armControls⟩ (∀ st ∈ b.statements, ValidStatement f st) ⟨[], armControls⟩ :=
    encodeAll_checks (fun st code he => statement_checks hp hctx hfa he) hbody
  refine (hall.append (terminator_checks hp hctx hcallees hlast)).of_iff ?_
  rw [ValidBlock, ht]
  simp only [Option.some.injEq, forall_eq']

theorem arms_check (hp : f.parameterCount < f.locals.length) (hctx : ctx.locals = f.locals.length + 1)
    (hcallees : ∀ id index g, functionIndex p id = some index → p.lookup id = some g →
      ctx.callees[index]? = some g.parameterCount) :
    ∀ {bs : List BasicBlock} {index : Nat} {code : List Instruction},
    encodeBlocks p f f.locals.length index bs = .ok code →
    Checks ctx code ⟨[], loopControls⟩ (∀ b ∈ bs, ValidBlock p f b) ⟨[], loopControls⟩
  | [], index, _, h => by
    cases h
    exact checks_nil.of_iff (by simp)
  | b :: bs, index, _, h => by
    unfold encodeBlocks at h
    split at h
    · obtain ⟨body, hbody, h⟩ := bind_eq_ok h
      obtain ⟨arms, harms, h⟩ := bind_eq_ok h
      cases h
      have hpc : f.locals.length < ctx.locals := by omega
      have hread : Checks ctx [.localGet f.locals.length] ⟨[], loopControls⟩ True ⟨[some .i64], loopControls⟩ :=
        (get_checks _).of_iff (by simp [hpc])
      have htest : Checks ctx [.i64Const (BitVec.ofNat 64 index), .i64 .eq, .ifEmpty] ⟨[some .i64], loopControls⟩ True
          ⟨[], armControls⟩ := .of_eq rfl
      have harm := ((hread.append htest).append (block_checks hp hctx hcallees hbody)).append (end_checks rfl rfl)
      rw [List.forall_mem_cons]
      exact (harm.append (arms_check hp hctx hcallees harms)).of_iff (by simp)
    · cases h

end

/-! ## Functions and modules -/

theorem wellEncoded_iff {p : MirProgram} {f : MirFunction} :
    WellEncoded p f ↔ ¬ (f.parameterCount = 0 ∧ f.locals.length = 2 ^ 32 - 1) ∧ ∀ b ∈ f.blocks, ValidBlock p f b :=
  ⟨fun h => ⟨h.counter, fun b hb => ⟨h.statements b hb, h.terminators b hb⟩⟩,
    fun h => ⟨h.1, fun b hb => (h.2 b hb).1, fun b hb => (h.2 b hb).2⟩⟩

/-- The first store to the counter, and the body around the arms. -/
theorem body_checks {p : MirProgram} {f : MirFunction} {ctx : Context} (hp : f.parameterCount < f.locals.length)
    (hcallees : ∀ id index g, functionIndex p id = some index → p.lookup id = some g →
      ctx.callees[index]? = some g.parameterCount)
    (hctx : ctx.locals ≤ f.locals.length + 1) {arms : List Instruction}
    (harms : encodeBlocks p f f.locals.length 0 f.blocks = .ok arms) :
    (∃ c, checkAll ctx ([.i64Const 0, .localSet f.locals.length, .loop] ++ arms ++
        [.unreachable, .end_, .i64Const 0, .end_]) Checker.start = some c ∧ c.controls = []) ↔
      f.locals.length < ctx.locals ∧ ∀ b ∈ f.blocks, ValidBlock p f b := by
  have hff : Control.Fresh ⟨false, [.i64], 0, false⟩ := ⟨rfl, rfl⟩
  have hstore : Checks ctx [.i64Const 0, .localSet f.locals.length] Checker.start (f.locals.length < ctx.locals)
      Checker.start :=
    ((const_checks 0).append (set_checks hff f.locals.length .i64)).of_iff (by simp)
  have hloop : Checks ctx [.loop] Checker.start True ⟨[], loopControls⟩ := .of_eq rfl
  have hopen := hstore.append hloop
  constructor
  · rintro ⟨c, hc, -⟩
    obtain ⟨c2, h12, -⟩ := checkAll_append.1 hc
    obtain ⟨c1, h1, h2⟩ := checkAll_append.1 h12
    obtain ⟨⟨hlt, -⟩, rfl⟩ := (hopen c1).1 h1
    exact ⟨hlt, ((arms_check hp (by omega) hcallees harms c2).1 h2).1⟩
  · rintro ⟨hlt, hblocks⟩
    have harmsOk := (hopen.append (arms_check hp (by omega) hcallees harms) _).2 ⟨⟨⟨hlt, trivial⟩, hblocks⟩, rfl⟩
    exact ⟨⟨[some .i64], []⟩, checkAll_append.2 ⟨⟨[], loopControls⟩, harmsOk, rfl⟩, rfl⟩

/-- One function's body, in a module that holds its callees. -/
theorem function_validates {p : MirProgram} {M : Module} (hM : Emitted p M) {f : MirFunction}
    (hp : f.parameterCount < f.locals.length) {g : Function} (h : encodeFunction p f = .ok g) :
    validate M g = true ↔ WellEncoded p f := by
  obtain ⟨hlt, arms, harms, rfl⟩ := encodeFunction_eq h
  have hcallees : ∀ id index callee, functionIndex p id = some index → p.lookup id = some callee →
      (M.functions.map (·.parameters))[index]? = some callee.parameterCount := by
    intro id index callee hindex hlookup
    obtain ⟨callee', hget, hlookup'⟩ := functionIndex_lookup hindex
    obtain rfl := Option.some.inj (hlookup.symm.trans hlookup')
    obtain ⟨encoded, hencoded, heq⟩ := hM.functions index callee hget
    obtain ⟨_, _, _, hg⟩ := encodeFunction_eq heq
    rw [List.getElem?_map, hencoded, hg]
    rfl
  -- the count of declared locals saturates only in the excluded case
  have hcount : f.locals.length < f.parameterCount + min (f.locals.length - f.parameterCount + 1) (2 ^ 32 - 1) ↔
      ¬ (f.parameterCount = 0 ∧ f.locals.length = 2 ^ 32 - 1) := by omega
  rw [wellEncoded_iff, validate_iff, ← hcount]
  exact body_checks hp hcallees (by dsimp only; omega) harms

/-! ## No panics -/

/-- A result, or an error the back end returns. -/
def Calm {α : Type} (x : Except Failure α) : Prop := ∀ message, x ≠ .error (.panic message)

theorem calm_ok {α : Type} (a : α) : Calm (.ok a : Except Failure α) := by
  intro message h
  cases h

theorem calm_unsupported {α : Type} (operation : String) : Calm (unsupported operation : Except Failure α) := by
  intro message h
  cases h

theorem calm_bind {α β : Type} {x : Except Failure α} {g : α → Except Failure β} (hx : Calm x)
    (hg : ∀ a, x = .ok a → Calm (g a)) : Calm (x >>= g) := by
  intro message h
  rcases bind_eq_error h with h | ⟨a, ha, h⟩
  · exact hx message h
  · exact hg a ha message h

theorem calm_encodeAll {α : Type} {encode : α → Emit} (he : ∀ a, Calm (encode a)) : ∀ as, Calm (encodeAll encode as)
  | []      => calm_ok _
  | a :: as => calm_bind (he a) fun _ _ => calm_bind (calm_encodeAll he as) fun _ _ => calm_ok _

theorem calm_operand (f : MirFunction) (o : Operand) : Calm (encodeOperand f o) := by
  intro message h
  cases o with
  | const k => cases k <;> cases h
  | copy l => cases h
  | move l => cases h

theorem calm_setPlace (f : MirFunction) (place : Place) : Calm (encodeSetPlace f place) := by
  intro message h
  cases place <;> cases h

theorem calm_rvalue (f : MirFunction) (value : Rvalue) : Calm (encodeRvalue f value) := by
  cases value with
  | borrow mutable place =>
    cases place with
    | loc l => exact calm_ok _
    | field base k => exact calm_unsupported _
  | use o => exact calm_operand f o
  | discriminant o => exact calm_operand f o
  | aggregate ty d fields => exact calm_ok _
  | binary operator left right =>
    exact calm_bind (calm_operand f left) fun _ _ => calm_bind (calm_operand f right) fun _ _ => calm_ok _

theorem calm_statement (f : MirFunction) (st : Statement) : Calm (encodeStatement f st) := by
  cases st with
  | assign destination value =>
    exact calm_bind (calm_rvalue f value) fun _ _ => calm_bind (calm_setPlace f destination) fun _ _ => calm_ok _
  | drop place =>
    cases place with
    | loc l => exact calm_ok _
    | field base k => exact calm_unsupported _

theorem calm_target (f : MirFunction) (pc : Nat) (value : Operand) (edge : Nat × Nat) :
    Calm (encodeTarget f pc value edge) := by
  refine calm_bind (calm_operand f value) fun v _ => ?_
  split
  · exact calm_ok _
  · exact calm_unsupported _

theorem functionIndex_of_lookup {p : MirProgram} {id : DefId} {g : MirFunction} (h : p.lookup id = some g) :
    ∃ k, functionIndex p id = some k := by
  rw [lookup_eq_find] at h
  obtain ⟨x, hx, -⟩ := Option.map_eq_some_iff.1 h
  exact ⟨x.2, by simp [functionIndex, hx]⟩

/-- A known callee has an index. -/
theorem calm_terminator {p : MirProgram} {f : MirFunction} {pc : Nat} {t : Terminator}
    (hcallee : ∀ callee args destination next, t = .call callee args destination next → ∃ g, p.lookup callee = some g) :
    Calm (encodeTerminator p f pc t) := by
  cases t with
  | ret => exact calm_ok _
  | goto target => exact calm_ok _
  | switchInt value targets otherwise =>
    exact calm_bind (calm_encodeAll (calm_target f pc value) targets) fun _ _ => calm_ok _
  | call callee args destination next =>
    obtain ⟨g, hg⟩ := hcallee callee args destination next rfl
    obtain ⟨k, hk⟩ := functionIndex_of_lookup hg
    refine calm_bind (calm_encodeAll (calm_operand f) args) fun arguments _ => ?_
    rw [hk]
    exact calm_bind (calm_setPlace f destination) fun _ _ => calm_ok _

theorem calm_blocks {p : MirProgram} {f : MirFunction} {pc : Nat} : ∀ {bs : List BasicBlock} {index : Nat},
    (∀ b ∈ bs, ∃ t, b.terminator = some t ∧ ∀ callee args destination next, t = .call callee args destination next →
      ∃ g, p.lookup callee = some g) → Calm (encodeBlocks p f pc index bs)
  | [], _, _ => calm_ok _
  | b :: bs, index, h => by
    rw [List.forall_mem_cons] at h
    obtain ⟨⟨t, ht, hcallee⟩, h⟩ := h
    unfold encodeBlocks
    split
    · refine calm_bind ?_ fun body _ => calm_bind (calm_blocks h) fun arms _ => calm_ok _
      refine calm_bind (calm_encodeAll (calm_statement f) b.statements) fun body _ => ?_
      rw [ht]
      exact calm_bind (calm_terminator hcallee) fun _ _ => calm_ok _
    · exact calm_unsupported _

theorem calm_functions {p : MirProgram} : ∀ {fs : List MirFunction}, (∀ f ∈ fs, FunctionOk p f) →
    Calm (encodeFunctions p fs)
  | [], _ => calm_ok _
  | f :: fs, h => by
    rw [List.forall_mem_cons] at h
    refine calm_bind ?_ fun g _ => calm_bind (calm_functions h.2) fun gs _ => calm_ok _
    unfold encodeFunction
    split
    · refine calm_bind (calm_blocks fun b hb => ?_) fun arms _ => calm_ok _
      obtain ⟨t, ht, -, hcallee⟩ := h.1.callees b hb
      exact ⟨t, ht, hcallee⟩
    · exact calm_unsupported _

theorem calm_abiType : ∀ ty, Calm (supportedAbiType ty)
  | .reference _ inner => calm_abiType inner
  | .string            => by intro message h; cases h
  | .unit | .bool | .i64 | .u64 | .aggregate _ => calm_ok _

theorem calm_forM {α : Type} {g : α → Except Failure Unit} (hg : ∀ a, Calm (g a)) : ∀ l : List α, Calm (l.forM g)
  | []     => calm_ok _
  | a :: l => show Calm (g a >>= fun _ => l.forM g) from calm_bind (hg a) fun _ _ => calm_forM hg l

theorem emit_calm {p : MirProgram} (hv : verify p = .ok ()) : Calm (emit p) := by
  unfold emit
  rw [hv]
  dsimp only
  split
  · intro message h
    cases h
  · split
    · exact calm_unsupported _
    · refine calm_bind (calm_forM (fun f => calm_forM calm_abiType _) _) fun _ _ => ?_
      split
      · exact calm_unsupported _
      · split
        · intro message h
          cases h
        · exact calm_bind (calm_functions fun f hf => verify_functionOk hv hf) fun _ _ => calm_ok _

/-! ## The main result -/

/-- **Which modules are valid.**  On verified MIR `emit` does not panic, and the bodies of the module it returns pass
validation exactly when every function is `WellEncoded`. -/
theorem emit_validates {p : MirProgram} (hv : verify p = .ok ()) :
    (∀ message, emit p ≠ .error (.panic message)) ∧
    ∀ M, emit p = .ok M → ((∀ g ∈ M.functions, validate M g = true) ↔ ∀ f ∈ p.functions, WellEncoded p f) := by
  refine ⟨emit_calm hv, fun M h => ?_⟩
  have hM := emit_emitted h
  have hparams : ∀ f ∈ p.functions, f.parameterCount < f.locals.length := fun f hf => (verify_functionOk hv hf).params
  constructor
  · intro hvalid f hf
    obtain ⟨k, hk⟩ := List.mem_iff_getElem?.1 hf
    obtain ⟨g, hg, hencode⟩ := hM.functions k f hk
    exact (function_validates hM (hparams f hf) hencode).1 (hvalid g (List.mem_of_getElem? hg))
  · intro hwell g hg
    obtain ⟨k, hk⟩ := List.mem_iff_getElem?.1 hg
    have hlt : k < p.functions.length := hM.count ▸ (List.getElem?_eq_some_iff.1 hk).1
    have hf : p.functions[k]? = some p.functions[k] := List.getElem?_eq_getElem hlt
    obtain ⟨g', hg', hencode⟩ := hM.functions k _ hf
    obtain rfl := Option.some.inj (hk.symm.trans hg')
    have hmem := List.mem_of_getElem? hf
    exact (function_validates hM (hparams _ hmem) hencode).2 (hwell _ hmem)

theorem tagProgram_validates : ∃ M, emit tagProgram = .ok M ∧ ∀ g ∈ M.functions, validate M g = true := by
  obtain ⟨M, hM⟩ : ∃ M, emit tagProgram = .ok M := ⟨_, rfl⟩
  refine ⟨M, hM, ((emit_validates (p := tagProgram) (by decide)).2 M hM).2 ?_⟩
  intro f hf
  rcases List.mem_cons.1 hf with rfl | hf
  · refine ⟨by simp, ?_, ?_⟩
    · simp [ValidStatement, ValidRvalue, ValidOperand, ValidLocal, placeLocal]
    · simp [ValidTerminator, ValidOperand, ValidLocal, placeLocal, MirProgram.lookup, tagProgram]
  · obtain rfl := List.mem_singleton.1 hf
    refine ⟨by simp, ?_, ?_⟩
    · simp [ValidStatement, ValidRvalue, ValidOperand, ValidLocal, placeLocal]
    · simp [ValidTerminator]

/-- `_0 = 1 == 1; return`. -/
def compareProgram : MirProgram where
  functions := [
    { id := ⟨0, 0⟩, parameterCount := 0, returnType := .bool, locals := [.bool],
      blocks := [⟨[.assign (.loc 0) (.binary .equal (.const (.u64 1)) (.const (.u64 1)))], some .ret⟩] }]
  entry := some ⟨0, 0⟩

/-- The comparison's `i32` is stored in an `i64` local. -/
theorem compareProgram_invalid : verify compareProgram = .ok () ∧
    ∃ M, emit compareProgram = .ok M ∧ ∃ g ∈ M.functions, validate M g = false :=
  ⟨by decide, _, rfl, _, List.mem_cons_self .., rfl⟩

end Codegen
end Syllog
