import Syllog.Runs
import Syllog.Verify
/-!
# Interp — the reference interpreter

The interpreter of `syllog-interpreter` as a step machine.  A state is the machine's counters, the running frame and the
suspended callers; one step executes one statement or one terminator, each after one `tick`.  The host recursion of
`Machine::call` is the list of callers: a call pushes the running frame with its result destination and continuation,
a return pops it.  Counters saturate as the source's do.
-/
namespace Syllog
namespace Interp

open Mir

inductive Value where
  | reference (value : Value)
  | unit
  | bool (value : Bool)
  | i64 (value : Int64)
  | u64 (value : UInt64)
  | string (value : String)
  | aggregate (discriminant : UInt64) (fields : List Value)
deriving Repr

mutual
def Value.decEq : (a b : Value) → Decidable (a = b)
  | .reference a, .reference b =>
    match Value.decEq a b with
    | isTrue h  => isTrue (h ▸ rfl)
    | isFalse h => isFalse (fun e => h (Value.reference.inj e))
  | .unit, .unit => isTrue rfl
  | .bool a, .bool b => if h : a = b then isTrue (h ▸ rfl) else isFalse (fun e => h (Value.bool.inj e))
  | .i64 a, .i64 b => if h : a = b then isTrue (h ▸ rfl) else isFalse (fun e => h (Value.i64.inj e))
  | .u64 a, .u64 b => if h : a = b then isTrue (h ▸ rfl) else isFalse (fun e => h (Value.u64.inj e))
  | .string a, .string b => if h : a = b then isTrue (h ▸ rfl) else isFalse (fun e => h (Value.string.inj e))
  | .aggregate d fs, .aggregate e gs =>
    if h : d = e then
      match Value.decEqList fs gs with
      | isTrue h'  => isTrue (h ▸ h' ▸ rfl)
      | isFalse h' => isFalse (fun e => h' (Value.aggregate.inj e).2)
    else isFalse (fun e => h (Value.aggregate.inj e).1)
  | .reference _, .unit | .reference _, .bool _ | .reference _, .i64 _ | .reference _, .u64 _ | .reference _, .string _
  | .reference _, .aggregate _ _ | .unit, .reference _ | .unit, .bool _ | .unit, .i64 _ | .unit, .u64 _
  | .unit, .string _ | .unit, .aggregate _ _ | .bool _, .reference _ | .bool _, .unit | .bool _, .i64 _
  | .bool _, .u64 _ | .bool _, .string _ | .bool _, .aggregate _ _ | .i64 _, .reference _ | .i64 _, .unit
  | .i64 _, .bool _ | .i64 _, .u64 _ | .i64 _, .string _ | .i64 _, .aggregate _ _ | .u64 _, .reference _
  | .u64 _, .unit | .u64 _, .bool _ | .u64 _, .i64 _ | .u64 _, .string _ | .u64 _, .aggregate _ _
  | .string _, .reference _ | .string _, .unit | .string _, .bool _ | .string _, .i64 _ | .string _, .u64 _
  | .string _, .aggregate _ _ | .aggregate _ _, .reference _ | .aggregate _ _, .unit | .aggregate _ _, .bool _
  | .aggregate _ _, .i64 _ | .aggregate _ _, .u64 _ | .aggregate _ _, .string _ => isFalse (fun e => by cases e)
def Value.decEqList : (a b : List Value) → Decidable (a = b)
  | [], [] => isTrue rfl
  | [], _ :: _ | _ :: _, [] => isFalse (fun e => by cases e)
  | a :: as, b :: bs =>
    match Value.decEq a b, Value.decEqList as bs with
    | isTrue h, isTrue h' => isTrue (h ▸ h' ▸ rfl)
    | isFalse h, _        => isFalse (fun e => h (List.cons.inj e).1)
    | _, isFalse h        => isFalse (fun e => h (List.cons.inj e).2)
end

instance : DecidableEq Value := Value.decEq

/-- The value an execution shows: an aggregate without its tag. -/
inductive RuntimeValue where
  | reference (value : RuntimeValue)
  | unit
  | bool (value : Bool)
  | i64 (value : Int64)
  | u64 (value : UInt64)
  | string (value : String)
  | aggregate (fields : List RuntimeValue)
deriving Repr

mutual
def Value.intoRuntime : Value → RuntimeValue
  | .reference v      => .reference v.intoRuntime
  | .unit             => .unit
  | .bool b           => .bool b
  | .i64 v            => .i64 v
  | .u64 v            => .u64 v
  | .string s         => .string s
  | .aggregate _ fs   => .aggregate (Value.intoRuntimeList fs)
def Value.intoRuntimeList : List Value → List RuntimeValue
  | []      => []
  | v :: vs => v.intoRuntime :: Value.intoRuntimeList vs
end

/-- The reasons of a checked operation's failure. -/
inductive Trap where
  | argumentCount | blockAbsent | returnEmpty | localEmpty | movedEmpty | dropEmpty | localOutOfRange
  | discriminantOfNonAggregate | binaryTypes | switchNotInteger | negativeSwitch
  | fieldBaseEmpty | fieldBaseNotAggregate | fieldOutOfRange
  | u64Add | u64Subtract | u64Multiply | u64Divide | i64Add | i64Subtract | i64Multiply | i64Divide
deriving DecidableEq, Repr

def Trap.message : Trap → String
  | .argumentCount              => "verified call has an invalid argument count"
  | .blockAbsent                => "verified block target is absent"
  | .returnEmpty                => "return destination is empty"
  | .localEmpty                 => "local is empty"
  | .movedEmpty                 => "moved local is empty"
  | .dropEmpty                  => "drop target is empty"
  | .localOutOfRange            => "local index is out of range"
  | .discriminantOfNonAggregate => "discriminant read requires an aggregate"
  | .binaryTypes                => "binary operand types are invalid"
  | .switchNotInteger           => "switch value is not an integer"
  | .negativeSwitch             => "negative switch value"
  | .fieldBaseEmpty             => "field base is empty"
  | .fieldBaseNotAggregate      => "field base is not an aggregate"
  | .fieldOutOfRange            => "field index is out of range"
  | .u64Add                     => "U64 addition overflow"
  | .u64Subtract                => "U64 subtraction overflow"
  | .u64Multiply                => "U64 multiplication overflow"
  | .u64Divide                  => "U64 division by zero"
  | .i64Add                     => "I64 addition overflow"
  | .i64Subtract                => "I64 subtraction overflow"
  | .i64Multiply                => "I64 multiplication overflow"
  | .i64Divide                  => "I64 division failure"

inductive RuntimeError where
  | invalidMir (errors : List VerificationError)
  | missingEntry (entry : DefId)
  | instructionLimitExceeded (limit : Nat)
  | callDepthLimitExceeded (limit : Nat)
  | allocationLimitExceeded (limit : Nat)
  | trap (reason : Trap)
deriving DecidableEq, Repr

/-- How an execution can stop short of a value: an error it returns, or a host panic (a slice index, an `expect`). -/
inductive Fault where
  | error (e : RuntimeError)
  | panic (message : String)
deriving DecidableEq, Repr

structure InterpreterLimits where
  maxInstructions : Nat
  maxCallDepth : Nat
  maxAllocatedBytes : Nat
deriving DecidableEq, Repr

/-- The running totals of one execution. -/
structure Machine where
  instructions : Nat
  allocatedBytes : Nat
  stdout : List UInt8
  dropsExecuted : Nat
deriving DecidableEq, Repr

def Machine.start : Machine := ⟨0, 0, [], 0⟩

abbrev Locals := List (Option Value)

def trap {α : Type} (t : Trap) : Except Fault α := .error (.error (.trap t))

def saturatingAdd (width a b : Nat) : Nat := min (a + b) (2 ^ width - 1)

def tick (limits : InterpreterLimits) (m : Machine) : Except Fault Machine :=
  let m := { m with instructions := saturatingAdd 64 m.instructions 1 }
  if limits.maxInstructions < m.instructions then .error (.error (.instructionLimitExceeded limits.maxInstructions))
  else .ok m

def chargeAllocation (limits : InterpreterLimits) (m : Machine) (bytes : Nat) : Except Fault Machine :=
  let m := { m with allocatedBytes := saturatingAdd 64 m.allocatedBytes bytes }
  if limits.maxAllocatedBytes < m.allocatedBytes then
    .error (.error (.allocationLimitExceeded limits.maxAllocatedBytes))
  else .ok m

/-! ## Reading, writing and dropping -/

def localValue (locals : Locals) (l : Nat) : Except Fault Value :=
  match locals[l]? with
  | some (some v) => .ok v
  | _             => trap .localEmpty

/-- The slot a mutable access gets. -/
def localSlot (locals : Locals) (l : Nat) : Except Fault (Option Value) :=
  match locals[l]? with
  | some slot => .ok slot
  | none      => trap .localOutOfRange

section
variable {locals : Locals} {l : Nat} {e : Fault}

theorem localValue_ok {v : Value} (h : localValue locals l = .ok v) : locals[l]? = some (some v) := by
  unfold localValue at h
  split at h
  · rename_i w hl
    cases h
    exact hl
  · cases h

theorem localValue_error (h : localValue locals l = .error e) : e = .error (.trap .localEmpty) := by
  unfold localValue at h
  split at h <;> cases h
  rfl

theorem localSlot_ok {slot : Option Value} (h : localSlot locals l = .ok slot) : locals[l]? = some slot := by
  unfold localSlot at h
  split at h
  · rename_i slot' hl
    cases h
    exact hl
  · cases h

theorem localSlot_error (h : localSlot locals l = .error e) : e = .error (.trap .localOutOfRange) := by
  unfold localSlot at h
  split at h <;> cases h
  rfl

theorem chargeAllocation_error {limits : InterpreterLimits} {m : Machine} {bytes : Nat}
    (h : chargeAllocation limits m bytes = .error e) : e = .error (.allocationLimitExceeded limits.maxAllocatedBytes) := by
  unfold chargeAllocation at h
  simp only at h
  split_ifs at h
  cases h
  rfl

end

def constant (limits : InterpreterLimits) (c : Constant) (m : Machine) : Except Fault (Value × Machine) :=
  match c with
  | .unit     => .ok (.unit, m)
  | .bool b   => .ok (.bool b, m)
  | .i64 v    => .ok (.i64 v, m)
  | .u64 v    => .ok (.u64 v, m)
  | .string s => do
    let m ← chargeAllocation limits m s.utf8ByteSize
    .ok (.string s, m)

def operand (limits : InterpreterLimits) (o : Operand) (m : Machine) (locals : Locals) :
    Except Fault (Value × Machine × Locals) :=
  match o with
  | .const c => do
    let (v, m) ← constant limits c m
    .ok (v, m, locals)
  | .copy l  => do
    let v ← localValue locals l
    .ok (v, m, locals)
  | .move l  => do
    let slot ← localSlot locals l
    match slot with
    | some v => .ok (v, m, locals.set l none)
    | none   => trap .movedEmpty

/-- Operands from left to right, stopping at the first failure. -/
def operands (limits : InterpreterLimits) : List Operand → Machine → Locals →
    Except Fault (List Value × Machine × Locals)
  | [], m, locals      => .ok ([], m, locals)
  | o :: os, m, locals => do
    let (v, m, locals) ← operand limits o m locals
    let (vs, m, locals) ← operands limits os m locals
    .ok (v :: vs, m, locals)

def checkedU64 (t : Trap) (n : Int) : Except Fault Value :=
  if 0 ≤ n ∧ n < 2 ^ 64 then .ok (.u64 (UInt64.ofNat n.toNat)) else trap t

def checkedI64 (t : Trap) (n : Int) : Except Fault Value :=
  if -2 ^ 63 ≤ n ∧ n < 2 ^ 63 then .ok (.i64 (Int64.ofInt n)) else trap t

def binary (operator : BinaryOp) (left right : Value) : Except Fault Value :=
  match operator, left, right with
  | .add, .u64 a, .u64 b      => checkedU64 .u64Add ((a.toNat : Int) + b.toNat)
  | .subtract, .u64 a, .u64 b => checkedU64 .u64Subtract ((a.toNat : Int) - b.toNat)
  | .multiply, .u64 a, .u64 b => checkedU64 .u64Multiply ((a.toNat : Int) * b.toNat)
  | .divide, .u64 a, .u64 b   => if b = 0 then trap .u64Divide else .ok (.u64 (a / b))
  | .add, .i64 a, .i64 b      => checkedI64 .i64Add (a.toInt + b.toInt)
  | .subtract, .i64 a, .i64 b => checkedI64 .i64Subtract (a.toInt - b.toInt)
  | .multiply, .i64 a, .i64 b => checkedI64 .i64Multiply (a.toInt * b.toInt)
  | .divide, .i64 a, .i64 b   => if b = 0 then trap .i64Divide else checkedI64 .i64Divide (a.toInt.tdiv b.toInt)
  | .equal, a, b              => .ok (.bool (a = b))
  | .less, .u64 a, .u64 b     => .ok (.bool (a < b))
  | .less, .i64 a, .i64 b     => .ok (.bool (a < b))
  | .and, .bool a, .bool b    => .ok (.bool (a && b))
  | .or, .bool a, .bool b     => .ok (.bool (a || b))
  | _, _, _                   => trap .binaryTypes

def readPlace (place : Place) (locals : Locals) : Except Fault Value :=
  match place with
  | .loc l         => localValue locals l
  | .field base k  => do
    let v ← localValue locals base
    match v with
    | .aggregate _ fields => match fields[k]? with
      | some v => .ok v
      | none   => trap .fieldOutOfRange
    | _                   => trap .fieldBaseNotAggregate

def rvalue (limits : InterpreterLimits) (value : Rvalue) (m : Machine) (locals : Locals) :
    Except Fault (Value × Machine × Locals) :=
  match value with
  | .borrow _ place => do
    let v ← readPlace place locals
    .ok (.reference v, m, locals)
  | .use o => operand limits o m locals
  | .discriminant o => do
    let (v, m, locals) ← operand limits o m locals
    match v with
    | .aggregate d _ => .ok (.u64 d, m, locals)
    | _              => trap .discriminantOfNonAggregate
  | .aggregate _ d fields => do
    let (vs, m, locals) ← operands limits fields m locals
    let m ← chargeAllocation limits m (min (vs.length * 16) (2 ^ 64 - 1))
    .ok (.aggregate d vs, m, locals)
  | .binary operator left right => do
    let (a, m, locals) ← operand limits left m locals
    let (b, m, locals) ← operand limits right m locals
    let v ← binary operator a b
    .ok (v, m, locals)

/-- Writes field `k` of the aggregate held by a local. -/
def setField (base k : Nat) (value : Value) (locals : Locals) : Except Fault Locals := do
  let slot ← localSlot locals base
  match slot with
  | none                       => trap .fieldBaseEmpty
  | some (.aggregate d fields) =>
    if k < fields.length then .ok (locals.set base (some (.aggregate d (fields.set k value))))
    else trap .fieldOutOfRange
  | some _                     => trap .fieldBaseNotAggregate

def assign (place : Place) (value : Value) (locals : Locals) : Except Fault Locals :=
  match place with
  | .loc l        => do
    let _ ← localSlot locals l
    .ok (locals.set l (some value))
  | .field base k => setField base k value locals

def dropPlace (place : Place) (m : Machine) (locals : Locals) : Except Fault (Machine × Locals) :=
  let dropped := { m with dropsExecuted := saturatingAdd 64 m.dropsExecuted 1 }
  match place with
  | .loc l        => do
    let slot ← localSlot locals l
    match slot with
    | some _ => .ok (dropped, locals.set l none)
    | none   => trap .dropEmpty
  | .field base k => do
    let locals ← setField base k .unit locals
    .ok (dropped, locals)

def executeStatement (limits : InterpreterLimits) (statement : Statement) (m : Machine) (locals : Locals) :
    Except Fault (Machine × Locals) :=
  match statement with
  | .assign destination value => do
    let (v, m, locals) ← rvalue limits value m locals
    let locals ← assign destination v locals
    .ok (m, locals)
  | .drop place => dropPlace place m locals

def switchValue (v : Value) : Except Fault Nat :=
  match v with
  | .bool b => .ok b.toNat
  | .u64 n  => .ok n.toNat
  | .i64 n  => if n.toInt < 0 then trap .negativeSwitch else .ok n.toInt.toNat
  | _       => trap .switchNotInteger

def integerOperand (limits : InterpreterLimits) (o : Operand) (m : Machine) (locals : Locals) :
    Except Fault (Nat × Machine × Locals) := do
  let (v, m, locals) ← operand limits o m locals
  let n ← switchValue v
  .ok (n, m, locals)

/-- The first exact edge, else the default. -/
def switchTarget (n : Nat) (targets : List (Nat × Nat)) (otherwise : Nat) : Nat :=
  (targets.findSome? (fun (candidate, target) => if candidate = n then some target else none)).getD otherwise

theorem switchTarget_cons (n candidate block : Nat) (targets : List (Nat × Nat)) (otherwise : Nat) :
    switchTarget n ((candidate, block) :: targets) otherwise =
      if candidate = n then block else switchTarget n targets otherwise := by
  by_cases h : candidate = n
  · simp [switchTarget, h]
  · simp [switchTarget, h]

/-! ## Frames and steps -/

/-- One activation: the function, its slots, the block being executed and the statements of it still to come. -/
structure Frame where
  function : MirFunction
  locals : Locals
  block : Nat
  rest : List Statement
  depth : Nat

/-- A frame waiting for the callee's value. -/
structure Caller where
  frame : Frame
  destination : Place
  next : Nat

structure State where
  machine : Machine
  frame : Frame
  callers : List Caller

def enterBlock (fr : Frame) (target : Nat) : Except Fault Frame :=
  match fr.function.blocks[target]? with
  | some b => .ok { fr with block := target, rest := b.statements }
  | none   => trap .blockAbsent

/-- Slot zero empty, the arguments after it, the other slots empty. -/
def initialLocals (size : Nat) (arguments : List Value) : Locals :=
  (List.range size).map (fun i => if i = 0 then none else arguments[i - 1]?)

/-- The entry of a call: the depth, the function, the argument count, the slots, the first block. -/
def enterCall (p : MirProgram) (limits : InterpreterLimits) (id : DefId) (arguments : List Value) (depth : Nat) :
    Except Fault Frame :=
  if limits.maxCallDepth < depth then .error (.error (.callDepthLimitExceeded limits.maxCallDepth)) else
  match p.lookup id with
  | none => .error (.error (.missingEntry id))
  | some f =>
    if arguments.length ≠ f.parameterCount then trap .argumentCount
    else if arguments ≠ [] ∧ f.locals.length ≤ arguments.length then .error (.panic "index out of bounds")
    else enterBlock ⟨f, initialLocals f.locals.length arguments, 0, [], depth⟩ 0

def stepTerminator (p : MirProgram) (limits : InterpreterLimits) (m : Machine) (fr : Frame) (callers : List Caller)
    (terminator : Terminator) : Except Fault (State ⊕ (Value × Machine)) :=
  match terminator with
  | .ret =>
    match fr.locals[0]? with
    | none => .error (.panic "index out of bounds")
    | some none => trap .returnEmpty
    | some (some v) => match callers with
      | [] => .ok (.inr (v, m))
      | c :: callers => do
        let locals ← assign c.destination v c.frame.locals
        let frame ← enterBlock { c.frame with locals := locals } c.next
        .ok (.inl ⟨m, frame, callers⟩)
  | .goto target => do
    let frame ← enterBlock fr target
    .ok (.inl ⟨m, frame, callers⟩)
  | .switchInt value targets otherwise => do
    let (n, m, locals) ← integerOperand limits value m fr.locals
    let frame ← enterBlock { fr with locals := locals } (switchTarget n targets otherwise)
    .ok (.inl ⟨m, frame, callers⟩)
  | .call callee args destination next => do
    let (vs, m, locals) ← operands limits args m fr.locals
    let frame ← enterCall p limits callee vs (saturatingAdd 32 fr.depth 1)
    .ok (.inl ⟨m, frame, ⟨{ fr with locals := locals }, destination, next⟩ :: callers⟩)

/-- The terminator of the block a frame executes. -/
def Frame.terminator (fr : Frame) : Option Terminator := fr.function.blocks[fr.block]?.bind (·.terminator)

def step (p : MirProgram) (limits : InterpreterLimits) (s : State) : Except Fault (State ⊕ (Value × Machine)) := do
  let m ← tick limits s.machine
  match s.frame.rest with
  | statement :: rest => do
    let (m, locals) ← executeStatement limits statement m s.frame.locals
    .ok (.inl { s with machine := m, frame := { s.frame with locals := locals, rest := rest } })
  | [] => match s.frame.terminator with
    | some t => stepTerminator p limits m s.frame s.callers t
    | none   => .error (.panic "verified MIR has a terminator")

/-! ## What a step does -/

open Runs

theorem enterBlock_ok {fr fr' : Frame} {target : Nat} (h : enterBlock fr target = .ok fr') :
    ∃ b, fr.function.blocks[target]? = some b ∧ fr' = { fr with block := target, rest := b.statements } := by
  unfold enterBlock at h
  split at h
  · rename_i b hb
    cases h
    exact ⟨b, hb, rfl⟩
  · cases h

theorem enterCall_ok {p : MirProgram} {limits : InterpreterLimits} {id : DefId} {arguments : List Value} {depth : Nat}
    {fr : Frame} (h : enterCall p limits id arguments depth = .ok fr) :
    ∃ f b, p.lookup id = some f ∧ arguments.length = f.parameterCount ∧ f.blocks[0]? = some b ∧
      fr = ⟨f, initialLocals f.locals.length arguments, 0, b.statements, depth⟩ := by
  unfold enterCall at h
  split at h
  · cases h
  · split at h
    · cases h
    · rename_i f hf
      split at h
      · cases h
      · rename_i hlen
        split at h
        · cases h
        · obtain ⟨b, hb, rfl⟩ := enterBlock_ok h
          exact ⟨f, b, hf, by simpa using hlen, hb, rfl⟩

/-- **The moves of the machine**, one constructor for a statement and for each terminator that leads on. -/
inductive Moves (p : MirProgram) (limits : InterpreterLimits) (s : State) : State → Prop
  | statement {m m' : Machine} {st : Statement} {rest : List Statement} {locals : Locals}
      (ticked : tick limits s.machine = .ok m) (code : s.frame.rest = st :: rest)
      (run : executeStatement limits st m s.frame.locals = .ok (m', locals)) :
      Moves p limits s ⟨m', { s.frame with locals := locals, rest := rest }, s.callers⟩
  | goto {m : Machine} {target : Nat} {b : BasicBlock} (ticked : tick limits s.machine = .ok m)
      (code : s.frame.rest = []) (last : s.frame.terminator = some (.goto target))
      (block : s.frame.function.blocks[target]? = some b) :
      Moves p limits s ⟨m, { s.frame with block := target, rest := b.statements }, s.callers⟩
  | switchInt {m m' : Machine} {value : Operand} {targets : List (Nat × Nat)} {otherwise n : Nat} {locals : Locals}
      {b : BasicBlock} (ticked : tick limits s.machine = .ok m) (code : s.frame.rest = [])
      (last : s.frame.terminator = some (.switchInt value targets otherwise))
      (run : integerOperand limits value m s.frame.locals = .ok (n, m', locals))
      (block : s.frame.function.blocks[switchTarget n targets otherwise]? = some b) :
      Moves p limits s ⟨m',
        { s.frame with locals := locals, block := switchTarget n targets otherwise, rest := b.statements }, s.callers⟩
  | call {m m' : Machine} {callee : DefId} {args : List Operand} {destination : Place} {next : Nat} {vs : List Value}
      {locals : Locals} {g : MirFunction} {b : BasicBlock} (ticked : tick limits s.machine = .ok m)
      (code : s.frame.rest = []) (last : s.frame.terminator = some (.call callee args destination next))
      (run : operands limits args m s.frame.locals = .ok (vs, m', locals)) (function : p.lookup callee = some g)
      (count : vs.length = g.parameterCount) (block : g.blocks[0]? = some b) :
      Moves p limits s ⟨m', ⟨g, initialLocals g.locals.length vs, 0, b.statements, saturatingAdd 32 s.frame.depth 1⟩,
        ⟨{ s.frame with locals := locals }, destination, next⟩ :: s.callers⟩
  | ret {m : Machine} {v : Value} {c : Caller} {callers : List Caller} {locals : Locals} {b : BasicBlock}
      (ticked : tick limits s.machine = .ok m) (code : s.frame.rest = []) (last : s.frame.terminator = some .ret)
      (value : s.frame.locals[0]? = some (some v)) (waiting : s.callers = c :: callers)
      (run : assign c.destination v c.frame.locals = .ok locals) (block : c.frame.function.blocks[c.next]? = some b) :
      Moves p limits s ⟨m, { c.frame with locals := locals, block := c.next, rest := b.statements }, callers⟩

/-- **A step is one of the moves.** -/
theorem step_moves {p : MirProgram} {limits : InterpreterLimits} {s s' : State} (h : step p limits s = .ok (.inl s')) :
    Moves p limits s s' := by
  obtain ⟨m, hm, h⟩ := bind_eq_ok h
  cases hrest : s.frame.rest with
  | cons st rest =>
    simp only [hrest] at h
    obtain ⟨r, hr, h⟩ := bind_eq_ok h
    cases h
    exact .statement hm hrest hr
  | nil =>
    simp only [hrest] at h
    cases hlast : s.frame.terminator with
    | none => rw [hlast] at h; cases h
    | some t =>
      simp only [hlast] at h
      cases t with
      | goto target =>
        obtain ⟨fr, hfr, h⟩ := bind_eq_ok h
        obtain ⟨b, hb, rfl⟩ := enterBlock_ok hfr
        cases h
        exact .goto hm hrest hlast hb
      | switchInt value targets otherwise =>
        obtain ⟨r, hr, h⟩ := bind_eq_ok h
        obtain ⟨fr, hfr, h⟩ := bind_eq_ok h
        obtain ⟨b, hb, rfl⟩ := enterBlock_ok hfr
        cases h
        exact .switchInt hm hrest hlast hr hb
      | call callee args destination next =>
        obtain ⟨r, hr, h⟩ := bind_eq_ok h
        obtain ⟨fr, hfr, h⟩ := bind_eq_ok h
        obtain ⟨g, b, hg, hlen, hb, rfl⟩ := enterCall_ok hfr
        cases h
        exact .call hm hrest hlast hr hg hlen hb
      | ret =>
        simp only [stepTerminator] at h
        split at h
        · cases h
        · cases h
        · rename_i v hv
          split at h
          · cases h
          · rename_i c callers hc
            obtain ⟨locals, hl, h⟩ := bind_eq_ok h
            obtain ⟨fr, hfr, h⟩ := bind_eq_ok h
            obtain ⟨b, hb, rfl⟩ := enterBlock_ok hfr
            cases h
            exact .ret hm hrest hlast hv hc hl hb

/-- A run's result is the return slot of a frame no caller waits for. -/
theorem step_result {p : MirProgram} {limits : InterpreterLimits} {s : State} {v : Value} {m : Machine}
    (h : step p limits s = .ok (.inr (v, m))) :
    tick limits s.machine = .ok m ∧ s.frame.rest = [] ∧ s.frame.terminator = some .ret ∧ s.callers = [] ∧
    s.frame.locals[0]? = some (some v) := by
  obtain ⟨m', hm, h⟩ := bind_eq_ok h
  cases hrest : s.frame.rest with
  | cons st rest =>
    simp only [hrest] at h
    obtain ⟨r, -, h⟩ := bind_eq_ok h
    cases h
  | nil =>
    simp only [hrest] at h
    cases hlast : s.frame.terminator with
    | none => rw [hlast] at h; cases h
    | some t =>
      simp only [hlast] at h
      cases t with
      | goto target =>
        obtain ⟨fr, -, h⟩ := bind_eq_ok h
        cases h
      | switchInt value targets otherwise =>
        obtain ⟨r, -, h⟩ := bind_eq_ok h
        obtain ⟨fr, -, h⟩ := bind_eq_ok h
        cases h
      | call callee args destination next =>
        obtain ⟨r, -, h⟩ := bind_eq_ok h
        obtain ⟨fr, -, h⟩ := bind_eq_ok h
        cases h
      | ret =>
        simp only [stepTerminator] at h
        split at h
        · cases h
        · cases h
        · rename_i v' hv
          split at h
          · rename_i hc
            cases h
            exact ⟨hm, rfl, rfl, hc, hv⟩
          · obtain ⟨locals, -, h⟩ := bind_eq_ok h
            obtain ⟨fr, -, h⟩ := bind_eq_ok h
            cases h

/-! ## Executions -/

/-- The state a call of a function with these arguments starts in. -/
def startCall (p : MirProgram) (limits : InterpreterLimits) (id : DefId) (arguments : List Value) :
    Except Fault State := do
  let frame ← enterCall p limits id arguments 1
  .ok ⟨Machine.start, frame, []⟩

structure ExecutionResult where
  value : RuntimeValue
  stdout : List UInt8
  dropsExecuted : Nat

/-- `execute` under a budget of `fuel` steps; `none` while the execution has not come to an end. -/
def execute (fuel : Nat) (p : MirProgram) (entry : DefId) (limits : InterpreterLimits) :
    Option (Except Fault ExecutionResult) :=
  match verify p with
  | .error errors => some (.error (.error (.invalidMir errors)))
  | .ok () => match startCall p limits entry [] with
    | .error e => some (.error e)
    | .ok s    => (Runs.run (step p limits) fuel s).map
      (Except.map (fun (v, m) => ⟨v.intoRuntime, m.stdout, m.dropsExecuted⟩))

end Interp
end Syllog
