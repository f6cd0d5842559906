import Syllog.Verify
import Syllog.Wasm
/-!
# Codegen — the WebAssembly back end

`syllog-codegen-wasm` for programs without async frames: every MIR local becomes an `i64` local, the blocks of a function
become the arms of one dispatch loop over a program counter, and moves, drops, borrows and the fields of aggregates leave
no trace.  The encoders return the instructions they append.  Artifact metadata, the custom sections and the canonical
JSON they are hashed from are left out.
-/
namespace Syllog
namespace Codegen

open Mir Wasm

inductive CodegenError where
  | invalidMir (errors : List VerificationError)
  | missingEntry
  | unsupportedType (ty : MirType)
  | unsupportedOperation (operation : String)
deriving DecidableEq, Repr

/-- An error the back end returns, or a host panic. -/
inductive Failure where
  | error (e : CodegenError)
  | panic (message : String)
deriving DecidableEq, Repr

abbrev Emit := Except Failure (List Instruction)

def unsupported {α : Type} (operation : String) : Except Failure α := .error (.error (.unsupportedOperation operation))

/-! ## Operands, rvalues and places -/

/-- Parameters come first, the return slot after them, the other locals keep their index. -/
def wasmLocal (f : MirFunction) (l : Nat) : Nat :=
  if l = 0 then f.parameterCount else if l ≤ f.parameterCount then l - 1 else l

def operandType (f : MirFunction) : Operand → Option MirType
  | .const c => some c.ty
  | .copy l  => f.locals[l]?
  | .move l  => f.locals[l]?

def encodeOperand (f : MirFunction) (operand : Operand) : Emit :=
  match operand with
  | .copy l | .move l => .ok [.localGet (wasmLocal f l)]
  | .const c => match c with
    | .unit     => .ok [.i64Const 0]
    | .bool b   => .ok [.i64Const (truth b)]
    | .i64 v    => .ok [.i64Const v.toBitVec]
    | .u64 v    => .ok [.i64Const v.toBitVec]
    | .string _ => .error (.error (.unsupportedType .string))

def binaryInstruction (operator : BinaryOp) (unsigned : Bool) : Numeric :=
  match operator with
  | .add      => .add
  | .subtract => .sub
  | .multiply => .mul
  | .divide   => if unsigned then .divU else .divS
  | .equal    => .eq
  | .less     => if unsigned then .ltU else .ltS
  | .and      => .and
  | .or       => .or

def encodeRvalue (f : MirFunction) (value : Rvalue) : Emit :=
  match value with
  | .borrow _ (.loc l)     => .ok [.localGet (wasmLocal f l)]
  | .borrow _ (.field _ _) => unsupported "aggregate field borrow"
  | .use o                 => encodeOperand f o
  | .discriminant o        => encodeOperand f o
  | .aggregate _ d _       => .ok [.i64Const d.toBitVec]
  | .binary operator left right => do
    let l ← encodeOperand f left
    let r ← encodeOperand f right
    .ok (l ++ r ++ [.i64 (binaryInstruction operator (operandType f left == some .u64))])

def encodeSetPlace (f : MirFunction) (place : Place) : Emit :=
  match place with
  | .loc l     => .ok [.localSet (wasmLocal f l)]
  | .field _ _ => unsupported "aggregate field assignment"

/-! ## Blocks -/

def encodeStatement (f : MirFunction) (statement : Statement) : Emit :=
  match statement with
  | .assign destination value => do
    let v ← encodeRvalue f value
    let d ← encodeSetPlace f destination
    .ok (v ++ d)
  | .drop (.loc _)     => .ok []
  | .drop (.field _ _) => unsupported "aggregate field drop"

/-- The code of the items in order. -/
def encodeAll {α : Type} (encode : α → Emit) : List α → Emit
  | []      => .ok []
  | a :: as => do
    let first ← encode a
    let rest ← encodeAll encode as
    .ok (first ++ rest)

def encodeContinue (pc target depth : Nat) : List Instruction :=
  [.i64Const (BitVec.ofNat 64 target), .localSet pc, .br depth]

/-- One exact edge of a switch. -/
def encodeTarget (f : MirFunction) (pc : Nat) (value : Operand) (edge : Nat × Nat) : Emit := do
  let v ← encodeOperand f value
  if edge.1 < 2 ^ 64 then
    .ok (v ++ [.i64Const (BitVec.ofNat 64 edge.1), .i64 .eq, .ifEmpty] ++ encodeContinue pc edge.2 2 ++ [.end_])
  else unsupported "switch value exceeds the i64 ABI"

/-- The Wasm index of a function; of two functions with one identity, the later one's. -/
def functionIndex (p : MirProgram) (id : DefId) : Option Nat :=
  (p.functions.zipIdx.reverse.find? (fun (f, _) => f.id = id)).map Prod.snd

def encodeTerminator (p : MirProgram) (f : MirFunction) (pc : Nat) (terminator : Terminator) : Emit :=
  match terminator with
  | .ret         => .ok [.localGet (wasmLocal f 0), .ret]
  | .goto target => .ok (encodeContinue pc target 1)
  | .call callee args destination next => do
    let arguments ← encodeAll (encodeOperand f) args
    match functionIndex p callee with
    | none       => .error (.panic "no entry found for key")
    | some index => do
      let d ← encodeSetPlace f destination
      .ok (arguments ++ [.call index] ++ d ++ encodeContinue pc next 1)
  | .switchInt value targets otherwise => do
    let edges ← encodeAll (encodeTarget f pc value) targets
    .ok (edges ++ encodeContinue pc otherwise 1)

def encodeBlock (p : MirProgram) (f : MirFunction) (pc : Nat) (block : BasicBlock) : Emit := do
  let body ← encodeAll (encodeStatement f) block.statements
  match block.terminator with
  | none   => .error (.panic "verified MIR has a terminator")
  | some t => do
    let last ← encodeTerminator p f pc t
    .ok (body ++ last)

/-- The arms of the dispatch loop, from block `index` on. -/
def encodeBlocks (p : MirProgram) (f : MirFunction) (pc : Nat) : Nat → List BasicBlock → Emit
  | _, []             => .ok []
  | index, b :: rest  =>
    if index < 2 ^ 63 then do
      let body ← encodeBlock p f pc b
      let arms ← encodeBlocks p f pc (index + 1) rest
      .ok ([.localGet pc, .i64Const (BitVec.ofNat 64 index), .i64 .eq, .ifEmpty] ++ body ++ [.end_] ++ arms)
    else unsupported "too many blocks"

/-! ## Functions and modules -/

def encodeFunction (p : MirProgram) (f : MirFunction) : Except Failure Function :=
  if f.locals.length < 2 ^ 32 then do
    let pc := f.locals.length
    let arms ← encodeBlocks p f pc 0 f.blocks
    .ok { parameters := f.parameterCount
          locals := min (f.locals.length - f.parameterCount + 1) (2 ^ 32 - 1)
          body := [.i64Const 0, .localSet pc, .loop] ++ arms ++ [.unreachable, .end_, .i64Const 0, .end_] }
  else unsupported "too many locals"

def supportedAbiType : MirType → Except Failure Unit
  | .reference _ inner => supportedAbiType inner
  | .string            => .error (.error (.unsupportedType .string))
  | .unit | .bool | .i64 | .u64 | .aggregate _ => .ok ()

def supportedSignature (f : MirFunction) : Except Failure Unit :=
  f.locals.forM supportedAbiType

def encodeFunctions (p : MirProgram) : List MirFunction → Except Failure (List Function)
  | []      => .ok []
  | f :: fs => do
    let g ← encodeFunction p f
    let gs ← encodeFunctions p fs
    .ok (g :: gs)

/-- `emit`: the module's functions in order, and the index of the exported `main`. -/
def emit (p : MirProgram) : Except Failure Module :=
  match verify p with
  | .error errors => .error (.error (.invalidMir errors))
  | .ok () => match p.entry with
    | none => .error (.error .missingEntry)
    | some entry =>
      if 2 ^ 32 < p.functions.length then unsupported "too many functions" else do
      p.functions.forM supportedSignature
      if 2 ^ 32 ≤ p.functions.length then unsupported "too many function types" else
      match functionIndex p entry with
      | none => .error (.error .missingEntry)
      | some main => do
        let functions ← encodeFunctions p p.functions
        .ok ⟨functions, main⟩

end Codegen
end Syllog
