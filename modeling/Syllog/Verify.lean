import Syllog.Dataflow
import Syllog.Mir
/-!
# Verify — the MIR verifier

`verify` collects, function by function, the structural, typing and definite-initialization failures (`verifyFunction`)
and the ownership failures (`verifyAffineOwnership`).  Both read a must-analysis of the control-flow graph:
`definiteInitialization` never merges into the entry block, the ownership states do.
-/
namespace Syllog
namespace Mir

open Dataflow (Analysis Incoming fixpoint reachable)

/-- One invariant violation, with the function and block it is reported at. -/
inductive VerificationError where
  | useAfterMove (function : DefId) (block : Nat) (loc : Nat)
  | doubleDrop (function : DefId) (block : Nat) (loc : Nat)
  | invalidCopy (function : DefId) (block : Nat) (loc : Nat)
  | overwriteWithoutDrop (function : DefId) (block : Nat) (loc : Nat)
  | emptyFunction (function : DefId)
  | missingTerminator (function : DefId) (block : Nat)
  | invalidBlockTarget (function : DefId) (block target : Nat)
  | invalidLocal (function : DefId) (block : Nat) (loc : Nat)
  | useBeforeDefinition (function : DefId) (block : Nat) (loc : Nat)
  | typeMismatch (function : DefId) (block : Nat) (expected actual : MirType)
  | unknownFunction (function : DefId) (block : Nat) (callee : DefId)
  | argumentCount (function : DefId) (block : Nat) (expected actual : Nat)
  | invalidSwitchType (function : DefId) (block : Nat) (actual : MirType)
deriving DecidableEq, Repr

/-! ## The two analyses -/

def successorsAt (f : MirFunction) (i : Nat) : List Nat :=
  match f.blocks[i]? with
  | some b => b.successors
  | none   => []

/-- The blocks a walk from the entry meets. -/
def reachableBlocks (f : MirFunction) : List Bool := reachable f.blocks.length (successorsAt f)

def parameters (f : MirFunction) : Finset Nat := (Finset.range f.parameterCount).image (· + 1)

def localUniverse (f : MirFunction) : Finset Nat := Finset.range f.locals.length

/-- Both loops start from every local at every reachable block, and the parameters at the entry. -/
def startIncoming (f : MirFunction) : Incoming Nat :=
  ((reachableBlocks f).map (fun r => if r then some (localUniverse f) else none)).set 0 (some (parameters f))

def consumeOperand (operand : Operand) (state : Finset Nat) : Finset Nat :=
  match operand with
  | .move l => state.erase l
  | _       => state

def consumeOperands (operands : List Operand) (state : Finset Nat) : Finset Nat :=
  operands.foldl (fun st o => consumeOperand o st) state

def consumeRvalue (value : Rvalue) (state : Finset Nat) : Finset Nat :=
  match value with
  | .borrow _ _            => state
  | .use o                 => consumeOperand o state
  | .discriminant o        => consumeOperand o state
  | .aggregate _ _ fields  => consumeOperands fields state
  | .binary _ left right   => consumeOperand right (consumeOperand left state)

/-- A whole local that is written is owned; a written field changes nothing. -/
def insertPlace (place : Place) (state : Finset Nat) : Finset Nat :=
  match place with
  | .loc l     => insert l state
  | .field _ _ => state

def transferStatement (state : Finset Nat) (statement : Statement) : Finset Nat :=
  match statement with
  | .assign destination value => insertPlace destination (consumeRvalue value state)
  | .drop place               => state.erase (placeLocal place)

def consumeTerminator (terminator : Terminator) (state : Finset Nat) : Finset Nat :=
  match terminator with
  | .switchInt value _ _         => consumeOperand value state
  | .call _ args destination _   => insertPlace destination (consumeOperands args state)
  | .ret                         => state
  | .goto _                      => state

def transferBlock (block : BasicBlock) (state : Finset Nat) : Finset Nat :=
  let state := block.statements.foldl transferStatement state
  match block.terminator with
  | some t => consumeTerminator t state
  | none   => state

def ownershipAnalysis (f : MirFunction) : Analysis Nat where
  succ := successorsAt f
  transfer i state := match f.blocks[i]? with
    | some b => transferBlock b state
    | none   => state
  pinned _ := false

/-- The locals owned on entry to each block, on every path. -/
def ownedOnEntry (f : MirFunction) : Incoming Nat := fixpoint (ownershipAnalysis f) (startIncoming f)

def defineStatement (state : Finset Nat) (statement : Statement) : Finset Nat :=
  match statement with
  | .assign destination _ => insertPlace destination state
  | .drop _               => state

def defineBlock (block : BasicBlock) (state : Finset Nat) : Finset Nat :=
  let state := block.statements.foldl defineStatement state
  match block.terminator with
  | some (.call _ _ destination _) => insertPlace destination state
  | _                              => state

def initializationAnalysis (f : MirFunction) : Analysis Nat where
  succ := successorsAt f
  transfer i state := match f.blocks[i]? with
    | some b => defineBlock b state
    | none   => state
  pinned s := s == 0

/-- The locals assigned on every path to each block. -/
def definiteInitialization (f : MirFunction) : Incoming Nat :=
  fixpoint (initializationAnalysis f) (startIncoming f)

/-- The locals assigned anywhere, flow-insensitively. -/
def everInitialized (f : MirFunction) : Finset Nat :=
  f.blocks.foldl (fun st b => defineBlock b st) (parameters f)

/-! ## Ownership -/

def localIsAffine (f : MirFunction) (l : Nat) : Bool :=
  match f.locals[l]? with
  | some ty => !mirTypeIsCopy ty
  | none    => false

section
variable (f : MirFunction) (block : Nat) (initialized : Finset Nat)

def checkRead (l : Nat) (consume : Bool) (state : Finset Nat) : List VerificationError × Finset Nat :=
  if l ∉ state ∧ l ∈ initialized then ([.useAfterMove f.id block l], state)
  else ([], if consume then state.erase l else state)

def checkOperandOwnership (operand : Operand) (state : Finset Nat) : List VerificationError × Finset Nat :=
  match operand with
  | .const _ => ([], state)
  | .copy l  =>
    let read := checkRead f block initialized l false state
    (read.1 ++ (if localIsAffine f l then [.invalidCopy f.id block l] else []), read.2)
  | .move l  => checkRead f block initialized l true state

def checkOperandsOwnership : List Operand → Finset Nat → List VerificationError × Finset Nat
  | [], state      => ([], state)
  | o :: os, state =>
    let first := checkOperandOwnership f block initialized o state
    let rest := checkOperandsOwnership os first.2
    (first.1 ++ rest.1, rest.2)

def checkRvalueOwnership (value : Rvalue) (state : Finset Nat) : List VerificationError × Finset Nat :=
  match value with
  | .borrow _ place        => checkRead f block initialized (placeLocal place) false state
  | .use o                 => checkOperandOwnership f block initialized o state
  | .discriminant o        => checkOperandOwnership f block initialized o state
  | .aggregate _ _ fields  => checkOperandsOwnership f block initialized fields state
  | .binary _ left right   => checkOperandsOwnership f block initialized [left, right] state

def checkStatementOwnership (statement : Statement) (state : Finset Nat) :
    List VerificationError × Finset Nat :=
  match statement with
  | .assign destination value =>
    let read := checkRvalueOwnership f block initialized value state
    match destination with
    | .loc l     =>
      (read.1 ++ (if l ∈ read.2 ∧ localIsAffine f l then [.overwriteWithoutDrop f.id block l] else []),
        insert l read.2)
    | .field _ _ => read
  | .drop place =>
    let l := placeLocal place
    (if l ∉ state ∧ l ∈ initialized then [.doubleDrop f.id block l] else [], state.erase l)

def checkStatementsOwnership : List Statement → Finset Nat → List VerificationError × Finset Nat
  | [], state      => ([], state)
  | s :: ss, state =>
    let first := checkStatementOwnership f block initialized s state
    let rest := checkStatementsOwnership ss first.2
    (first.1 ++ rest.1, rest.2)

/-- The destination of a call is taken over without a look at what it holds. -/
def checkTerminatorOwnership (terminator : Terminator) (state : Finset Nat) :
    List VerificationError × Finset Nat :=
  match terminator with
  | .ret                       => checkRead f block initialized 0 false state
  | .switchInt value _ _       => checkOperandOwnership f block initialized value state
  | .call _ args destination _ =>
    let read := checkOperandsOwnership f block initialized args state
    (read.1, insertPlace destination read.2)
  | .goto _                    => ([], state)

def checkBlockOwnership (b : BasicBlock) (state : Finset Nat) : List VerificationError :=
  let body := checkStatementsOwnership f block initialized b.statements state
  body.1 ++ (match b.terminator with
    | some t => (checkTerminatorOwnership f block initialized t body.2).1
    | none   => [])

end

def verifyAffineOwnership (f : MirFunction) : List VerificationError :=
  if f.blocks.isEmpty then [] else
  f.blocks.zipIdx.flatMap (fun (b, i) => match (ownedOnEntry f)[i]? with
    | some (some state) => checkBlockOwnership f i (everInitialized f) b state
    | _                 => [])

/-! ## Structure, types and definite initialization -/

section
variable (f : MirFunction) (block : Nat)

def verifyLocalUse (l : Nat) (defined : Finset Nat) : List VerificationError :=
  if f.locals.length ≤ l then [.invalidLocal f.id block l]
  else if l ∉ defined then [.useBeforeDefinition f.id block l]
  else []

/-- An operand's type, absent when its local is out of range. -/
def operandType (operand : Operand) (defined : Finset Nat) : List VerificationError × Option MirType :=
  match operand with
  | .const c => ([], some c.ty)
  | .copy l  => (verifyLocalUse f block l defined, f.locals[l]?)
  | .move l  => (verifyLocalUse f block l defined, f.locals[l]?)

/-- A place's type: only a whole local has one. -/
def placeType (place : Place) : List VerificationError × Option MirType :=
  match f.locals[placeLocal place]? with
  | none    => ([.invalidLocal f.id block (placeLocal place)], none)
  | some ty => match place with
    | .loc _     => ([], some ty)
    | .field _ _ => ([], none)

def binaryType (operator : BinaryOp) (left : MirType) : List VerificationError × MirType :=
  match operator with
  | .equal | .less => ([], .bool)
  | .and | .or     => if left = .bool then ([], .bool) else ([.typeMismatch f.id block .bool left], .bool)
  | _              => ([], left)

def verifyRvalue (value : Rvalue) (defined : Finset Nat) : List VerificationError × Option MirType :=
  match value with
  | .borrow mutable place =>
    let ty := placeType f block place
    (verifyLocalUse f block (placeLocal place) defined ++ ty.1, ty.2.map (MirType.reference mutable))
  | .use o => operandType f block o defined
  | .discriminant o => ((operandType f block o defined).1, some .u64)
  | .aggregate ty _ fields => (fields.flatMap (fun o => (operandType f block o defined).1), some (.aggregate ty))
  | .binary operator left right =>
    let l := operandType f block left defined
    match l.2 with
    | none => (l.1, none)
    | some lt =>
      let r := operandType f block right defined
      match r.2 with
      | none => (l.1 ++ r.1, none)
      | some rt =>
        let result := binaryType f block operator lt
        (l.1 ++ r.1 ++ (if lt ≠ rt then [.typeMismatch f.id block lt rt] else []) ++ result.1, some result.2)

def verifyStatement (statement : Statement) (defined : Finset Nat) : List VerificationError × Finset Nat :=
  match statement with
  | .assign destination value =>
    let v := verifyRvalue f block value defined
    let d := placeType f block destination
    match d.2 with
    | none    => (v.1 ++ d.1, defined)
    | some dt =>
      (v.1 ++ d.1 ++ (match v.2 with
        | some vt => if dt ≠ vt then [.typeMismatch f.id block dt vt] else []
        | none    => []), insertPlace destination defined)
  | .drop place => (verifyLocalUse f block (placeLocal place) defined, defined)

def verifyStatements : List Statement → Finset Nat → List VerificationError × Finset Nat
  | [], defined      => ([], defined)
  | s :: ss, defined =>
    let first := verifyStatement f block s defined
    let rest := verifyStatements ss first.2
    (first.1 ++ rest.1, rest.2)

/-- Arguments against the locals after the callee's return slot. -/
def verifyArguments (signature : MirFunction) : Nat → List Operand → Finset Nat → List VerificationError
  | _, [], _            => []
  | k, o :: os, defined =>
    let a := operandType f block o defined
    a.1 ++ (match a.2, signature.locals[k + 1]? with
      | some actual, some expected => if actual ≠ expected then [.typeMismatch f.id block expected actual] else []
      | _, _                       => []) ++ verifyArguments signature (k + 1) os defined

def verifyTerminator (p : MirProgram) (terminator : Terminator) (defined : Finset Nat) :
    List VerificationError :=
  match terminator with
  | .ret    => verifyLocalUse f block 0 defined
  | .goto _ => []
  | .switchInt value _ _ =>
    let v := operandType f block value defined
    v.1 ++ (match v.2 with
      | some .bool | some .i64 | some .u64 | none => []
      | some actual                               => [.invalidSwitchType f.id block actual])
  | .call callee args destination _ =>
    match p.lookup callee with
    | none => []
    | some signature =>
      (if args.length ≠ signature.parameterCount then
        [.argumentCount f.id block signature.parameterCount args.length] else []) ++
      verifyArguments f block signature 0 args defined ++
      (let d := placeType f block destination
       d.1 ++ (match d.2 with
        | some actual => if actual ≠ signature.returnType then
            [.typeMismatch f.id block signature.returnType actual] else []
        | none        => []))

def verifyBlock (p : MirProgram) (b : BasicBlock) (defined : Finset Nat) : List VerificationError :=
  let body := verifyStatements f block b.statements defined
  body.1 ++ (match b.terminator with
    | some t => verifyTerminator f block p t body.2
    | none   => [])

end

/-- Terminators, edges and callees of every block, reachable or not. -/
def verifyTargets (p : MirProgram) (f : MirFunction) : List VerificationError :=
  f.blocks.zipIdx.flatMap (fun (b, i) => match b.terminator with
    | none   => [.missingTerminator f.id i]
    | some t =>
      (successors t).flatMap (fun target =>
        if f.blocks.length ≤ target then [.invalidBlockTarget f.id i target] else []) ++
      (match t with
        | .call callee _ _ _ => if (p.lookup callee).isNone then [.unknownFunction f.id i callee] else []
        | _                  => []))

def verifyFunction (p : MirProgram) (f : MirFunction) : List VerificationError :=
  match f.locals, f.blocks with
  | [], _ | _, [] => [.emptyFunction f.id]
  | ret :: _, _ :: _ =>
    let result := if ret ≠ f.returnType then [VerificationError.typeMismatch f.id 0 f.returnType ret] else []
    if f.locals.length < f.parameterCount + 1 then result ++ [.invalidLocal f.id 0 f.parameterCount]
    else result ++ verifyTargets p f ++
      f.blocks.zipIdx.flatMap (fun (b, i) => match (definiteInitialization f)[i]? with
        | some (some defined) => verifyBlock f i p b defined
        | _                   => [])

/-- Every failure of every function, in order; `ok` when there is none. -/
def verify (p : MirProgram) : Except (List VerificationError) Unit :=
  let errors := p.functions.flatMap (fun f => verifyFunction p f ++ verifyAffineOwnership f)
  if errors.isEmpty then .ok () else .error errors

end Mir
end Syllog
