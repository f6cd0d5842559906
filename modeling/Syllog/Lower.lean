import Syllog.Hir
import Syllog.Verify
import Mathlib.Algebra.Group.Nat.Defs
/-!
# Lower — from the typed tree to control-flow MIR

`FunctionBuilder` grows one function: statements go to the end of the current block, calls and matches end it and move
on to fresh blocks, operands are returned unread.  `insertDrops` then adds the missing drops from the verifier's ownership
analysis (written out a second time in the source), and the program is returned only if it verifies.  Locals and blocks
are numbered without the 32-bit saturation.
-/
namespace Syllog
namespace Lower

open Mir Hir

inductive DiagnosticMessage where
  | text (message : String)
  | unsupportedType (ty : ResolvedType)
  | invariant (error : VerificationError)

/-- An error at a source range of the file `<mir>`. -/
structure Diagnostic where
  code : String
  message : DiagnosticMessage
  span : Span

/-! ## The program index -/

/-- `BTreeMap::insert` on a list kept in key order. -/
def insertSorted {α : Type} (key : DefId) (value : α) : List (DefId × α) → List (DefId × α)
  | []             => [(key, value)]
  | (k, v) :: rest =>
    if key = k then (key, value) :: rest
    else if key.module < k.module ∨ (key.module = k.module ∧ key.index < k.index) then (key, value) :: (k, v) :: rest
    else (k, v) :: insertSorted key value rest

/-- The newest entry of a key. -/
def lookupKey {κ α : Type} [DecidableEq κ] (key : κ) (entries : List (κ × α)) : Option α :=
  (entries.find? (fun e => e.1 = key)).map Prod.snd

structure ProgramIndex where
  types : List (String × DefId)
  variants : List (DefId × (DefId × UInt64))

def discriminantAt (index : Nat) : UInt64 := UInt64.ofNat (min index (2 ^ 64 - 1))

def ProgramIndex.insertVariants (id : DefId) : Nat → List HirVariant → List (DefId × (DefId × UInt64)) →
    List (DefId × (DefId × UInt64))
  | _, [], entries                  => entries
  | index, variant :: rest, entries =>
    ProgramIndex.insertVariants id (index + 1) rest ((variant.id, (id, discriminantAt index)) :: entries)

def ProgramIndex.insertDefinition (ix : ProgramIndex) (definition : HirDefinition) : ProgramIndex :=
  match definition.kind with
  | .struct _ | .state _ => { ix with types := (definition.name, definition.id) :: ix.types }
  | .enum variants   =>
    { types := (definition.name, definition.id) :: ix.types
      variants := ProgramIndex.insertVariants definition.id 0 variants ix.variants }
  | _                => ix

/-- Definitions are entered in the order of their identities. -/
def ProgramIndex.new (p : HirProgram) : ProgramIndex :=
  let definitions := p.definitions.foldl (fun entries d => insertSorted d.id d entries) []
  definitions.foldl (fun ix entry => ix.insertDefinition entry.2) ⟨[], []⟩

def ProgramIndex.lowerType (ix : ProgramIndex) : ResolvedType → Option MirType
  | .unit                     => some .unit
  | .primitive .bool          => some .bool
  | .primitive .string        => some .string
  | .primitive .str           => some .string
  | .primitive (.signed w)    => if w = "I64" then some .i64 else none
  | .primitive (.unsigned w)  => if w = "U64" then some .u64 else none
  | .reference _ mutable inner => (ix.lowerType inner).map (MirType.reference mutable)
  | .struct name              => (lookupKey name ix.types).map .aggregate
  | .enum name                => (lookupKey name ix.types).map .aggregate
  | .state name               => (lookupKey name ix.types).map .aggregate
  | _                         => none

/-! ## The builder -/

structure FunctionBuilder where
  locals : List MirType
  blocks : List BasicBlock
  current : Nat
  bindings : List (DefId × Nat)
  diagnostics : List Diagnostic

namespace FunctionBuilder

def new : FunctionBuilder := ⟨[], [⟨[], none⟩], 0, [], []⟩

def newLocal (b : FunctionBuilder) (ty : MirType) : Nat × FunctionBuilder :=
  (b.locals.length, { b with locals := b.locals ++ [ty] })

def newBlock (b : FunctionBuilder) : Nat × FunctionBuilder :=
  (b.blocks.length, { b with blocks := b.blocks ++ [⟨[], none⟩] })

/-- One block for each of the given arms. -/
def newBlocks (b : FunctionBuilder) (count : Nat) : FunctionBuilder :=
  { b with blocks := b.blocks ++ List.replicate count ⟨[], none⟩ }

/-- The terminator of the block being filled. -/
def terminator (b : FunctionBuilder) : Option Terminator := b.blocks[b.current]?.bind (·.terminator)

def assign (b : FunctionBuilder) (destination : Place) (value : Rvalue) : FunctionBuilder :=
  { b with blocks := b.blocks.modify b.current (fun block =>
      { block with statements := block.statements ++ [.assign destination value] }) }

def terminate (b : FunctionBuilder) (t : Terminator) : FunctionBuilder :=
  { b with blocks := b.blocks.modify b.current (fun block => { block with terminator := some t }) }

def enter (b : FunctionBuilder) (block : Nat) : FunctionBuilder := { b with current := block }

def bind (b : FunctionBuilder) (definition : DefId) (l : Nat) : FunctionBuilder :=
  { b with bindings := (definition, l) :: b.bindings }

def error (b : FunctionBuilder) (span : Span) (message : DiagnosticMessage) : FunctionBuilder :=
  { b with diagnostics := b.diagnostics ++ [⟨"SYL3101", message, span⟩] }

def requiredType (b : FunctionBuilder) (ix : ProgramIndex) (ty : ResolvedType) (span : Span) :
    MirType × FunctionBuilder :=
  match ix.lowerType ty with
  | some lowered => (lowered, b)
  | none         => (.unit, b.error span (.unsupportedType ty))

def operandType (b : FunctionBuilder) : Operand → Option MirType
  | .const c => some c.ty
  | .copy l  => b.locals[l]?
  | .move l  => b.locals[l]?

end FunctionBuilder

/-! ## Expressions -/

def unitOperand : Operand := .const .unit

def BinaryOperator.comparison : BinaryOperator → Bool
  | .equal | .notEqual | .less | .lessEqual | .greater | .greaterEqual => true
  | _                                                                  => false

def lowerBinary : BinaryOperator → Option BinaryOp
  | .add      => some .add
  | .subtract => some .subtract
  | .multiply => some .multiply
  | .divide   => some .divide
  | .equal    => some .equal
  | .less     => some .less
  | .and      => some .and
  | .or       => some .or
  | _         => none

/-- The constant of a literal: an integer is `I64` where that is expected or where it is negative, else `U64`. -/
def literalConstant (literal : Literal) (expected : Option MirType) : Option Constant :=
  match literal with
  | .string value  => some (.string value)
  | .boolean value => some (.bool value)
  | .integer value =>
    if expected = some .i64 then some (.i64 value)
    else if 0 ≤ value.toInt then some (.u64 (UInt64.ofNat value.toInt.toNat))
    else some (.i64 value)
  | .float _ | .identifier _ => none

def lowerLiteral (literal : Literal) (span : Span) (expected : Option MirType) (b : FunctionBuilder) :
    Operand × FunctionBuilder :=
  match literalConstant literal expected with
  | some c => (.const c, b)
  | none   => (unitOperand, b.error span (.text "literal is not in the executable MIR subset"))

def lowerReference (ix : ProgramIndex) (definition : DefId) (span : Span) (b : FunctionBuilder) :
    Operand × FunctionBuilder :=
  match lookupKey definition b.bindings with
  | some l =>
    if (b.locals[l]?.map mirTypeIsCopy).getD false then (.copy l, b) else (.move l, b)
  | none => match lookupKey definition ix.variants with
    | some (aggregate, discriminant) =>
      let (l, b) := b.newLocal (.aggregate aggregate)
      (.move l, b.assign (.loc l) (.aggregate aggregate discriminant []))
    | none => (unitOperand, b.error span (.text "value reference is not executable in MIR"))

def lowerBorrow (ix : ProgramIndex) (mutable : Bool) (operand : TypedExpr) (ty : ResolvedType) (span : Span)
    (b : FunctionBuilder) : Operand × FunctionBuilder :=
  match operand.kind with
  | .reference definition => match lookupKey definition b.bindings with
    | some l =>
      let (reference, b) := b.newLocal ((ix.lowerType ty).getD .unit)
      (.move reference, b.assign (.loc reference) (.borrow mutable (.loc l)))
    | none => (unitOperand, b.error span (.text "MIR borrow target is not a local"))
  | _ => (unitOperand, b.error span (.text "MIR borrows require a direct local place"))

/-- What is left of a binary expression once its operands are lowered. -/
def finishBinary (operator : BinaryOperator) (left right : Operand) (operandTy : Option MirType) (span : Span)
    (b : FunctionBuilder) : Operand × FunctionBuilder :=
  let result := if BinaryOperator.comparison operator then .bool else operandTy.getD .unit
  match lowerBinary operator with
  | none => (unitOperand, b.error span (.text "binary operator is not in the executable subset"))
  | some operator =>
    let (l, b) := b.newLocal result
    (.move l, b.assign (.loc l) (.binary operator left right))

/-- The type a call or a match is stored at. -/
def storedType (ix : ProgramIndex) (ty : ResolvedType) (expected : Option MirType) : MirType :=
  expected.getD ((ix.lowerType ty).getD .unit)

/-- What is left of a call once its arguments are lowered. -/
def finishCall (callee : DefId) (args : List Operand) (result : MirType) (b : FunctionBuilder) :
    Operand × FunctionBuilder :=
  let (destination, b) := b.newLocal result
  let (next, b) := b.newBlock
  (.move destination, (b.terminate (.call callee args (.loc destination) next)).enter next)

def patternDiscriminant (ix : ProgramIndex) : HirPattern → Option UInt64
  | .variant definition []    => (lookupKey definition ix.variants).map Prod.snd
  | .literal (.boolean value) => some (if value then 1 else 0)
  | _                         => none

/-- The exact edges of a match, from the arm of block `block` on; the last arm is the default. -/
def matchTargets (ix : ProgramIndex) : Nat → List HirMatchArm → FunctionBuilder →
    List (Nat × Nat) × FunctionBuilder
  | block, .mk pattern _ _ span :: next :: arms, b =>
    match patternDiscriminant ix pattern with
    | some d =>
      let (targets, b) := matchTargets ix (block + 1) (next :: arms) b
      ((d.toNat, block) :: targets, b)
    | none =>
      matchTargets ix (block + 1) (next :: arms)
        (b.error span (.text "non-final match arms require a closed discriminant"))
  | _, _, b => ([], b)

/-- The blocks of a match, entered at its first arm: the discriminant's local, the result's, the join block, the arms'. -/
def openMatch (ix : ProgramIndex) (value : Operand) (resultTy : MirType) (arms : List HirMatchArm)
    (b : FunctionBuilder) : Nat × Nat × FunctionBuilder :=
  let (discriminant, b) := b.newLocal .u64
  let b := b.assign (.loc discriminant) (.discriminant value)
  let (result, b) := b.newLocal resultTy
  let (join, b) := b.newBlock
  let b := b.newBlocks arms.length
  let (targets, b) := matchTargets ix (join + 1) arms b
  (result, join, b.terminate (.switchInt (.copy discriminant) targets (join + arms.length)))

/-- The end of an arm: its value goes to the match's result. -/
def closeArm (result join : Nat) (value : Operand) (b : FunctionBuilder) : FunctionBuilder :=
  (b.assign (.loc result) (.use value)).terminate (.goto join)

def openArm (block : Nat) (guard : Option TypedExpr) (span : Span) (b : FunctionBuilder) : FunctionBuilder :=
  match guard with
  | some _ => (b.enter block).error span (.text "guarded matches are not in the executable subset")
  | none   => b.enter block

def setResult (value : Operand) (b : FunctionBuilder) : FunctionBuilder :=
  (b.assign (.loc 0) (.use value)).terminate .ret

/-- A `return` without a value. -/
def returnUnit (result : MirType) (b : FunctionBuilder) : FunctionBuilder :=
  (if result = .unit then b.assign (.loc 0) (.use unitOperand) else b).terminate .ret

def bindLocal (definition : DefId) (ty : MirType) (value : Operand) (b : FunctionBuilder) : FunctionBuilder :=
  let (l, b) := b.newLocal ty
  (b.assign (.loc l) (.use value)).bind definition l

mutual
def lowerExpression (ix : ProgramIndex) : TypedExpr → Option MirType → FunctionBuilder → Operand × FunctionBuilder
  | .mk (.borrow mutable operand) ty span, _, b => lowerBorrow ix mutable operand ty span b
  | .mk (.await operand) _ _, expected, b => lowerExpression ix operand expected b
  | .mk (.literal literal) _ span, expected, b => lowerLiteral literal span expected b
  | .mk (.reference definition) _ span, _, b => lowerReference ix definition span b
  | .mk (.binary operator left right) _ span, expected, b =>
    let (l, b) := lowerExpression ix left expected b
    let operandTy := (b.operandType l).or expected
    let (r, b) := lowerExpression ix right operandTy b
    finishBinary operator l r operandTy span b
  | .mk (.call callee arguments) ty span, expected, b =>
    match callee.kind with
    | .reference definition =>
      let (args, b) := lowerArguments ix arguments b
      finishCall definition args (storedType ix ty expected) b
    | _ => (unitOperand, b.error span (.text "only direct function calls are executable"))
  | .mk (.match_ value arms) ty span, expected, b =>
    match arms with
    | [] => (unitOperand, b.error span (.text "match requires at least one arm"))
    | arm :: rest =>
      let (v, b) := lowerExpression ix value none b
      let resultTy := storedType ix ty expected
      let (result, join, b) := openMatch ix v resultTy (arm :: rest) b
      (.move result, (lowerArms ix resultTy result join (join + 1) (arm :: rest) b).enter join)
  | .mk (.block statements) _ _, expected, b =>
    (.copy 0, lowerBlock ix statements (expected.getD .unit) b)
  | .mk (.array _) _ span, _, b =>
    (unitOperand, b.error span (.text "expression is not in the executable MIR subset"))
  | .mk (.field _ _) _ span, _, b =>
    (unitOperand, b.error span (.text "expression is not in the executable MIR subset"))
  | .mk (.unary _ _) _ span, _, b =>
    (unitOperand, b.error span (.text "expression is not in the executable MIR subset"))
def lowerArguments (ix : ProgramIndex) : List TypedExpr → FunctionBuilder → List Operand × FunctionBuilder
  | [], b      => ([], b)
  | e :: es, b =>
    let (o, b) := lowerExpression ix e none b
    let (os, b) := lowerArguments ix es b
    (o :: os, b)
def lowerArms (ix : ProgramIndex) (resultTy : MirType) (result join : Nat) :
    Nat → List HirMatchArm → FunctionBuilder → FunctionBuilder
  | _, [], b => b
  | block, .mk _ guard body span :: arms, b =>
    let (v, b) := lowerExpression ix body (some resultTy) (openArm block guard span b)
    lowerArms ix resultTy result join (block + 1) arms (closeArm result join v b)
/-- The statements of a block, until one of them has ended the current block. -/
def lowerBlock (ix : ProgramIndex) : List HirStatement → MirType → FunctionBuilder → FunctionBuilder
  | [], _, b => b
  | .let_ definition ty value :: rest, result, b =>
    if b.terminator.isSome then b else
    let (lowered, b) := b.requiredType ix ty value.span
    let (v, b) := lowerExpression ix value (some lowered) b
    lowerBlock ix rest result (bindLocal definition lowered v b)
  | .return_ (some value) :: rest, result, b =>
    if b.terminator.isSome then b else
    let (v, b) := lowerExpression ix value (some result) b
    lowerBlock ix rest result (setResult v b)
  | .return_ none :: rest, result, b =>
    if b.terminator.isSome then b else
    lowerBlock ix rest result (returnUnit result b)
  | [.expression e], result, b =>
    if b.terminator.isSome then b else
    let (v, b) := lowerExpression ix e (some result) b
    setResult v b
  | .expression e :: next :: rest, result, b =>
    if b.terminator.isSome then b else
    let (_, b) := lowerExpression ix e none b
    lowerBlock ix (next :: rest) result b
end

/-! ## Functions -/

def lowerParameters (ix : ProgramIndex) : List HirParameter → FunctionBuilder → FunctionBuilder
  | [], b              => b
  | parameter :: rest, b =>
    let (ty, b) := b.requiredType ix parameter.ty parameter.span
    let (l, b) := b.newLocal ty
    lowerParameters ix rest (b.bind parameter.id l)

/-- The builder at the start of the body: the return slot and the parameters. -/
def openFunction (ix : ProgramIndex) (definition : HirDefinition) (function : HirFunction) :
    MirType × FunctionBuilder :=
  let (result, b) := FunctionBuilder.new.requiredType ix function.result definition.span
  let (_, b) := b.newLocal result
  (result, lowerParameters ix function.parameters b)

/-- A body that did not end its last block returns, with unit where that is the result. -/
def closeFunction (result : MirType) (b : FunctionBuilder) : FunctionBuilder :=
  if b.terminator.isSome then b else returnUnit result b

def lowerBody (ix : ProgramIndex) (definition : HirDefinition) (function : HirFunction) : MirType × FunctionBuilder :=
  let (result, b) := openFunction ix definition function
  (result, closeFunction result (lowerBlock ix function.body result b))

def lowerFunction (ix : ProgramIndex) (definition : HirDefinition) (function : HirFunction) :
    MirFunction × List Diagnostic :=
  let (result, b) := lowerBody ix definition function
  ({ id := definition.id, parameterCount := function.parameters.length, returnType := result, locals := b.locals
     blocks := b.blocks }, b.diagnostics)

/-! ## Drops -/

def mirTypeNeedsDrop : MirType → Bool
  | .string | .aggregate _ => true
  | .reference mutable _   => mutable
  | _                      => false

def localNeedsDrop (f : MirFunction) (l : Nat) : Bool := (f.locals[l]?.map mirTypeNeedsDrop).getD false

/-- The locals a block may have to drop before its terminator: all it owns at a return, those the target does not own at
a jump. -/
def dropCandidates (incoming : Dataflow.Incoming Nat) (state : Finset Nat) : Option Terminator → Finset Nat
  | some .ret           => state
  | some (.goto target) => match incoming[target]? with
    | some (some next) => state \ next
    | _                => ∅
  | _                   => ∅

/-- The drops added to a block, from the last local to the first. -/
def blockDrops (f : MirFunction) (incoming : Dataflow.Incoming Nat) (index : Nat) (block : BasicBlock) :
    List Statement :=
  match incoming[index]? with
  | some (some entry) =>
    let candidates := dropCandidates incoming (block.statements.foldl transferStatement entry) block.terminator
    ((List.range f.locals.length).reverse.filter (fun l => l ∈ candidates ∧ l ≠ 0 ∧ localNeedsDrop f l)).map
      (fun l => .drop (.loc l))
  | _ => []

def insertFunctionDrops (f : MirFunction) : MirFunction :=
  if f.blocks = [] then f else
  { f with blocks := f.blocks.mapIdx (fun index block =>
      { block with statements := block.statements ++ blockDrops f (ownedOnEntry f) index block }) }

/-! ## Programs -/

def HirProgram.functions (p : HirProgram) : List (HirDefinition × HirFunction) :=
  p.definitions.filterMap (fun d => match d.kind with
    | .function f => some (d, f)
    | _           => none)

def mirDiagnostic (error : VerificationError) : Diagnostic := ⟨"SYL3102", .invariant error, default⟩

/-- `lower_to_mir`. -/
def lowerToMir (p : HirProgram) : Except (List Diagnostic) MirProgram :=
  let lowered := (HirProgram.functions p).map (fun (d, f) => lowerFunction (ProgramIndex.new p) d f)
  let diagnostics := lowered.flatMap Prod.snd
  if diagnostics.isEmpty then
    let program : MirProgram := ⟨lowered.map (fun (f, _) => insertFunctionDrops f), p.entry⟩
    match verify program with
    | .ok ()        => .ok program
    | .error errors => .error (errors.map mirDiagnostic)
  else .error diagnostics

end Lower
end Syllog
