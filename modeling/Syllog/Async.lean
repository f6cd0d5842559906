import Syllog.Lower
import Mathlib.Data.List.Destutter
import Mathlib.Data.List.Sort
/-!
# Async — async functions as explicit state machines

`async_lower.rs` and the async part of `syllog-ir`: a function with `n` await points becomes a table of `2n + 3` states,
numbered from zero, and a verifier checks the table.  State and await numbers are 32-bit; sums wrap, as they do in a
release build.
-/
namespace Syllog
namespace Async

open Hir Lower

abbrev AsyncStateId := UInt32

inductive AsyncTransition where
  | start (next : AsyncStateId)
  | suspend (awaitIndex : UInt32) (resume cancel : AsyncStateId)
  | resume (next panic : AsyncStateId)
  | complete
  | cancel (dropLocals : List DefId)
deriving DecidableEq, Repr

structure AsyncState where
  id : AsyncStateId
  transition : AsyncTransition
deriving DecidableEq, Repr

structure AsyncStateMachine where
  function : DefId
  parentScopeRequired : Bool
  liveLocals : List DefId
  states : List AsyncState
deriving DecidableEq, Repr

/-! ## Verification -/

inductive AsyncVerificationError where
  | invalidStateTable
  | invalidTarget (state target : AsyncStateId)
  | invalidTerminalCount
  | missingParentScope
deriving DecidableEq, Repr

def AsyncTransition.targets : AsyncTransition → List AsyncStateId
  | .start next                => [next]
  | .suspend _ woken cancelled => [woken, cancelled]
  | .resume next panic         => [next, panic]
  | .complete                  => []
  | .cancel _                  => []

def AsyncTransition.isComplete : AsyncTransition → Bool
  | .complete => true
  | _         => false

def AsyncTransition.isCancel : AsyncTransition → Bool
  | .cancel _ => true
  | _         => false

/-- `u32::try_from(index).unwrap_or(u32::MAX)`. -/
def stateId (index : Nat) : AsyncStateId := if index < 2 ^ 32 then UInt32.ofNat index else 0xFFFFFFFF

/-- The ids are the positions, and there is at least one state. -/
def contiguous (states : List AsyncState) : Bool :=
  !states.isEmpty && states.zipIdx.all fun (state, index) => state.id == stateId index

def verificationErrors (m : AsyncStateMachine) : List AsyncVerificationError :=
  (if contiguous m.states then [] else [.invalidStateTable]) ++
  (if m.parentScopeRequired then [] else [.missingParentScope]) ++
  (m.states.flatMap fun state =>
    (state.transition.targets.filter (m.states.length ≤ ·.toNat)).map (.invalidTarget state.id ·)) ++
  (if m.states.countP (·.transition.isComplete) = 1 ∧ m.states.countP (·.transition.isCancel) = 1 then []
    else [.invalidTerminalCount])

def verifyAsyncMachine (m : AsyncStateMachine) : Except (List AsyncVerificationError) Unit :=
  if verificationErrors m = [] then .ok () else .error (verificationErrors m)

/-! ## Lowering -/

def saturatingAdd (a b : UInt32) : UInt32 := UInt32.ofNat (min (a.toNat + b.toNat) (2 ^ 32 - 1))

def saturatingMul (a b : UInt32) : UInt32 := UInt32.ofNat (min (a.toNat * b.toNat) (2 ^ 32 - 1))

def TypedExpr.isAwait (e : TypedExpr) : Bool :=
  match e.kind with
  | .await _ => true
  | _        => false

def countExpressionAwaits (expression : TypedExpr) (count : UInt32) : UInt32 :=
  expression.walk.foldl (fun count e => if TypedExpr.isAwait e then saturatingAdd count 1 else count) count

def countStatementAwaits (statement : HirStatement) (count : UInt32) : UInt32 :=
  match statement with
  | .let_ _ _ value        => countExpressionAwaits value count
  | .expression value      => countExpressionAwaits value count
  | .return_ (some value)  => countExpressionAwaits value count
  | .return_ none          => count

mutual
def containsBorrow : ResolvedType → Bool
  | .primitive .str             => true
  | .option inner               => containsBorrow inner
  | .array inner                => containsBorrow inner
  | .result ok err              => containsBorrow ok || containsBorrow err
  | .tuple items                => anyBorrow items
  | .function parameters result => anyBorrow parameters || containsBorrow result
  | _                           => false
def anyBorrow : List ResolvedType → Bool
  | []      => false
  | t :: ts => containsBorrow t || anyBorrow ts
end

def letDefinition : HirStatement → Option (DefId × ResolvedType)
  | .let_ definition ty _ => some (definition, ty)
  | _                     => none

/-- Parameters and the lets of the outermost block, in declaration order, with their types. -/
def frameLocals (f : HirFunction) : List (DefId × ResolvedType) :=
  f.parameters.map (fun p => (p.id, p.ty)) ++ f.body.filterMap letDefinition

/-- `DefId`s in their derived order. -/
def DefId.le (a b : DefId) : Prop := a.module < b.module ∨ (a.module = b.module ∧ a.index ≤ b.index)

instance : DecidableRel DefId.le := fun a b => inferInstanceAs (Decidable (a.module < b.module ∨ (_ ∧ a.index ≤ b.index)))

/-- The locals of the frame, sorted and without repetition. -/
def liveLocals (f : HirFunction) : List DefId :=
  (((frameLocals f).map (·.1)).insertionSort DefId.le).destutter (· ≠ ·)

def countAwaits (f : HirFunction) : UInt32 := f.body.foldl (fun count s => countStatementAwaits s count) 0

def borrowedLocals (f : HirFunction) : List DefId := ((frameLocals f).filter (containsBorrow ·.2)).map (·.1)

/-- The two states of one await point. -/
def awaitStates (awaits complete cancel awaitIndex : UInt32) : List AsyncState :=
  let suspend := 1 + awaitIndex * 2
  let resume := suspend + 1
  let next := if awaitIndex + 1 = awaits then complete else suspend + 2
  [⟨suspend, .suspend awaitIndex resume cancel⟩, ⟨resume, .resume next cancel⟩]

def buildMachine (function : DefId) (awaits : UInt32) (liveLocals : List DefId) : AsyncStateMachine :=
  let complete := 1 + saturatingMul awaits 2
  let cancel := complete + 1
  { function, liveLocals, parentScopeRequired := true
    states := [⟨0, .start (if awaits = 0 then complete else 1)⟩] ++
      ((List.range awaits.toNat).flatMap fun i => awaitStates awaits complete cancel (UInt32.ofNat i)) ++
      [⟨complete, .complete⟩, ⟨cancel, .cancel liveLocals⟩] }

inductive AsyncLowerError where
  | verification (errors : List AsyncVerificationError)
  | borrowAcrossAwait (function : DefId) (locals : List DefId)
deriving DecidableEq, Repr

def lowerAsyncFunction (definition : DefId) (f : HirFunction) : Except AsyncLowerError AsyncStateMachine :=
  if 0 < countAwaits f ∧ borrowedLocals f ≠ [] then .error (.borrowAcrossAwait definition (borrowedLocals f))
  else
    let machine := buildMachine definition (countAwaits f) (liveLocals f)
    match verifyAsyncMachine machine with
    | .ok _         => .ok machine
    | .error errors => .error (.verification errors)

def asyncFunctions (p : HirProgram) : List (HirDefinition × HirFunction) := (HirProgram.functions p).filter (·.2.asynchronous)

def lowerAsyncStateMachines (p : HirProgram) : Except AsyncLowerError (List AsyncStateMachine) :=
  (asyncFunctions p).mapM fun (definition, f) => lowerAsyncFunction definition.id f

end Async
end Syllog
