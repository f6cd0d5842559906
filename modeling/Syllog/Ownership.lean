import Syllog.Ast
/-!
# Ownership — affine moves, lexical borrows, regions

`ownership.rs` of `syllog-semantic`: a walk over every function body that keeps, for every variable in scope, whether it is
available, moved or borrowed.  Borrows end with the last use of the variable that holds them.
-/
namespace Syllog
namespace Ownership

open Hir (Span Literal Diagnostic)
open Ast

inductive OwnershipState where
  | available
  | moved
  | sharedBorrowed (count : Nat)
  | mutBorrowed
deriving DecidableEq, Repr

inductive Origin where
  | parameter | local_
deriving DecidableEq, Repr

structure Variable where
  state : OwnershipState
  copy : Bool
  origin : Origin
  borrow : Option (String × Bool)
deriving DecidableEq, Repr

inductive UseMode where
  | consume | read
deriving DecidableEq, Repr

abbrev Variables := OrdMap String Variable

/-- The checker of one function. -/
structure Checker where
  file : String
  vars : Variables
  diagnostics : List Diagnostic

/-! ## Types, places and uses -/

def isDigits (s : List Char) : Bool := s.all Char.isDigit

/-- The widths `I8`, `U64`, `F32` and so on; a bare `I`, `U` or `F` passes too. -/
def isSizedName (name : String) : Bool :=
  match name.toList with
  | c :: width => (c = 'I' || c = 'U' || c = 'F') && isDigits width
  | []         => false

mutual
def typeIsCopy : TypeNode → Bool
  | .reference _ mutable _ _ => !mutable
  | .tuple items _           => typesAreCopy items
  | .path [name] [] _        =>
    name = "Bool" || name = "Char" || name = "Duration" || name = "Size" || name = "Str" || isSizedName name
  | .path _ _ _              => false
  | .array _ _               => false
def typesAreCopy : List TypeNode → Bool
  | []      => true
  | t :: ts => typeIsCopy t && typesAreCopy ts
end

/-- The variable a place is rooted in; a field borrows its whole root. -/
def placeName : Expr → Option String
  | .mk (.path [name]) _                => some name
  | .mk (.literal (.identifier name)) _ => some name
  | .mk (.field base _) _               => placeName base
  | _                                   => none

def borrowTarget : Expr → Option (String × Bool)
  | .mk (.borrow mutable operand) _ => (placeName operand).map (·, mutable)
  | _                               => none

def variableIsCopy (vars : Variables) (name : String) : Bool := (vars.get? name).all (·.copy)

def expressionIsCopy (vars : Variables) : Expr → Bool
  | .mk (.literal (.string _)) _        => false
  | .mk (.array _) _                    => false
  | .mk (.borrow mutable _) _           => !mutable
  | .mk (.path [name]) _                => variableIsCopy vars name
  | .mk (.literal (.identifier name)) _ => variableIsCopy vars name
  | _                                   => true

abbrev Uses := OrdMap String Nat

def Uses.note (uses : Uses) (index : Nat) : Option String → Uses
  | some name => uses.insert name index
  | none      => uses

mutual
def collectUses : Expr → Nat → Uses → Uses
  | .mk kind span, index, uses => collectKindUses kind index (uses.note index (placeName (.mk kind span)))
def collectKindUses : ExprKind → Nat → Uses → Uses
  | .borrow _ operand, index, uses           => collectUses operand index uses
  | .await operand, index, uses              => collectUses operand index uses
  | .unary _ operand, index, uses            => collectUses operand index uses
  | .field base _, index, uses               => collectUses base index uses
  | .array items, index, uses                => collectAllUses items index uses
  | .call callee arguments, index, uses      => collectArgumentUses arguments index (collectUses callee index uses)
  | .binary _ left right, index, uses        => collectUses right index (collectUses left index uses)
  | .match_ value arms, index, uses          => collectArmUses arms index (collectUses value index uses)
  | .block (.mk statements _), index, uses   =>
    (statementUses statements 0 OrdMap.empty).keys.foldl (fun uses name => uses.insert name index) uses
  | .literal _, _, uses                      => uses
  | .path _, _, uses                         => uses
def collectAllUses : List Expr → Nat → Uses → Uses
  | [], _, uses          => uses
  | e :: es, index, uses => collectAllUses es index (collectUses e index uses)
def collectArgumentUses : List CallArgument → Nat → Uses → Uses
  | [], _, uses                      => uses
  | .mk _ value _ :: as, index, uses => collectArgumentUses as index (collectUses value index uses)
def collectArmUses : List MatchArm → Nat → Uses → Uses
  | [], _, uses                                  => uses
  | .mk _ (some guard) body _ :: as, index, uses =>
    collectArmUses as index (collectUses body index (collectUses guard index uses))
  | .mk _ none body _ :: as, index, uses         => collectArmUses as index (collectUses body index uses)
/-- The last statement, from `index` on, that uses each name. -/
def statementUses : List Statement → Nat → Uses → Uses
  | [], _, uses                               => uses
  | .let_ _ _ value _ :: rest, index, uses    => statementUses rest (index + 1) (collectUses value index uses)
  | .expression value _ :: rest, index, uses  => statementUses rest (index + 1) (collectUses value index uses)
  | .return_ (some value) _ :: rest, index, uses => statementUses rest (index + 1) (collectUses value index uses)
  | .return_ none _ :: rest, index, uses      => statementUses rest (index + 1) uses
end

/-! ## The walk -/

namespace Checker

def error (c : Checker) (code message : String) (span : Span) : Checker :=
  { c with diagnostics := c.diagnostics ++ [⟨code, .error, message, c.file, span⟩] }

def setState (c : Checker) (name : String) (state : OwnershipState) : Checker :=
  match c.vars.get? name with
  | some var => { c with vars := c.vars.insert name { var with state := state } }
  | none          => c

def useVariable (c : Checker) (name : String) (mode : UseMode) (span : Span) : Checker :=
  match c.vars.get? name with
  | none          => c
  | some var =>
    if var.state = .moved then c.error "SYL2602" ("use of moved value '" ++ name ++ "'") span
    else if mode = .consume ∧ var.copy = false then
      match var.state with
      | .sharedBorrowed _ | .mutBorrowed => c.error "SYL2605" ("cannot move '" ++ name ++ "' while it is borrowed") span
      | _                                => c.setState name .moved
    else c

def borrow (c : Checker) (operand : Expr) (mutable : Bool) : Checker :=
  match placeName operand with
  | none      => c
  | some name =>
    match c.vars.get? name with
    | none          => c
    | some var =>
      match mutable, var.state with
      | _, .moved                     => c.error "SYL2602" ("cannot borrow moved value '" ++ name ++ "'") operand.span
      | true, .available              => c.setState name .mutBorrowed
      | false, .available             => c.setState name (.sharedBorrowed 1)
      | false, .sharedBorrowed count  => c.setState name (.sharedBorrowed (min (count + 1) (2 ^ 32 - 1)))
      | _, _ =>
        c.error "SYL2603" ("borrow of '" ++ name ++ "' conflicts with an overlapping borrow") operand.span

def released (mutable : Bool) : OwnershipState → OwnershipState
  | .mutBorrowed          => if mutable then .available else .mutBorrowed
  | .sharedBorrowed count =>
    if mutable then .sharedBorrowed count else if count = 1 then .available else .sharedBorrowed (count - 1)
  | state                 => state

def releaseBorrow (c : Checker) (binding : String) : Checker :=
  match (c.vars.get? binding).bind Variable.borrow with
  | none                   => c
  | some (target, mutable) =>
    let c := match c.vars.get? target with
      | some var => c.setState target (released mutable var.state)
      | none          => c
    match c.vars.get? binding with
    | some var => { c with vars := c.vars.insert binding { var with borrow := none } }
    | none          => c

def borrowedTargets (c : Checker) : List String :=
  (c.vars.entries.filter fun e => match e.2.state with
    | .sharedBorrowed _ | .mutBorrowed => true
    | _                                => false).map (·.1)

/-- The variable a returned expression borrows. -/
def returnTarget (c : Checker) : ExprKind → Option String
  | .borrow _ operand => placeName operand
  | .path [name]      => ((c.vars.get? name).bind Variable.borrow).map (·.1)
  | _                 => none

def checkReturnEscape (c : Checker) (expression : Expr) : Checker :=
  match c.returnTarget expression.kind with
  | none        => c
  | some target =>
    if (c.vars.get? target).any (·.origin = .local_) then
      c.error "SYL2604" ("reference to local '" ++ target ++ "' escapes its region") expression.span
    else c

/-- The borrows whose holder is not used after the statement `index`. -/
def endBorrows (c : Checker) (lastUses : Uses) (index : Nat) : Checker :=
  let ending := (c.vars.entries.filter fun e =>
    e.2.borrow.isSome && ((lastUses.get? e.1).getD index ≤ index)).map (·.1)
  ending.foldl releaseBorrow c

/-- Declares the variable of a `let`. -/
def declare (c : Checker) (name : String) (ty : Option TypeNode) (value : Expr) : Checker :=
  let borrow := borrowTarget value
  let copy := match ty with
    | some ty => typeIsCopy ty
    | none    => expressionIsCopy c.vars value
  let c := c.releaseBorrow name
  { c with vars := c.vars.insert name ⟨.available, copy, .local_, borrow⟩ }

/-- Restores what a block has shadowed. -/
def restore (c : Checker) (shadowed : OrdMap String (Option Variable)) : Checker :=
  shadowed.entries.foldl (fun c e =>
    let c := c.releaseBorrow e.1
    match e.2 with
    | some var => { c with vars := c.vars.insert e.1 var }
    | none          => { c with vars := c.vars.erase e.1 }) c

/-- The state after a match, of the states its arms leave. -/
def mergeStates (states : List OwnershipState) : OwnershipState :=
  if .moved ∈ states then .moved
  else if .mutBorrowed ∈ states then .mutBorrowed
  else
    let shared := (states.filterMap fun state => match state with
      | .sharedBorrowed count => some count
      | _                     => none).foldl max 0
    if shared = 0 then .available else .sharedBorrowed shared

def mergeArms (before : Variables) (branches : List Variables) : Variables :=
  before.filterMap fun name var =>
    some { var with state := mergeStates (branches.filterMap fun branch => (branch.get? name).map Variable.state) }

/-- The borrows that are live across an `await`. -/
def checkSuspension (c : Checker) (before : List String) (span : Span) : Checker :=
  let crossing := (OrdMap.ofList ((before ++ c.borrowedTargets).map (·, ()))).keys
  crossing.foldl (fun c name => c.error "SYL2606" ("borrow of '" ++ name ++
    "' crosses an await suspension; move owned data into the task or end the borrow first") span) c

end Checker

mutual
def checkExpr : Expr → UseMode → Checker → Checker
  | .mk (.borrow mutable operand) _, _, c          => c.borrow operand mutable
  | .mk (.path [name]) span, mode, c               => c.useVariable name mode span
  | .mk (.path _) _, _, c                          => c
  | .mk (.literal (.identifier name)) span, mode, c => c.useVariable name mode span
  | .mk (.literal _) _, _, c                       => c
  | .mk (.array items) _, _, c                     => checkItems items c
  | .mk (.call callee arguments) _, _, c           => checkArguments arguments (checkExpr callee .read c)
  | .mk (.field base _) _, mode, c                 => checkExpr base mode c
  | .mk (.unary _ operand) _, mode, c              => checkExpr operand mode c
  | .mk (.await operand) span, mode, c             => (checkExpr operand mode c).checkSuspension c.borrowedTargets span
  | .mk (.binary _ left right) _, _, c             => checkExpr right .read (checkExpr left .read c)
  | .mk (.match_ value arms) _, _, c               =>
    let c := checkExpr value .consume c
    let r := checkArms arms c.vars c
    { r.2 with vars := Checker.mergeArms c.vars r.1 }
  | .mk (.block block) _, _, c                     => checkBlock block c
def checkItems : List Expr → Checker → Checker
  | [], c      => c
  | e :: es, c => checkItems es (checkExpr e .consume c)
def checkArguments : List CallArgument → Checker → Checker
  | [], c                  => c
  | .mk _ value _ :: as, c => checkArguments as (checkExpr value .consume c)
/-- Every arm from the variables before the match; the variables each leaves. -/
def checkArms : List MatchArm → Variables → Checker → List Variables × Checker
  | [], _, c                                  => ([], c)
  | .mk _ (some guard) body _ :: arms, before, c =>
    let c := checkExpr body .consume (checkExpr guard .read { c with vars := before })
    let r := checkArms arms before c
    (c.vars :: r.1, r.2)
  | .mk _ none body _ :: arms, before, c =>
    let c := checkExpr body .consume { c with vars := before }
    let r := checkArms arms before c
    (c.vars :: r.1, r.2)
def checkBlock : Block → Checker → Checker
  | .mk statements _, c =>
    let r := checkStatements statements 0 (statementUses statements 0 OrdMap.empty) OrdMap.empty c
    r.2.restore r.1
def checkStatements : List Statement → Nat → Uses → OrdMap String (Option Variable) → Checker →
    OrdMap String (Option Variable) × Checker
  | [], _, _, shadowed, c => (shadowed, c)
  | .let_ name ty value _ :: rest, index, lastUses, shadowed, c =>
    let c := checkExpr value .consume c
    let shadowed := if shadowed.contains name then shadowed else shadowed.insert name (c.vars.get? name)
    checkStatements rest (index + 1) lastUses shadowed ((c.declare name ty value).endBorrows lastUses index)
  | .return_ (some value) _ :: rest, index, lastUses, shadowed, c =>
    let c := checkExpr value .consume (c.checkReturnEscape value)
    checkStatements rest (index + 1) lastUses shadowed (c.endBorrows lastUses index)
  | .return_ none _ :: rest, index, lastUses, shadowed, c =>
    checkStatements rest (index + 1) lastUses shadowed (c.endBorrows lastUses index)
  | .expression e _ :: rest, index, lastUses, shadowed, c =>
    checkStatements rest (index + 1) lastUses shadowed ((checkExpr e .consume c).endBorrows lastUses index)
end

/-! ## Functions -/

/-- The region of every reference among the parameters. -/
def referenceRegions (parameters : List Parameter) : List (Option String) :=
  parameters.filterMap fun parameter => match parameter.ty with
    | .reference lifetime _ _ _ => some lifetime
    | _                         => none

def checkSignatureRegions (function : FunctionNode) (c : Checker) : Checker :=
  match function.returnType with
  | some (.reference lifetime _ _ span) =>
    let sources := referenceRegions function.parameters
    let valid : Bool := match lifetime with
      | some region => (some region) ∈ sources
      | none        => sources.length = 1
    if valid then c
    else c.error "SYL2604" "returned reference lifetime is not tied to exactly one input reference" span
  | _ => c

def checkFunction (file : String) (function : FunctionNode) : List Diagnostic :=
  let vars := OrdMap.ofList (function.parameters.map fun parameter =>
    (parameter.name, (⟨.available, typeIsCopy parameter.ty, .parameter, none⟩ : Variable)))
  (checkBlock function.body (checkSignatureRegions function ⟨file, vars, []⟩)).diagnostics

/-- The diagnostics of a file. -/
def analyzeOwnership (file : String) (ast : SourceFile) : List Diagnostic :=
  ast.items.flatMap fun item => match item with
    | .function node => checkFunction file node
    | _              => []

end Ownership
end Syllog
