import Syllog.Analyze
import Mathlib.Data.Finset.Basic
import Mathlib.Data.String.Basic
/-!
# Affine — what a path through a body consumes

A path through a body chooses an arm of every match and the outcome of every guard it comes to; both sides of a Boolean
operator are evaluated.  On it every name stands for the innermost variable of that name; a variable whose type is not `Copy`
is consumed where its value is bound, passed, matched, stored, returned or dropped.  A fault is a use of a consumed one.

This is said without the checker of `Ownership`.  `AffineSound` compares the two.
-/
namespace Syllog
namespace Affine

open Hir Ast
open Semantic (Analyzer Scope inferExpr resolveOption checkPattern)
open Ownership (UseMode typeIsCopy placeName)

/-! ## Types -/

def primitiveIsCopy : PrimitiveType → Bool
  | .bool | .str | .char | .signed _ | .unsigned _ | .float _ | .duration | .size => true
  | .string | .bytes | .agentRef | .provider | .text                              => false

mutual
/-- Values of the type may be used again and again.  A type that is not known counts as one. -/
def isCopy : ResolvedType → Bool
  | .reference _ mutable _                                       => !mutable
  | .primitive primitive                                         => primitiveIsCopy primitive
  | .tuple items                                                 => areCopy items
  | .unit | .unknown | .error | .integerLiteral | .floatLiteral  => true
  | .struct _ | .enum _ | .state _ | .option _ | .result _ _ | .array _ | .function _ _ => false
def areCopy : List ResolvedType → Bool
  | []      => true
  | t :: ts => isCopy t && areCopy ts
end

/-- The type of a `let`: its annotation, else what its value is inferred to have. -/
def letType (a : Analyzer) (asyncContext : Bool) (scope : Scope) (ty : Option TypeNode) (value : Expr) : ResolvedType :=
  let declared := (resolveOption a ty).value
  declared.getD (inferExpr a asyncContext value scope declared).value

/-! ## Paths -/

inductive Outcome where
  /-- The path goes on; these of the variables in scope are consumed. -/
  | done (gone : Finset String)
  /-- It left the function. -/
  | returned
  /-- It used this variable after it was consumed. -/
  | fault (name : String)
deriving DecidableEq

def Outcome.andThen (next : Finset String → List Outcome) : Outcome → List Outcome
  | .done gone  => next gone
  | .returned   => [.returned]
  | .fault name => [.fault name]

/-- Every path of the first, followed by every path of the next. -/
def andThen (first : List Outcome) (next : Finset String → List Outcome) : List Outcome :=
  first.flatMap (Outcome.andThen next)

/-- A use of a name; `owned` are the names that stand for a variable whose type is not `Copy`. -/
def usePath (owned gone : Finset String) (name : String) (mode : UseMode) : Outcome :=
  if name ∈ owned then
    if name ∈ gone then .fault name
    else if mode = .consume then .done (insert name gone)
    else .done gone
  else .done gone

/-- The variable that was shadowed by `name` is back. -/
def Outcome.unshadow (name : String) (before : Finset String) : Outcome → Outcome
  | .done gone  => .done (if name ∈ before then insert name gone else gone.erase name)
  | .returned   => .returned
  | .fault name => .fault name

def shadow (owned : Finset String) (name : String) (ty : ResolvedType) : Finset String :=
  if isCopy ty then owned.erase name else insert name owned

mutual
/-- The names a pattern binds. -/
def patternNames : Pattern → List String
  | .path [name] _          => [name]
  | .constructor _ fields _ => patternsNames fields
  | _                       => []
def patternsNames : List Pattern → List String
  | []      => []
  | p :: ps => patternNames p ++ patternsNames ps
end

/-- What is left of the variables under the names of a pattern. -/
def outside (owned : Finset String) (pattern : Pattern) : Finset String := owned \ (patternNames pattern).toFinset

mutual
def exprPaths (a : Analyzer) (asyncContext : Bool) : Expr → UseMode → Scope → Finset String → Finset String → List Outcome
  | .mk (.borrow _ operand) _, _, scope, owned, gone             => exprPaths a asyncContext operand .read scope owned gone
  | .mk (.await operand) _, mode, scope, owned, gone             => exprPaths a asyncContext operand mode scope owned gone
  | .mk (.path [name]) _, mode, _, owned, gone                   => [usePath owned gone name mode]
  | .mk (.path _) _, _, _, _, gone                               => [.done gone]
  | .mk (.literal (.identifier name)) _, mode, _, owned, gone    => [usePath owned gone name mode]
  | .mk (.literal _) _, _, _, _, gone                            => [.done gone]
  | .mk (.array items) _, _, scope, owned, gone                  => itemPaths a asyncContext items scope owned gone
  | .mk (.call callee arguments) _, _, scope, owned, gone        =>
    andThen (exprPaths a asyncContext callee .read scope owned gone) fun gone =>
      argumentPaths a asyncContext arguments scope owned gone
  | .mk (.field base _) _, mode, scope, owned, gone              => exprPaths a asyncContext base mode scope owned gone
  | .mk (.unary _ operand) _, mode, scope, owned, gone           => exprPaths a asyncContext operand mode scope owned gone
  | .mk (.binary _ left right) _, _, scope, owned, gone          =>
    andThen (exprPaths a asyncContext left .read scope owned gone) fun gone =>
      exprPaths a asyncContext right .read scope owned gone
  | .mk (.match_ value arms) _, _, scope, owned, gone            =>
    andThen (exprPaths a asyncContext value .consume scope owned gone) fun gone =>
      armPaths a asyncContext arms (inferExpr a asyncContext value scope none).value scope owned gone
  | .mk (.block (.mk statements _)) _, _, scope, owned, gone     => statementPaths a asyncContext statements scope owned gone
def itemPaths (a : Analyzer) (asyncContext : Bool) : List Expr → Scope → Finset String → Finset String → List Outcome
  | [], _, _, gone                 => [.done gone]
  | item :: items, scope, owned, gone =>
    andThen (exprPaths a asyncContext item .consume scope owned gone) fun gone =>
      itemPaths a asyncContext items scope owned gone
def argumentPaths (a : Analyzer) (asyncContext : Bool) :
    List CallArgument → Scope → Finset String → Finset String → List Outcome
  | [], _, _, gone                                  => [.done gone]
  | .mk _ value _ :: arguments, scope, owned, gone =>
    andThen (exprPaths a asyncContext value .consume scope owned gone) fun gone =>
      argumentPaths a asyncContext arguments scope owned gone
/-- The arm is passed over, or taken; one with a guard may also be tried and left. -/
def armPaths (a : Analyzer) (asyncContext : Bool) :
    List MatchArm → ResolvedType → Scope → Finset String → Finset String → List Outcome
  | [], _, _, _, _                                               => []
  | .mk pattern none body _ :: arms, valueType, scope, owned, gone =>
    armPaths a asyncContext arms valueType scope owned gone ++
    exprPaths a asyncContext body .consume (checkPattern a pattern valueType scope).value (outside owned pattern) gone
  | .mk pattern (some guard) body _ :: arms, valueType, scope, owned, gone =>
    armPaths a asyncContext arms valueType scope owned gone ++
    andThen (exprPaths a asyncContext guard .read (checkPattern a pattern valueType scope).value (outside owned pattern) gone)
      fun gone =>
        exprPaths a asyncContext body .consume (checkPattern a pattern valueType scope).value (outside owned pattern) gone ++
        armPaths a asyncContext arms valueType scope owned gone
def statementPaths (a : Analyzer) (asyncContext : Bool) :
    List Statement → Scope → Finset String → Finset String → List Outcome
  | [], _, _, gone                                     => [.done gone]
  | .let_ name ty value _ :: rest, scope, owned, gone  =>
    andThen (exprPaths a asyncContext value .consume scope owned gone) fun gone =>
      (statementPaths a asyncContext rest (scope.insert name (letType a asyncContext scope ty value))
        (shadow owned name (letType a asyncContext scope ty value)) (gone.erase name)).map (Outcome.unshadow name gone)
  | .return_ (some value) _ :: _, scope, owned, gone   =>
    andThen (exprPaths a asyncContext value .consume scope owned gone) fun _ => [.returned]
  | .return_ none _ :: _, _, _, _                      => [.returned]
  | .expression e _ :: rest, scope, owned, gone        =>
    andThen (exprPaths a asyncContext e .consume scope owned gone) fun gone =>
      statementPaths a asyncContext rest scope owned gone
end

/-- The parameters whose type is not `Copy`. -/
def ownedParameters (scope : Scope) : Finset String :=
  (scope.entries.filterMap fun e => if isCopy e.2 then none else some e.1).toFinset

def signatureScope (a : Analyzer) (node : FunctionNode) : Scope :=
  Analyzer.parameterScope node.parameters (((a.functions.get? node.name).map (·.parameters)).getD [])

/-- The paths through the body of a function. -/
def functionPaths (a : Analyzer) (node : FunctionNode) : List Outcome :=
  match node.body with
  | .mk statements _ =>
    statementPaths a node.asynchronous statements (signatureScope a node) (ownedParameters (signatureScope a node)) ∅

/-- **Source affinity**: no path uses a variable that it consumed. -/
def SourceAffine (a : Analyzer) (node : FunctionNode) : Prop := ∀ name, .fault name ∉ functionPaths a node

/-! ## What the checker recognises -/

/-- What a `let` looks like: a value that may be used again, unless the annotation or the value says otherwise. -/
def looksCopy (owned : Finset String) : Option TypeNode → Expr → Bool
  | some ty, _                                    => typeIsCopy ty
  | none, .mk (.literal (.string _)) _            => false
  | none, .mk (.array _) _                        => false
  | none, .mk (.borrow mutable _) _               => !mutable
  | none, .mk (.path [name]) _                    => name ∉ owned
  | none, .mk (.literal (.identifier name)) _     => name ∉ owned
  | none, _                                       => true

mutual
/-- Every `let` of a type that is not `Copy` looks so, every borrow is of a named place, and no guard consumes. -/
def ExprPlain (a : Analyzer) (asyncContext : Bool) : Expr → Scope → Finset String → Prop
  | .mk (.borrow _ operand) _, _, _                 => (placeName operand).isSome = true
  | .mk (.await operand) _, scope, owned            => ExprPlain a asyncContext operand scope owned
  | .mk (.path _) _, _, _                           => True
  | .mk (.literal _) _, _, _                        => True
  | .mk (.array items) _, scope, owned              => ItemsPlain a asyncContext items scope owned
  | .mk (.call callee arguments) _, scope, owned    =>
    ExprPlain a asyncContext callee scope owned ∧ ArgumentsPlain a asyncContext arguments scope owned
  | .mk (.field base _) _, scope, owned             => ExprPlain a asyncContext base scope owned
  | .mk (.unary _ operand) _, scope, owned          => ExprPlain a asyncContext operand scope owned
  | .mk (.binary _ left right) _, scope, owned      =>
    ExprPlain a asyncContext left scope owned ∧ ExprPlain a asyncContext right scope owned
  | .mk (.match_ value arms) _, scope, owned        =>
    ExprPlain a asyncContext value scope owned ∧
    ArmsPlain a asyncContext arms (inferExpr a asyncContext value scope none).value scope owned
  | .mk (.block (.mk statements _)) _, scope, owned => StatementsPlain a asyncContext statements scope owned
def ItemsPlain (a : Analyzer) (asyncContext : Bool) : List Expr → Scope → Finset String → Prop
  | [], _, _                    => True
  | item :: items, scope, owned => ExprPlain a asyncContext item scope owned ∧ ItemsPlain a asyncContext items scope owned
def ArgumentsPlain (a : Analyzer) (asyncContext : Bool) : List CallArgument → Scope → Finset String → Prop
  | [], _, _                                 => True
  | .mk _ value _ :: arguments, scope, owned =>
    ExprPlain a asyncContext value scope owned ∧ ArgumentsPlain a asyncContext arguments scope owned
def ArmsPlain (a : Analyzer) (asyncContext : Bool) : List MatchArm → ResolvedType → Scope → Finset String → Prop
  | [], _, _, _                                              => True
  | .mk pattern none body _ :: arms, valueType, scope, owned =>
    ExprPlain a asyncContext body (checkPattern a pattern valueType scope).value (outside owned pattern) ∧
    ArmsPlain a asyncContext arms valueType scope owned
  | .mk pattern (some guard) body _ :: arms, valueType, scope, owned =>
    ExprPlain a asyncContext guard (checkPattern a pattern valueType scope).value (outside owned pattern) ∧
    (∀ gone gone', .done gone' ∈ exprPaths a asyncContext guard .read (checkPattern a pattern valueType scope).value
      (outside owned pattern) gone → gone' = gone) ∧
    ExprPlain a asyncContext body (checkPattern a pattern valueType scope).value (outside owned pattern) ∧
    ArmsPlain a asyncContext arms valueType scope owned
def StatementsPlain (a : Analyzer) (asyncContext : Bool) : List Statement → Scope → Finset String → Prop
  | [], _, _                                    => True
  | .let_ name ty value _ :: rest, scope, owned =>
    ExprPlain a asyncContext value scope owned ∧
    (isCopy (letType a asyncContext scope ty value) = true ∨ looksCopy owned ty value = false) ∧
    StatementsPlain a asyncContext rest (scope.insert name (letType a asyncContext scope ty value))
      (shadow owned name (letType a asyncContext scope ty value))
  | .return_ (some value) _ :: rest, scope, owned =>
    ExprPlain a asyncContext value scope owned ∧ StatementsPlain a asyncContext rest scope owned
  | .return_ none _ :: rest, scope, owned       => StatementsPlain a asyncContext rest scope owned
  | .expression e _ :: rest, scope, owned       =>
    ExprPlain a asyncContext e scope owned ∧ StatementsPlain a asyncContext rest scope owned
end

/-- The parameters and the body of a function are written so that the checker sees what is not `Copy`. -/
structure FunctionPlain (a : Analyzer) (node : FunctionNode) : Prop where
  parameters : ∀ parameter ∈ node.parameters, parameter.name ∈ ownedParameters (signatureScope a node) →
    typeIsCopy parameter.ty = false
  body : ∀ statements span, node.body = .mk statements span →
    StatementsPlain a node.asynchronous statements (signatureScope a node) (ownedParameters (signatureScope a node))

end Affine
end Syllog
