import Syllog.Mir
/-!
# Hir — the typed tree the lowering reads

The high-level representation: every definition with its identity, name and kind, the signatures and bodies of functions and
pipelines, the members of structs, states and enums.  Expressions carry the type and the source range the front end gave
them.  Debug names below the definitions are left out.
-/
namespace Syllog
namespace Hir

open Mir (MirType)

/-- A source range. -/
structure Span where
  start : Nat
  stop : Nat
  line : Nat
  column : Nat
  endLine : Nat
  endColumn : Nat
deriving DecidableEq, Repr, Inhabited

inductive PrimitiveType where
  | bool | string | str | char | bytes
  | signed (width : String)
  | unsigned (width : String)
  | float (width : String)
  | duration | size | agentRef | provider | text
deriving DecidableEq, Repr

inductive ResolvedType where
  | reference (region : Option String) (mutable : Bool) (inner : ResolvedType)
  | primitive (primitive : PrimitiveType)
  | struct (name : String)
  | enum (name : String)
  | state (name : String)
  | option (inner : ResolvedType)
  | result (ok error : ResolvedType)
  | array (item : ResolvedType)
  | tuple (items : List ResolvedType)
  | function (parameters : List ResolvedType) (result : ResolvedType)
  | unit
  | unknown
  | error
  | integerLiteral
  | floatLiteral

inductive Literal where
  | string (value : String)
  | identifier (name : String)
  | integer (value : Int64)
  | float (text : String)
  | boolean (value : Bool)
deriving DecidableEq, Repr

inductive UnaryOperator where
  | negate | not
deriving DecidableEq, Repr

inductive BinaryOperator where
  | add | subtract | multiply | divide | remainder
  | equal | notEqual | less | lessEqual | greater | greaterEqual
  | and | or
deriving DecidableEq, Repr

inductive HirPattern where
  | wildcard
  | binding (definition : DefId)
  | variant (definition : DefId) (fields : List HirPattern)
  | literal (literal : Literal)

mutual
/-- An expression with its static type and source range. -/
inductive TypedExpr where
  | mk (kind : HirExprKind) (ty : ResolvedType) (span : Span)
inductive HirExprKind where
  | borrow (mutable : Bool) (operand : TypedExpr)
  | await (operand : TypedExpr)
  | literal (literal : Literal)
  | reference (definition : DefId)
  | array (items : List TypedExpr)
  | call (callee : TypedExpr) (arguments : List TypedExpr)
  | field (base : TypedExpr) (field : DefId)
  | unary (operator : UnaryOperator) (operand : TypedExpr)
  | binary (operator : BinaryOperator) (left right : TypedExpr)
  | match_ (value : TypedExpr) (arms : List HirMatchArm)
  | block (statements : List HirStatement)
inductive HirMatchArm where
  | mk (pattern : HirPattern) (guard : Option TypedExpr) (body : TypedExpr) (span : Span)
inductive HirStatement where
  | let_ (definition : DefId) (ty : ResolvedType) (value : TypedExpr)
  | return_ (value : Option TypedExpr)
  | expression (expression : TypedExpr)
end

def TypedExpr.kind : TypedExpr → HirExprKind
  | .mk kind _ _ => kind

def TypedExpr.ty : TypedExpr → ResolvedType
  | .mk _ ty _ => ty

def TypedExpr.span : TypedExpr → Span
  | .mk _ _ span => span

def HirMatchArm.pattern : HirMatchArm → HirPattern
  | .mk pattern _ _ _ => pattern

def HirMatchArm.body : HirMatchArm → TypedExpr
  | .mk _ _ body _ => body

structure HirParameter where
  id : DefId
  ty : ResolvedType
  span : Span

structure HirFunction where
  parameters : List HirParameter
  result : ResolvedType
  body : List HirStatement
  asynchronous : Bool
  declaredEffects : Option (List String)

/-- A field of a struct or a state. -/
structure HirMember where
  id : DefId
  ty : ResolvedType

structure HirVariant where
  id : DefId
  fields : List ResolvedType

structure HirPipeline where
  parameters : List HirParameter
  result : ResolvedType
  agent : Option DefId
  body : Option TypedExpr

inductive HirDefinitionKind where
  | struct (fields : List HirMember)
  | enum (variants : List HirVariant)
  | function (function : HirFunction)
  | state (fields : List HirMember)
  | agent
  | pipeline (pipeline : HirPipeline)
  | safetyBound

structure HirDefinition where
  id : DefId
  name : String
  kind : HirDefinitionKind
  span : Span

structure HirModule where
  id : Nat
  definitions : List HirDefinition

structure HirProgram where
  modules : List HirModule
  entry : Option DefId

def HirProgram.definitions (p : HirProgram) : List HirDefinition := p.modules.flatMap (·.definitions)

/-! ## Walks over expressions -/

mutual
/-- `walk`: the expression and all nested executable ones, in pre-order. -/
def TypedExpr.walk : TypedExpr → List TypedExpr
  | .mk kind ty span => .mk kind ty span :: kind.walk
def HirExprKind.walk : HirExprKind → List TypedExpr
  | .borrow _ operand      => operand.walk
  | .await operand         => operand.walk
  | .array items           => walkAll items
  | .call callee arguments => callee.walk ++ walkAll arguments
  | .field base _          => base.walk
  | .unary _ operand       => operand.walk
  | .binary _ left right   => left.walk ++ right.walk
  | .match_ value arms     => value.walk ++ walkArms arms
  | .block statements      => walkStatements statements
  | .literal _             => []
  | .reference _           => []
def walkAll : List TypedExpr → List TypedExpr
  | []      => []
  | e :: es => e.walk ++ walkAll es
def walkArms : List HirMatchArm → List TypedExpr
  | []                              => []
  | .mk _ (some guard) body _ :: as => guard.walk ++ body.walk ++ walkArms as
  | .mk _ none body _ :: as         => body.walk ++ walkArms as
def walkStatements : List HirStatement → List TypedExpr
  | []                        => []
  | .let_ _ _ value :: ss      => value.walk ++ walkStatements ss
  | .return_ (some value) :: ss => value.walk ++ walkStatements ss
  | .return_ none :: ss         => walkStatements ss
  | .expression e :: ss        => e.walk ++ walkStatements ss
end

end Hir
end Syllog
