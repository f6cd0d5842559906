import Syllog.Types
/-!
# Ast — the syntax tree

`ast.rs` of `syllog-parser`.  Names are what the grammar makes them: an ASCII letter or an underscore, then letters, digits
and underscores.
-/
namespace Syllog
namespace Ast

open Hir (Span Literal UnaryOperator BinaryOperator)

structure ModuleNode where
  path : List String
  span : Span
deriving DecidableEq, Repr

structure UseNode where
  path : List String
  aliasName : Option String
  span : Span
deriving DecidableEq, Repr

inductive TypeNode where
  | reference (lifetime : Option String) (mutable : Bool) (inner : TypeNode) (span : Span)
  | path (segments : List String) (arguments : List TypeNode) (span : Span)
  | array (inner : TypeNode) (span : Span)
  | tuple (items : List TypeNode) (span : Span)

inductive Pattern where
  | wildcard (span : Span)
  | path (segments : List String) (span : Span)
  | constructor (segments : List String) (fields : List Pattern) (span : Span)
  | literal (literal : Literal) (span : Span)

mutual
inductive Expr where
  | mk (kind : ExprKind) (span : Span)
inductive ExprKind where
  | borrow (mutable : Bool) (operand : Expr)
  | await (operand : Expr)
  | literal (literal : Literal)
  | path (segments : List String)
  | array (items : List Expr)
  | call (callee : Expr) (arguments : List CallArgument)
  | field (base : Expr) (name : String)
  | unary (operator : UnaryOperator) (operand : Expr)
  | binary (operator : BinaryOperator) (left right : Expr)
  | match_ (value : Expr) (arms : List MatchArm)
  | block (block : Block)
inductive CallArgument where
  | mk (name : Option String) (value : Expr) (span : Span)
inductive MatchArm where
  | mk (pattern : Pattern) (guard : Option Expr) (body : Expr) (span : Span)
inductive Block where
  | mk (statements : List Statement) (span : Span)
inductive Statement where
  | let_ (name : String) (ty : Option TypeNode) (value : Expr) (span : Span)
  | return_ (value : Option Expr) (span : Span)
  | expression (expression : Expr) (span : Span)
end

def Expr.kind : Expr → ExprKind
  | .mk kind _ => kind

def Expr.span : Expr → Span
  | .mk _ span => span

/-- What is called is a path, or the walks go to it. -/
theorem ExprKind.path_or (kind : ExprKind) (span : Span) :
    (∃ segments, kind = .path segments) ∨ ∀ segments span', Expr.mk kind span = .mk (.path segments) span' → False := by
  by_cases hpath : ∃ segments, kind = .path segments
  · exact .inl hpath
  · refine .inr fun segments span' heq => ?_
    cases heq
    exact hpath ⟨segments, rfl⟩

def TypeNode.span : TypeNode → Span
  | .reference _ _ _ span | .path _ _ span | .array _ span | .tuple _ span => span

def Pattern.span : Pattern → Span
  | .wildcard span | .path _ span | .constructor _ _ span | .literal _ span => span

structure StructField where
  isPublic : Bool
  name : String
  ty : TypeNode
  span : Span

structure StructNode where
  isPublic : Bool
  name : String
  fields : List StructField
  span : Span

structure EnumVariant where
  name : String
  fields : List TypeNode
  span : Span

structure EnumNode where
  isPublic : Bool
  name : String
  variants : List EnumVariant
  span : Span

structure Parameter where
  name : String
  ty : TypeNode
  span : Span

structure FunctionNode where
  isPublic : Bool
  asynchronous : Bool
  name : String
  parameters : List Parameter
  returnType : Option TypeNode
  effects : Option (List String)
  body : Block
  span : Span

structure StateField where
  name : String
  ty : TypeNode
  initializer : Option Expr
  span : Span

structure StateNode where
  isPublic : Bool
  name : String
  fields : List StateField
  span : Span

/-- A property of an agent, a pipeline or a safety bound. -/
structure Property where
  name : String
  ty : Option TypeNode
  value : Expr
  span : Span

structure AgentNode where
  isPublic : Bool
  name : String
  fields : List Property
  span : Span

structure PipelineNode where
  isPublic : Bool
  name : String
  parameters : List Parameter
  returnType : Option TypeNode
  fields : List Property
  span : Span

structure SafetyBoundNode where
  isPublic : Bool
  name : String
  parameters : List Parameter
  fields : List Property
  span : Span

inductive Item where
  | struct (node : StructNode)
  | enum (node : EnumNode)
  | function (node : FunctionNode)
  | state (node : StateNode)
  | agent (node : AgentNode)
  | pipeline (node : PipelineNode)
  | safetyBound (node : SafetyBoundNode)

namespace Item

def name : Item → String
  | struct node      => node.name
  | enum node        => node.name
  | function node    => node.name
  | state node       => node.name
  | agent node       => node.name
  | pipeline node    => node.name
  | safetyBound node => node.name

def span : Item → Span
  | struct node      => node.span
  | enum node        => node.span
  | function node    => node.span
  | state node       => node.span
  | agent node       => node.span
  | pipeline node    => node.span
  | safetyBound node => node.span

def isPublic : Item → Bool
  | struct node      => node.isPublic
  | enum node        => node.isPublic
  | function node    => node.isPublic
  | state node       => node.isPublic
  | agent node       => node.isPublic
  | pipeline node    => node.isPublic
  | safetyBound node => node.isPublic

end Item

/-- A source file. -/
structure SourceFile where
  module : Option ModuleNode
  imports : List UseNode
  items : List Item
  span : Span

/-- The property a node's own `property` finds: the last of that name. -/
def lastProperty (fields : List Property) (name : String) : Option Property := fields.reverse.find? (·.name = name)

def joinPath (segments : List String) : String := "::".intercalate segments

/-! ## Names -/

def isIdentStart (c : Char) : Bool := c.isAlpha || c = '_'

def isIdentContinue (c : Char) : Bool := c.isAlphanum || c = '_'

/-- The grammar's `identifier`. -/
def isIdentifier (name : String) : Bool :=
  match name.toList with
  | []      => false
  | c :: cs => isIdentStart c && cs.all isIdentContinue

end Ast
end Syllog
