/-!
# Mir — the control-flow intermediate representation

The data of `syllog-ir`: types, constants, operands, places, rvalues, statements, terminators, basic blocks, functions
and programs.  Blocks and locals are named by their index; local zero is a function's return destination and its
parameters are the locals after it.  64-bit payloads keep their machine type.
-/
namespace Syllog

/-- Module and definition index of a definition. -/
structure DefId where
  module : Nat
  index : Nat
deriving DecidableEq, Repr

namespace Mir

/-- Runtime-representable types. -/
inductive MirType where
  | reference (mutable : Bool) (inner : MirType)
  | unit
  | bool
  | i64
  | u64
  | string
  | aggregate (id : DefId)
deriving DecidableEq, Repr

/-- A literal constant. -/
inductive Constant where
  | unit
  | bool (value : Bool)
  | i64 (value : Int64)
  | u64 (value : UInt64)
  | string (value : String)
deriving DecidableEq, Repr

def Constant.ty : Constant → MirType
  | .unit     => .unit
  | .bool _   => .bool
  | .i64 _    => .i64
  | .u64 _    => .u64
  | .string _ => .string

/-- A value consumed by an rvalue or a terminator: a constant, a non-consuming read, or a consuming read. -/
inductive Operand where
  | const (constant : Constant)
  | copy (loc : Nat)
  | move (loc : Nat)
deriving DecidableEq, Repr

/-- An assignable or droppable storage location: a whole local, or one positional field of an aggregate local. -/
inductive Place where
  | loc (loc : Nat)
  | field (base : Nat) (field : Nat)
deriving DecidableEq, Repr

inductive BinaryOp where
  | add | subtract | multiply | divide | equal | less | and | or
deriving DecidableEq, Repr

/-- A computation assigned to a place. -/
inductive Rvalue where
  | borrow (mutable : Bool) (place : Place)
  | use (operand : Operand)
  | binary (operator : BinaryOp) (left right : Operand)
  | aggregate (ty : DefId) (discriminant : UInt64) (fields : List Operand)
  | discriminant (operand : Operand)
deriving DecidableEq, Repr

inductive Statement where
  | assign (destination : Place) (value : Rvalue)
  | drop (place : Place)
deriving DecidableEq, Repr

/-- The control-flow instruction ending a block. -/
inductive Terminator where
  | ret
  | goto (target : Nat)
  | switchInt (value : Operand) (targets : List (Nat × Nat)) (otherwise : Nat)
  | call (function : DefId) (args : List Operand) (destination : Place) (next : Nat)
deriving DecidableEq, Repr

/-- Straight-line statements and a terminator, absent only while the block is under construction. -/
structure BasicBlock where
  statements : List Statement
  terminator : Option Terminator
deriving DecidableEq, Repr

structure MirFunction where
  id : DefId
  parameterCount : Nat
  returnType : MirType
  locals : List MirType
  blocks : List BasicBlock
deriving DecidableEq, Repr

structure MirProgram where
  functions : List MirFunction
  entry : Option DefId
deriving DecidableEq, Repr

/-- The functions of a program by identity; of two functions with one identity the later is the one found, as when a
`BTreeMap` is collected from the list. -/
def MirProgram.lookup (p : MirProgram) (id : DefId) : Option MirFunction :=
  p.functions.reverse.find? (fun f => f.id = id)

theorem MirProgram.lookup_mem {p : MirProgram} {id : DefId} {f : MirFunction} (h : p.lookup id = some f) :
    f ∈ p.functions := by
  have := List.mem_of_find?_eq_some h
  simpa using this

/-- The local a place is rooted at. -/
def placeLocal : Place → Nat
  | .loc l     => l
  | .field b _ => b

/-- Control-flow edges of a terminator, in order. -/
def successors : Terminator → List Nat
  | .ret                             => []
  | .goto target                     => [target]
  | .switchInt _ targets otherwise   => targets.map Prod.snd ++ [otherwise]
  | .call _ _ _ next                 => [next]

/-- The edges out of a block; none while it has no terminator. -/
def BasicBlock.successors (b : BasicBlock) : List Nat :=
  match b.terminator with
  | some t => Mir.successors t
  | none   => []

/-- Values of these types are duplicated by a read. -/
def mirTypeIsCopy : MirType → Bool
  | .unit | .bool | .i64 | .u64 => true
  | .reference mutable _        => !mutable
  | .string | .aggregate _      => false

end Mir
end Syllog
