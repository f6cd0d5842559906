import Syllog.Analyze
/-!
# AstLower — from the syntax tree to the typed tree

`lower.rs`.  Top-level names and members are looked up in maps that are complete before the first body is lowered;
parameters, `let`s and pattern bindings take the next index as they are met.  Inside one lowering the maps are fixed, so they
are fields of `Lowerer`; what changes is the counter and the diagnostics.  Indices are natural numbers here: a `u32` counter
does not wrap below 2^32 declarations and bindings of a module.
-/
namespace Syllog
namespace AstLower

open Hir Ast Semantic

/-- `BUILTIN_MODULE`. -/
def builtinModule : Nat := 2 ^ 32 - 1

structure Lowerer where
  module : Nat
  types : OrdMap String TypeSymbol
  expressionTypes : OrdMap Span ResolvedType
  globals : OrdMap String DefId
  members : OrdMap String DefId

structure LowerState where
  next : Nat
  diagnostics : List Diagnostic

abbrev LocalScope := OrdMap String DefId

def hirError (span : Span) (message : String) : Diagnostic := ⟨"SYL3001", .error, message, "<hir>", span⟩

def LowerState.report (s : LowerState) (span : Span) (message : String) : LowerState :=
  { s with diagnostics := s.diagnostics ++ [hirError span message] }

/-- `allocate`. -/
def LowerState.advance (s : LowerState) : LowerState := { s with next := s.next + 1 }

/-! ## Types -/

def primitive (name : String) : ResolvedType :=
  if name = "Bool" then .primitive .bool
  else if name = "String" then .primitive .string
  else if name = "Str" then .primitive .str
  else if name = "Char" then .primitive .char
  else if name = "Bytes" then .primitive .bytes
  else if name = "Duration" then .primitive .duration
  else if name = "Size" then .primitive .size
  else if name = "AgentRef" then .primitive .agentRef
  else if name = "Provider" then .primitive .provider
  else if name = "Text" then .primitive .text
  else if name.toList.head? = some 'I' then .primitive (.signed name)
  else if name.toList.head? = some 'U' then .primitive (.unsigned name)
  else if name.toList.head? = some 'F' then .primitive (.float name)
  else .error

def loweredNamed (types : OrdMap String TypeSymbol) (name : String) : ResolvedType :=
  match types.get? name with
  | none        => .error
  | some symbol => match symbol.kind with
    | .primitive => primitive name
    | .struct    => .struct name
    | .enum      => .enum name
    | .state     => .state name
    | .generic _ => .error

mutual
def lowerType (types : OrdMap String TypeSymbol) : TypeNode → ResolvedType
  | .reference lifetime mutable inner _ => .reference lifetime mutable (lowerType types inner)
  | .array inner _                      => .array (lowerType types inner)
  | .tuple [] _                         => .unit
  | .tuple items _                      => .tuple (lowerTypes types items)
  | .path [name] [item] _               =>
    if name = "Option" then .option (lowerType types item) else loweredNamed types name
  | .path [name] [ok, err] _            =>
    if name = "Result" then .result (lowerType types ok) (lowerType types err) else loweredNamed types name
  | .path [name] _ _                    => loweredNamed types name
  | .path _ _ _                         => .error
def lowerTypes (types : OrdMap String TypeSymbol) : List TypeNode → List ResolvedType
  | []      => []
  | t :: ts => lowerType types t :: lowerTypes types ts
end

mutual
/-- The type of an expression the analyzer has recorded none for. -/
def fallbackExpressionType (scope : LocalScope) : Expr → ResolvedType
  | .mk kind _ => fallbackKindType scope kind
def fallbackKindType (scope : LocalScope) : ExprKind → ResolvedType
  | .borrow mutable operand     => .reference none mutable (fallbackExpressionType scope operand)
  | .await operand              => fallbackExpressionType scope operand
  | .literal (.identifier name) => if scope.contains name then .unknown else .error
  | .path [enumName, _]         => .enum enumName
  | _                           => .error
end

def namedType : ResolvedType → Option String
  | .struct name => some name
  | .state name  => some name
  | _            => none

/-! ## Names -/

def builtinDefinition (name : String) : Option DefId :=
  if name = "Option::some" then some ⟨builtinModule, 0⟩
  else if name = "Option::none" then some ⟨builtinModule, 1⟩
  else if name = "Result::ok" then some ⟨builtinModule, 2⟩
  else if name = "Result::err" then some ⟨builtinModule, 3⟩
  else none

def Lowerer.resolveValue (l : Lowerer) (name : String) (scope : LocalScope) (span : Span) (s : LowerState) :
    Option DefId × LowerState :=
  match (scope.get? name).or (l.globals.get? name) with
  | some definition => (some definition, s)
  | none            => (none, s.report span ("unresolved HIR value '" ++ name ++ "'"))

def Lowerer.resolveMember (l : Lowerer) (name : String) (span : Span) (s : LowerState) : DefId × LowerState :=
  match (l.members.get? name).or (builtinDefinition name) with
  | some definition => (definition, s)
  | none            => (⟨builtinModule, 2 ^ 32 - 1⟩, s.report span ("unresolved HIR member '" ++ name ++ "'"))

/-! ## Bodies -/

mutual
def lowerPattern (l : Lowerer) : Pattern → LocalScope → LowerState → HirPattern × LocalScope × LowerState
  | .wildcard _, scope, s                 => (.wildcard, scope, s)
  | .literal literal _, scope, s          => (.literal literal, scope, s)
  | .path [name] _, scope, s              =>
    (.binding ⟨l.module, s.next⟩, scope.insert name ⟨l.module, s.next⟩, s.advance)
  | .path segments span, scope, s         =>
    let r := l.resolveMember (joinPath segments) span s
    (.variant r.1 [], scope, r.2)
  | .constructor segments fields span, scope, s =>
    let r := l.resolveMember (joinPath segments) span s
    let t := lowerPatterns l fields scope r.2
    (.variant r.1 t.1, t.2)
def lowerPatterns (l : Lowerer) : List Pattern → LocalScope → LowerState → List HirPattern × LocalScope × LowerState
  | [], scope, s      => ([], scope, s)
  | p :: ps, scope, s =>
    let r := lowerPattern l p scope s
    let t := lowerPatterns l ps r.2.1 r.2.2
    (r.1 :: t.1, t.2)
end

mutual
def lowerExpression (l : Lowerer) : Expr → LocalScope → LowerState → TypedExpr × LowerState
  | .mk kind span, scope, s =>
    let ty := (l.expressionTypes.get? span).getD (fallbackKindType scope kind)
    let r := lowerKind l kind span scope s
    (.mk r.1 ty span, r.2)
def lowerKind (l : Lowerer) : ExprKind → Span → LocalScope → LowerState → HirExprKind × LowerState
  | .borrow mutable operand, _, scope, s =>
    let r := lowerExpression l operand scope s
    (.borrow mutable r.1, r.2)
  | .await operand, _, scope, s =>
    let r := lowerExpression l operand scope s
    (.await r.1, r.2)
  | .literal (.identifier name), span, scope, s =>
    if name = "none" then (.literal (.identifier name), s)
    else match l.resolveValue name scope span s with
      | (some definition, s) => (.reference definition, s)
      | (none, s)            => (.literal (.identifier name), s)
  | .literal literal, _, _, s => (.literal literal, s)
  | .path segments, span, _, s =>
    let r := l.resolveMember (joinPath segments) span s
    (.reference r.1, r.2)
  | .array items, _, scope, s =>
    let r := lowerItems l items scope s
    (.array r.1, r.2)
  | .call callee arguments, _, scope, s =>
    let r := lowerExpression l callee scope s
    let t := lowerArguments l arguments scope r.2
    (.call r.1 t.1, t.2)
  | .field base name, span, scope, s =>
    let r := lowerExpression l base scope s
    let owner := (namedType r.1.ty).getD "<error>"
    let t := l.resolveMember (owner ++ "." ++ name) span r.2
    (.field r.1 t.1, t.2)
  | .unary operator operand, _, scope, s =>
    let r := lowerExpression l operand scope s
    (.unary operator r.1, r.2)
  | .binary operator left right, _, scope, s =>
    let r := lowerExpression l left scope s
    let t := lowerExpression l right scope r.2
    (.binary operator r.1 t.1, t.2)
  | .match_ value arms, _, scope, s =>
    let r := lowerExpression l value scope s
    let t := lowerArms l arms scope r.2
    (.match_ r.1 t.1, t.2)
  | .block (.mk statements _), _, scope, s =>
    let r := lowerStatements l statements scope s
    (.block r.1, r.2)
def lowerItems (l : Lowerer) : List Expr → LocalScope → LowerState → List TypedExpr × LowerState
  | [], _, s          => ([], s)
  | e :: es, scope, s =>
    let r := lowerExpression l e scope s
    let t := lowerItems l es scope r.2
    (r.1 :: t.1, t.2)
def lowerArguments (l : Lowerer) : List CallArgument → LocalScope → LowerState → List TypedExpr × LowerState
  | [], _, s                      => ([], s)
  | .mk _ value _ :: as, scope, s =>
    let r := lowerExpression l value scope s
    let t := lowerArguments l as scope r.2
    (r.1 :: t.1, t.2)
def lowerArms (l : Lowerer) : List MatchArm → LocalScope → LowerState → List HirMatchArm × LowerState
  | [], _, s                                     => ([], s)
  | .mk pattern guard body span :: arms, scope, s =>
    let p := lowerPattern l pattern scope s
    let g := lowerOptional l guard p.2.1 p.2.2
    let b := lowerExpression l body p.2.1 g.2
    let t := lowerArms l arms scope b.2
    (.mk p.1 g.1 b.1 span :: t.1, t.2)
def lowerOptional (l : Lowerer) : Option Expr → LocalScope → LowerState → Option TypedExpr × LowerState
  | none, _, s           => (none, s)
  | some value, scope, s =>
    let r := lowerExpression l value scope s
    (some r.1, r.2)
def lowerStatements (l : Lowerer) : List Statement → LocalScope → LowerState → List HirStatement × LowerState
  | [], _, s                                 => ([], s)
  | .let_ name ty value _ :: rest, scope, s  =>
    let r := lowerExpression l value scope s
    let definition : DefId := ⟨l.module, r.2.next⟩
    let t := lowerStatements l rest (scope.insert name definition) r.2.advance
    (.let_ definition ((ty.map (lowerType l.types)).getD r.1.ty) r.1 :: t.1, t.2)
  | .return_ value _ :: rest, scope, s       =>
    let r := lowerOptional l value scope s
    let t := lowerStatements l rest scope r.2
    (.return_ r.1 :: t.1, t.2)
  | .expression e _ :: rest, scope, s        =>
    let r := lowerExpression l e scope s
    let t := lowerStatements l rest scope r.2
    (.expression r.1 :: t.1, t.2)
end

def lowerParameters (l : Lowerer) : List Parameter → LocalScope → LowerState →
    List HirParameter × LocalScope × LowerState
  | [], scope, s             => ([], scope, s)
  | parameter :: rest, scope, s =>
    let definition : DefId := ⟨l.module, s.next⟩
    let t := lowerParameters l rest (scope.insert parameter.name definition) s.advance
    (⟨definition, lowerType l.types parameter.ty, parameter.span⟩ :: t.1, t.2)

/-! ## Definitions -/

def expressionName (e : Expr) : Option String :=
  match e.kind with
  | .literal (.identifier name) => some name
  | .path segments              => segments.getLast?
  | _                           => none

/-- The id of an item's name; `indexGlobals` leaves no item without one. -/
def Lowerer.globalId (l : Lowerer) (name : String) : DefId := (l.globals.get? name).getD ⟨l.module, 0⟩

/-- The id of a member; `indexMembers` leaves no member without one. -/
def Lowerer.memberId (l : Lowerer) (key : String) : DefId := (l.members.get? key).getD ⟨l.module, 0⟩

def fieldKey (owner name : String) : String := owner ++ "." ++ name

def variantKey (owner name : String) : String := owner ++ "::" ++ name

/-- The member keys of an item, in order. -/
def memberKeys : Item → List String
  | .struct node => node.fields.map fun field => fieldKey node.name field.name
  | .enum node   => node.variants.map fun variant => variantKey node.name variant.name
  | .state node  => node.fields.map fun field => fieldKey node.name field.name
  | _            => []

def lowerFunction (l : Lowerer) (node : FunctionNode) (s : LowerState) : HirFunction × LowerState :=
  let p := lowerParameters l node.parameters OrdMap.empty s
  let result := (node.returnType.map (lowerType l.types)).getD .unit
  match node.body with
  | .mk statements _ =>
    let b := lowerStatements l statements p.2.1 p.2.2
    (⟨p.1, result, b.1, node.asynchronous, node.effects⟩, b.2)

def lowerPipeline (l : Lowerer) (node : PipelineNode) (s : LowerState) : HirPipeline × LowerState :=
  let p := lowerParameters l node.parameters OrdMap.empty s
  let result := (node.returnType.map (lowerType l.types)).getD .unit
  let agent := ((lastProperty node.fields "agent").bind fun property => expressionName property.value).bind l.globals.get?
  let b := lowerOptional l ((lastProperty node.fields "result").map (·.value)) p.2.1 p.2.2
  (⟨p.1, result, agent, b.1⟩, b.2)

def lowerDefinitionKind (l : Lowerer) : Item → LowerState → HirDefinitionKind × LowerState
  | .struct node, s      =>
    (.struct (node.fields.map fun field => ⟨l.memberId (fieldKey node.name field.name), lowerType l.types field.ty⟩), s)
  | .enum node, s        =>
    (.enum (node.variants.map fun variant =>
      ⟨l.memberId (variantKey node.name variant.name), lowerTypes l.types variant.fields⟩), s)
  | .function node, s    =>
    let r := lowerFunction l node s
    (.function r.1, r.2)
  | .state node, s       =>
    (.state (node.fields.map fun field => ⟨l.memberId (fieldKey node.name field.name), lowerType l.types field.ty⟩), s)
  | .agent _, s          => (.agent, s)
  | .pipeline node, s    =>
    let r := lowerPipeline l node s
    (.pipeline r.1, r.2)
  | .safetyBound _, s    => (.safetyBound, s)

def lowerDefinition (l : Lowerer) (item : Item) (s : LowerState) : HirDefinition × LowerState :=
  let r := lowerDefinitionKind l item s
  (⟨l.globalId item.name, item.name, r.1, item.span⟩, r.2)

def lowerDefinitions (l : Lowerer) : List Item → LowerState → List HirDefinition × LowerState
  | [], s            => ([], s)
  | item :: items, s =>
    let r := lowerDefinition l item s
    let t := lowerDefinitions l items r.2
    (r.1 :: t.1, t.2)

/-! ## A file -/

/-- Gives every key that has none the next index. -/
def indexKeys (module : Nat) (keys : List String) (ids : OrdMap String DefId) (next : Nat) : OrdMap String DefId × Nat :=
  keys.foldl (fun r key => if r.1.contains key then r else (r.1.insert key ⟨module, r.2⟩, r.2 + 1)) (ids, next)

def indexGlobals (module : Nat) (items : List Item) (globals : OrdMap String DefId) (next : Nat) :
    OrdMap String DefId × Nat :=
  indexKeys module (items.map Item.name) globals next

def indexMembers (module : Nat) (items : List Item) (members : OrdMap String DefId) (next : Nat) :
    OrdMap String DefId × Nat :=
  indexKeys module (items.flatMap memberKeys) members next

/-- The names a file is lowered with, and the next index. -/
def indexed (ast : SourceFile) (analysis : Analysis) (module : Nat) (globals members : OrdMap String DefId) (next : Nat) :
    Lowerer × Nat :=
  let g := indexGlobals module ast.items globals next
  let m := indexMembers module ast.items members g.2
  (⟨module, analysis.symbols.types, analysis.expressionTypes, g.1, m.1⟩, m.2)

/-- `lower_module`, from planned names on. -/
def lowerModuleToHir (ast : SourceFile) (analysis : Analysis) (module : Nat) (globals members : OrdMap String DefId)
    (next : Nat) : Except (List Diagnostic) (HirModule × Option DefId × Nat) :=
  let l := indexed ast analysis module globals members next
  let r := lowerDefinitions l.1 ast.items ⟨l.2, []⟩
  if r.2.diagnostics ≠ [] then .error r.2.diagnostics
  else
    let entry := if ast.items.any (fun item => item.name = "main") then some (l.1.globalId "main") else none
    .ok (⟨module, r.1⟩, entry, r.2.next)

def lowerToHir (ast : SourceFile) (symbols : SymbolTable) : Except (List Diagnostic) HirProgram :=
  let analysis := analyze "<hir>" ast
  if analysis.diagnostics ≠ [] then .error analysis.diagnostics
  else if analysis.symbols ≠ symbols then
    .error [hirError ast.span "symbol table does not belong to the supplied syntax tree"]
  else match lowerModuleToHir ast analysis 0 OrdMap.empty OrdMap.empty 0 with
    | .ok (module, entry, _) => .ok ⟨[module], entry⟩
    | .error diagnostics     => .error diagnostics

end AstLower
end Syllog
