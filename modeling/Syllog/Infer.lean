import Syllog.Ast
import Syllog.Logged
import Mathlib.Data.Prod.Lex
/-!
# Infer — types of expressions and patterns

The part of `syllog-semantic`'s `lib.rs` that looks at types and bodies.  The tables of an analyzer do not change while a
body is checked; what is noted is a diagnostic or the type of an expression.
-/
namespace Syllog
namespace Semantic

open Hir Ast

instance : LinearOrder Span :=
  LinearOrder.lift' (fun s => toLex (s.start, toLex (s.stop, toLex (s.line, toLex (s.column, toLex (s.endLine, s.endColumn))))))
    (fun a b h => by cases a; cases b; cases h; rfl)

/-- What analysis notes. -/
inductive Note where
  | diagnostic (diagnostic : Diagnostic)
  | typed (span : Span) (ty : ResolvedType)

abbrev Checked := Logged Note

def Note.diagnostic? : Note → Option Diagnostic
  | diagnostic d => some d
  | typed _ _    => none

def Note.typed? : Note → Option (Span × ResolvedType)
  | diagnostic _  => none
  | typed span ty => some (span, ty)

structure FunctionSignature where
  parameters : List ResolvedType
  result : ResolvedType
deriving DecidableEq

structure AgentContract where
  input : Option ResolvedType
  output : Option ResolvedType
deriving DecidableEq

/-- The tables of one file. -/
structure Analyzer where
  file : String
  symbols : SymbolTable
  structs : OrdMap String (OrdMap String ResolvedType)
  enums : OrdMap String (List (String × List ResolvedType))
  functions : OrdMap String FunctionSignature
  agents : OrdMap String AgentContract
  states : OrdMap String (List ResolvedType)

abbrev Scope := OrdMap String ResolvedType

def boolType : ResolvedType := .primitive .bool

def stringType : ResolvedType := .primitive .string

/-! ## Compatibility -/

mutual
def compatible : ResolvedType → ResolvedType → Bool
  | .error, _                                    => true
  | .unknown, _                                  => true
  | _, .error                                    => true
  | _, .unknown                                  => true
  | .primitive (.signed _), .integerLiteral      => true
  | .primitive (.unsigned _), .integerLiteral    => true
  | .primitive (.float _), .floatLiteral         => true
  | .array left, .array right                    => compatible left right
  | .option left, .option right                  => compatible left right
  | .reference _ mutable left, .reference _ mutable' right => mutable = mutable' && compatible left right
  | .result ok err, .result ok' err'             => compatible ok ok' && compatible err err'
  | .tuple left, .tuple right                    => compatibleAll left right
  | expected, actual                             => expected = actual
def compatibleAll : List ResolvedType → List ResolvedType → Bool
  | [], []           => true
  | a :: as, b :: bs => compatible a b && compatibleAll as bs
  | _, _             => false
end

namespace Analyzer

def error (a : Analyzer) (code message : String) (span : Span) : Checked Unit :=
  Logged.tell (.diagnostic ⟨code, .error, message, a.file, span⟩)

def require (a : Analyzer) (holds : Bool) (code message : String) (span : Span) : Checked Unit :=
  if holds then pure () else a.error code message span

def requireCompatible (a : Analyzer) (expected actual : ResolvedType) (span : Span) (context : String) : Checked Unit :=
  a.require (compatible expected actual) "SYL2101"
    (context ++ " type mismatch: expected " ++ expected.display ++ ", found " ++ actual.display) span

def unknownVariant (a : Analyzer) (typeName variantName : String) (span : Span) : Checked Unit :=
  a.error "SYL2003" ("type '" ++ typeName ++ "' has no variant '" ++ variantName ++ "'") span

def typeArityError (a : Analyzer) (name : String) (expected actual : Nat) (span : Span) : Checked Unit :=
  a.error "SYL2004" ("type '" ++ name ++ "' expects " ++ toString expected ++ " argument(s), found " ++ toString actual) span

end Analyzer

/-! ## Types -/

def primitiveNames : List String :=
  ["Bool", "String", "Str", "Char", "Bytes", "I8", "I16", "I32", "I64", "I128", "Isize", "U8", "U16", "U32", "U64", "U128",
    "Usize", "F16", "F32", "F64", "Duration", "Size", "AgentRef", "Provider", "Text", "Unit"]

def primitiveType (name : String) : Option PrimitiveType :=
  if name = "Bool" then some .bool
  else if name = "String" then some .string
  else if name = "Str" then some .str
  else if name = "Char" then some .char
  else if name = "Bytes" then some .bytes
  else if name ∈ ["I8", "I16", "I32", "I64", "I128", "Isize"] then some (.signed name)
  else if name ∈ ["U8", "U16", "U32", "U64", "U128", "Usize"] then some (.unsigned name)
  else if name ∈ ["F16", "F32", "F64"] then some (.float name)
  else if name = "Duration" then some .duration
  else if name = "Size" then some .size
  else if name = "AgentRef" then some .agentRef
  else if name = "Provider" then some .provider
  else if name = "Text" then some .text
  else none

/-- The type a symbol names. -/
def symbolType (name : String) : TypeSymbolKind → ResolvedType
  | .primitive => match primitiveType name with
    | some primitive => .primitive primitive
    | none           => .error
  | .struct    => .struct name
  | .enum      => .enum name
  | .state     => .state name
  | .generic _ => .error

/-- A name that is neither `Option` nor `Result` nor a bare `Unit`. -/
def resolveNamed (a : Analyzer) (name : String) (arity : Nat) (span : Span) : Checked ResolvedType :=
  match a.symbols.types.get? name with
  | none        => do
    a.error "SYL2002" ("unknown type '" ++ name ++ "'") span
    return .error
  | some symbol =>
    if arity = 0 then return symbolType name symbol.kind
    else do
      a.typeArityError name 0 arity span
      return .error

mutual
def resolveType (a : Analyzer) : TypeNode → Checked ResolvedType
  | .reference lifetime mutable inner _ => do
    let inner ← resolveType a inner
    return .reference lifetime mutable inner
  | .array inner _ => do
    let inner ← resolveType a inner
    return .array inner
  | .tuple [] _ => return .unit
  | .tuple items _ => do
    let items ← resolveTypes a items
    return .tuple items
  | .path [name] arguments span => do
    if name = "Option" then
      match arguments with
      | [item] => do
        let item ← resolveType a item
        return .option item
      | _ => do
        a.typeArityError name 1 arguments.length span
        return .error
    else if name = "Result" then
      match arguments with
      | [ok, err] => do
        let ok ← resolveType a ok
        let err ← resolveType a err
        return .result ok err
      | _ => do
        a.typeArityError name 2 arguments.length span
        return .error
    else if name = "Unit" ∧ arguments.isEmpty then return .unit
    else resolveNamed a name arguments.length span
  | .path segments _ span => do
    a.error "SYL2002" ("unknown type '" ++ joinPath segments ++ "'") span
    return .error
def resolveTypes (a : Analyzer) : List TypeNode → Checked (List ResolvedType)
  | []      => return []
  | t :: ts => do
    let t ← resolveType a t
    let ts ← resolveTypes a ts
    return t :: ts
end

/-- The type of an optional annotation. -/
def resolveOption (a : Analyzer) : Option TypeNode → Checked (Option ResolvedType)
  | some ty => do
    let ty ← resolveType a ty
    return some ty
  | none    => return none

/-! ## Patterns -/

def splitConstructorPath : List String → Option (String × String)
  | [typeName, variantName] => some (typeName, variantName)
  | _                       => none

def variantFields (a : Analyzer) (enumName variantName : String) : Option (List ResolvedType) :=
  (a.enums.get? enumName).bind fun variants => (variants.find? (·.1 = variantName)).map (·.2)

/-- The payload a variant pattern is checked against; nothing under a type that is already wrong. -/
def patternPayload (a : Analyzer) (segments : List String) (expected : ResolvedType) (span : Span) :
    Checked (Option (List ResolvedType)) :=
  match splitConstructorPath segments with
  | none                         => do
    a.error "SYL2003" "malformed variant pattern" span
    return none
  | some (typeName, variantName) =>
    if expected = .error then return none
    else
      let payload := match expected with
        | .enum enumName => if enumName = typeName then variantFields a enumName variantName else none
        | .option inner  =>
          if typeName = "Option" then
            if variantName = "some" then some [inner] else if variantName = "none" then some [] else none
          else none
        | .result ok err =>
          if typeName = "Result" then
            if variantName = "ok" then some [ok] else if variantName = "err" then some [err] else none
          else none
        | _              => none
      match payload with
      | some payload => return some payload
      | none         => do
        a.unknownVariant typeName variantName span
        return none

def patternArity (a : Analyzer) (expected actual : Nat) (span : Span) : Checked Unit :=
  a.require (expected = actual) "SYL2101"
    ("pattern expects " ++ toString expected ++ " field(s), found " ++ toString actual) span

def patternLiteralType : Literal → ResolvedType
  | .boolean _    => boolType
  | .string _     => stringType
  | .integer _    => .integerLiteral
  | .float _      => .floatLiteral
  | .identifier _ => .unknown

mutual
/-- The scope a pattern leaves. -/
def checkPattern (a : Analyzer) : Pattern → ResolvedType → Scope → Checked Scope
  | .wildcard _, _, scope                          => return scope
  | .literal literal span, expected, scope         => do
    a.requireCompatible expected (patternLiteralType literal) span "pattern"
    return scope
  | .path [name] _, expected, scope                => return scope.insert name expected
  | .path segments span, expected, scope           => do
    match ← patternPayload a segments expected span with
    | none         => return scope
    | some payload => do
      patternArity a payload.length 0 span
      return scope
  | .constructor segments fields span, expected, scope => do
    match ← patternPayload a segments expected span with
    | none         => return scope
    | some payload => do
      patternArity a payload.length fields.length span
      checkPatterns a fields payload scope
def checkPatterns (a : Analyzer) : List Pattern → List ResolvedType → Scope → Checked Scope
  | p :: ps, ty :: tys, scope => do
    let scope ← checkPattern a p ty scope
    checkPatterns a ps tys scope
  | [], _, scope => return scope
  | _, [], scope => return scope
end

/-- An arm that takes every value. -/
def MatchArm.isCatchAll : MatchArm → Bool
  | .mk (.wildcard _) none _ _ => true
  | .mk (.path [_] _) none _ _ => true
  | _                          => false

/-- The variant an unguarded arm covers. -/
def MatchArm.covered : MatchArm → Option String
  | .mk (.constructor segments _ _) none _ _       => segments.getLast?
  | .mk (.path segments _) none _ _                => segments.getLast?
  | .mk (.literal (.boolean value) _) none _ _     => some (if value then "true" else "false")
  | _                                              => none

def requiredVariants (a : Analyzer) : ResolvedType → List String
  | .enum name       => ((a.enums.get? name).getD []).map (·.1)
  | .option _        => ["some", "none"]
  | .result _ _      => ["ok", "err"]
  | .primitive .bool => ["true", "false"]
  | _                => []

def checkExhaustive (a : Analyzer) (span : Span) (valueType : ResolvedType) (arms : List MatchArm) : Checked Unit :=
  let missing := (requiredVariants a valueType).filter fun variant => variant ∉ arms.filterMap MatchArm.covered
  a.require (arms.any MatchArm.isCatchAll || missing.isEmpty) "SYL2301"
    ("non-exhaustive match; missing " ++ ", ".intercalate missing) span

/-! ## Expressions -/

def isPlace : ExprKind → Bool
  | .path _                   => true
  | .field _ _                => true
  | .literal (.identifier _)  => true
  | _                         => false

def inferLiteral (a : Analyzer) (span : Span) (scope : Scope) (expected : Option ResolvedType) :
    Literal → Checked ResolvedType
  | .string _        => return stringType
  | .boolean _       => return boolType
  | .integer _       => return .integerLiteral
  | .float _         => return .floatLiteral
  | .identifier name =>
    if name = "none" then
      match expected with
      | some (.option inner) => return .option inner
      | some .error          => return .error
      | _                    => do
        a.error "SYL2003" "'none' requires an Option context" span
        return .error
    else match scope.get? name with
      | some ty => return ty
      | none    => match a.functions.get? name with
        | some signature => return .function signature.parameters signature.result
        | none           => do
          a.error "SYL2003" ("unknown value '" ++ name ++ "'") span
          return .error

def inferPath (a : Analyzer) (segments : List String) (span : Span) : Checked ResolvedType :=
  match (splitConstructorPath segments).bind fun path => (variantFields a path.1 path.2).map (path, ·) with
  | some ((enumName, _), [])               => return .enum enumName
  | some ((enumName, variantName), fields) => do
    a.error "SYL2101" ("variant '" ++ enumName ++ "::" ++ variantName ++ "' requires " ++ toString fields.length ++
      " value(s)") span
    return .error
  | none                                   => do
    a.error "SYL2003" ("unknown value path '" ++ joinPath segments ++ "'") span
    return .error

/-- The item type of an `Option`: the context's, else that of the first argument. -/
def optionItem (first : Checked ResolvedType) : Option ResolvedType → Checked ResolvedType
  | some (.option item) => pure item
  | _                   => first

/-- The two types of a `Result`. -/
def resultSides (variantName : String) (first : Checked ResolvedType) :
    Option ResolvedType → Checked (Option (ResolvedType × ResolvedType))
  | some (.result ok err) => return some (ok, err)
  | _                     =>
    if variantName = "ok" then do
      let ok ← first
      return some (ok, .unknown)
    else if variantName = "err" then do
      let err ← first
      return some (.unknown, err)
    else return none

/-- The fields and the type of a constructor; `first` infers the first argument, where the context gives no type. -/
def constructorOf (a : Analyzer) (typeName variantName : String) (first : Checked ResolvedType) (span : Span)
    (expected : Option ResolvedType) : Checked (Option (List ResolvedType × ResolvedType)) :=
  if typeName = "Option" then do
    let item ← optionItem first expected
    if variantName = "some" then return some ([item], .option item)
    else if variantName = "none" then return some ([], .option item)
    else do
      a.unknownVariant typeName variantName span
      return none
  else if typeName = "Result" then do
    match ← resultSides variantName first expected with
    | some (ok, err) =>
      if variantName = "ok" then return some ([ok], .result ok err)
      else if variantName = "err" then return some ([err], .result ok err)
      else do
        a.unknownVariant typeName variantName span
        return none
    | none => do
      a.unknownVariant typeName variantName span
      return none
  else match a.enums.get? typeName with
    | some variants => match variants.find? (·.1 = variantName) with
      | some (_, fields) => return some (fields, .enum typeName)
      | none             => do
        a.unknownVariant typeName variantName span
        return none
    | none => do
      a.error "SYL2003" ("unknown constructor '" ++ typeName ++ "::" ++ variantName ++ "'") span
      return none

/-- A constructor call; `arguments` checks the arguments against the fields. -/
def inferConstructorCall (a : Analyzer) (segments : List String) (count : Nat) (first : Checked ResolvedType)
    (arguments : List ResolvedType → Checked Unit) (span : Span) (expected : Option ResolvedType) : Checked ResolvedType :=
  match splitConstructorPath segments with
  | none                         => do
    a.error "SYL2003" "unknown constructor" span
    return .error
  | some (typeName, variantName) => do
    match ← constructorOf a typeName variantName first span expected with
    | none                  => return .error
    | some (fields, result) => do
      a.require (fields.length = count) "SYL2101"
        ("constructor expects " ++ toString fields.length ++ " value(s), found " ++ toString count) span
      arguments fields
      return result

def binaryResult (a : Analyzer) (operator : BinaryOperator) (leftType rightType : ResolvedType) (leftSpan rightSpan : Span) :
    Checked ResolvedType :=
  match operator with
  | .equal | .notEqual | .less | .lessEqual | .greater | .greaterEqual => do
    a.requireCompatible leftType rightType rightSpan "comparison"
    return boolType
  | .and | .or => do
    a.requireCompatible boolType leftType leftSpan "Boolean operator"
    a.requireCompatible boolType rightType rightSpan "Boolean operator"
    return boolType
  | _ => do
    a.requireCompatible leftType rightType rightSpan "binary operator"
    return leftType

def unaryResult (a : Analyzer) (operator : UnaryOperator) (operandType : ResolvedType) (span : Span) : Checked ResolvedType :=
  match operator with
  | .not    => do
    a.requireCompatible boolType operandType span "'!' operand"
    return boolType
  | .negate => return operandType

def fieldType (a : Analyzer) (baseType : ResolvedType) (name : String) (span : Span) : Checked ResolvedType :=
  match baseType with
  | .struct structName => match (a.structs.get? structName).bind (·.get? name) with
    | some field => return field
    | none       => do
      a.error "SYL2003" ("type '" ++ structName ++ "' has no field '" ++ name ++ "'") span
      return .error
  | _ => return .error

/-- The type of the elements so far, with one more. -/
def joinType (a : Analyzer) (sofar actual : ResolvedType) (span : Span) (context : String) : Checked ResolvedType :=
  if sofar = .unknown then return actual
  else do
    a.requireCompatible sofar actual span context
    return sofar

/-- An empty block has the unit type. -/
def Analyzer.requireUnit (a : Analyzer) (statements : List Statement) (expected : ResolvedType) (span : Span) : Checked Unit :=
  if statements.isEmpty then a.requireCompatible expected .unit span "function result" else pure ()

/-- The last expression of a block has the type of its result. -/
def Analyzer.requireResult (a : Analyzer) (rest : List Statement) (expected actual : ResolvedType) (span : Span) :
    Checked Unit :=
  if rest.isEmpty then a.requireCompatible expected actual span "function result" else pure ()

mutual
def inferExpr (a : Analyzer) (asyncContext : Bool) : Expr → Scope → Option ResolvedType → Checked ResolvedType
  | .mk kind span, scope, expected => do
    let inferred ← inferExprKind a asyncContext kind span scope expected
    Logged.tell (.typed span inferred)
    return inferred
def inferExprKind (a : Analyzer) (asyncContext : Bool) :
    ExprKind → Span → Scope → Option ResolvedType → Checked ResolvedType
  | .borrow mutable operand, _, scope, _ => do
    a.require (isPlace operand.kind) "SYL2601" "borrow operand must be a named place" operand.span
    let inner ← inferExpr a asyncContext operand scope none
    return .reference none mutable inner
  | .await operand, span, scope, expected => do
    a.require asyncContext "SYL2501" "'await' is only valid inside an async function" span
    inferExpr a asyncContext operand scope expected
  | .literal literal, span, scope, expected => inferLiteral a span scope expected literal
  | .path segments, span, _, _ => inferPath a segments span
  | .array items, _, scope, expected => do
    let expectedItem := match expected with
      | some (.array item) => some item
      | _                  => none
    let item ← inferItems a asyncContext items scope expectedItem (expectedItem.getD .unknown)
    return .array item
  | .call (.mk (.path segments) _) arguments, span, scope, expected =>
    inferConstructorCall a segments arguments.length (inferFirst a asyncContext arguments scope)
      (fun fields => checkArguments a asyncContext arguments fields scope "constructor argument") span expected
  | .call callee arguments, span, scope, _ => do
    match ← inferExpr a asyncContext callee scope none with
    | .function parameters result => do
      a.require (parameters.length = arguments.length) "SYL2101"
        ("function expects " ++ toString parameters.length ++ " argument(s), found " ++ toString arguments.length) span
      checkArguments a asyncContext arguments parameters scope "call argument"
      return result
    | calleeType => do
      a.require (calleeType = .error) "SYL2101" "called expression is not a function" callee.span
      inferArguments a asyncContext arguments scope
      return .error
  | .field base name, span, scope, _ => do
    let baseType ← inferExpr a asyncContext base scope none
    fieldType a baseType name span
  | .unary operator operand, _, scope, _ => do
    let operandType ← inferExpr a asyncContext operand scope none
    unaryResult a operator operandType operand.span
  | .binary operator left right, _, scope, _ => do
    let leftType ← inferExpr a asyncContext left scope none
    let rightType ← inferExpr a asyncContext right scope (some leftType)
    binaryResult a operator leftType rightType left.span right.span
  | .match_ value arms, span, scope, expected => do
    let valueType ← inferExpr a asyncContext value scope none
    let result ← inferArms a asyncContext arms valueType scope expected (expected.getD .unknown)
    checkExhaustive a span valueType arms
    return result
  | .block (.mk statements span), _, scope, expected => do
    let result ← checkStatements a asyncContext statements scope (expected.getD .unknown) .unit
    a.requireUnit statements (expected.getD .unknown) span
    return result
def inferItems (a : Analyzer) (asyncContext : Bool) :
    List Expr → Scope → Option ResolvedType → ResolvedType → Checked ResolvedType
  | [], _, _, itemType => return itemType
  | e :: es, scope, expected, itemType => do
    let actual ← inferExpr a asyncContext e scope expected
    let itemType ← joinType a itemType actual e.span "array element"
    inferItems a asyncContext es scope expected itemType
/-- The type of the first argument. -/
def inferFirst (a : Analyzer) (asyncContext : Bool) : List CallArgument → Scope → Checked ResolvedType
  | [], _                    => return .unknown
  | .mk _ value _ :: _, scope => inferExpr a asyncContext value scope none
/-- Arguments whose callee has no known type. -/
def inferArguments (a : Analyzer) (asyncContext : Bool) : List CallArgument → Scope → Checked Unit
  | [], _                      => return ()
  | .mk _ value _ :: as, scope => do
    let _ ← inferExpr a asyncContext value scope none
    inferArguments a asyncContext as scope
/-- Arguments against their types, as far as both go. -/
def checkArguments (a : Analyzer) (asyncContext : Bool) :
    List CallArgument → List ResolvedType → Scope → String → Checked Unit
  | .mk _ value span :: as, ty :: tys, scope, context => do
    let actual ← inferExpr a asyncContext value scope (some ty)
    a.requireCompatible ty actual span context
    checkArguments a asyncContext as tys scope context
  | [], _, _, _ => return ()
  | _, [], _, _ => return ()
def inferArms (a : Analyzer) (asyncContext : Bool) :
    List MatchArm → ResolvedType → Scope → Option ResolvedType → ResolvedType → Checked ResolvedType
  | [], _, _, _, result => return result
  | .mk pattern guard body _ :: arms, valueType, scope, expected, result => do
    let armScope ← checkPattern a pattern valueType scope
    inferGuard a asyncContext guard armScope
    let armType ← inferExpr a asyncContext body armScope expected
    let result ← joinType a result armType body.span "match arm"
    inferArms a asyncContext arms valueType scope expected result
def inferGuard (a : Analyzer) (asyncContext : Bool) : Option Expr → Scope → Checked Unit
  | none, _           => return ()
  | some guard, scope => do
    let guardType ← inferExpr a asyncContext guard scope (some boolType)
    a.requireCompatible boolType guardType guard.span "match guard"
/-- The statements of a block; a `return` and the last expression are checked against the result. -/
def checkStatements (a : Analyzer) (asyncContext : Bool) :
    List Statement → Scope → ResolvedType → ResolvedType → Checked ResolvedType
  | [], _, _, result => return result
  | .let_ name ty value _ :: rest, scope, expectedResult, result => do
    let declared ← resolveOption a ty
    let actual ← inferExpr a asyncContext value scope declared
    checkStatements a asyncContext rest (scope.insert name (declared.getD actual)) expectedResult result
  | .return_ value span :: rest, scope, expectedResult, result => do
    let actual ← inferReturned a asyncContext value scope expectedResult
    a.requireCompatible expectedResult actual span "return value"
    checkStatements a asyncContext rest scope expectedResult result
  | .expression e _ :: rest, scope, expectedResult, _ => do
    let result ← inferExpr a asyncContext e scope (if rest.isEmpty then some expectedResult else none)
    a.requireResult rest expectedResult result e.span
    checkStatements a asyncContext rest scope expectedResult result
def inferReturned (a : Analyzer) (asyncContext : Bool) : Option Expr → Scope → ResolvedType → Checked ResolvedType
  | none, _, _                       => return .unit
  | some value, scope, expectedResult => inferExpr a asyncContext value scope (some expectedResult)
end

def checkBlock (a : Analyzer) (asyncContext : Bool) : Block → Scope → ResolvedType → Checked ResolvedType
  | .mk statements span, scope, expectedResult => do
    let result ← checkStatements a asyncContext statements scope expectedResult .unit
    a.requireUnit statements expectedResult span
    return result

end Semantic
end Syllog
