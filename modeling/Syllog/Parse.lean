import Syllog.SylGrammar
import Syllog.Pratt
import Syllog.Validate
import Syllog.Package
/-!
# Parse — from pairs to the syntax tree

`lib.rs` of `syllog-parser`: every function takes a pair of the grammar and reads the pairs inside from the left.  Places of a
text are counted in characters here and in bytes in a span.  The recursion goes down the pairs, with fuel; `lowerProgram` has
enough of it.
-/
namespace Syllog
namespace Syl

open Hir Peg Ast

inductive LowerError where
  | missing (text : String)
  /-- The text up to the rule that was found. -/
  | unexpected (text : String) (found : Rule)
  | invalidString (text : String)
  | integerRange (text : String)
  /-- `PrattParser` panics on what is no sequence of operands and operators. -/
  | panics
  /-- The fuel of the model is used up. -/
  | depth
deriving DecidableEq

/-- The literal is at fault, not the tree. -/
def LowerError.ofLiteral : LowerError → Bool
  | .invalidString _ | .integerRange _ => true
  | _ => false

/-! ## Spans -/

def byteLength : List Char → Nat
  | []      => 0
  | c :: cs => c.utf8Size + byteLength cs

/-- Line and column of a place, from 1 and in characters. -/
def lineCol (input : List Char) (pos : Nat) : Nat × Nat :=
  ((input.take pos).count '\n' + 1, ((input.take pos).reverse.takeWhile (· ≠ '\n')).length + 1)

def spanOf (input : List Char) (start stop : Nat) : Span :=
  ⟨byteLength (input.take start), byteLength (input.take stop), (lineCol input start).1, (lineCol input start).2,
    (lineCol input stop).1, (lineCol input stop).2⟩

def pairSpan (input : List Char) (pair : Pair Rule) : Span := spanOf input pair.start pair.stop

def spanJoin (left right : Span) : Span := ⟨left.start, right.stop, left.line, left.column, right.endLine, right.endColumn⟩

/-! ## Parts -/

/-- `as_str`. -/
def asStr (pair : Pair Rule) : String := String.ofList pair.text

def isKeyword : Rule → Bool
  | .kw .await | .kw .mut => false
  | .kw _                 => true
  | _                     => false

def meaningfulInner (pair : Pair Rule) : List (Pair Rule) := pair.inner.filter fun inner => !isKeyword inner.rule

/-- `next`, or this text as the error. -/
def nextPart (parts : List (Pair Rule)) (text : String) : Except LowerError (Pair Rule × List (Pair Rule)) :=
  match parts with
  | []            => .error (.missing text)
  | part :: parts => .ok (part, parts)

def popFront (parts : List (Pair Rule)) (context : String) : Except LowerError (Pair Rule × List (Pair Rule)) :=
  nextPart parts (context ++ " is missing")

/-- The part in front if it is of this rule, and the others. -/
def takePart (parts : List (Pair Rule)) (rule : Rule) : Option (Pair Rule) × List (Pair Rule) :=
  match parts with
  | []            => (none, [])
  | part :: parts => if part.rule = rule then (some part, parts) else (none, part :: parts)

def takeMarker (parts : List (Pair Rule)) (rule : Rule) : Bool × List (Pair Rule) :=
  ((takePart parts rule).1.isSome, (takePart parts rule).2)

def takeIdentifier (parts : List (Pair Rule)) (context : String) : Except LowerError (String × List (Pair Rule)) := do
  let (pair, parts) ← popFront parts context
  if pair.rule ≠ .identifier then
    throw (.unexpected (context ++ ": expected identifier, found ") pair.rule)
  pure (asStr pair, parts)

def parsePath (pair : Pair Rule) : Except LowerError (List String) :=
  if pair.rule ≠ .path then .error (.unexpected "expected path, found " pair.rule)
  else .ok (pair.inner.map asStr)

/-! ## Literals -/

def hexValue (c : Char) : Nat :=
  if c.isDigit then c.toNat - '0'.toNat
  else if 'a' ≤ c && c ≤ 'f' then c.toNat - 'a'.toNat + 10
  else c.toNat - 'A'.toNat + 10

def hexNumber (digits : List Char) : Nat := digits.foldl (fun n c => 16 * n + hexValue c) 0

/-- What one letter behind a backslash stands for. -/
def escaped : Char → Option Char
  | '"'  => some '"'
  | '\\' => some '\\'
  | '/'  => some '/'
  | 'b'  => some '\x08'
  | 'f'  => some '\x0c'
  | 'n'  => some '\n'
  | 'r'  => some '\r'
  | 't'  => some '\t'
  | _    => none

/-- The text of a JSON string behind its first quote.  Two escapes make up a character above the first 65536; the halves do not
stand alone. -/
def jsonText : List Char → Option (List Char)
  | []                                    => none
  | ['"']                                 => some []
  | '"' :: _ :: _                         => none
  | '\\' :: 'u' :: a :: b :: c :: d :: cs =>
    let high := hexNumber [a, b, c, d]
    if 0xDC00 ≤ high ∧ high ≤ 0xDFFF then none
    else if 0xD800 ≤ high ∧ high ≤ 0xDBFF then
      match cs with
      | '\\' :: 'u' :: a :: b :: c :: d :: cs =>
        let low := hexNumber [a, b, c, d]
        if 0xDC00 ≤ low ∧ low ≤ 0xDFFF then
          (jsonText cs).map (Char.ofNat (0x10000 + 0x400 * (high - 0xD800) + (low - 0xDC00)) :: ·)
        else none
      | _ => none
    else (jsonText cs).map (Char.ofNat high :: ·)
  | '\\' :: e :: cs =>
    match escaped e with
    | none   => none
    | some c => (jsonText cs).map (c :: ·)
  | c :: cs => if c.toNat < 0x20 then none else (jsonText cs).map (c :: ·)

/-- `serde_json::from_str`, for a string. -/
def jsonString : List Char → Option String
  | '"' :: cs => (jsonText cs).map String.ofList
  | _         => none

def decimal (digits : List Char) : Nat := digits.foldl (fun n c => 10 * n + (c.toNat - '0'.toNat)) 0

/-- `str::parse` of digits, for an `i64`. -/
def parseInteger (digits : List Char) : Option Int64 :=
  if decimal digits ≤ 9223372036854775807 then some (Int64.ofNat (decimal digits)) else none

def parseLiteral (pair : Pair Rule) : Except LowerError Literal :=
  match pair.rule with
  | .string  =>
    match jsonString pair.text with
    | none      => .error (.invalidString (asStr pair))
    | some text => .ok (.string text)
  | .integer =>
    match parseInteger pair.text with
    | none       => .error (.integerRange (asStr pair))
    | some value => .ok (.integer value)
  | .float   => .ok (.float (asStr pair))
  | .boolean => .ok (.boolean (asStr pair = "true"))
  | rule     => .error (.unexpected "unexpected literal rule: " rule)

/-! ## Types and patterns -/

section
variable (input : List Char)

def parseType : Nat → Pair Rule → Except LowerError TypeNode
  | 0, _        => .error .depth
  | n + 1, pair => do
    let pair ← if pair.rule = .typeExpr then (·.1) <$> nextPart pair.inner "type expression is empty" else pure pair
    let span := pairSpan input pair
    match pair.rule with
    | .referenceType =>
      let (lifetime, parts) := takePart (meaningfulInner pair) .lifetime
      let (mutable, parts) := takeMarker parts (.kw .mut)
      let (referenced, _) ← popFront parts "referenced type"
      let inner ← parseType n referenced
      pure (.reference (lifetime.map fun pair => String.ofList (pair.text.dropWhile (· ∈ "'".toList))) mutable inner span)
    | .arrayType =>
      let (item, _) ← nextPart pair.inner "array type is empty"
      pure (.array (← parseType n item) span)
    | .tupleType => pure (.tuple (← pair.inner.mapM (parseType n)) span)
    | .pathType  =>
      let (path, parts) ← nextPart pair.inner "type path is empty"
      let segments ← parsePath path
      let arguments ←
        match parts with
        | []            => pure []
        | generics :: _ => generics.inner.mapM (parseType n)
      pure (.path segments arguments span)
    | rule => throw (.unexpected "unexpected type rule: " rule)

def parsePattern : Nat → Pair Rule → Except LowerError Pattern
  | 0, _        => .error .depth
  | n + 1, pair => do
    let span := pairSpan input pair
    let (inner, _) ← nextPart pair.inner "pattern is empty"
    match inner.rule with
    | .wildcardPattern => pure (.wildcard span)
    | .pathPattern =>
      let (path, _) ← nextPart inner.inner "path pattern is empty"
      pure (.path (← parsePath path) span)
    | .constructorPattern =>
      let (path, parts) ← nextPart inner.inner "constructor path is empty"
      let segments ← parsePath path
      pure (.constructor segments (← parts.mapM (parsePattern n)) span)
    | .literalPattern =>
      let (literal, _) ← nextPart inner.inner "literal pattern is empty"
      pure (.literal (← parseLiteral literal) span)
    | rule => throw (.unexpected "unexpected pattern rule: " rule)

/-! ## Expressions -/

/-- The levels of the operators in `parse_expression`, from the loosest. -/
def level : BinaryOperator → Nat
  | .or                                             => 1
  | .and                                            => 2
  | .equal | .notEqual                              => 3
  | .less | .lessEqual | .greater | .greaterEqual   => 4
  | .add | .subtract                                => 5
  | .multiply | .divide | .remainder                => 6

/-- What `PrattParser` takes a pair for; a level is ten apart from the next. -/
def role (pair : Pair Rule) : Option Pratt.Role :=
  match pair.rule with
  | .op operator     => some (.between (10 * level operator))
  | .prefixOperator  => some (.before 70)
  | _                => none

def unaryOperator (pair : Pair Rule) : Except LowerError UnaryOperator := do
  let (operator, _) ← nextPart pair.inner "prefix operator is empty"
  match operator.rule with
  | .opNot    => pure .not
  | .opNegate => pure .negate
  | rule      => throw (.unexpected "unexpected prefix operator: " rule)

def binaryOperator : Rule → Except LowerError BinaryOperator
  | .op operator => .ok operator
  | rule         => .error (.unexpected "unexpected binary operator: " rule)

/-- `map_prefix`. -/
def mapPrefix (operator : Pair Rule) (operand : Except LowerError Expr) : Except LowerError Expr := do
  let operand ← operand
  let unary ← unaryOperator operator
  pure (.mk (.unary unary operand) (spanJoin (pairSpan input operator) operand.span))

/-- `map_infix`. -/
def mapInfix (left : Except LowerError Expr) (operator : Pair Rule)
    (right : Except LowerError Expr) : Except LowerError Expr := do
  let left ← left
  let right ← right
  let binary ← binaryOperator operator.rule
  pure (.mk (.binary binary left right) (spanJoin left.span right.span))

mutual
def parseExpression : Nat → Pair Rule → Except LowerError Expr
  | 0, _        => .error .depth
  | n + 1, pair =>
    if pair.rule ≠ .expression then .error (.unexpected "expected expression, found " pair.rule)
    else
      match Pratt.parse role pair.inner with
      | none      => .error .panics
      | some tree => tree.fold (parsePostfix n) (mapPrefix input) mapInfix

def parsePostfix : Nat → Pair Rule → Except LowerError Expr
  | 0, _        => .error .depth
  | n + 1, pair => do
    let (primary, suffixes) ← nextPart (meaningfulInner pair) "postfix expression is empty"
    let expression ← parsePrimary n primary
    suffixes.foldlM (parseSuffix n) expression

/-- The body of the loop in `parse_postfix`. -/
def parseSuffix : Nat → Expr → Pair Rule → Except LowerError Expr
  | 0, _, _                   => .error .depth
  | n + 1, expression, suffix => do
    let span := spanJoin expression.span (pairSpan input suffix)
    match suffix.rule with
    | .callSuffix  => pure (.mk (.call expression (← suffix.inner.mapM (parseCallArgument n))) span)
    | .fieldSuffix =>
      let (name, _) ← nextPart suffix.inner "field suffix has no name"
      pure (.mk (.field expression (asStr name)) span)
    | rule => throw (.unexpected "unexpected postfix suffix: " rule)

def parsePrimary : Nat → Pair Rule → Except LowerError Expr
  | 0, _        => .error .depth
  | n + 1, pair => do
    let span := pairSpan input pair
    match pair.rule with
    | .borrowExpression =>
      let (mutable, parts) := takeMarker (meaningfulInner pair) (.kw .mut)
      let (operand, _) ← popFront parts "borrow operand"
      pure (.mk (.borrow mutable (← parseExpression n operand)) span)
    | .awaitExpression =>
      match pair.inner.find? fun part => part.rule = .expression with
      | none         => throw (.missing "await operand is missing")
      | some operand => pure (.mk (.await (← parseExpression n operand)) span)
    | .string | .boolean | .float | .integer => pure (.mk (.literal (← parseLiteral pair)) span)
    | .pathExpression =>
      let (path, _) ← nextPart pair.inner "path expression is empty"
      match ← parsePath path with
      | [name]   => pure (.mk (.literal (.identifier name)) span)
      | segments => pure (.mk (.path segments) span)
    | .arrayExpression => pure (.mk (.array (← pair.inner.mapM (parseExpression n))) span)
    | .parenthesized =>
      let (inner, _) ← nextPart pair.inner "parenthesized expression is empty"
      parseExpression n inner
    | .matchExpression => parseMatch n pair
    | .block           => pure (.mk (.block (← parseBlock n pair)) span)
    | rule => throw (.unexpected "unexpected primary rule: " rule)

def parseCallArgument : Nat → Pair Rule → Except LowerError CallArgument
  | 0, _        => .error .depth
  | n + 1, pair => do
    let span := pairSpan input pair
    let (inner, _) ← nextPart pair.inner "call argument is empty"
    if inner.rule = .namedArgument then
      let (name, parts) ← nextPart inner.inner "named argument has no name"
      let (value, _) ← nextPart parts "named argument has no value"
      pure (.mk (some (asStr name)) (← parseExpression n value) span)
    else pure (.mk none (← parseExpression n inner) span)

def parseMatch : Nat → Pair Rule → Except LowerError Expr
  | 0, _        => .error .depth
  | n + 1, pair => do
    let (scrutinee, arms) ← nextPart (meaningfulInner pair) "match value is missing"
    let value ← parseExpression n scrutinee
    pure (.mk (.match_ value (← arms.mapM (parseMatchArm n))) (pairSpan input pair))

def parseMatchArm : Nat → Pair Rule → Except LowerError MatchArm
  | 0, _        => .error .depth
  | n + 1, pair => do
    let (first, parts) ← popFront (meaningfulInner pair) "match pattern"
    let pattern ← parsePattern input n first
    let (guardPart, parts) := takePart parts .matchGuard
    let guard ← guardPart.mapM fun guardPart => do
      let (condition, _) ← nextPart (meaningfulInner guardPart) "match guard is empty"
      parseExpression n condition
    let (body, _) ← popFront parts "match arm body"
    pure (.mk pattern guard (← parseExpression n body) (pairSpan input pair))

def parseBlock : Nat → Pair Rule → Except LowerError Block
  | 0, _        => .error .depth
  | n + 1, pair => do
    pure (.mk (← pair.inner.mapM (parseStatement n)) (pairSpan input pair))

def parseStatement : Nat → Pair Rule → Except LowerError Statement
  | 0, _        => .error .depth
  | n + 1, pair => do
    let span := pairSpan input pair
    match pair.rule with
    | .letStatement =>
      let (name, parts) ← takeIdentifier (meaningfulInner pair) "let binding"
      let (declared, parts) := takePart parts .typeExpr
      let ty ← declared.mapM (parseType input n)
      let (value, _) ← popFront parts "let initializer"
      pure (.let_ name ty (← parseExpression n value) span)
    | .returnStatement =>
      let value ← (meaningfulInner pair).head?.mapM (parseExpression n)
      pure (.return_ value span)
    | .expressionStatement =>
      let (expression, _) ← nextPart pair.inner "expression statement is empty"
      pure (.expression (← parseExpression n expression) span)
    | rule => throw (.unexpected "unexpected statement rule: " rule)
end

/-! ## Items -/

section
variable (n : Nat)

def parseParameter (pair : Pair Rule) : Except LowerError Parameter := do
  let (name, parts) ← takeIdentifier (meaningfulInner pair) "parameter"
  let (ty, _) ← popFront parts "parameter type"
  pure ⟨name, ← parseType input n ty, pairSpan input pair⟩

def parseParameters (pair : Pair Rule) : Except LowerError (List Parameter) := pair.inner.mapM (parseParameter input n)

def parseReturnType (pair : Pair Rule) : Except LowerError TypeNode := do
  let (ty, _) ← nextPart pair.inner "return type is missing"
  parseType input n ty

def parseProperty (pair : Pair Rule) : Except LowerError Property := do
  let (name, parts) ← takeIdentifier (meaningfulInner pair) "property name"
  let (valueOrTyped, _) ← popFront parts "property value"
  if valueOrTyped.rule = .typedProperty then
    let (ty, typed) ← nextPart valueOrTyped.inner "typed property type is missing"
    let ty ← parseType input n ty
    let (value, _) ← nextPart typed "typed property value is missing"
    pure ⟨name, some ty, ← parseExpression input n value, pairSpan input pair⟩
  else pure ⟨name, none, ← parseExpression input n valueOrTyped, pairSpan input pair⟩

def parsePropertyBlock (pair : Pair Rule) : Except LowerError (List Property) := pair.inner.mapM (parseProperty input n)

def parseStructField (pair : Pair Rule) : Except LowerError StructField := do
  let (isPublic, parts) := takeMarker (meaningfulInner pair) .visibility
  let (name, parts) ← takeIdentifier parts "struct field"
  let (ty, _) ← popFront parts "struct field type"
  pure ⟨isPublic, name, ← parseType input n ty, pairSpan input pair⟩

def parseStruct (pair : Pair Rule) : Except LowerError StructNode := do
  let (isPublic, parts) := takeMarker (meaningfulInner pair) .visibility
  let (name, parts) ← takeIdentifier parts "struct name"
  pure ⟨isPublic, name, ← parts.mapM (parseStructField input n), pairSpan input pair⟩

def parseEnumVariant (pair : Pair Rule) : Except LowerError EnumVariant := do
  let (name, parts) ← takeIdentifier (meaningfulInner pair) "enum variant"
  pure ⟨name, ← parts.mapM (parseType input n), pairSpan input pair⟩

def parseEnum (pair : Pair Rule) : Except LowerError EnumNode := do
  let (isPublic, parts) := takeMarker (meaningfulInner pair) .visibility
  let (name, parts) ← takeIdentifier parts "enum name"
  pure ⟨isPublic, name, ← parts.mapM (parseEnumVariant input n), pairSpan input pair⟩

/-- The name of an attribute; the tree does not keep it here. -/
def parseAttribute (pair : Pair Rule) : Except LowerError String := do
  let (name, _) ← takeIdentifier (meaningfulInner pair) "attribute name"
  pure name

def parseEffectName (pair : Pair Rule) : Except LowerError String := do
  let (name, _) ← nextPart pair.inner "effect name is empty"
  pure (asStr name)

def parseEffectSet (pair : Pair Rule) : Except LowerError (List String) := pair.inner.mapM parseEffectName

def parseFunction (pair : Pair Rule) : Except LowerError FunctionNode := do
  let parts := meaningfulInner pair
  let _ ← (parts.takeWhile fun part => part.rule = .attribute).mapM parseAttribute
  let parts := parts.dropWhile fun part => part.rule = .attribute
  let (isPublic, parts) := takeMarker parts .visibility
  let (asynchronous, parts) := takeMarker parts .asyncMarker
  let (name, parts) ← takeIdentifier parts "function name"
  let (parameters, parts) ← popFront parts "function parameters"
  let parameters ← parseParameters input n parameters
  let (result, parts) := takePart parts .returnType
  let returnType ← result.mapM (parseReturnType input n)
  let (set, parts) := takePart parts .effectSet
  let effects ← set.mapM parseEffectSet
  let (body, _) ← popFront parts "function body"
  pure ⟨isPublic, asynchronous, name, parameters, returnType, effects, ← parseBlock input n body, pairSpan input pair⟩

def parseStateField (pair : Pair Rule) : Except LowerError StateField := do
  let (name, parts) ← takeIdentifier (meaningfulInner pair) "state field"
  let (ty, parts) ← popFront parts "state field type"
  let ty ← parseType input n ty
  pure ⟨name, ty, ← parts.head?.mapM (parseExpression input n), pairSpan input pair⟩

def parseState (pair : Pair Rule) : Except LowerError StateNode := do
  let (isPublic, parts) := takeMarker (meaningfulInner pair) .visibility
  let (name, parts) ← takeIdentifier parts "state name"
  pure ⟨isPublic, name, ← parts.mapM (parseStateField input n), pairSpan input pair⟩

def parseAgent (pair : Pair Rule) : Except LowerError AgentNode := do
  let (isPublic, parts) := takeMarker (meaningfulInner pair) .visibility
  let (name, parts) ← takeIdentifier parts "agent name"
  let (body, _) ← popFront parts "agent body"
  pure ⟨isPublic, name, ← parsePropertyBlock input n body, pairSpan input pair⟩

/-- The parameters of a pipeline or a safety bound, none where they are left out. -/
def optionalParameters (parameters : Option (Pair Rule)) : Except LowerError (List Parameter) :=
  match parameters with
  | none            => pure []
  | some parameters => parseParameters input n parameters

def parsePipeline (pair : Pair Rule) : Except LowerError PipelineNode := do
  let (isPublic, parts) := takeMarker (meaningfulInner pair) .visibility
  let (name, parts) ← takeIdentifier parts "pipeline name"
  let (parameters, parts) := takePart parts .parameters
  let parameters ← optionalParameters input n parameters
  let (result, parts) := takePart parts .returnType
  let returnType ← result.mapM (parseReturnType input n)
  let (body, _) ← popFront parts "pipeline body"
  pure ⟨isPublic, name, parameters, returnType, ← parsePropertyBlock input n body, pairSpan input pair⟩

def parseSafetyBound (pair : Pair Rule) : Except LowerError SafetyBoundNode := do
  let (isPublic, parts) := takeMarker (meaningfulInner pair) .visibility
  let (name, parts) ← takeIdentifier parts "safety_bound name"
  let (parameters, parts) := takePart parts .parameters
  let parameters ← optionalParameters input n parameters
  let (body, _) ← popFront parts "safety_bound body"
  pure ⟨isPublic, name, parameters, ← parsePropertyBlock input n body, pairSpan input pair⟩

def parseItem (pair : Pair Rule) : Except LowerError Item :=
  match pair.rule with
  | .structDecl      => .struct <$> parseStruct input n pair
  | .enumDecl        => .enum <$> parseEnum input n pair
  | .functionDecl    => .function <$> parseFunction input n pair
  | .stateDecl       => .state <$> parseState input n pair
  | .agentDecl       => .agent <$> parseAgent input n pair
  | .pipelineDecl    => .pipeline <$> parsePipeline input n pair
  | .safetyBoundDecl => .safetyBound <$> parseSafetyBound input n pair
  | rule             => .error (.unexpected "unexpected item rule: " rule)

def parseModule (pair : Pair Rule) : Except LowerError ModuleNode := do
  let (path, _) ← popFront (meaningfulInner pair) "module path"
  pure ⟨← parsePath path, pairSpan input pair⟩

def parseUse (pair : Pair Rule) : Except LowerError UseNode := do
  let (path, parts) ← popFront (meaningfulInner pair) "import path"
  let path ← parsePath path
  pure ⟨path, parts.head?.map asStr, pairSpan input pair⟩

/-- The body of the loop in `lower_program`. -/
def lowerPart (file : SourceFile) (pair : Pair Rule) : Except LowerError SourceFile :=
  match pair.rule with
  | .moduleDecl => do pure { file with module := some (← parseModule input pair) }
  | .useDecl    => do pure { file with imports := file.imports ++ [← parseUse input pair] }
  | .eoi        => pure file
  | _           => do pure { file with items := file.items ++ [← parseItem input n pair] }

end

/-- No function goes to one pair more than twice before it goes to the pairs inside. -/
def lowerProgram (program : Pair Rule) : Except LowerError SourceFile :=
  program.inner.foldlM (lowerPart input (2 * program.height)) ⟨none, [], [], pairSpan input program⟩

end

/-! ## Checking a file -/

/-- Texts that are made outside of the crate: what Pest says of a text it does not match and where, what `serde_json` says of a
string, and the names of the rules in the generated type. -/
structure Texts where
  syntaxError : String → String × Span
  stringCause : String → String
  ruleName : Rule → String

def LowerError.text (texts : Texts) : LowerError → String
  | .missing text          => text
  | .unexpected text found => text ++ texts.ruleName found
  | .invalidString text    => "invalid string literal: " ++ texts.stringCause text
  | .integerRange _        => "integer literal is outside the signed 64-bit range: number too large to fit in target type"
  | .panics | .depth       => ""

/-- The pairs of a text, and its tree. -/
def parseProgram (source : String) : Option (Except LowerError SourceFile) :=
  match parse sylLayering .program source.toList with
  | none                => none
  | some []             => some (.error (.missing "parser did not produce a program node"))
  | some (program :: _) => some (lowerProgram source.toList program)

def checkSyl (texts : Texts) (file source : String) : Package.CheckResult :=
  match parseProgram source with
  | none =>
    let (message, span) := texts.syntaxError source
    ⟨none, [⟨"SYL0001", .error, message, file, span⟩]⟩
  | some (.error e) => ⟨none, [⟨"SYL0002", .error, "internal AST lowering failure: " ++ e.text texts, file, default⟩]⟩
  | some (.ok ast)  => ⟨some ast, Validate.validate file ast⟩

end Syl
end Syllog
