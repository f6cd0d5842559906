import Syllog.PegTrees
import Syllog.Ast
/-!
# SylGrammar — the grammar of source files

`grammar.pest` of `syllog-parser`, a rule a case.  The keyword rules, and those of the operators between operands, are one
family each.  `WHITESPACE` and `COMMENT` make up the skip.
-/
namespace Syllog
namespace Syl

open Hir Peg Ast

/-- The rules `kw_struct` to `kw_mut`. -/
inductive Keyword where
  | struct | enum | fn | state | agent | pipeline | safetyBound | let_ | return_ | match_ | if_ | module | use | as_ | await
  | mut
deriving DecidableEq

def Keyword.word : Keyword → String
  | .struct      => "struct"
  | .enum        => "enum"
  | .fn          => "fn"
  | .state       => "state"
  | .agent       => "agent"
  | .pipeline    => "pipeline"
  | .safetyBound => "safety_bound"
  | .let_        => "let"
  | .return_     => "return"
  | .match_      => "match"
  | .if_         => "if"
  | .module      => "module"
  | .use         => "use"
  | .as_         => "as"
  | .await       => "await"
  | .mut         => "mut"

inductive Rule where
  | whitespace | comment | lineComment | blockComment
  | program | moduleDecl | useDecl | item
  | visibility | asyncMarker
  | structDecl | structField | enumDecl | enumVariant
  | functionDecl | attribute | parameters | parameterList | parameter | returnType
  | stateDecl | stateField
  | agentDecl | pipelineDecl | safetyBoundDecl | propertyBlock | property | typedProperty
  | effectSet | effectName
  | typeExpr | referenceType | lifetime | arrayType | tupleType | typeList | pathType | genericArguments
  | block | statement | letStatement | returnStatement | expressionStatement
  | expression | postfixExpression | postfixSuffix | callSuffix | argumentList | callArgument | namedArgument | fieldSuffix
  | primary | borrowExpression | awaitExpression | parenthesized | arrayExpression | pathExpression
  | matchExpression | matchArm | matchGuard | pattern | wildcardPattern | constructorPattern | literalPattern | pathPattern
  | infixOperator | op (operator : BinaryOperator) | prefixOperator | opNot | opNegate
  | literal | boolean | float | integer | string | escape
  | path | identifier | identStart | identContinue | separator
  | kw (keyword : Keyword)
  | eoi
deriving DecidableEq

/-- A literal of the grammar. -/
def lit (s : String) : Exp Rule := .text s.toList

def asciiAlpha : Exp Rule := .one Char.isAlpha

def asciiAlphanumeric : Exp Rule := .one Char.isAlphanum

def asciiDigit : Exp Rule := .one Char.isDigit

/-- `ASCII_HEX_DIGIT`. -/
def isHexDigit (c : Char) : Bool := c.isDigit || 'a' ≤ c && c ≤ 'f' || 'A' ≤ c && c ≤ 'F'

/-- `ANY`. -/
def anyChar : Exp Rule := .one fun _ => true

/-- `NEWLINE`. -/
def newline : Exp Rule := .any [lit "\n", lit "\r\n", lit "\r"]

def Keyword.rule (keyword : Keyword) : Exp Rule := .rule (.kw keyword)

/-- `a ~ (sep ~ a)*`. -/
def separated (sep : String) (a : Exp Rule) : Exp Rule := .seq a (.star (.seq (lit sep) a))

/-- `a ~ ("," ~ a)* ~ ","?`. -/
def listed (a : Exp Rule) : Exp Rule := .all [a, .star (.seq (lit ",") a), .opt (lit ",")]

/-- `word ~ !ident_continue`. -/
def wholeWord (word : String) : Exp Rule := .seq (lit word) (.ban (.rule .identContinue))

def operatorText : BinaryOperator → String
  | .or           => "||"
  | .and          => "&&"
  | .equal        => "=="
  | .notEqual     => "!="
  | .lessEqual    => "<="
  | .greaterEqual => ">="
  | .less         => "<"
  | .greater      => ">"
  | .add          => "+"
  | .subtract     => "-"
  | .multiply     => "*"
  | .divide       => "/"
  | .remainder    => "%"

def ruleBody : Rule → Exp Rule
  | .whitespace   => .any [lit " ", lit "\t", newline]
  | .comment      => .any [.rule .lineComment, .rule .blockComment]
  | .lineComment  => .all [lit "//", .star (.seq (.ban newline) anyChar), .alt newline (.rule .eoi)]
  | .blockComment =>
    .all [lit "/*", .star (.alt (.rule .blockComment) (.seq (.ban (.alt (lit "/*") (lit "*/"))) anyChar)), lit "*/"]
  | .program      => .all [.start, .opt (.rule .moduleDecl), .star (.rule .useDecl), .star (.rule .item), .rule .eoi]
  | .moduleDecl   => .all [Keyword.module.rule, .rule .path, .rule .separator]
  | .useDecl      =>
    .all [Keyword.use.rule, .rule .path, .opt (.seq Keyword.as_.rule (.rule .identifier)), .rule .separator]
  | .item         =>
    .any [.rule .structDecl, .rule .enumDecl, .rule .functionDecl, .rule .stateDecl, .rule .agentDecl, .rule .pipelineDecl,
      .rule .safetyBoundDecl]
  | .visibility   => wholeWord "pub"
  | .asyncMarker  => wholeWord "async"
  | .structDecl   =>
    .all [.opt (.rule .visibility), Keyword.struct.rule, .rule .identifier, lit "\x7b", .star (.rule .structField), lit "\x7d"]
  | .structField  =>
    .all [.opt (.rule .visibility), .rule .identifier, lit ":", .rule .typeExpr, .opt (.rule .separator)]
  | .enumDecl     =>
    .all [.opt (.rule .visibility), Keyword.enum.rule, .rule .identifier, lit "\x7b", .star (.rule .enumVariant), lit "\x7d"]
  | .enumVariant  =>
    .all [.rule .identifier, .opt (.all [lit "(", .opt (.rule .typeList), lit ")"]), .opt (.rule .separator)]
  | .functionDecl =>
    .all [.star (.rule .attribute), .opt (.rule .visibility), .opt (.rule .asyncMarker), Keyword.fn.rule, .rule .identifier,
      .rule .parameters, .opt (.rule .returnType), .opt (.rule .effectSet), .rule .block]
  | .attribute    => .all [lit "#[", .rule .identifier, lit "]"]
  | .parameters   => .all [lit "(", .opt (.rule .parameterList), lit ")"]
  | .parameterList => listed (.rule .parameter)
  | .parameter    => .all [.rule .identifier, lit ":", .rule .typeExpr]
  | .returnType   => .seq (lit "->") (.rule .typeExpr)
  | .stateDecl    =>
    .all [.opt (.rule .visibility), Keyword.state.rule, .rule .identifier, lit "\x7b", .star (.rule .stateField), lit "\x7d"]
  | .stateField   =>
    .all [.rule .identifier, lit ":", .rule .typeExpr, .opt (.seq (lit "=") (.rule .expression)), .opt (.rule .separator)]
  | .agentDecl    => .all [.opt (.rule .visibility), Keyword.agent.rule, .rule .identifier, .rule .propertyBlock]
  | .pipelineDecl =>
    .all [.opt (.rule .visibility), Keyword.pipeline.rule, .rule .identifier, .opt (.rule .parameters), .opt (.rule .returnType),
      .rule .propertyBlock]
  | .safetyBoundDecl =>
    .all [.opt (.rule .visibility), Keyword.safetyBound.rule, .rule .identifier, .opt (.rule .parameters), .rule .propertyBlock]
  | .propertyBlock => .all [lit "\x7b", .star (.rule .property), lit "\x7d"]
  | .property     =>
    .all [.rule .identifier, lit ":", .alt (.rule .typedProperty) (.rule .expression), .opt (.rule .separator)]
  | .typedProperty => .all [.rule .typeExpr, lit "=", .rule .expression]
  | .effectSet    => .all [lit "!", lit "\x7b", .opt (listed (.rule .effectName)), lit "\x7d"]
  | .effectName   => .rule .identifier
  | .typeExpr     => .any [.rule .referenceType, .rule .arrayType, .rule .tupleType, .rule .pathType]
  | .referenceType => .all [lit "&", .opt (.rule .lifetime), .opt Keyword.mut.rule, .rule .typeExpr]
  | .lifetime     => .all [lit "'", .rule .identStart, .star (.rule .identContinue)]
  | .arrayType    => .all [lit "[", .rule .typeExpr, lit "]"]
  | .tupleType    => .all [lit "(", .opt (.rule .typeList), lit ")"]
  | .typeList     => listed (.rule .typeExpr)
  | .pathType     => .seq (.rule .path) (.opt (.rule .genericArguments))
  | .genericArguments => .all [lit "<", .rule .typeList, lit ">"]
  | .block        => .all [lit "\x7b", .star (.rule .statement), lit "\x7d"]
  | .statement    => .any [.rule .letStatement, .rule .returnStatement, .rule .expressionStatement]
  | .letStatement =>
    .all [Keyword.let_.rule, .rule .identifier, .opt (.seq (lit ":") (.rule .typeExpr)), lit "=", .rule .expression,
      .opt (.rule .separator)]
  | .returnStatement => .all [Keyword.return_.rule, .opt (.rule .expression), .opt (.rule .separator)]
  | .expressionStatement => .seq (.rule .expression) (.opt (.rule .separator))
  | .expression   =>
    .all [.star (.rule .prefixOperator), .rule .postfixExpression,
      .star (.all [.rule .infixOperator, .star (.rule .prefixOperator), .rule .postfixExpression])]
  | .postfixExpression => .seq (.rule .primary) (.star (.rule .postfixSuffix))
  | .postfixSuffix => .alt (.rule .callSuffix) (.rule .fieldSuffix)
  | .callSuffix   => .all [lit "(", .opt (.rule .argumentList), lit ")"]
  | .argumentList => listed (.rule .callArgument)
  | .callArgument => .alt (.rule .namedArgument) (.rule .expression)
  | .namedArgument => .all [.rule .identifier, lit ":", .rule .expression]
  | .fieldSuffix  => .seq (lit ".") (.rule .identifier)
  | .primary      =>
    .any [.rule .borrowExpression, .rule .awaitExpression, .rule .matchExpression, .rule .arrayExpression, .rule .literal,
      .rule .pathExpression, .rule .parenthesized, .rule .block]
  | .borrowExpression => .all [lit "&", .opt Keyword.mut.rule, .rule .expression]
  | .awaitExpression => .seq Keyword.await.rule (.rule .expression)
  | .parenthesized => .all [lit "(", .rule .expression, lit ")"]
  | .arrayExpression => .all [lit "[", .opt (listed (.rule .expression)), lit "]"]
  | .pathExpression => .rule .path
  | .matchExpression => .all [Keyword.match_.rule, .rule .expression, lit "\x7b", .star (.rule .matchArm), lit "\x7d"]
  | .matchArm     => .all [.rule .pattern, .opt (.rule .matchGuard), lit "=>", .rule .expression, .opt (.rule .separator)]
  | .matchGuard   => .seq Keyword.if_.rule (.rule .expression)
  | .pattern      => .any [.rule .wildcardPattern, .rule .constructorPattern, .rule .literalPattern, .rule .pathPattern]
  | .wildcardPattern => wholeWord "_"
  | .constructorPattern => .all [.rule .path, lit "(", .opt (listed (.rule .pattern)), lit ")"]
  | .literalPattern => .rule .literal
  | .pathPattern  => .rule .path
  | .infixOperator =>
    .any ([.or, .and, .equal, .notEqual, .lessEqual, .greaterEqual, .less, .greater, .add, .subtract, .multiply, .divide,
      .remainder].map fun operator => .rule (.op operator))
  | .op operator  => lit (operatorText operator)
  | .prefixOperator => .alt (.rule .opNot) (.rule .opNegate)
  | .opNot        => lit "!"
  | .opNegate     => lit "-"
  | .literal      => .any [.rule .string, .rule .boolean, .rule .float, .rule .integer]
  | .boolean      => .seq (.alt (lit "true") (lit "false")) (.ban (.rule .identContinue))
  | .float        => .all [asciiDigit.plus, lit ".", asciiDigit.plus]
  | .integer      => asciiDigit.plus
  | .string       =>
    .all [lit "\"", .star (.alt (.rule .escape) (.seq (.ban (.any [lit "\"", lit "\\", newline])) anyChar)), lit "\""]
  | .escape       =>
    .seq (lit "\\") (.any [lit "\"", lit "\\", lit "/", lit "b", lit "f", lit "n", lit "r", lit "t",
      .all [lit "u", .one isHexDigit, .one isHexDigit, .one isHexDigit, .one isHexDigit]])
  | .path         => separated "::" (.rule .identifier)
  | .identifier   => .seq (.rule .identStart) (.star (.rule .identContinue))
  | .identStart   => .alt asciiAlpha (lit "_")
  | .identContinue => .alt asciiAlphanumeric (lit "_")
  | .separator    => .alt (lit ",") (lit ";")
  | .kw keyword   => wholeWord keyword.word
  | .eoi          => .stop

/-- `_{ .. }` is silent, `@{ .. }` atomic. -/
def ruleKind : Rule → Kind
  | .whitespace | .comment | .lineComment | .blockComment | .item | .parameterList | .typeList | .statement | .postfixSuffix
  | .argumentList | .primary | .infixOperator | .literal | .escape | .identStart | .identContinue | .separator => .silent
  | .visibility | .asyncMarker | .lifetime | .boolean | .float | .integer | .string | .identifier | .kw _ => .atomic
  | _ => .normal

def sylGrammar : Grammar Rule where
  body := ruleBody
  kind := ruleKind
  skip := .seq (.star (.rule .whitespace)) (.star (.seq (.rule .comment) (.star (.rule .whitespace))))

/-! ## Its layers -/

/-- The rules that may match without reading. -/
def mayBeEmpty : Rule → Bool
  | .program | .eoi => true
  | _               => false

/-- How far down a rule is from those that only read. -/
def layer : Rule → Nat
  | .eoi | .whitespace | .lineComment | .blockComment | .identStart | .identContinue | .separator | .op _ | .opNot | .opNegate
  | .escape | .kw _ | .visibility | .asyncMarker | .lifetime | .boolean | .float | .integer | .string | .attribute | .parameters
  | .returnType | .propertyBlock | .effectSet | .referenceType | .arrayType | .tupleType | .genericArguments | .block | .callSuffix
  | .fieldSuffix | .borrowExpression | .parenthesized | .arrayExpression | .wildcardPattern => 0
  | .comment | .identifier | .infixOperator | .prefixOperator | .literal | .postfixSuffix => 1
  | .path | .effectName | .parameter | .namedArgument | .enumVariant | .stateField | .property | .structField | .literalPattern => 2
  | .moduleDecl | .useDecl | .structDecl | .enumDecl | .functionDecl | .stateDecl | .agentDecl | .pipelineDecl | .safetyBoundDecl
  | .pathType | .pathExpression | .pathPattern | .constructorPattern | .awaitExpression | .matchExpression | .letStatement
  | .returnStatement | .matchGuard | .parameterList => 3
  | .typeExpr | .pattern | .primary | .item => 4
  | .typedProperty | .typeList | .postfixExpression | .matchArm => 5
  | .expression => 6
  | .callArgument | .expressionStatement => 7
  | .argumentList | .statement | .program => 8

def sylLayering : Layering sylGrammar where
  known := mayBeEmpty
  rank := layer
  top := 9
  width := 200
  width_pos := by decide
  known_body r := by cases r <;> first | decide | (rename_i k; cases k <;> decide)
  rank_lt r := by cases r <;> first | decide | (rename_i k; cases k <;> decide)
  ranked_body r := by cases r <;> first | decide | (rename_i k; cases k <;> decide)
  solid_body r := by cases r <;> first | decide | (rename_i k; cases k <;> decide)
  solid_skip := by decide
  depth_body r := by cases r <;> first | decide | (rename_i k; cases k <;> decide)

end Syl
end Syllog
