import Syllog.Hir
import Syllog.OrdMap
import Mathlib.Data.String.Basic
/-!
# Types — resolved types, symbols and diagnostics

`types.rs` of `syllog-semantic`: equality and the printed form of resolved types, and the symbol table, which keeps types
and values apart.
-/
namespace Syllog
namespace Hir

/-! ## Equality -/

mutual
/-- Structural equality. -/
def ResolvedType.same : ResolvedType → ResolvedType → Bool
  | .reference region mutable inner, .reference region' mutable' inner' =>
    region = region' && mutable = mutable' && inner.same inner'
  | .primitive primitive, .primitive primitive'           => primitive = primitive'
  | .struct name, .struct name'                           => name = name'
  | .enum name, .enum name'                               => name = name'
  | .state name, .state name'                             => name = name'
  | .option inner, .option inner'                         => inner.same inner'
  | .result ok err, .result ok' err'                      => ok.same ok' && err.same err'
  | .array item, .array item'                             => item.same item'
  | .tuple items, .tuple items'                           => sameAll items items'
  | .function parameters result, .function parameters' result' => sameAll parameters parameters' && result.same result'
  | .unit, .unit                                          => true
  | .unknown, .unknown                                    => true
  | .error, .error                                        => true
  | .integerLiteral, .integerLiteral                      => true
  | .floatLiteral, .floatLiteral                          => true
  | _, _                                                  => false
def sameAll : List ResolvedType → List ResolvedType → Bool
  | [], []           => true
  | a :: as, b :: bs => a.same b && sameAll as bs
  | _, _             => false
end

mutual
theorem ResolvedType.same_iff : ∀ a b : ResolvedType, a.same b = true ↔ a = b
  | .reference region mutable inner, b => by
    cases b <;> simp [ResolvedType.same, and_assoc, ResolvedType.same_iff inner]
  | .primitive primitive, b => by cases b <;> simp [ResolvedType.same]
  | .struct name, b => by cases b <;> simp [ResolvedType.same]
  | .enum name, b => by cases b <;> simp [ResolvedType.same]
  | .state name, b => by cases b <;> simp [ResolvedType.same]
  | .option inner, b => by cases b <;> simp [ResolvedType.same, ResolvedType.same_iff inner]
  | .result ok err, b => by
    cases b <;> simp [ResolvedType.same, ResolvedType.same_iff ok, ResolvedType.same_iff err]
  | .array item, b => by cases b <;> simp [ResolvedType.same, ResolvedType.same_iff item]
  | .tuple items, b => by cases b <;> simp [ResolvedType.same, sameAll_iff items]
  | .function parameters result, b => by
    cases b <;> simp [ResolvedType.same, sameAll_iff parameters, ResolvedType.same_iff result]
  | .unit, b => by cases b <;> simp [ResolvedType.same]
  | .unknown, b => by cases b <;> simp [ResolvedType.same]
  | .error, b => by cases b <;> simp [ResolvedType.same]
  | .integerLiteral, b => by cases b <;> simp [ResolvedType.same]
  | .floatLiteral, b => by cases b <;> simp [ResolvedType.same]
theorem sameAll_iff : ∀ as bs : List ResolvedType, sameAll as bs = true ↔ as = bs
  | [], bs => by cases bs <;> simp [sameAll]
  | a :: as, bs => by cases bs <;> simp [sameAll, ResolvedType.same_iff a, sameAll_iff as]
end

instance : DecidableEq ResolvedType := fun a b => decidable_of_iff _ (ResolvedType.same_iff a b)

/-! ## The printed form -/

/-- `{:?}` of a name. -/
def quoted (name : String) : String := "\"" ++ name ++ "\""

def PrimitiveType.debug : PrimitiveType → String
  | .bool           => "Bool"
  | .string         => "String"
  | .str            => "Str"
  | .char           => "Char"
  | .bytes          => "Bytes"
  | .signed width   => "Signed(" ++ quoted width ++ ")"
  | .unsigned width => "Unsigned(" ++ quoted width ++ ")"
  | .float width    => "Float(" ++ quoted width ++ ")"
  | .duration       => "Duration"
  | .size           => "Size"
  | .agentRef       => "AgentRef"
  | .provider       => "Provider"
  | .text           => "Text"

mutual
/-- `{:?}` of a type. -/
def ResolvedType.debug : ResolvedType → String
  | .reference region mutable inner =>
    let region := match region with
      | some region => "Some(" ++ quoted region ++ ")"
      | none        => "None"
    "Reference \x7b region: " ++ region ++ ", mutable: " ++ (if mutable then "true" else "false") ++ ", inner: " ++ inner.debug ++ " \x7d"
  | .primitive primitive        => "Primitive(" ++ primitive.debug ++ ")"
  | .struct name                => "Struct(" ++ quoted name ++ ")"
  | .enum name                  => "Enum(" ++ quoted name ++ ")"
  | .state name                 => "State(" ++ quoted name ++ ")"
  | .option inner               => "Option(" ++ inner.debug ++ ")"
  | .result ok err              => "Result(" ++ ok.debug ++ ", " ++ err.debug ++ ")"
  | .array item                 => "Array(" ++ item.debug ++ ")"
  | .tuple items                => "Tuple([" ++ debugAll items ++ "])"
  | .function parameters result => "Function([" ++ debugAll parameters ++ "], " ++ result.debug ++ ")"
  | .unit                       => "Unit"
  | .unknown                    => "Unknown"
  | .error                      => "Error"
  | .integerLiteral             => "IntegerLiteral"
  | .floatLiteral               => "FloatLiteral"
def debugAll : List ResolvedType → String
  | []      => ""
  | [a]     => a.debug
  | a :: as => a.debug ++ ", " ++ debugAll as
end

mutual
/-- `{}` of a type. -/
def ResolvedType.display : ResolvedType → String
  | .reference region mutable inner =>
    let region := match region with
      | some region => "'" ++ region ++ " "
      | none        => ""
    "&" ++ region ++ (if mutable then "mut " else "") ++ inner.display
  | .primitive primitive        => primitive.debug
  | .struct name                => name
  | .enum name                  => name
  | .state name                 => name
  | .option inner               => "Option<" ++ inner.display ++ ">"
  | .result ok err              => "Result<" ++ ok.display ++ ", " ++ err.display ++ ">"
  | .array item                 => "[" ++ item.display ++ "]"
  | .tuple items                => "(" ++ displayAll items ++ ")"
  | .function parameters result => "fn([" ++ debugAll parameters ++ "]) -> " ++ result.display
  | .unit                       => "()"
  | .unknown                    => "<unknown>"
  | .error                      => "<error>"
  | .integerLiteral             => "<integer>"
  | .floatLiteral               => "<float>"
def displayAll : List ResolvedType → String
  | []      => ""
  | [a]     => a.display
  | a :: as => a.display ++ ", " ++ displayAll as
end

/-! ## Symbols and diagnostics -/

inductive TypeSymbolKind where
  | primitive | struct | enum | state
  | generic (arity : Nat)
deriving DecidableEq, Repr

structure TypeSymbol where
  name : String
  kind : TypeSymbolKind
  span : Span
deriving DecidableEq, Repr

inductive ValueSymbolKind where
  | function | agent | pipeline | safetyBound
deriving DecidableEq, Repr

structure ValueSymbol where
  name : String
  kind : ValueSymbolKind
  span : Span
deriving DecidableEq, Repr

/-- The global names: types and values in namespaces of their own. -/
structure SymbolTable where
  types : OrdMap String TypeSymbol
  values : OrdMap String ValueSymbol
deriving DecidableEq

inductive Severity where
  | error | warning
deriving DecidableEq, Repr

structure Diagnostic where
  code : String
  severity : Severity
  message : String
  file : String
  span : Span
deriving DecidableEq, Repr

inductive CompilationPhase where
  | parse | validate | resolve | typeCheck | ownership | effectCheck
deriving DecidableEq, Repr

structure CompilerDiagnostic where
  phase : CompilationPhase
  diagnostic : Diagnostic
deriving DecidableEq, Repr

end Hir
end Syllog
