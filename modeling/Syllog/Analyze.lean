import Syllog.Infer
import Syllog.Ownership
/-!
# Analyze — declarations and the analysis of one file

Types and values are collected into namespaces of their own; a name may stand in both.  Imports are installed after the
file's own declarations and their types are resolved there and then, by name, among the symbols of the importing file.
-/
namespace Syllog
namespace Semantic

open Hir Ast

/-- The property an analyzer reads: the first of that name. -/
def property (fields : List Property) (name : String) : Option Property := fields.find? (·.name = name)

def propertyIdentifier (property : Property) : Option String :=
  match property.value.kind with
  | .literal (.identifier name) => some name
  | .path segments              => segments.getLast?
  | _                           => none

namespace Analyzer

def builtinTypes : OrdMap String TypeSymbol :=
  OrdMap.ofList (primitiveNames.map (fun name => (name, (⟨name, .primitive, default⟩ : TypeSymbol))) ++
    [("Option", ⟨"Option", .generic 1, default⟩), ("Result", ⟨"Result", .generic 2, default⟩)])

def new (file : String) : Analyzer :=
  ⟨file, ⟨builtinTypes, OrdMap.empty⟩, OrdMap.empty, OrdMap.empty, OrdMap.empty, OrdMap.empty, OrdMap.empty⟩

/-! ## Symbols -/

def insertType (a : Analyzer) (name : String) (kind : TypeSymbolKind) (span : Span) : Checked Analyzer :=
  if a.symbols.types.contains name then do
    a.error "SYL2001" ("duplicate type symbol '" ++ name ++ "'") span
    return a
  else return { a with symbols := { a.symbols with types := a.symbols.types.insert name ⟨name, kind, span⟩ } }

def insertValue (a : Analyzer) (name : String) (kind : ValueSymbolKind) (span : Span) : Checked Analyzer :=
  if a.symbols.values.contains name then do
    a.error "SYL2001" ("duplicate value symbol '" ++ name ++ "'") span
    return a
  else return { a with symbols := { a.symbols with values := a.symbols.values.insert name ⟨name, kind, span⟩ } }

/-- The symbol an item stands under, by the name given. -/
def insertSymbol (a : Analyzer) (name : String) : Item → Checked Analyzer
  | .struct node      => a.insertType name .struct node.span
  | .enum node        => a.insertType name .enum node.span
  | .state node       => a.insertType name .state node.span
  | .function node    => a.insertValue name .function node.span
  | .agent node       => a.insertValue name .agent node.span
  | .pipeline node    => a.insertValue name .pipeline node.span
  | .safetyBound node => a.insertValue name .safetyBound node.span

def collectDeclarations (a : Analyzer) (items : List Item) : Checked Analyzer :=
  items.foldlM (fun a item => a.insertSymbol item.name item) a

/-! ## Signatures -/

def resolveFields (a : Analyzer) (names : List String) (types : List TypeNode) : Checked (OrdMap String ResolvedType) := do
  let types ← resolveTypes a types
  return OrdMap.ofList (names.zip types)

def resolveVariants (a : Analyzer) : List EnumVariant → Checked (List (String × List ResolvedType))
  | []                  => return []
  | variant :: variants => do
    let fields ← resolveTypes a variant.fields
    let variants ← a.resolveVariants variants
    return (variant.name, fields) :: variants

def resolveSignature (a : Analyzer) (parameters : List Parameter) (returnType : Option TypeNode) :
    Checked FunctionSignature := do
  let parameters ← resolveTypes a (parameters.map (·.ty))
  let result ← resolveOption a returnType
  return ⟨parameters, result.getD .unit⟩

def resolveContract (a : Analyzer) (fields : List Property) : Checked AgentContract := do
  let input ← resolveOption a ((property fields "input").bind (·.ty))
  let output ← resolveOption a ((property fields "output").bind (·.ty))
  return ⟨input, output⟩

/-- The annotations of properties, resolved for their errors. -/
def resolveAnnotations (a : Analyzer) (fields : List Property) : Checked Unit := do
  let _ ← resolveTypes a (fields.filterMap (·.ty))
  return ()

/-- The signature of an item, entered under a name. -/
def record (a : Analyzer) (name : String) : Item → Checked Analyzer
  | .struct node      => do
    let fields ← a.resolveFields (node.fields.map (·.name)) (node.fields.map (·.ty))
    return { a with structs := a.structs.insert name fields }
  | .enum node        => do
    let variants ← a.resolveVariants node.variants
    return { a with enums := a.enums.insert name variants }
  | .function node    => do
    let signature ← a.resolveSignature node.parameters node.returnType
    return { a with functions := a.functions.insert name signature }
  | .state node       => do
    let fields ← resolveTypes a (node.fields.map (·.ty))
    return { a with states := a.states.insert name fields }
  | .agent node       => do
    let contract ← a.resolveContract node.fields
    return { a with agents := a.agents.insert name contract }
  | .pipeline node    => do
    let signature ← a.resolveSignature node.parameters node.returnType
    return { a with functions := a.functions.insert name signature }
  | .safetyBound _    => return a

/-- `install_import`: an item under a local name, with the types of its signature. -/
def installImport (a : Analyzer) (name : String) (item : Item) : Checked Analyzer := do
  let a ← a.insertSymbol name item
  a.record name item

def installImports (a : Analyzer) (imports : List (String × Item)) : Checked Analyzer :=
  imports.foldlM (fun a i => a.installImport i.1 i.2) a

def hasTypeKind (a : Analyzer) (name : String) (kind : TypeSymbolKind) : Bool :=
  (a.symbols.types.get? name).map (·.kind) = some kind

def hasValueKind (a : Analyzer) (name : String) (kind : ValueSymbolKind) : Bool :=
  (a.symbols.values.get? name).map (·.kind) = some kind

def resolveDeclaration (a : Analyzer) : Item → Checked Analyzer
  | .struct node      =>
    if a.hasTypeKind node.name .struct then do
      let fields ← a.resolveFields (node.fields.map (·.name)) (node.fields.map (·.ty))
      return { a with structs := a.structs.insert node.name fields }
    else return a
  | .enum node        =>
    if a.hasTypeKind node.name .enum then do
      let variants ← a.resolveVariants node.variants
      return { a with enums := a.enums.insert node.name variants }
    else return a
  | .state node       => do
    let fields ← resolveTypes a (node.fields.map (·.ty))
    if a.states.contains node.name then return a
    else return { a with states := a.states.insert node.name fields }
  | .function node    =>
    if a.hasValueKind node.name .function = false ∨ a.functions.contains node.name then return a
    else do
      let signature ← a.resolveSignature node.parameters node.returnType
      return { a with functions := a.functions.insert node.name signature }
  | .agent node       =>
    if a.agents.contains node.name then return a
    else do
      let contract ← a.resolveContract node.fields
      a.resolveAnnotations (node.fields.filter fun field => field.name ≠ "input" ∧ field.name ≠ "output")
      return { a with agents := a.agents.insert node.name contract }
  | .pipeline node    => do
    let signature ← a.resolveSignature node.parameters node.returnType
    a.resolveAnnotations node.fields
    if a.functions.contains node.name then return a
    else return { a with functions := a.functions.insert node.name signature }
  | .safetyBound node => do
    let _ ← resolveTypes a (node.parameters.map (·.ty))
    a.resolveAnnotations node.fields
    return a

def resolveDeclarations (a : Analyzer) (items : List Item) : Checked Analyzer := items.foldlM resolveDeclaration a

/-! ## Bodies -/

def parameterScope (parameters : List Parameter) (types : List ResolvedType) : Scope :=
  OrdMap.ofList ((parameters.map (·.name)).zip types)

def checkFunction (a : Analyzer) (node : FunctionNode) : Checked Unit :=
  match a.functions.get? node.name with
  | none           => return ()
  | some signature => do
    let _ ← checkBlock a node.asynchronous node.body (parameterScope node.parameters signature.parameters) signature.result
    return ()

def checkInitializers (a : Analyzer) : List StateField → List ResolvedType → Checked Unit
  | field :: fields, expected :: types => do
    match field.initializer with
    | some initializer => do
      let actual ← inferExpr a false initializer OrdMap.empty (some expected)
      a.requireCompatible expected actual initializer.span "state initializer"
    | none             => pure ()
    a.checkInitializers fields types
  | [], _ => return ()
  | _, [] => return ()

def checkState (a : Analyzer) (node : StateNode) : Checked Unit :=
  a.checkInitializers node.fields ((a.states.get? node.name).getD [])

/-- The pipeline's side of its agent's contract. -/
def checkContract (a : Analyzer) (node : PipelineNode) (signature : FunctionSignature) (agentName : String)
    (contract : AgentContract) : Checked Unit := do
  match contract.input with
  | some agentInput =>
    a.require (signature.parameters.head?.any (compatible agentInput)) "SYL2201"
      ("pipeline input is incompatible with agent '" ++ agentName ++ "': expected " ++ agentInput.display ++ ", found " ++
        ((signature.parameters.head?).getD .unit).display)
      ((node.parameters.head?.map (·.span)).getD node.span)
  | none            => pure ()
  match contract.output with
  | some agentOutput =>
    a.require (compatible agentOutput signature.result) "SYL2201"
      ("pipeline output is incompatible with agent '" ++ agentName ++ "': expected " ++ agentOutput.display ++ ", found " ++
        signature.result.display)
      ((node.returnType.map (·.span)).getD node.span)
  | none             => return ()

def checkAgent (a : Analyzer) (node : PipelineNode) (signature : FunctionSignature) : Checked Unit :=
  match (property node.fields "agent").bind propertyIdentifier with
  | some agentName => match a.agents.get? agentName with
    | some contract => a.checkContract node signature agentName contract
    | none          => return ()
  | none           => return ()

def checkPipeline (a : Analyzer) (node : PipelineNode) : Checked Unit := do
  let signature := (a.functions.get? node.name).getD ⟨[], .unit⟩
  a.checkAgent node signature
  match property node.fields "result" with
  | some result => do
    let declared ← resolveOption a result.ty
    let declared := declared.getD signature.result
    a.requireCompatible signature.result declared result.span "pipeline result annotation"
    let actual ← inferExpr a false result.value (parameterScope node.parameters signature.parameters) (some declared)
    a.requireCompatible declared actual result.value.span "pipeline result"
  | none        => return ()

def checkBody (a : Analyzer) : Item → Checked Unit
  | .function node => a.checkFunction node
  | .state node    => a.checkState node
  | .pipeline node => a.checkPipeline node
  | _              => return ()

def checkBodies (a : Analyzer) : List Item → Checked Unit
  | []            => return ()
  | item :: items => do
    a.checkBody item
    a.checkBodies items

end Analyzer

/-! ## The analysis of a file -/

structure Analysis where
  symbols : SymbolTable
  diagnostics : List Diagnostic
  expressionTypes : OrdMap Span ResolvedType

/-- The tables once every declaration is resolved. -/
def declared (file : String) (ast : SourceFile) (imports : List (String × Item)) : Checked Analyzer := do
  let a ← (Analyzer.new file).collectDeclarations ast.items
  let a ← a.installImports imports
  a.resolveDeclarations ast.items

def analyzed (file : String) (ast : SourceFile) (imports : List (String × Item)) : Checked Analyzer := do
  let a ← declared file ast imports
  a.checkBodies ast.items
  return a

def analyzeWithImports (file : String) (ast : SourceFile) (imports : List (String × Item)) : Analysis :=
  let r := analyzed file ast imports
  { symbols := r.value.symbols
    diagnostics := r.log.filterMap Note.diagnostic? ++ Ownership.analyzeOwnership file ast
    expressionTypes := OrdMap.ofList (r.log.filterMap Note.typed?) }

def analyze (file : String) (ast : SourceFile) : Analysis := analyzeWithImports file ast []

end Semantic
end Syllog
