import Syllog.Analyze
import Mathlib.Data.List.Sort
/-!
# ModuleGraph — modules, imports and the analysis of their files

`modules.rs` of `syllog-semantic`.  Files are taken in the order of their names and modules numbered in the order of theirs;
a module is one namespace over all its files, and its imports are shared by them.  The hash of a module's interface is
in `Syllog.Interface`: nothing here reads it.
-/
namespace Syllog
namespace Modules

open Hir Ast Semantic

structure ModuleSource where
  file : String
  ast : SourceFile

/-- An item of a module, by the module's number and the item's place in it. -/
structure QualifiedDefId where
  module : Nat
  index : Nat
deriving DecidableEq, Repr

instance : LinearOrder QualifiedDefId :=
  LinearOrder.lift' (fun d => toLex (d.module, d.index)) (fun a b h => by cases a; cases b; cases h; rfl)

inductive ModuleDefinitionKind where
  | struct | enum | function | state | agent | pipeline | safetyBound
deriving DecidableEq, Repr

structure ModuleDefinition where
  id : QualifiedDefId
  name : String
  kind : ModuleDefinitionKind
  isPublic : Bool
  file : String
  span : Span

structure ResolvedImport where
  localName : String
  definition : QualifiedDefId
  span : Span

structure ResolvedModule where
  id : Nat
  name : String
  files : List String
  definitions : OrdMap String ModuleDefinition
  imports : OrdMap String ResolvedImport
  dependencies : OrdMap Nat Unit

structure ModuleAnalysis where
  modules : List ResolvedModule
  sourceAnalyses : OrdMap String Analysis
  diagnostics : List Diagnostic

/-- The first module of that name. -/
def ModuleAnalysis.module (a : ModuleAnalysis) (name : String) : Option ResolvedModule := a.modules.find? (·.name = name)

structure PendingImport where
  owner : Nat
  file : String
  node : UseNode

abbrev ModuleMap := OrdMap Nat ResolvedModule

def graphError (code message file : String) (span : Span) : Diagnostic := ⟨code, .error, message, file, span⟩

def moduleName (ast : SourceFile) : Option String := ast.module.map fun declaration => joinPath declaration.path

/-! ## Sources -/

def definitionKind : Item → ModuleDefinitionKind
  | .struct _      => .struct
  | .enum _        => .enum
  | .function _    => .function
  | .state _       => .state
  | .agent _       => .agent
  | .pipeline _    => .pipeline
  | .safetyBound _ => .safetyBound

def moduleDefinition (module index : Nat) (file : String) (item : Item) : ModuleDefinition :=
  ⟨⟨module, index⟩, item.name, definitionKind item, item.isPublic, file, item.span⟩

/-- The numbers of the modules, in the order of their names. -/
def moduleIds (sources : List ModuleSource) : OrdMap String Nat :=
  let names := (OrdMap.ofList ((sources.filterMap fun source => moduleName source.ast).map (·, ()))).keys
  OrdMap.ofList (names.zipIdx.map fun e => (e.1, min e.2 (2 ^ 32 - 1)))

def emptyModules (ids : OrdMap String Nat) : ModuleMap :=
  OrdMap.ofList (ids.entries.map fun e => (e.2, ⟨e.2, e.1, [], OrdMap.empty, OrdMap.empty, OrdMap.empty⟩))

/-- What `collect_sources` has gathered. -/
structure Collected where
  modules : ModuleMap
  nextIndices : OrdMap Nat Nat
  pending : List PendingImport
  diagnostics : List Diagnostic

/-- Enters an item into its module: the module so far, the next index, the reports. -/
def collectItem (id : Nat) (name file : String) (r : ResolvedModule × Nat × List Diagnostic) (item : Item) :
    ResolvedModule × Nat × List Diagnostic :=
  let definition := moduleDefinition id r.2.1 file item
  if r.1.definitions.contains definition.name then
    (r.1, r.2.1 + 1, r.2.2 ++ [graphError "SYL2403"
      ("duplicate definition '" ++ definition.name ++ "' exported by module '" ++ name ++ "'") file definition.span])
  else ({ r.1 with definitions := r.1.definitions.insert definition.name definition }, r.2.1 + 1, r.2.2)

def collectSource (ids : OrdMap String Nat) (c : Collected) (source : ModuleSource) : Collected :=
  match moduleName source.ast with
  | none      => { c with diagnostics := c.diagnostics ++
      [graphError "SYL2400" "project source must declare a module" source.file source.ast.span] }
  | some name => match ids.get? name with
    | none    => c
    | some id => match c.modules.get? id with
      | none        => c
      | some module =>
        let r := source.ast.items.foldl (collectItem id name source.file)
          ({ module with files := module.files ++ [source.file] }, (c.nextIndices.get? id).getD 0, c.diagnostics)
        { modules := c.modules.insert id r.1
          nextIndices := c.nextIndices.insert id r.2.1
          pending := c.pending ++ source.ast.imports.map fun node => ⟨id, source.file, node⟩
          diagnostics := r.2.2 }

def collectSources (sources : List ModuleSource) (ids : OrdMap String Nat) : Collected :=
  sources.foldl (collectSource ids) ⟨emptyModules ids, OrdMap.empty, [], []⟩

/-! ## Imports -/

abbrev Sites := OrdMap (Nat ×ₗ Nat) (String × Span)

/-- What `resolve_imports` has reached. -/
structure Linked where
  modules : ModuleMap
  sites : Sites
  diagnostics : List Diagnostic

def Linked.report (r : Linked) (code message : String) (p : PendingImport) : Linked :=
  { r with diagnostics := r.diagnostics ++ [graphError code message p.file p.node.span] }

/-- Gives a found definition its local name in the importing module. -/
def bindImport (r : Linked) (p : PendingImport) (target : Nat) (definition : ModuleDefinition) (localName : String) : Linked :=
  match r.modules.get? p.owner with
  | none       => r
  | some owner =>
    let owner := { owner with dependencies := owner.dependencies.insert target () }
    let edge : Nat ×ₗ Nat := toLex (p.owner, target)
    let sites := if r.sites.contains edge then r.sites else r.sites.insert edge (p.file, p.node.span)
    if owner.definitions.contains localName ∨ owner.imports.contains localName then
      Linked.report { r with modules := r.modules.insert p.owner owner, sites := sites } "SYL2403"
        ("duplicate local name '" ++ localName ++ "'") p
    else
      let owner := { owner with imports := owner.imports.insert localName ⟨localName, definition.id, p.node.span⟩ }
      { r with modules := r.modules.insert p.owner owner, sites := sites }

def resolveImport (ids : OrdMap String Nat) (r : Linked) (p : PendingImport) : Linked :=
  match p.node.path.getLast? with
  | none        => r
  | some symbol =>
    let name := joinPath p.node.path.dropLast
    match ids.get? name with
    | none        => r.report "SYL2401" ("unknown imported module '" ++ name ++ "'") p
    | some target => match (r.modules.get? target).bind fun module => module.definitions.get? symbol with
      | none            => r.report "SYL2401" ("module '" ++ name ++ "' has no definition '" ++ symbol ++ "'") p
      | some definition =>
        if definition.isPublic then bindImport r p target definition (p.node.aliasName.getD symbol)
        else r.report "SYL2402" ("definition '" ++ name ++ "::" ++ symbol ++ "' is private") p

def resolveImports (ids : OrdMap String Nat) (c : Collected) : Linked :=
  c.pending.foldl (resolveImport ids) ⟨c.modules, OrdMap.empty, c.diagnostics⟩

/-! ## Cycles -/

/-- The walk of `find_cycle`: 1 is on the stack, 2 is done. -/
structure Walk where
  states : OrdMap Nat Nat
  stack : List Nat

def visitNeighbors (visit : Nat → Walk → Option (List Nat) × Walk) : List Nat → Walk → Option (List Nat) × Walk
  | [], w                    => (none, w)
  | neighbor :: neighbors, w =>
    match (w.states.get? neighbor).getD 0 with
    | 0 => match visit neighbor w with
      | (some cycle, w) => (some cycle, w)
      | (none, w)       => visitNeighbors visit neighbors w
    | 1 => (some (w.stack.dropWhile (· ≠ neighbor) ++ [neighbor]), w)
    | _ => visitNeighbors visit neighbors w

/-- A visit goes only to modules in no state yet, so it is never deeper than there are modules. -/
def visit (modules : ModuleMap) : Nat → Nat → Walk → Option (List Nat) × Walk
  | 0, _, w           => (none, w)
  | depth + 1, node, w =>
    let w : Walk := ⟨w.states.insert node 1, w.stack ++ [node]⟩
    match modules.get? node with
    | none        => (none, w)
    | some module => match visitNeighbors (visit modules depth) module.dependencies.keys w with
      | (some cycle, w) => (some cycle, w)
      | (none, w)       => (none, ⟨w.states.insert node 2, w.stack.dropLast⟩)

def findCycleFrom (modules : ModuleMap) : List Nat → Walk → Option (List Nat)
  | [], _        => none
  | id :: ids, w =>
    if (w.states.get? id).getD 0 = 0 then
      match visit modules modules.keys.length id w with
      | (some cycle, _) => some cycle
      | (none, w)       => findCycleFrom modules ids w
    else findCycleFrom modules ids w

def findCycle (modules : ModuleMap) : Option (List Nat) := findCycleFrom modules modules.keys ⟨OrdMap.empty, []⟩

/-- The report of a cycle, at the import that opens it. -/
def cycleErrors (modules : ModuleMap) (sites : Sites) : List Diagnostic :=
  match findCycle modules with
  | none       => []
  | some cycle => match cycle.head?.bind modules.get? with
    | none       => []
    | some first =>
      let site := (match cycle with
        | a :: b :: _ => sites.get? (toLex (a, b))
        | _           => none).getD (first.files.head?.getD "", default)
      let names := cycle.filterMap fun id => (modules.get? id).map (·.name)
      [graphError "SYL2404" ("module dependency cycle: " ++ " -> ".intercalate names) site.1 site.2]

/-! ## Bodies -/

/-- The item a definition was entered for. -/
def itemOf (sources : List ModuleSource) (definition : ModuleDefinition) : Option Item :=
  (sources.find? (·.file = definition.file)).bind fun source =>
    source.ast.items.find? fun item => item.name = definition.name ∧ item.span = definition.span

def moduleItems (sources : List ModuleSource) (modules : ModuleMap) : OrdMap QualifiedDefId Item :=
  OrdMap.ofList ((modules.values.flatMap fun module => module.definitions.values).filterMap fun definition =>
    (itemOf sources definition).map (definition.id, ·))

/-- What a file sees of others: its module's imports, then the definitions of the module's other files. -/
def importsFor (items : OrdMap QualifiedDefId Item) (module : ResolvedModule) (source : ModuleSource) :
    List (String × Item) :=
  (module.imports.values.filterMap fun i => (items.get? i.definition).map (i.localName, ·)) ++
    module.definitions.values.filterMap fun definition =>
      if definition.file = source.file ∨ source.ast.items.any (fun item => item.name = definition.name) then none
      else (items.get? definition.id).map (definition.name, ·)

/-- The module of a file. -/
def moduleOf (modules : ModuleMap) (source : ModuleSource) : Option ResolvedModule :=
  (moduleName source.ast).bind fun name => modules.values.find? (·.name = name)

def analyzeSourceBodies (sources : List ModuleSource) (modules : ModuleMap) : OrdMap String Analysis :=
  let items := moduleItems sources modules
  OrdMap.ofList (sources.filterMap fun source => (moduleOf modules source).map fun module =>
    (source.file, analyzeWithImports source.file source.ast (importsFor items module source)))

/-! ## The analysis -/

def byFile (sources : List ModuleSource) : List ModuleSource := sources.insertionSort (fun a b => a.file ≤ b.file)

/-- The modules with their imports, where the sources are in order. -/
def linkModules (sources : List ModuleSource) : Linked :=
  let ids := moduleIds sources
  resolveImports ids (collectSources sources ids)

/-- Where a diagnostic stands among others: by file, then by start, then by code. -/
def diagnosticKey (d : Diagnostic) : String ×ₗ Nat ×ₗ String := toLex (d.file, toLex (d.span.start, d.code))

def sortDiagnostics (diagnostics : List Diagnostic) : List Diagnostic :=
  diagnostics.insertionSort (fun a b => diagnosticKey a ≤ diagnosticKey b)

def analyzeModules (sources : List ModuleSource) : ModuleAnalysis :=
  let sources := byFile sources
  let r := linkModules sources
  let analyses := analyzeSourceBodies sources r.modules
  { modules := r.modules.values
    sourceAnalyses := analyses
    diagnostics := sortDiagnostics (r.diagnostics ++ cycleErrors r.modules r.sites ++
      analyses.values.flatMap (·.diagnostics)) }

end Modules
end Syllog
