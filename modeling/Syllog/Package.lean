import Syllog.AstLower
import Syllog.Effects
import Syllog.ModuleGraph
/-!
# Package — parsing, resolving and linking a package

`package.rs`.  The identities of all items and members are planned before the first file is lowered, module by module; a
file is then lowered from the names its module sees, an import under its local name, and takes its local identities from the
counter of its module.  `checkSyl` stands for the parser.
-/
namespace Syllog
namespace Package

open Hir Ast Semantic Modules AstLower

structure PackageSource where
  file : String
  source : String
deriving DecidableEq

/-- What the parser makes of a file. -/
structure CheckResult where
  ast : Option SourceFile
  diagnostics : List Diagnostic

structure PackageCompilation where
  hir : Option HirProgram
  diagnostics : List CompilerDiagnostic

def packageError (file code message : String) : CompilerDiagnostic := ⟨.resolve, code, .error, message, file, default⟩

def hasErrors (diagnostics : List CompilerDiagnostic) : Bool := diagnostics.any fun d => d.diagnostic.severity = .error

def sortDiagnostics (diagnostics : List CompilerDiagnostic) : List CompilerDiagnostic :=
  diagnostics.insertionSort fun a b => diagnosticKey a.diagnostic ≤ diagnosticKey b.diagnostic

def failed (diagnostics : List CompilerDiagnostic) : PackageCompilation := ⟨none, sortDiagnostics diagnostics⟩

def semanticPhase (code : String) : CompilationPhase :=
  if code ∈ ["SYL2001", "SYL2002", "SYL2003", "SYL2004", "SYL2400", "SYL2401", "SYL2402", "SYL2403", "SYL2404"] then .resolve
  else .typeCheck

/-! ## Sources -/

def sortedSources (sources : List PackageSource) : List PackageSource := sources.insertionSort fun a b => a.file ≤ b.file

/-- The reports of equal names next to each other. -/
def duplicateErrors : List PackageSource → List CompilerDiagnostic
  | a :: b :: rest =>
    (if a.file = b.file then [packageError b.file "SYL9002" "package source filename is duplicated"] else []) ++
      duplicateErrors (b :: rest)
  | _ => []

def parsePhase (code : String) : CompilationPhase := if "SYL0".toList <+: code.toList then .parse else .validate

/-- Parses one more file. -/
def parseSource (checkSyl : String → String → CheckResult) (r : OrdMap String SourceFile × List CompilerDiagnostic)
    (source : PackageSource) : OrdMap String SourceFile × List CompilerDiagnostic :=
  let checked := checkSyl source.file source.source
  ((match checked.ast with
    | some ast => r.1.insert source.file ast
    | none     => r.1), r.2 ++ checked.diagnostics.map fun d => ⟨parsePhase d.code, d⟩)

def parseSources (checkSyl : String → String → CheckResult) (sources : List PackageSource)
    (diagnostics : List CompilerDiagnostic) : Option (OrdMap String SourceFile) × List CompilerDiagnostic :=
  let r := sources.foldl (parseSource checkSyl) (OrdMap.empty, diagnostics)
  (if r.1.entries.length = sources.length then some r.1 else none, r.2)

def moduleSources (asts : OrdMap String SourceFile) : List ModuleSource := asts.entries.map fun e => ⟨e.1, e.2⟩

/-! ## Identities -/

structure IdentityPlan where
  topLevel : OrdMap (String ×ₗ String) DefId
  members : OrdMap (String ×ₗ String) DefId
  nextByModule : OrdMap Nat Nat

/-- Gives the member keys of a module the indices from `next` on. -/
def planMembers (name : String) (module : Nat) (keys : List String) (members : OrdMap (String ×ₗ String) DefId) (next : Nat) :
    OrdMap (String ×ₗ String) DefId × Nat :=
  keys.foldl (fun r key => (r.1.insert (toLex (name, key)) ⟨module, r.2⟩, r.2 + 1)) (members, next)

/-- The member keys of a module's files. -/
def moduleKeys (asts : OrdMap String SourceFile) (files : List String) : List String :=
  files.flatMap fun file => match asts.get? file with
    | some ast => ast.items.flatMap memberKeys
    | none     => []

def planModule (asts : OrdMap String SourceFile) (plan : IdentityPlan) (module : ResolvedModule) : IdentityPlan :=
  let topLevel := module.definitions.values.foldl
    (fun ids d => ids.insert (toLex (module.name, d.name)) ⟨module.id, d.id.index⟩) plan.topLevel
  let r := planMembers module.name module.id (moduleKeys asts module.files) plan.members module.definitions.entries.length
  ⟨topLevel, r.1, plan.nextByModule.insert module.id r.2⟩

def planIdentities (analysis : ModuleAnalysis) (asts : OrdMap String SourceFile) : IdentityPlan :=
  analysis.modules.foldl (planModule asts) ⟨OrdMap.empty, OrdMap.empty, OrdMap.empty⟩

def findDefinition (analysis : ModuleAnalysis) (id : QualifiedDefId) : Option ModuleDefinition :=
  (analysis.modules.find? (·.id = id.module)).bind fun module => module.definitions.values.find? (·.id = id)

/-- The key of a member under another name of its owner. -/
def renameMemberOwner (key owner aliasName : String) : String :=
  if owner.toList <+: key.toList then aliasName ++ String.ofList (key.toList.drop owner.toList.length) else key

/-- The names a module sees, and the reports made on the way. -/
structure PlannedNames where
  globals : OrdMap String DefId
  members : OrdMap String DefId
  diagnostics : List CompilerDiagnostic

/-- Enters an import: its target under the local name, and the target's members under that name of their owner. -/
def planImport (asts : OrdMap String SourceFile) (analysis : ModuleAnalysis) (plan : IdentityPlan) (file : String)
    (names : PlannedNames) (i : ResolvedImport) : PlannedNames :=
  match findDefinition analysis i.definition with
  | none        => { names with diagnostics := names.diagnostics ++
      [packageError file "SYL9003" "resolved import target disappeared before HIR linking"] }
  | some target =>
    let names := { names with globals := names.globals.insert i.localName ⟨i.definition.module, i.definition.index⟩ }
    match analysis.modules.find? (·.id = i.definition.module) with
    | none              => names
    | some targetModule =>
      match (asts.get? target.file).bind fun ast => ast.items.find? (·.name = target.name) with
      | none      => names
      | some item =>
        { names with members := (memberKeys item).foldl (fun members key =>
            match plan.members.get? (toLex (targetModule.name, key)) with
            | some id => members.insert (renameMemberOwner key target.name i.localName) id
            | none    => members) names.members }

def ownGlobals (plan : IdentityPlan) (module : ResolvedModule) (moduleName : String) : OrdMap String DefId :=
  OrdMap.ofList (module.definitions.keys.filterMap fun name =>
    (plan.topLevel.get? (toLex (moduleName, name))).map fun id => (name, id))

def ownMembers (members : OrdMap (String ×ₗ String) DefId) (moduleName : String) : OrdMap String DefId :=
  OrdMap.ofList ((members.entries.filter fun e => (ofLex e.1).1 = moduleName).map fun e => ((ofLex e.1).2, e.2))

def plannedNames (module : ResolvedModule) (moduleName : String) (asts : OrdMap String SourceFile) (analysis : ModuleAnalysis)
    (plan : IdentityPlan) (file : String) (diagnostics : List CompilerDiagnostic) : PlannedNames :=
  module.imports.values.foldl (planImport asts analysis plan file)
    ⟨ownGlobals plan module moduleName, ownMembers plan.members moduleName, diagnostics⟩

/-! ## Linking -/

structure LinkState where
  nextByModule : OrdMap Nat Nat
  modules : OrdMap Nat HirModule
  entry : Option DefId
  diagnostics : List CompilerDiagnostic

/-- Puts a lowered file into its module. -/
def LinkState.extend (s : LinkState) (file : String) (id : Nat) (lowered : HirModule) (candidate : Option DefId) (next : Nat) :
    LinkState :=
  let before := ((s.modules.get? id).map (·.definitions)).getD []
  { nextByModule := s.nextByModule.insert id next
    modules := s.modules.insert id ⟨id, before ++ lowered.definitions⟩
    entry := candidate.or s.entry
    diagnostics := if candidate.isSome ∧ s.entry.isSome then
        s.diagnostics ++ [packageError file "SYL3002" "package declares more than one main function"]
      else s.diagnostics }

def linkSource (asts : OrdMap String SourceFile) (analysis : ModuleAnalysis) (plan : IdentityPlan) (s : LinkState)
    (source : PackageSource) : LinkState :=
  match asts.get? source.file with
  | none     => s
  | some ast => match moduleName ast with
    | none      => s
    | some name => match analysis.module name with
      | none        => { s with diagnostics := s.diagnostics ++
          [packageError source.file "SYL9003" "analyzed module disappeared before HIR linking"] }
      | some module =>
        let names := plannedNames module name asts analysis plan source.file s.diagnostics
        match analysis.sourceAnalyses.get? source.file with
        | none                => { s with diagnostics := names.diagnostics ++
            [packageError source.file "SYL9003" "source analysis disappeared before HIR linking"] }
        | some sourceAnalysis =>
          let next := (s.nextByModule.get? module.id).getD 0
          match lowerModuleToHir ast sourceAnalysis module.id names.globals names.members next with
          | .ok (lowered, candidate, next) =>
            LinkState.extend { s with diagnostics := names.diagnostics } source.file module.id lowered candidate next
          | .error errors => { s with diagnostics := names.diagnostics ++ errors.map fun d => ⟨.typeCheck, d⟩ }

def linkSources (sources : List PackageSource) (asts : OrdMap String SourceFile) (analysis : ModuleAnalysis)
    (diagnostics : List CompilerDiagnostic) : LinkState :=
  let plan := planIdentities analysis asts
  sources.foldl (linkSource asts analysis plan) ⟨plan.nextByModule, OrdMap.empty, none, diagnostics⟩

/-! ## The package -/

def effectDiagnostics (p : HirProgram) : List CompilerDiagnostic :=
  match Effects.analyzeEffects p with
  | .ok _         => []
  | .error errors => errors.map fun e => ⟨.effectCheck, e.code, .error, e.message, "<package>", e.span⟩

/-- What is left once every file is parsed. -/
def linkPackage (sources : List PackageSource) (asts : OrdMap String SourceFile) (diagnostics : List CompilerDiagnostic) :
    PackageCompilation :=
  let analysis := analyzeModules (moduleSources asts)
  let diagnostics := diagnostics ++ analysis.diagnostics.map fun d => ⟨semanticPhase d.code, d⟩
  if hasErrors diagnostics then failed diagnostics
  else
    let s := linkSources sources asts analysis diagnostics
    let hir : HirProgram := ⟨s.modules.values, s.entry⟩
    let diagnostics := sortDiagnostics (s.diagnostics ++ if hasErrors s.diagnostics then [] else effectDiagnostics hir)
    ⟨if hasErrors diagnostics then none else some hir, diagnostics⟩

def compilePackage (checkSyl : String → String → CheckResult) (sources : List PackageSource) : PackageCompilation :=
  let sources := sortedSources sources
  if sources = [] then
    failed [packageError "<package>" "SYL9001" "package compilation requires at least one source file"]
  else if hasErrors (duplicateErrors sources) then failed (duplicateErrors sources)
  else match parseSources checkSyl sources (duplicateErrors sources) with
    | (none, diagnostics)      => failed diagnostics
    | (some asts, diagnostics) => linkPackage sources asts diagnostics

end Package
end Syllog
