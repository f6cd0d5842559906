import Syllog.Types
import Mathlib.Data.List.Destutter
/-!
# Database — revisioned queries with two caches

`database.rs`: source texts with revisions, packages as lists of files, a cache of parse results by revision and a cache of
package HIR by the revisions of its files, and a cancellation flag.  Parsing, analysis and lowering of one file are the
fields of `Frontend`.  The database has one owner, so operations follow one another.
-/
namespace Syllog
namespace Database

open Hir

abbrev SourceFileId := Nat
abbrev PackageId := Nat

section
variable (Ast Symbols : Type)

structure CheckResult where
  ast : Option Ast
  diagnostics : List Diagnostic

structure Analysis where
  symbols : Symbols
  diagnostics : List Diagnostic

/-- The phases that look at one file.  Lowering gives the file's one module and its `main`. -/
structure Frontend where
  checkSyl : String → String → CheckResult Ast
  analyze : String → Ast → Analysis Symbols
  lowerToHir : Ast → Symbols → Except (List Diagnostic) (HirModule × Option DefId)

structure ParseResult where
  ast : Option Ast
  diagnostics : List CompilerDiagnostic
  cancelled : Bool

structure HirResult where
  program : Option HirProgram
  diagnostics : List CompilerDiagnostic
  cancelled : Bool

structure SourceInput where
  text : String
  revision : Nat

structure ParseCache where
  revision : Nat
  result : ParseResult Ast

structure HirCache where
  fingerprint : List (SourceFileId × Nat)
  result : HirResult

structure IncrementalCompilerDatabase where
  sources : OrdMap SourceFileId SourceInput
  packages : OrdMap PackageId (List SourceFileId)
  parseCache : OrdMap SourceFileId (ParseCache Ast)
  hirCache : OrdMap PackageId HirCache
  cancelled : Bool

end

/-! ## Moving a module to its place in the package -/

def remapId (target : Nat) (id : DefId) : DefId := if id.module = 0 then ⟨target, id.index⟩ else id

mutual
def remapPattern (target : Nat) : HirPattern → HirPattern
  | .binding definition        => .binding (remapId target definition)
  | .variant definition fields => .variant (remapId target definition) (remapPatterns target fields)
  | .wildcard                  => .wildcard
  | .literal value             => .literal value
def remapPatterns (target : Nat) : List HirPattern → List HirPattern
  | []      => []
  | p :: ps => remapPattern target p :: remapPatterns target ps
end

mutual
def remapExpression (target : Nat) : TypedExpr → TypedExpr
  | .mk kind ty span => .mk (remapKind target kind) ty span
def remapKind (target : Nat) : HirExprKind → HirExprKind
  | .reference definition        => .reference (remapId target definition)
  | .array items                 => .array (remapExpressions target items)
  | .call callee arguments       => .call (remapExpression target callee) (remapExpressions target arguments)
  | .field base field            => .field (remapExpression target base) (remapId target field)
  | .await operand               => .await (remapExpression target operand)
  | .borrow mutable operand      => .borrow mutable (remapExpression target operand)
  | .unary operator operand      => .unary operator (remapExpression target operand)
  | .binary operator left right  => .binary operator (remapExpression target left) (remapExpression target right)
  | .match_ value arms           => .match_ (remapExpression target value) (remapArms target arms)
  | .block statements            => .block (remapBlock target statements)
  | .literal value               => .literal value
def remapExpressions (target : Nat) : List TypedExpr → List TypedExpr
  | []      => []
  | e :: es => remapExpression target e :: remapExpressions target es
def remapArms (target : Nat) : List HirMatchArm → List HirMatchArm
  | [] => []
  | .mk pattern (some guard) body span :: arms =>
    .mk (remapPattern target pattern) (some (remapExpression target guard)) (remapExpression target body) span ::
      remapArms target arms
  | .mk pattern none body span :: arms =>
    .mk (remapPattern target pattern) none (remapExpression target body) span :: remapArms target arms
def remapBlock (target : Nat) : List HirStatement → List HirStatement
  | [] => []
  | .let_ definition ty value :: ss =>
    .let_ (remapId target definition) ty (remapExpression target value) :: remapBlock target ss
  | .return_ (some value) :: ss => .return_ (some (remapExpression target value)) :: remapBlock target ss
  | .return_ none :: ss         => .return_ none :: remapBlock target ss
  | .expression value :: ss     => .expression (remapExpression target value) :: remapBlock target ss
end

def remapParameter (target : Nat) (p : HirParameter) : HirParameter := { p with id := remapId target p.id }

def remapMember (target : Nat) (field : HirMember) : HirMember := { field with id := remapId target field.id }

def remapDefinition (target : Nat) (d : HirDefinition) : HirDefinition :=
  { d with
    id := remapId target d.id
    kind := match d.kind with
      | .struct fields     => .struct (fields.map (remapMember target))
      | .state fields      => .state (fields.map (remapMember target))
      | .enum variants     => .enum (variants.map fun v => { v with id := remapId target v.id })
      | .function f        => .function { f with
          parameters := f.parameters.map (remapParameter target), body := remapBlock target f.body }
      | .pipeline pipeline => .pipeline { pipeline with
          parameters := pipeline.parameters.map (remapParameter target)
          agent := pipeline.agent.map (remapId target)
          body := pipeline.body.map (remapExpression target) }
      | .agent             => .agent
      | .safetyBound       => .safetyBound }

def remapModule (target : Nat) (m : HirModule) : HirModule :=
  { id := target, definitions := m.definitions.map (remapDefinition target) }

/-! ## Diagnostics of the database -/

def sourceName (file : SourceFileId) : String := "<source-" ++ toString file ++ ">.syl"

def databaseDiagnostic (file code message : String) : CompilerDiagnostic :=
  ⟨.parse, { code, severity := .error, message, file, span := default }⟩

def parserPhase (code : String) : CompilationPhase :=
  if "SYL0".toList.isPrefixOf code.toList then .parse else .validate

def semanticPhase (code : String) : CompilationPhase :=
  if code = "SYL2001" ∨ code = "SYL2002" ∨ code = "SYL2003" ∨ code = "SYL2004" then .resolve else .typeCheck

def cancelledHir : HirResult := { program := none, diagnostics := [], cancelled := true }

/-! ## Inputs -/

variable {Ast Symbols : Type}

namespace IncrementalCompilerDatabase

def new : IncrementalCompilerDatabase Ast :=
  { sources := .empty, packages := .empty, parseCache := .empty, hirCache := .empty, cancelled := false }

/-- Sorted, and without repetition. -/
def normalizeFiles (files : List SourceFileId) : List SourceFileId :=
  (files.insertionSort (· ≤ ·)).destutter (· ≠ ·)

def setPackageFiles (db : IncrementalCompilerDatabase Ast) (package : PackageId) (files : List SourceFileId) :
    IncrementalCompilerDatabase Ast :=
  if db.packages.get? package = some (normalizeFiles files) then db
  else { db with
    packages := db.packages.insert package (normalizeFiles files)
    hirCache := db.hirCache.erase package }

def cancel (db : IncrementalCompilerDatabase Ast) : IncrementalCompilerDatabase Ast := { db with cancelled := true }

def resetCancellation (db : IncrementalCompilerDatabase Ast) : IncrementalCompilerDatabase Ast :=
  { db with cancelled := false }

/-- `saturating_add(1)` on 64 bits. -/
def nextRevision (revision : Nat) : Nat := min (revision + 1) (2 ^ 64 - 1)

def setSource (db : IncrementalCompilerDatabase Ast) (file : SourceFileId) (text : String) :
    IncrementalCompilerDatabase Ast :=
  if (db.sources.get? file).map (·.text) = some text then db
  else
    let revision := match db.sources.get? file with
      | some source => nextRevision source.revision
      | none        => 1
    let affected := (db.packages.entries.filter (·.2.contains file)).map (·.1)
    { db with
      sources := db.sources.insert file { text, revision }
      parseCache := db.parseCache.erase file
      hirCache := affected.foldl (fun cache package => cache.erase package) db.hirCache }

/-! ## Queries -/

def fingerprint (db : IncrementalCompilerDatabase Ast) (package : PackageId) : Option (List (SourceFileId × Nat)) :=
  (db.packages.get? package).map fun files => files.map fun file =>
    (file, match db.sources.get? file with
      | some source => source.revision
      | none        => 0)

variable (fe : Frontend Ast Symbols)

/-- What parsing a file with this text gives. -/
def checkedParse (file : SourceFileId) (text : String) : ParseResult Ast :=
  let checked := fe.checkSyl (sourceName file) text
  { ast := checked.ast
    diagnostics := checked.diagnostics.map fun d => ⟨parserPhase d.code, d⟩
    cancelled := false }

def unsetParse (file : SourceFileId) : ParseResult Ast :=
  { ast := none
    diagnostics := [databaseDiagnostic (sourceName file) "SYL9001" "source input is not set"]
    cancelled := false }

def parse (db : IncrementalCompilerDatabase Ast) (file : SourceFileId) :
    IncrementalCompilerDatabase Ast × ParseResult Ast :=
  if db.cancelled then (db, { ast := none, diagnostics := [], cancelled := true }) else
  match db.sources.get? file with
  | none => (db, unsetParse file)
  | some source =>
    match (db.parseCache.get? file).filter (·.revision = source.revision) with
    | some cached => (db, cached.result)
    | none =>
      let result := checkedParse fe file source.text
      ({ db with parseCache := db.parseCache.insert file { revision := source.revision, result } }, result)

/-- What `build_hir` has gathered so far. -/
structure HirBuild where
  diagnostics : List CompilerDiagnostic
  modules : List HirModule
  entry : Option DefId

def moduleTarget (index : Nat) : Nat := if index < 2 ^ 32 then index else 2 ^ 32 - 2

/-- The package after the module of one more file. -/
def addModule (file : SourceFileId) (index : Nat) (built : HirBuild) (lowered : HirModule × Option DefId) : HirBuild :=
  let target := moduleTarget index
  let candidate := lowered.2.map (remapId target)
  { diagnostics := built.diagnostics ++ (if candidate.isSome ∧ built.entry.isSome then
      [databaseDiagnostic (sourceName file) "SYL3002" "package declares more than one main function"] else [])
    modules := built.modules ++ [remapModule target lowered.1]
    entry := candidate.or built.entry }

/-- One turn of the loop of `build_hir`, on the parse result of its file. -/
def addFile (file : SourceFileId) (index : Nat) (parsed : ParseResult Ast) (built : HirBuild) : HirBuild :=
  let built := { built with diagnostics := built.diagnostics ++ parsed.diagnostics }
  match parsed.ast with
  | none => built
  | some ast =>
    let analysis := fe.analyze (sourceName file) ast
    let built := { built with
      diagnostics := built.diagnostics ++ analysis.diagnostics.map fun d => ⟨semanticPhase d.code, d⟩ }
    if analysis.diagnostics ≠ [] ∨ parsed.diagnostics ≠ [] then built
    else
      match fe.lowerToHir ast analysis.symbols with
      | .ok lowered   => addModule file index built lowered
      | .error errors =>
        { built with diagnostics := built.diagnostics ++ errors.map fun d => ⟨.typeCheck, d⟩ }

/-- The loop of `build_hir`; `none` when it was cancelled. -/
def buildFiles (db : IncrementalCompilerDatabase Ast) (index : Nat) (built : HirBuild) :
    List SourceFileId → IncrementalCompilerDatabase Ast × Option HirBuild
  | [] => (db, some built)
  | file :: files =>
    if db.cancelled then (db, none) else
    let (db, parsed) := db.parse fe file
    if parsed.cancelled then (db, none)
    else buildFiles db (index + 1) (addFile fe file index parsed built) files

def finishBuild (built : HirBuild) : HirResult :=
  { program := if built.diagnostics.all (·.diagnostic.severity ≠ .error) then some ⟨built.modules, built.entry⟩ else none
    diagnostics := built.diagnostics
    cancelled := false }

def unknownPackage (package : PackageId) : HirResult :=
  { program := none
    diagnostics := [databaseDiagnostic ("<package-" ++ toString package ++ ">") "SYL9002" "unknown package"]
    cancelled := false }

def buildHir (db : IncrementalCompilerDatabase Ast) (package : PackageId) :
    IncrementalCompilerDatabase Ast × HirResult :=
  match db.packages.get? package with
  | none => (db, unknownPackage package)
  | some files =>
    match buildFiles fe db 0 ⟨[], [], none⟩ files with
    | (db, none)       => (db, cancelledHir)
    | (db, some built) => (db, finishBuild built)

def hir (db : IncrementalCompilerDatabase Ast) (package : PackageId) : IncrementalCompilerDatabase Ast × HirResult :=
  if db.cancelled then (db, cancelledHir) else
  match db.fingerprint package with
  | none => db.buildHir fe package
  | some fingerprint =>
    match (db.hirCache.get? package).filter (·.fingerprint = fingerprint) with
    | some cached => (db, cached.result)
    | none =>
      let (db, result) := db.buildHir fe package
      if result.cancelled then (db, result)
      else ({ db with hirCache := db.hirCache.insert package { fingerprint, result } }, result)

def diagnostics (db : IncrementalCompilerDatabase Ast) (package : PackageId) :
    IncrementalCompilerDatabase Ast × List CompilerDiagnostic :=
  ((db.hir fe package).1, (db.hir fe package).2.diagnostics)

end IncrementalCompilerDatabase

/-! ## Sessions -/

inductive Operation where
  | setSource (file : SourceFileId) (text : String)
  | setPackageFiles (package : PackageId) (files : List SourceFileId)
  | cancel
  | resetCancellation
  | parse (file : SourceFileId)
  | hir (package : PackageId)
  | diagnostics (package : PackageId)

variable (fe : Frontend Ast Symbols)

def IncrementalCompilerDatabase.apply (db : IncrementalCompilerDatabase Ast) : Operation → IncrementalCompilerDatabase Ast
  | .setSource file text            => db.setSource file text
  | .setPackageFiles package files  => db.setPackageFiles package files
  | .cancel                         => db.cancel
  | .resetCancellation              => db.resetCancellation
  | .parse file                     => (db.parse fe file).1
  | .hir package                    => (db.hir fe package).1
  | .diagnostics package            => (db.diagnostics fe package).1

def IncrementalCompilerDatabase.after (db : IncrementalCompilerDatabase Ast) (ops : List Operation) :
    IncrementalCompilerDatabase Ast :=
  ops.foldl (fun db op => db.apply fe op) db

/-- The operations that give a new database the current texts and package files. -/
def inputs (db : IncrementalCompilerDatabase Ast) : List Operation :=
  db.sources.entries.map (fun (file, source) => .setSource file source.text) ++
  db.packages.entries.map (fun (package, files) => .setPackageFiles package files)

/-- A new database with the inputs of `db`. -/
def fresh (db : IncrementalCompilerDatabase Ast) : IncrementalCompilerDatabase Ast :=
  IncrementalCompilerDatabase.new.after fe (inputs db)

end Database
end Syllog
