import Syllog.Lower
import Syllog.Saturate
import Mathlib.Data.Prod.Lex
/-!
# Effects — effect inference and the capability manifest

`effects.rs`.  A traversal of every body collects the effects it has of itself and the definitions it calls; a loop then
adds to every definition the effects of its callees until nothing changes.  A declared bound must parse and must hold what
was inferred; the manifest requires the union over all definitions.
-/
namespace Syllog
namespace Effects

open Hir Lower

inductive Effect where
  | alloc | async | io | network | provider
deriving DecidableEq, Repr

instance : Fintype Effect := ⟨{.alloc, .async, .io, .network, .provider}, fun effect => by cases effect <;> decide⟩

def Effect.fromSource (name : String) : Option Effect :=
  if name = "alloc" then some .alloc
  else if name = "async" then some .async
  else if name = "io" then some .io
  else if name = "network" then some .network
  else if name = "provider" then some .provider
  else none

def Effect.asStr : Effect → String
  | .alloc    => "alloc"
  | .async    => "async"
  | .io       => "io"
  | .network  => "network"
  | .provider => "provider"

/-- The effects of a set in their derived order. -/
def Effect.listed (effects : Finset Effect) : List Effect :=
  [.alloc, .async, .io, .network, .provider].filter (· ∈ effects)

structure EffectError where
  code : String
  message : String
  span : Span
deriving DecidableEq, Repr

/-- What a body does of itself, and what it calls. -/
structure LocalEffects where
  direct : Finset Effect
  calls : Finset DefId
deriving DecidableEq

namespace LocalEffects

def empty : LocalEffects := ⟨∅, ∅⟩

def insert (effects : LocalEffects) (effect : Effect) : LocalEffects :=
  { effects with direct := Insert.insert effect effects.direct }

def call (effects : LocalEffects) (definition : DefId) : LocalEffects :=
  { effects with calls := Insert.insert definition effects.calls }

end LocalEffects

/-- The call a callee is recorded as: only a direct reference is. -/
def recordCall (callee : TypedExpr) (effects : LocalEffects) : LocalEffects :=
  match callee.kind with
  | .reference definition => effects.call definition
  | _                     => effects

mutual
def inspectExpr : TypedExpr → LocalEffects → LocalEffects
  | .mk (.await operand) _ _, effects           => inspectExpr operand (effects.insert .async)
  | .mk (.literal (.string _)) _ _, effects     => effects.insert .alloc
  | .mk (.literal _) _ _, effects               => effects
  | .mk (.reference _) _ _, effects             => effects
  | .mk (.array items) _ _, effects             => inspectAll items (effects.insert .alloc)
  | .mk (.call callee arguments) _ _, effects   =>
    inspectAll arguments (inspectExpr callee (recordCall callee effects))
  | .mk (.borrow _ operand) _ _, effects        => inspectExpr operand effects
  | .mk (.field base _) _ _, effects            => inspectExpr base effects
  | .mk (.unary _ operand) _ _, effects         => inspectExpr operand effects
  | .mk (.binary _ left right) _ _, effects     => inspectExpr right (inspectExpr left effects)
  | .mk (.match_ value arms) _ _, effects       => inspectArms arms (inspectExpr value effects)
  | .mk (.block statements) _ _, effects        => inspectBlock statements effects
def inspectAll : List TypedExpr → LocalEffects → LocalEffects
  | [], effects      => effects
  | e :: es, effects => inspectAll es (inspectExpr e effects)
def inspectArms : List HirMatchArm → LocalEffects → LocalEffects
  | [], effects                                => effects
  | .mk _ (some guard) body _ :: arms, effects => inspectArms arms (inspectExpr body (inspectExpr guard effects))
  | .mk _ none body _ :: arms, effects         => inspectArms arms (inspectExpr body effects)
def inspectBlock : List HirStatement → LocalEffects → LocalEffects
  | [], effects                           => effects
  | .let_ _ _ value :: rest, effects      => inspectBlock rest (inspectExpr value effects)
  | .expression value :: rest, effects    => inspectBlock rest (inspectExpr value effects)
  | .return_ (some value) :: rest, effects => inspectBlock rest (inspectExpr value effects)
  | .return_ none :: rest, effects        => inspectBlock rest effects
end

def functionEffects (f : HirFunction) : LocalEffects :=
  inspectBlock f.body (if f.asynchronous then LocalEffects.empty.insert .async else LocalEffects.empty)

def pipelineEffects (pipeline : HirPipeline) : LocalEffects :=
  let effects := if pipeline.agent.isSome then (LocalEffects.empty.insert .network).insert .provider
    else LocalEffects.empty
  match pipeline.body with
  | some body => inspectExpr body effects
  | none      => effects

/-- The effects of a definition that runs. -/
def definitionEffects (definition : HirDefinition) : Option LocalEffects :=
  match definition.kind with
  | .function f        => some (functionEffects f)
  | .pipeline pipeline => some (pipelineEffects pipeline)
  | _                  => none

/-! ## Declared bounds -/

/-- The names of a declaration, with those before them. -/
def parseNames (span : Span) (seen : List String) : List String → Finset Effect × List EffectError
  | []           => (∅, [])
  | name :: rest =>
    let (parsed, errors) := parseNames span (name :: seen) rest
    if name ∈ seen then (parsed, ⟨"SYL2701", "duplicate effect '" ++ name ++ "'", span⟩ :: errors)
    else if name = "pure" then (parsed, errors)
    else match Effect.fromSource name with
      | some effect => (insert effect parsed, errors)
      | none        => (parsed, ⟨"SYL2701", "unknown effect '" ++ name ++ "'", span⟩ :: errors)

def parseDeclaration (declaration : Option (List String)) (span : Span) : Option (Finset Effect) × List EffectError :=
  match declaration with
  | none => (none, [])
  | some names =>
    let combined := if "pure" ∈ names ∧ names.length ≠ 1 then
        [⟨"SYL2701", "'pure' cannot be combined with effect capabilities", span⟩] else []
    let (parsed, errors) := parseNames span [] names
    (some parsed, combined ++ errors)

def displayEffects (effects : List Effect) : String := ", ".intercalate (effects.map Effect.asStr)

/-! ## The analysis -/

instance : LinearOrder DefId :=
  LinearOrder.lift' (fun d => toLex (d.module, d.index)) (fun a b h => by cases a; cases b; cases h; rfl)

structure CapabilityManifest where
  formatVersion : Nat
  required : Finset Effect

structure EffectAnalysis where
  functions : OrdMap DefId (Finset Effect)
  manifest : CapabilityManifest

/-- What every definition does of itself. -/
def localEffects (p : HirProgram) : OrdMap DefId LocalEffects :=
  OrdMap.ofList (p.definitions.filterMap fun d => (definitionEffects d).map fun effects => (d.id, effects))

/-- The declared bounds of the functions. -/
def declarations (p : HirProgram) : OrdMap DefId (Option (Finset Effect) × Span) :=
  OrdMap.ofList ((HirProgram.functions p).map fun (d, f) => (d.id, (parseDeclaration f.declaredEffects d.span).1, d.span))

def declarationErrors (p : HirProgram) : List EffectError :=
  (HirProgram.functions p).flatMap fun (d, f) => (parseDeclaration f.declaredEffects d.span).2

def inferredEffects (p : HirProgram) : OrdMap DefId (Finset Effect) :=
  Saturate.saturate LocalEffects.direct LocalEffects.calls (localEffects p)

/-- The error of a bound that omits what was inferred. -/
def boundErrors (inferred : OrdMap DefId (Finset Effect)) (id : DefId) : Option (Finset Effect) × Span → List EffectError
  | (none, _)             => []
  | (some declared, span) =>
    let missing := Saturate.labelOf inferred id \ declared
    if missing = ∅ then []
    else [⟨"SYL2702", "declared effect bound omits inferred effect(s): " ++ displayEffects (Effect.listed missing), span⟩]

def effectErrors (p : HirProgram) : List EffectError :=
  declarationErrors p ++ (declarations p).entries.flatMap fun (id, bound) => boundErrors (inferredEffects p) id bound

/-- Errors by their place, then by their code. -/
def EffectError.le (a b : EffectError) : Bool :=
  a.span.start < b.span.start || (a.span.start == b.span.start && decide (a.code ≤ b.code))

/-- `analyze_effects`. -/
def analyzeEffects (p : HirProgram) : Except (List EffectError) EffectAnalysis :=
  if effectErrors p ≠ [] then .error ((effectErrors p).mergeSort EffectError.le)
  else .ok ⟨inferredEffects p, 1, (inferredEffects p).values.foldr (· ∪ ·) ∅⟩

end Effects
end Syllog
