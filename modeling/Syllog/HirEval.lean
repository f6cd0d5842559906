import Syllog.InterpOwn
import Syllog.Lower
/-!
# HirEval — the meaning of the typed tree

A call-by-value evaluator that goes from left to right.  `And` and `Or` evaluate both sides, the first matching arm is
taken, a borrow is a snapshot, `await e` is `e`, and `return` leaves the function.  An integer literal takes its type from
the type expected where it stands; `typeOf` is the type its left neighbour passes on.  Only calls use up fuel.
-/
namespace Syllog
namespace Hir

open Mir Lower
open Interp (Value Trap)

/-- The values of the variables.  Identities are not reused, so nothing has to be forgotten at the end of a block. -/
abbrev Env := DefId → Value

def Env.set (env : Env) (definition : DefId) (value : Value) : Env := fun d => if d = definition then value else env d

/-- Why an evaluation has no value: it left the function, an arithmetic check failed, it has no meaning, or it made more
nested calls than it may. -/
inductive Stop where
  | returned (value : Value)
  | trapped (reason : Trap)
  | stuck
  | outOfFuel
deriving DecidableEq

/-! ## Constants and operators -/

def constantValue : Constant → Value
  | .unit     => .unit
  | .bool b   => .bool b
  | .i64 v    => .i64 v
  | .u64 v    => .u64 v
  | .string s => .string s

/-- The checked operators of the reference interpreter. -/
def evalBinary (operator : BinaryOperator) (left right : Value) : Except Stop Value :=
  match lowerBinary operator with
  | none    => .error .stuck
  | some op => match Interp.binary op left right with
    | .ok v                     => .ok v
    | .error (.error (.trap t)) => .error (if t.arithmetic then .trapped t else .stuck)
    | .error _                  => .error .stuck

/-! ## Patterns -/

def matchesLiteral : Literal → Value → Bool
  | .boolean a, .bool b  => a = b
  | .integer n, .i64 m   => n = m
  | .integer n, .u64 m   => n.toInt = m.toNat
  | .string s, .string t => s = t
  | _, _                 => false

mutual
/-- Fields are compared as far as both the pattern and the value have them. -/
def matchesPattern (ix : ProgramIndex) : HirPattern → Value → Bool
  | .wildcard, _                                  => true
  | .binding _, _                                 => true
  | .literal literal, value                       => matchesLiteral literal value
  | .variant definition fields, .aggregate d values =>
    (lookupKey definition ix.variants).map Prod.snd = some d && matchesPatterns ix fields values
  | .variant _ _, _                               => false
def matchesPatterns (ix : ProgramIndex) : List HirPattern → List Value → Bool
  | pattern :: patterns, value :: values => matchesPattern ix pattern value && matchesPatterns ix patterns values
  | _, _                                 => true
end

mutual
def bindPattern : HirPattern → Value → Env → Env
  | .binding definition, value, env            => env.set definition value
  | .variant _ fields, .aggregate _ values, env => bindPatterns fields values env
  | _, _, env                                  => env
def bindPatterns : List HirPattern → List Value → Env → Env
  | pattern :: patterns, value :: values, env => bindPatterns patterns values (bindPattern pattern value env)
  | _, _, env                                 => env
end

mutual
def HirPattern.binders : HirPattern → List DefId
  | .binding definition => [definition]
  | .variant _ fields   => patternsBinders fields
  | _                   => []
def patternsBinders : List HirPattern → List DefId
  | []                   => []
  | pattern :: patterns => pattern.binders ++ patternsBinders patterns
end

/-! ## Declared variables -/

def lowered (ix : ProgramIndex) (ty : ResolvedType) : MirType := (ix.lowerType ty).getD .unit

/-- The variables a block declares itself, with their types. -/
def blockLets (ix : ProgramIndex) (statements : List HirStatement) : List (DefId × MirType) :=
  statements.filterMap (fun statement => match statement with
    | .let_ definition ty _ => some (definition, lowered ix ty)
    | _                     => none)

def TypedExpr.lets (ix : ProgramIndex) (e : TypedExpr) : List (DefId × MirType) :=
  match e.kind with
  | .block statements => blockLets ix statements
  | _                 => []

def TypedExpr.binders (e : TypedExpr) : List DefId :=
  match e.kind with
  | .match_ _ arms => arms.flatMap (fun arm => arm.pattern.binders)
  | _              => []

/-- The parameters of a function and the variables of its body, at any depth. -/
def HirFunction.declared (ix : ProgramIndex) (f : HirFunction) : List (DefId × MirType) :=
  f.parameters.map (fun p => (p.id, lowered ix p.ty)) ++ blockLets ix f.body ++
    (walkStatements f.body).flatMap (TypedExpr.lets ix)

def HirFunction.binders (f : HirFunction) : List DefId := (walkStatements f.body).flatMap TypedExpr.binders

/-! ## Evaluation -/

/-- The variables' types, and the type the function returns. -/
structure Scope where
  ix : ProgramIndex
  types : List (DefId × MirType)
  result : MirType

/-- What the body of a function is evaluated in: its scope, and what a call does. -/
structure Context extends Scope where
  call : DefId → List Value → Except Stop Value

/-- The type an expression's value is stored at. -/
def typeOf (c : Scope) : TypedExpr → Option MirType → MirType
  | .mk (.borrow _ _) ty _, _                    => lowered c.ix ty
  | .mk (.await operand) _ _, expected           => typeOf c operand expected
  | .mk (.literal literal) _ _, expected         => ((literalConstant literal expected).map Constant.ty).getD .unit
  | .mk (.reference definition) _ _, _           => match lookupKey definition c.types with
    | some ty => ty
    | none    => match lookupKey definition c.ix.variants with
      | some (aggregate, _) => .aggregate aggregate
      | none                => .unit
  | .mk (.binary operator left _) _ _, expected  =>
    if BinaryOperator.comparison operator then .bool else typeOf c left expected
  | .mk (.call _ _) ty _, expected               => storedType c.ix ty expected
  | .mk (.match_ _ _) ty _, expected             => storedType c.ix ty expected
  | .mk (.block _) _ _, _                        => c.result
  | .mk (.array _) _ _, _                        => .unit
  | .mk (.field _ _) _ _, _                      => .unit
  | .mk (.unary _ _) _ _, _                      => .unit

mutual
def evalExpression (c : Context) : TypedExpr → Option MirType → Env → Except Stop (Value × Env)
  | .mk (.borrow _ operand) _ _, _, env => match operand.kind with
    | .reference definition => .ok (.reference (env definition), env)
    | _                     => .error .stuck
  | .mk (.await operand) _ _, expected, env => evalExpression c operand expected env
  | .mk (.literal literal) _ _, expected, env => match literalConstant literal expected with
    | some constant => .ok (constantValue constant, env)
    | none          => .error .stuck
  | .mk (.reference definition) _ _, _, env => match lookupKey definition c.ix.variants with
    | some (_, discriminant) => .ok (.aggregate discriminant [], env)
    | none                   => .ok (env definition, env)
  | .mk (.binary operator left right) _ _, expected, env => do
    let (a, env) ← evalExpression c left expected env
    let (b, env) ← evalExpression c right (some (typeOf c.toScope left expected)) env
    let v ← evalBinary operator a b
    .ok (v, env)
  | .mk (.call callee arguments) _ _, _, env => match callee.kind with
    | .reference definition => do
      let (vs, env) ← evalArguments c arguments env
      let v ← c.call definition vs
      .ok (v, env)
    | _ => .error .stuck
  | .mk (.match_ value arms) ty _, expected, env => do
    let (v, env) ← evalExpression c value none env
    evalArms c (storedType c.ix ty expected) v arms env
  | .mk (.block statements) _ _, expected, env => do
    let (v, env) ← evalBlock c statements (expected.getD .unit) env
    .ok (v.getD .unit, env)
  | .mk (.array _) _ _, _, _   => .error .stuck
  | .mk (.field _ _) _ _, _, _ => .error .stuck
  | .mk (.unary _ _) _ _, _, _ => .error .stuck
def evalArguments (c : Context) : List TypedExpr → Env → Except Stop (List Value × Env)
  | [], env      => .ok ([], env)
  | e :: es, env => do
    let (v, env) ← evalExpression c e none env
    let (vs, env) ← evalArguments c es env
    .ok (v :: vs, env)
/-- The first arm whose pattern matches, and whose guard holds if it has one. -/
def evalArms (c : Context) (ty : MirType) (value : Value) : List HirMatchArm → Env → Except Stop (Value × Env)
  | [], _ => .error .stuck
  | .mk pattern none body _ :: arms, env =>
    if matchesPattern c.ix pattern value then evalExpression c body (some ty) (bindPattern pattern value env)
    else evalArms c ty value arms env
  | .mk pattern (some guard) body _ :: arms, env =>
    if matchesPattern c.ix pattern value then do
      let (t, env) ← evalExpression c guard (some .bool) (bindPattern pattern value env)
      if t = .bool true then evalExpression c body (some ty) env else evalArms c ty value arms env
    else evalArms c ty value arms env
/-- The value of a block is that of the expression it ends in, if it ends in one. -/
def evalBlock (c : Context) : List HirStatement → MirType → Env → Except Stop (Option Value × Env)
  | [], _, env => .ok (none, env)
  | .let_ definition ty value :: rest, result, env => do
    let (v, env) ← evalExpression c value (some (lowered c.ix ty)) env
    evalBlock c rest result (env.set definition v)
  | .return_ (some value) :: _, result, env => do
    let (v, _) ← evalExpression c value (some result) env
    .error (.returned v)
  | .return_ none :: _, _, _ => .error (.returned .unit)
  | [.expression e], result, env => do
    let (v, env) ← evalExpression c e (some result) env
    .ok (some v, env)
  | .expression e :: next :: rest, result, env => do
    let (_, env) ← evalExpression c e none env
    evalBlock c (next :: rest) result env
end

/-! ## Functions -/

def bindParameters : List HirParameter → List Value → Env → Env
  | p :: ps, v :: vs, env => bindParameters ps vs (env.set p.id v)
  | _, _, env             => env

/-- The functions by identity, as `MirProgram.lookup` finds them. -/
def HirProgram.lookup (p : HirProgram) (id : DefId) : Option (HirDefinition × HirFunction) :=
  (HirProgram.functions p).reverse.find? (fun df => df.1.id = id)

def functionScope (ix : ProgramIndex) (f : HirFunction) : Scope := ⟨ix, f.declared ix, lowered ix f.result⟩

/-- A body that ends without a value gives unit, in a function that returns it. -/
def evalBody (c : Context) (f : HirFunction) (arguments : List Value) : Except Stop Value :=
  match evalBlock c f.body c.result (bindParameters f.parameters arguments (fun _ => .unit)) with
  | .ok (some v, _)       => .ok v
  | .ok (none, _)         => if c.result = .unit then .ok .unit else .error .stuck
  | .error (.returned v)  => .ok v
  | .error e              => .error e

/-- **The value of a call**, with at most `fuel` nested ones. -/
def evalFunction (p : HirProgram) : Nat → DefId → List Value → Except Stop Value
  | 0, _, _                => .error .outOfFuel
  | fuel + 1, id, arguments => match HirProgram.lookup p id with
    | none        => .error .stuck
    | some (_, f) =>
      if arguments.length = f.parameters.length then
        evalBody ⟨functionScope (ProgramIndex.new p) f, evalFunction p fuel⟩ f arguments
      else .error .stuck

end Hir
end Syllog
