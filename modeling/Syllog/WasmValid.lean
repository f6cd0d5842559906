import Syllog.Wasm
/-!
# WasmValid — validation of function bodies

The specification's checker: a stack of operand types, where `none` is a type that may be any (below a point no execution
passes), and a stack of open labels.  All locals are `i64`, functions take `i64`s and return one, and blocks are empty;
a comparison leaves an `i32`.
-/
namespace Syllog
namespace Wasm

inductive ValType where
  | i32 | i64
deriving DecidableEq, Repr

/-- An open label: whether branches go back to its start, the types it ends with, the operand height below it, and
whether the code being checked is unreachable. -/
structure Control where
  loops : Bool
  results : List ValType
  height : Nat
  unreachable : Bool
deriving DecidableEq, Repr

structure Checker where
  operands : List (Option ValType)
  controls : List Control
deriving DecidableEq, Repr

/-- The declared locals, and the parameter counts of the module's functions. -/
structure Context where
  locals : Nat
  callees : List Nat
deriving DecidableEq, Repr

def Control.labelTypes (c : Control) : List ValType := if c.loops then [] else c.results

def Checker.push (c : Checker) (ty : ValType) : Checker := { c with operands := some ty :: c.operands }

def Checker.pop (c : Checker) : Option (Option ValType × Checker) :=
  match c.controls with
  | []        => none
  | ctrl :: _ =>
    if c.operands.length = ctrl.height then (if ctrl.unreachable then some (none, c) else none)
    else match c.operands with
      | ty :: operands => some (ty, { c with operands := operands })
      | []             => none

def Checker.expect (c : Checker) (ty : ValType) : Option Checker :=
  match c.pop with
  | some (actual, c) => if actual = none ∨ actual = some ty then some c else none
  | none             => none

def Checker.expectAll : Checker → List ValType → Option Checker
  | c, []        => some c
  | c, ty :: tys => (c.expect ty).bind (fun c => Checker.expectAll c tys)

/-- The code after a branch, a return or a trap. -/
def Checker.stop (c : Checker) : Option Checker :=
  match c.controls with
  | []           => none
  | ctrl :: rest => some ⟨c.operands.drop (c.operands.length - ctrl.height), { ctrl with unreachable := true } :: rest⟩

def Checker.open_ (c : Checker) (loops : Bool) : Checker :=
  { c with controls := ⟨loops, [], c.operands.length, false⟩ :: c.controls }

def Numeric.result : Numeric → ValType
  | .eq | .ltU | .ltS => .i32
  | _                 => .i64

def check (ctx : Context) (c : Checker) (instruction : Instruction) : Option Checker :=
  match instruction with
  | .i64Const _   => some (c.push .i64)
  | .localGet i   => if i < ctx.locals then some (c.push .i64) else none
  | .localSet i   => if i < ctx.locals then c.expect .i64 else none
  | .i64 operator => (c.expectAll [.i64, .i64]).map (fun c => c.push operator.result)
  | .loop         => some (c.open_ true)
  | .ifEmpty      => (c.expect .i32).map (fun c => c.open_ false)
  | .br depth     => match c.controls[depth]? with
    | some label => (c.expectAll label.labelTypes.reverse).bind Checker.stop
    | none       => none
  | .ret          => match c.controls.getLast? with
    | some outer => (c.expectAll outer.results.reverse).bind Checker.stop
    | none       => none
  | .unreachable  => c.stop
  | .call i       => match ctx.callees[i]? with
    | some n => (c.expectAll (List.replicate n .i64)).map (fun c => c.push .i64)
    | none   => none
  | .end_         => match c.controls with
    | []           => none
    | ctrl :: rest => match c.expectAll ctrl.results.reverse with
      | some c' =>
        if c'.operands.length = ctrl.height then some ⟨ctrl.results.reverse.map some ++ c'.operands, rest⟩ else none
      | none    => none

/-- Instructions in order; nothing follows the `end` of the body. -/
def checkAll (ctx : Context) : List Instruction → Checker → Option Checker
  | [], c     => some c
  | i :: is, c => if c.controls = [] then none else (check ctx c i).bind (checkAll ctx is)

def Checker.start : Checker := ⟨[], [⟨false, [.i64], 0, false⟩]⟩

def validate (m : Module) (f : Function) : Bool :=
  match checkAll ⟨f.parameters + f.locals, m.functions.map (·.parameters)⟩ f.body Checker.start with
  | some c => c.controls = []
  | none   => false

theorem validate_iff {m : Module} {f : Function} : validate m f = true ↔ ∃ c,
    checkAll ⟨f.parameters + f.locals, m.functions.map (·.parameters)⟩ f.body Checker.start = some c ∧
      c.controls = [] := by
  unfold validate
  split
  · rename_i c hc
    simp [hc]
  · rename_i hc
    simp [hc]

/-! ## Checking in reachable code -/

theorem checkAll_append {ctx : Context} {c c'' : Checker} : ∀ {a b : List Instruction},
    checkAll ctx (a ++ b) c = some c'' ↔ ∃ c', checkAll ctx a c = some c' ∧ checkAll ctx b c' = some c''
  | [], b => by simp [checkAll]
  | i :: a, b => by
    simp only [List.cons_append, checkAll]
    by_cases hc : c.controls = []
    · simp [hc]
    · simp only [hc, if_false, Option.bind_eq_some_iff]
      constructor
      · rintro ⟨d, hd, h⟩
        obtain ⟨c', h1, h2⟩ := checkAll_append.1 h
        exact ⟨c', ⟨d, hd, h1⟩, h2⟩
      · rintro ⟨c', ⟨d, hd, h1⟩, h2⟩
        exact ⟨d, hd, checkAll_append.2 ⟨c', h1, h2⟩⟩

/-- The code passes from a state exactly where `valid` holds, and leaves one state. -/
def Checks (ctx : Context) (code : List Instruction) (c : Checker) (valid : Prop) (last : Checker) : Prop :=
  ∀ c', checkAll ctx code c = some c' ↔ valid ∧ c' = last

section
variable {ctx : Context} {a b code : List Instruction} {c mid last : Checker} {valid valid' : Prop}

theorem Checks.append (ha : Checks ctx a c valid mid) (hb : Checks ctx b mid valid' last) :
    Checks ctx (a ++ b) c (valid ∧ valid') last := by
  intro c'
  rw [checkAll_append]
  constructor
  · rintro ⟨d, h1, h2⟩
    obtain ⟨hv, rfl⟩ := (ha d).1 h1
    obtain ⟨hv', rfl⟩ := (hb c').1 h2
    exact ⟨⟨hv, hv'⟩, rfl⟩
  · rintro ⟨⟨hv, hv'⟩, rfl⟩
    exact ⟨mid, (ha mid).2 ⟨hv, rfl⟩, (hb c').2 ⟨hv', rfl⟩⟩

theorem Checks.of_iff (h : Checks ctx code c valid last) (hv : valid ↔ valid') : Checks ctx code c valid' last :=
  fun c' => (h c').trans (and_congr_left fun _ => hv)

/-- Code that passes whatever else holds. -/
theorem Checks.of_eq (h : checkAll ctx code c = some last) : Checks ctx code c True last := fun c' => by
  rw [h, true_and, Option.some.injEq]
  exact eq_comm

theorem checks_nil : Checks ctx [] c True c := .of_eq rfl

end

/-- Reachable code under a label opened on the empty stack. -/
def Control.Fresh (c : Control) : Prop := c.height = 0 ∧ c.unreachable = false

section
variable {ctx : Context} {ctrl : Control} {cs : List Control} {ops : List (Option ValType)} {c' : Checker}

theorem expect_cons (hf : ctrl.Fresh) (actual ty : ValType) :
    (Checker.mk (some actual :: ops) (ctrl :: cs)).expect ty =
      if actual = ty then some ⟨ops, ctrl :: cs⟩ else none := by
  have hne : ¬ (some actual :: ops).length = ctrl.height := by rw [hf.1]; simp
  simp only [Checker.expect, Checker.pop, hne, if_false]
  simp

theorem expect_nil (hf : ctrl.Fresh) (ty : ValType) : (Checker.mk [] (ctrl :: cs)).expect ty = none := by
  simp [Checker.expect, Checker.pop, hf.1, hf.2]

theorem checkAll_single {i : Instruction} :
    checkAll ctx [i] ⟨ops, ctrl :: cs⟩ = some c' ↔ check ctx ⟨ops, ctrl :: cs⟩ i = some c' := by
  simp only [checkAll, reduceCtorEq, if_false]
  cases check ctx ⟨ops, ctrl :: cs⟩ i <;> simp

theorem const_checks (v : Word) : Checks ctx [.i64Const v] ⟨ops, ctrl :: cs⟩ True ⟨some .i64 :: ops, ctrl :: cs⟩ :=
  .of_eq (checkAll_single.2 rfl)

theorem get_checks (i : Nat) :
    Checks ctx [.localGet i] ⟨ops, ctrl :: cs⟩ (i < ctx.locals) ⟨some .i64 :: ops, ctrl :: cs⟩ := by
  intro c'
  rw [checkAll_single]
  by_cases h : i < ctx.locals
  · simp only [check, h, if_true, Checker.push, Option.some.injEq, true_and]
    exact eq_comm
  · simp [check, h]

theorem set_checks (hf : ctrl.Fresh) (i : Nat) (actual : ValType) :
    Checks ctx [.localSet i] ⟨some actual :: ops, ctrl :: cs⟩ (i < ctx.locals ∧ actual = .i64) ⟨ops, ctrl :: cs⟩ := by
  intro c'
  rw [checkAll_single]
  by_cases h : i < ctx.locals
  · simp only [check, h, if_true, expect_cons hf, true_and]
    by_cases ha : actual = .i64
    · simp only [ha, if_true, Option.some.injEq, true_and]
      exact eq_comm
    · simp [ha]
  · simp [check, h]

theorem numeric_checks (hf : ctrl.Fresh) (operator : Numeric) :
    Checks ctx [.i64 operator] ⟨some .i64 :: some .i64 :: ops, ctrl :: cs⟩ True ⟨some operator.result :: ops, ctrl :: cs⟩ := by
  refine .of_eq (checkAll_single.2 ?_)
  simp only [check, Checker.expectAll, expect_cons hf, if_true, Option.bind_some, Option.map_some, Checker.push]

/-- A branch to a label without types leaves the rest of the block unreachable. -/
theorem br_checks (hf : ctrl.Fresh) {depth : Nat} {label : Control} (hl : (ctrl :: cs)[depth]? = some label)
    (hty : label.labelTypes = []) :
    Checks ctx [.br depth] ⟨ops, ctrl :: cs⟩ True ⟨[], { ctrl with unreachable := true } :: cs⟩ := by
  refine .of_eq (checkAll_single.2 ?_)
  simp only [check, hl, hty, List.reverse_nil, Checker.expectAll, Option.bind_some, Checker.stop, hf.1, Nat.sub_zero,
    List.drop_length]

theorem ret_checks (hf : ctrl.Fresh) {outer : Control} (ho : (ctrl :: cs).getLast? = some outer)
    (hty : outer.results = [.i64]) :
    Checks ctx [.ret] ⟨some .i64 :: ops, ctrl :: cs⟩ True ⟨[], { ctrl with unreachable := true } :: cs⟩ := by
  refine .of_eq (checkAll_single.2 ?_)
  simp only [check, ho, hty, List.reverse_cons, List.reverse_nil, List.nil_append, Checker.expectAll, expect_cons hf,
    if_true, Option.bind_some, Checker.stop, hf.1, Nat.sub_zero, List.drop_length]

theorem end_checks (hh : ctrl.height = 0) (hr : ctrl.results = []) :
    Checks ctx [.end_] ⟨[], ctrl :: cs⟩ True ⟨[], cs⟩ := by
  refine .of_eq (checkAll_single.2 ?_)
  simp only [check, hr, List.reverse_nil, Checker.expectAll, List.length_nil, hh, if_true, List.map_nil, List.nil_append]

end

/-- Taking `n` parameters off a stack of `k` words above the base. -/
theorem expectAll_replicate {ctrl : Control} {cs : List Control} (hf : ctrl.Fresh) : ∀ (n k : Nat) (c' : Checker),
    (Checker.mk (List.replicate k (some .i64)) (ctrl :: cs)).expectAll (List.replicate n .i64) = some c' ↔
      n ≤ k ∧ c' = ⟨List.replicate (k - n) (some .i64), ctrl :: cs⟩
  | 0, k, c' => by
    simp only [List.replicate_zero, Checker.expectAll, Option.some.injEq, Nat.zero_le, Nat.sub_zero, true_and]
    exact eq_comm
  | n + 1, 0, c' => by
    simp [List.replicate_succ, Checker.expectAll, expect_nil hf]
  | n + 1, k + 1, c' => by
    simp only [List.replicate_succ, Checker.expectAll, expect_cons hf, if_true, Option.bind_some]
    rw [expectAll_replicate hf n k c', Nat.add_sub_add_right]
    simp

theorem call_checks {ctx : Context} {ctrl : Control} {cs : List Control} (hf : ctrl.Fresh) {i n k : Nat}
    (hn : ctx.callees[i]? = some n) :
    Checks ctx [.call i] ⟨List.replicate k (some .i64), ctrl :: cs⟩ (n ≤ k)
      ⟨some .i64 :: List.replicate (k - n) (some .i64), ctrl :: cs⟩ := by
  intro c'
  rw [checkAll_single]
  simp only [check, hn, Option.map_eq_some_iff, expectAll_replicate hf]
  constructor
  · rintro ⟨c, ⟨hle, rfl⟩, rfl⟩
    exact ⟨hle, rfl⟩
  · rintro ⟨hle, rfl⟩
    exact ⟨_, ⟨hle, rfl⟩, rfl⟩

end Wasm
end Syllog
