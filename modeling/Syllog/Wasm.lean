import Syllog.Runs
import Mathlib.Data.List.Basic
/-!
# Wasm — a WebAssembly core

The instructions a dispatch-loop compiler needs, in the flat form a binary holds them: `loop` and `if` open a label, `end`
closes one.  `step` is the usual reduction on one frame and its callers, with 64-bit words on the stack; a comparison
pushes the integer 0 or 1, and locals are a total store.  `validate` is the specification's type checker over an
operand stack and a control stack; there a comparison leaves an `i32`, and locals and callees must be declared.
-/
namespace Syllog
namespace Wasm

abbrev Word := BitVec 64

inductive Numeric where
  | add | sub | mul | divU | divS | eq | ltU | ltS | and | or
deriving DecidableEq, Repr

inductive Instruction where
  | i64Const (value : Word)
  | localGet (index : Nat)
  | localSet (index : Nat)
  | i64 (operator : Numeric)
  | loop
  | ifEmpty
  | br (depth : Nat)
  | ret
  | unreachable
  | call (index : Nat)
  | end_
deriving DecidableEq, Repr

/-- `invalid` is what a validated module never runs into. -/
inductive Trap where
  | divideByZero | integerOverflow | unreachable | invalid
deriving DecidableEq, Repr

structure Function where
  parameters : Nat
  locals : Nat
  body : List Instruction
deriving DecidableEq, Repr

structure Module where
  functions : List Function
  main : Nat
deriving DecidableEq, Repr

/-! ## Execution -/

def truth (b : Bool) : Word := if b then 1 else 0

def Numeric.apply (operator : Numeric) (a b : Word) : Except Trap Word :=
  match operator with
  | .add  => .ok (a + b)
  | .sub  => .ok (a - b)
  | .mul  => .ok (a * b)
  | .divU => if b = 0 then .error .divideByZero else .ok (a / b)
  | .divS =>
    if b = 0 then .error .divideByZero
    else if a.toInt.tdiv b.toInt = 2 ^ 63 then .error .integerOverflow
    else .ok (a.sdiv b)
  | .eq   => .ok (truth (a = b))
  | .ltU  => .ok (truth (a.ult b))
  | .ltS  => .ok (truth (a.slt b))
  | .and  => .ok (a &&& b)
  | .or   => .ok (a ||| b)

/-- Where a branch to a label goes on, and the height it unwinds the stack to. -/
structure Label where
  continuation : List Instruction
  height : Nat
deriving DecidableEq, Repr

structure Frame where
  code : List Instruction
  labels : List Label
  stack : List Word
  locals : Nat → Word

structure Config where
  frame : Frame
  callers : List Frame

/-- The code after the `end` that closes the innermost open label, `depth` more being open. -/
def skipToEnd : Nat → List Instruction → List Instruction
  | _, []                 => []
  | d, .loop :: code      => skipToEnd (d + 1) code
  | d, .ifEmpty :: code   => skipToEnd (d + 1) code
  | 0, .end_ :: code      => code
  | d + 1, .end_ :: code  => skipToEnd d code
  | d, _ :: code          => skipToEnd d code

def Frame.enter (f : Function) (arguments : List Word) : Frame :=
  ⟨f.body, [], [], fun i => (arguments[i]?).getD 0⟩

def setLocal (locals : Nat → Word) (index : Nat) (value : Word) : Nat → Word :=
  fun i => if i = index then value else locals i

/-- A frame's result goes on the stack of the frame that called it. -/
def giveBack (stack : List Word) (callers : List Frame) : Except Trap (Config ⊕ Word) :=
  match stack, callers with
  | v :: _, c :: callers => .ok (.inl ⟨{ c with stack := v :: c.stack }, callers⟩)
  | v :: _, []           => .ok (.inr v)
  | [], _                => .error .invalid

def stepInstruction (m : Module) (instruction : Instruction) (fr : Frame) (callers : List Frame) :
    Except Trap (Config ⊕ Word) :=
  match instruction with
  | .i64Const v   => .ok (.inl ⟨{ fr with stack := v :: fr.stack }, callers⟩)
  | .localGet i   => .ok (.inl ⟨{ fr with stack := fr.locals i :: fr.stack }, callers⟩)
  | .localSet i   => match fr.stack with
    | v :: stack => .ok (.inl ⟨{ fr with stack := stack, locals := setLocal fr.locals i v }, callers⟩)
    | []         => .error .invalid
  | .i64 operator => match fr.stack with
    | b :: a :: stack => do
      let v ← operator.apply a b
      .ok (.inl ⟨{ fr with stack := v :: stack }, callers⟩)
    | _               => .error .invalid
  | .loop         =>
    .ok (.inl ⟨{ fr with labels := ⟨.loop :: fr.code, fr.stack.length⟩ :: fr.labels }, callers⟩)
  | .ifEmpty      => match fr.stack with
    | v :: stack =>
      if v = 0 then .ok (.inl ⟨{ fr with code := skipToEnd 0 fr.code, stack := stack }, callers⟩)
      else .ok (.inl ⟨{ fr with labels := ⟨skipToEnd 0 fr.code, stack.length⟩ :: fr.labels, stack := stack }, callers⟩)
    | []         => .error .invalid
  | .br depth     => match fr.labels.drop depth with
    | l :: labels =>
      .ok (.inl ⟨{ fr with code := l.continuation, labels := labels,
                            stack := fr.stack.drop (fr.stack.length - l.height) }, callers⟩)
    | []          => if depth = fr.labels.length then giveBack fr.stack callers else .error .invalid
  | .ret          => giveBack fr.stack callers
  | .unreachable  => .error .unreachable
  | .call i       => match m.functions[i]? with
    | some f =>
      if fr.stack.length < f.parameters then .error .invalid
      else .ok (.inl ⟨Frame.enter f (fr.stack.take f.parameters).reverse,
        { fr with stack := fr.stack.drop f.parameters } :: callers⟩)
    | none   => .error .invalid
  | .end_         => match fr.labels with
    | _ :: labels => .ok (.inl ⟨{ fr with labels := labels }, callers⟩)
    | []          => giveBack fr.stack callers

def step (m : Module) (c : Config) : Except Trap (Config ⊕ Word) :=
  match c.frame.code with
  | instruction :: code => stepInstruction m instruction { c.frame with code := code } c.callers
  | []                  => .error .invalid

/-- A call of the exported function under a step budget. -/
def runMain (fuel : Nat) (m : Module) : Option (Except Trap Word) :=
  match m.functions[m.main]? with
  | some f => Runs.run (step m) fuel ⟨Frame.enter f [], []⟩
  | none   => some (.error .invalid)

/-! ## Straight-line code -/

open Runs

/-- **Code that runs through**, from one stack and store to another, whatever surrounds it. -/
def Does (m : Module) (code : List Instruction) (stack : List Word) (locals : Nat → Word) (stack' : List Word)
    (locals' : Nat → Word) : Prop :=
  ∀ labels rest callers, Reaches (step m) ⟨⟨code ++ rest, labels, stack, locals⟩, callers⟩
    ⟨⟨rest, labels, stack', locals'⟩, callers⟩

/-- Code that traps, whatever surrounds it. -/
def Fails (m : Module) (code : List Instruction) (stack : List Word) (locals : Nat → Word) : Prop :=
  ∀ labels rest callers, ∃ c e, Reaches (step m) ⟨⟨code ++ rest, labels, stack, locals⟩, callers⟩ c ∧ step m c = .error e

section
variable {m : Module} {stack stack' stack'' : List Word} {locals locals' locals'' : Nat → Word}

theorem Does.nil : Does m [] stack locals stack locals := fun _ _ _ => Reaches.refl _ _

theorem Does.append {c c' : List Instruction} (h : Does m c stack locals stack' locals')
    (h' : Does m c' stack' locals' stack'' locals'') : Does m (c ++ c') stack locals stack'' locals'' := by
  intro labels rest callers
  rw [List.append_assoc]
  exact (h labels (c' ++ rest) callers).trans (h' labels rest callers)

theorem Does.const (v : Word) : Does m [.i64Const v] stack locals (v :: stack) locals :=
  fun _ _ _ => Reaches.single rfl

theorem Does.get (i : Nat) : Does m [.localGet i] stack locals (locals i :: stack) locals :=
  fun _ _ _ => Reaches.single rfl

theorem Does.set (i : Nat) (v : Word) : Does m [.localSet i] (v :: stack) locals stack (setLocal locals i v) :=
  fun _ _ _ => Reaches.single rfl

theorem Does.numeric {operator : Numeric} {a b v : Word} (h : operator.apply a b = .ok v) :
    Does m [.i64 operator] (b :: a :: stack) locals (v :: stack) locals := by
  intro labels rest callers
  refine Reaches.single ?_
  simp only [step, List.cons_append, List.nil_append, stepInstruction, h]
  rfl

theorem Fails.numeric {operator : Numeric} {a b : Word} {e : Trap} (h : operator.apply a b = .error e) :
    Fails m [.i64 operator] (b :: a :: stack) locals := by
  intro labels rest callers
  refine ⟨_, e, Reaches.refl _ _, ?_⟩
  simp only [step, List.cons_append, List.nil_append, stepInstruction, h]
  rfl

theorem Does.fails {c c' : List Instruction} (h : Does m c stack locals stack' locals')
    (h' : Fails m c' stack' locals') : Fails m (c ++ c') stack locals := by
  intro labels rest callers
  obtain ⟨d, e, hr, he⟩ := h' labels rest callers
  refine ⟨d, e, ?_, he⟩
  rw [List.append_assoc]
  exact (h labels (c' ++ rest) callers).trans hr

theorem Fails.append {c : List Instruction} (h : Fails m c stack locals) (c' : List Instruction) :
    Fails m (c ++ c') stack locals := by
  intro labels rest callers
  rw [List.append_assoc]
  exact h labels (c' ++ rest) callers

theorem setLocal_self (locals : Nat → Word) (i : Nat) (v : Word) : setLocal locals i v i = v := if_pos rfl

theorem setLocal_ne (locals : Nat → Word) {i j : Nat} (v : Word) (h : j ≠ i) : setLocal locals i v j = locals j :=
  if_neg h

end

/-! ## Labels -/

/-- Code whose labels are all closed in it: looking for an `end` passes over it. -/
def Balanced (code : List Instruction) : Prop := ∀ d rest, skipToEnd d (code ++ rest) = skipToEnd d rest

theorem Balanced.nil : Balanced [] := fun _ _ => rfl

theorem Balanced.append {c c' : List Instruction} (h : Balanced c) (h' : Balanced c') : Balanced (c ++ c') := by
  intro d rest
  rw [List.append_assoc, h, h']

/-- An instruction that opens and closes no label. -/
def Instruction.plain : Instruction → Bool
  | .loop | .ifEmpty | .end_ => false
  | _                        => true

theorem Balanced.plain {i : Instruction} (h : i.plain = true) : Balanced [i] := by
  intro d rest
  cases i with
  | loop => cases h
  | ifEmpty => cases h
  | end_ => cases h
  | _ => cases d <;> rfl

theorem Balanced.ofPlain : ∀ {code : List Instruction}, (∀ i ∈ code, i.plain = true) → Balanced code
  | [], _ => Balanced.nil
  | i :: code, h => by
    have hi : Balanced [i] := Balanced.plain (h i List.mem_cons_self)
    exact hi.append (Balanced.ofPlain (fun j hj => h j (List.mem_cons_of_mem _ hj)))

theorem Balanced.ifEmpty {code : List Instruction} (h : Balanced code) : Balanced ([.ifEmpty] ++ code ++ [.end_]) := by
  intro d rest
  show skipToEnd (d + 1) ((code ++ [.end_]) ++ rest) = skipToEnd d rest
  rw [List.append_assoc, h]
  rfl

theorem Balanced.skip {code : List Instruction} (h : Balanced code) (rest : List Instruction) :
    skipToEnd 0 (code ++ .end_ :: rest) = rest := by
  rw [h]
  rfl

theorem step_if_taken (m : Module) (code : List Instruction) (labels : List Label) {v : Word} (stack : List Word)
    (locals : Nat → Word) (callers : List Frame) (h : v ≠ 0) :
    step m ⟨⟨.ifEmpty :: code, labels, v :: stack, locals⟩, callers⟩ =
      .ok (.inl ⟨⟨code, ⟨skipToEnd 0 code, stack.length⟩ :: labels, stack, locals⟩, callers⟩) := by
  simp only [step, stepInstruction, if_neg h]

theorem step_if_skipped (m : Module) {code : List Instruction} (hcode : Balanced code) (rest : List Instruction)
    (labels : List Label) (stack : List Word) (locals : Nat → Word) (callers : List Frame) :
    step m ⟨⟨.ifEmpty :: (code ++ .end_ :: rest), labels, 0 :: stack, locals⟩, callers⟩ =
      .ok (.inl ⟨⟨rest, labels, stack, locals⟩, callers⟩) := by
  simp only [step, stepInstruction, if_true, hcode.skip]

end Wasm
end Syllog
