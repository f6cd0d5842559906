import Syllog.Parse
/-!
# Formed — where the tree of a text lies in it

Every node of a syntax tree has the span of a place of the text.  What is inside it lies there, in order and not overlapping, and
an expression inside an expression is less than all of it.  Names are identifiers.
-/
namespace Syllog

namespace Syl

open Hir

/-- The span is that of a part of the text, not empty and between two places. -/
def Placed (input : List Char) (span : Span) (lo a b hi : Nat) : Prop := lo ≤ a ∧ a < b ∧ b ≤ hi ∧ span = spanOf input a b

theorem Placed.widen {input : List Char} {span : Span} {lo a b hi lo' hi' : Nat} (h : Placed input span lo a b hi)
    (hlo : lo' ≤ lo) (hhi : hi ≤ hi') : Placed input span lo' a b hi' := ⟨Nat.le_trans hlo h.1, h.2.1, Nat.le_trans h.2.2.1 hhi, h.2.2.2⟩

theorem Placed.lt {input : List Char} {span : Span} {lo a b hi : Nat} (h : Placed input span lo a b hi) : lo < hi := by
  obtain ⟨hlo, hlt, hhi, -⟩ := h
  omega

/-- One segment at least, and identifiers. -/
def PathNamed (segments : List String) : Prop := segments ≠ [] ∧ ∀ segment ∈ segments, Ast.isIdentifier segment = true

end Syl

namespace Ast

open Hir Syl Peg

section
variable (input : List Char)

mutual
def TypeNode.Formed : Nat → TypeNode → Nat → Prop
  | lo, .reference lifetime _ inner span, hi =>
    (∀ name ∈ lifetime, isIdentifier name = true) ∧ ∃ a b, Placed input span lo a b hi ∧ inner.Formed (a + 1) b
  | lo, .path segments arguments span, hi =>
    PathNamed segments ∧ ∃ a b, Placed input span lo a b hi ∧ formedTypes a arguments b
  | lo, .array inner span, hi => ∃ a b, Placed input span lo a b hi ∧ inner.Formed (a + 1) b
  | lo, .tuple items span, hi => ∃ a b, Placed input span lo a b hi ∧ formedTypes (a + 1) items b
def formedTypes : Nat → List TypeNode → Nat → Prop
  | lo, [], hi      => lo ≤ hi
  | lo, t :: ts, hi => ∃ mid, t.Formed lo mid ∧ formedTypes mid ts hi
end

mutual
def Pattern.Formed : Nat → Pattern → Nat → Prop
  | lo, .wildcard span, hi => ∃ a b, Placed input span lo a b hi
  | lo, .path segments span, hi => PathNamed segments ∧ ∃ a b, Placed input span lo a b hi
  | lo, .constructor segments fields span, hi =>
    PathNamed segments ∧ ∃ a b, Placed input span lo a b hi ∧ formedPatterns a fields b
  | lo, .literal _ span, hi => ∃ a b, Placed input span lo a b hi
def formedPatterns : Nat → List Pattern → Nat → Prop
  | lo, [], hi      => lo ≤ hi
  | lo, p :: ps, hi => ∃ mid, p.Formed lo mid ∧ formedPatterns mid ps hi
end

/-- A name that stands for itself, or any other literal. -/
def literalNamed : Literal → Prop
  | .identifier name => isIdentifier name = true
  | _                => True

mutual
def Expr.Formed : Nat → Expr → Nat → Prop
  | lo, .mk kind span, hi => ∃ a b, Placed input span lo a b hi ∧ kind.Formed a b
/-- An expression of this kind may take the text between the two places. -/
def ExprKind.Formed : ExprKind → Nat → Nat → Prop
  | .borrow _ operand, a, b       => operand.Formed (a + 1) b
  | .await operand, a, b          => operand.Formed (a + 1) b
  | .literal literal, _, _        => literalNamed literal
  | .path segments, _, _          => PathNamed segments
  | .array items, a, b            => formedItems (a + 1) items b
  | .call callee arguments, a, b  => ∃ mid, callee.Formed a mid ∧ mid < b ∧ formedArguments (mid + 1) arguments b
  | .field base name, a, b        => isIdentifier name = true ∧ ∃ mid, base.Formed a mid ∧ mid < b
  | .unary _ operand, a, b        => operand.Formed (a + 1) b
  | .binary _ left right, a, b    => ∃ mid, left.Formed a mid ∧ right.Formed mid b
  | .match_ value arms, a, b      => ∃ mid, value.Formed (a + 1) mid ∧ formedArms mid arms b
  | .block block, a, b            => block.Formed a b
def formedItems : Nat → List Expr → Nat → Prop
  | lo, [], hi      => lo ≤ hi
  | lo, e :: es, hi => ∃ mid, e.Formed lo mid ∧ formedItems mid es hi
def CallArgument.Formed : Nat → CallArgument → Nat → Prop
  | lo, .mk name value span, hi =>
    (∀ n ∈ name, isIdentifier n = true) ∧ ∃ a b, Placed input span lo a b hi ∧ value.Formed a b
def formedArguments : Nat → List CallArgument → Nat → Prop
  | lo, [], hi                   => lo ≤ hi
  | lo, argument :: rest, hi     => ∃ mid, argument.Formed lo mid ∧ formedArguments mid rest hi
def MatchArm.Formed : Nat → MatchArm → Nat → Prop
  | lo, .mk pattern guard body span, hi =>
    ∃ a b, Placed input span lo a b hi ∧ ∃ c, pattern.Formed input a c ∧ ∃ d, formedOption c guard d ∧ body.Formed d b
def formedArms : Nat → List MatchArm → Nat → Prop
  | lo, [], hi          => lo ≤ hi
  | lo, arm :: rest, hi => ∃ mid, arm.Formed lo mid ∧ formedArms mid rest hi
def formedOption : Nat → Option Expr → Nat → Prop
  | lo, none, hi   => lo ≤ hi
  | lo, some e, hi => e.Formed lo hi
/-- The block takes the text between the two places. -/
def Block.Formed : Block → Nat → Nat → Prop
  | .mk statements span, a, b => span = spanOf input a b ∧ formedStatements (a + 1) statements b
def Statement.Formed : Nat → Statement → Nat → Prop
  | lo, .let_ name ty value span, hi =>
    isIdentifier name = true ∧
      ∃ a b, Placed input span lo a b hi ∧ ∃ c, a ≤ c ∧ (∀ t ∈ ty, TypeNode.Formed input a t c) ∧ value.Formed c b
  | lo, .return_ value span, hi    => ∃ a b, Placed input span lo a b hi ∧ formedOption a value b
  | lo, .expression e span, hi     => ∃ a b, Placed input span lo a b hi ∧ e.Formed a b
def formedStatements : Nat → List Statement → Nat → Prop
  | lo, [], hi                => lo ≤ hi
  | lo, statement :: rest, hi => ∃ mid, statement.Formed lo mid ∧ formedStatements mid rest hi
end

end

/-! ## Between places further apart -/

section
variable {input : List Char}

theorem TypeNode.Formed.widen {t : TypeNode} {lo hi lo' hi' : Nat} (h : TypeNode.Formed input lo t hi) (hlo : lo' ≤ lo)
    (hhi : hi ≤ hi') : TypeNode.Formed input lo' t hi' := by
  cases t with
  | reference =>
    obtain ⟨hname, a, b, hplaced, hinner⟩ := h
    exact ⟨hname, a, b, hplaced.widen hlo hhi, hinner⟩
  | path =>
    obtain ⟨hname, a, b, hplaced, hinner⟩ := h
    exact ⟨hname, a, b, hplaced.widen hlo hhi, hinner⟩
  | array =>
    obtain ⟨a, b, hplaced, hinner⟩ := h
    exact ⟨a, b, hplaced.widen hlo hhi, hinner⟩
  | tuple =>
    obtain ⟨a, b, hplaced, hinner⟩ := h
    exact ⟨a, b, hplaced.widen hlo hhi, hinner⟩

theorem Pattern.Formed.widen {p : Pattern} {lo hi lo' hi' : Nat} (h : Pattern.Formed input lo p hi) (hlo : lo' ≤ lo)
    (hhi : hi ≤ hi') : Pattern.Formed input lo' p hi' := by
  cases p with
  | wildcard =>
    obtain ⟨a, b, hplaced⟩ := h
    exact ⟨a, b, hplaced.widen hlo hhi⟩
  | path =>
    obtain ⟨hname, a, b, hplaced⟩ := h
    exact ⟨hname, a, b, hplaced.widen hlo hhi⟩
  | constructor =>
    obtain ⟨hname, a, b, hplaced, hfields⟩ := h
    exact ⟨hname, a, b, hplaced.widen hlo hhi, hfields⟩
  | literal =>
    obtain ⟨a, b, hplaced⟩ := h
    exact ⟨a, b, hplaced.widen hlo hhi⟩

theorem Expr.Formed.widen {e : Expr} {lo hi lo' hi' : Nat} (h : Expr.Formed input lo e hi) (hlo : lo' ≤ lo) (hhi : hi ≤ hi') :
    Expr.Formed input lo' e hi' := by
  cases e with
  | mk kind span =>
    obtain ⟨a, b, hplaced, hkind⟩ := h
    exact ⟨a, b, hplaced.widen hlo hhi, hkind⟩

theorem TypeNode.Formed.lt {t : TypeNode} {lo hi : Nat} (h : TypeNode.Formed input lo t hi) : lo < hi := by
  cases t with
  | reference =>
    obtain ⟨-, x, y, hplaced, -⟩ := h
    exact hplaced.lt
  | path =>
    obtain ⟨-, x, y, hplaced, -⟩ := h
    exact hplaced.lt
  | array =>
    obtain ⟨x, y, hplaced, -⟩ := h
    exact hplaced.lt
  | tuple =>
    obtain ⟨x, y, hplaced, -⟩ := h
    exact hplaced.lt

theorem Pattern.Formed.lt {p : Pattern} {lo hi : Nat} (h : Pattern.Formed input lo p hi) : lo < hi := by
  cases p with
  | wildcard =>
    obtain ⟨x, y, hplaced⟩ := h
    exact hplaced.lt
  | path =>
    obtain ⟨-, x, y, hplaced⟩ := h
    exact hplaced.lt
  | constructor =>
    obtain ⟨-, x, y, hplaced, -⟩ := h
    exact hplaced.lt
  | literal =>
    obtain ⟨x, y, hplaced⟩ := h
    exact hplaced.lt

theorem Expr.Formed.lt {e : Expr} {lo hi : Nat} (h : Expr.Formed input lo e hi) : lo < hi := by
  cases e with
  | mk kind span =>
    obtain ⟨a, b, hplaced, -⟩ := h
    exact hplaced.lt

/-! ## Options and lists -/

theorem formedOption_of {o : Option Expr} {lo hi : Nat} (hle : lo ≤ hi) (h : ∀ e, o = some e → Expr.Formed input lo e hi) :
    formedOption input lo o hi := by
  cases o with
  | none => exact hle
  | some e => exact h e rfl

theorem formedTypes_iff {ts : List TypeNode} {lo hi : Nat} :
    formedTypes input lo ts hi ↔ InOrder (TypeNode.Formed input) lo ts hi :=
  InOrder.of_steps (fun _ _ => Iff.rfl) fun _ _ _ _ => Iff.rfl

theorem formedPatterns_iff {ps : List Pattern} {lo hi : Nat} :
    formedPatterns input lo ps hi ↔ InOrder (Pattern.Formed input) lo ps hi :=
  InOrder.of_steps (fun _ _ => Iff.rfl) fun _ _ _ _ => Iff.rfl

theorem formedItems_iff {es : List Expr} {lo hi : Nat} : formedItems input lo es hi ↔ InOrder (Expr.Formed input) lo es hi :=
  InOrder.of_steps (fun _ _ => Iff.rfl) fun _ _ _ _ => Iff.rfl

theorem formedArguments_iff {as : List CallArgument} {lo hi : Nat} :
    formedArguments input lo as hi ↔ InOrder (CallArgument.Formed input) lo as hi :=
  InOrder.of_steps (fun _ _ => Iff.rfl) fun _ _ _ _ => Iff.rfl

theorem formedArms_iff {arms : List MatchArm} {lo hi : Nat} :
    formedArms input lo arms hi ↔ InOrder (MatchArm.Formed input) lo arms hi :=
  InOrder.of_steps (fun _ _ => Iff.rfl) fun _ _ _ _ => Iff.rfl

theorem formedStatements_iff {ss : List Statement} {lo hi : Nat} :
    formedStatements input lo ss hi ↔ InOrder (Statement.Formed input) lo ss hi :=
  InOrder.of_steps (fun _ _ => Iff.rfl) fun _ _ _ _ => Iff.rfl

theorem le_of_formedItems {es : List Expr} {lo hi : Nat} (h : formedItems input lo es hi) : lo ≤ hi :=
  (formedItems_iff.mp h).le fun _ _ _ he => Nat.le_of_lt he.lt

theorem le_of_formedArguments {arguments : List CallArgument} {lo hi : Nat} (h : formedArguments input lo arguments hi) :
    lo ≤ hi := by
  refine (formedArguments_iff.mp h).le fun lo argument hi hargument => ?_
  cases argument with
  | mk name value span =>
    obtain ⟨-, x, y, hplaced, -⟩ := hargument
    exact Nat.le_of_lt hplaced.lt

theorem le_of_formedArms {arms : List MatchArm} {lo hi : Nat} (h : formedArms input lo arms hi) : lo ≤ hi := by
  refine (formedArms_iff.mp h).le fun lo arm hi harm => ?_
  cases arm with
  | mk pattern guard body span =>
    obtain ⟨x, y, hplaced, -⟩ := harm
    exact Nat.le_of_lt hplaced.lt

theorem le_of_formedOption {o : Option Expr} {lo hi : Nat} (h : formedOption input lo o hi) : lo ≤ hi := by
  cases o with
  | none => exact h
  | some e => exact Nat.le_of_lt h.lt

theorem le_of_formedStatements {statements : List Statement} {lo hi : Nat} (h : formedStatements input lo statements hi) :
    lo ≤ hi := by
  refine (formedStatements_iff.mp h).le fun lo statement hi hstatement => ?_
  cases statement with
  | let_ name ty value span =>
    obtain ⟨-, x, y, hplaced, -⟩ := hstatement
    exact Nat.le_of_lt hplaced.lt
  | return_ value span =>
    obtain ⟨x, y, hplaced, -⟩ := hstatement
    exact Nat.le_of_lt hplaced.lt
  | expression e span =>
    obtain ⟨x, y, hplaced, -⟩ := hstatement
    exact Nat.le_of_lt hplaced.lt

end

section
variable (input : List Char)

def Parameter.Formed (lo : Nat) (parameter : Parameter) (hi : Nat) : Prop :=
  isIdentifier parameter.name = true ∧ ∃ a b, Placed input parameter.span lo a b hi ∧ parameter.ty.Formed input a b

theorem Parameter.Formed.earlier {input : List Char} {lo lo' hi : Nat} {parameter : Parameter}
    (h : Parameter.Formed input lo parameter hi) (hle : lo' ≤ lo) : Parameter.Formed input lo' parameter hi := by
  obtain ⟨hname, a, b, hplaced, hty⟩ := h
  exact ⟨hname, a, b, hplaced.widen hle (Nat.le_refl _), hty⟩

def StructField.Formed (lo : Nat) (field : StructField) (hi : Nat) : Prop :=
  isIdentifier field.name = true ∧ ∃ a b, Placed input field.span lo a b hi ∧ field.ty.Formed input a b

def EnumVariant.Formed (lo : Nat) (variant : EnumVariant) (hi : Nat) : Prop :=
  isIdentifier variant.name = true ∧ ∃ a b, Placed input variant.span lo a b hi ∧ formedTypes input a variant.fields b

def StateField.Formed (lo : Nat) (field : StateField) (hi : Nat) : Prop :=
  isIdentifier field.name = true ∧
    ∃ a b, Placed input field.span lo a b hi ∧ ∃ c, field.ty.Formed input a c ∧ formedOption input c field.initializer b

def Property.Formed (lo : Nat) (property : Property) (hi : Nat) : Prop :=
  isIdentifier property.name = true ∧
    ∃ a b, Placed input property.span lo a b hi ∧
      ∃ c, a ≤ c ∧ (∀ t ∈ property.ty, TypeNode.Formed input a t c) ∧ property.value.Formed input c b

/-- Parameters, the type of the result and the body. -/
def functionFormed (a : Nat) (node : FunctionNode) (b : Nat) : Prop :=
  (∀ effects ∈ node.effects, ∀ name ∈ effects, isIdentifier name = true) ∧
    ∃ c, InOrder (Parameter.Formed input) a node.parameters c ∧
      ∃ d, c ≤ d ∧ (∀ t ∈ node.returnType, TypeNode.Formed input c t d) ∧
        ∃ e f, d ≤ e ∧ e < f ∧ f ≤ b ∧ node.body.Formed input e f

/-- What the items with properties share. -/
def propertiesFormed (a : Nat) (parameters : List Parameter) (returnType : Option TypeNode) (fields : List Property) (b : Nat) :
    Prop :=
  ∃ c, InOrder (Parameter.Formed input) a parameters c ∧
    ∃ d, c ≤ d ∧ (∀ t ∈ returnType, TypeNode.Formed input c t d) ∧ InOrder (Property.Formed input) d fields b

/-- What is inside an item, between two places. -/
def Item.membersFormed (a b : Nat) : Item → Prop
  | .struct node      => InOrder (StructField.Formed input) a node.fields b
  | .enum node        => InOrder (EnumVariant.Formed input) a node.variants b
  | .function node    => functionFormed input a node b
  | .state node       => InOrder (StateField.Formed input) a node.fields b
  | .agent node       => propertiesFormed input a [] none node.fields b
  | .pipeline node    => propertiesFormed input a node.parameters node.returnType node.fields b
  | .safetyBound node => propertiesFormed input a node.parameters none node.fields b

def Item.Formed (lo : Nat) (item : Item) (hi : Nat) : Prop :=
  isIdentifier item.name = true ∧ ∃ a b, Placed input item.span lo a b hi ∧ item.membersFormed input a b

def ModuleNode.Formed (lo : Nat) (node : ModuleNode) (hi : Nat) : Prop :=
  PathNamed node.path ∧ ∃ a b, Placed input node.span lo a b hi

def UseNode.Formed (lo : Nat) (node : UseNode) (hi : Nat) : Prop :=
  PathNamed node.path ∧ (∀ name ∈ node.aliasName, isIdentifier name = true) ∧ ∃ a b, Placed input node.span lo a b hi

/-- The declaration of the module, the imports and the items follow one another. -/
structure SourceFile.Formed (file : SourceFile) : Prop where
  parts : ∃ c d, (∀ node ∈ file.module, ModuleNode.Formed input 0 node c) ∧ InOrder (UseNode.Formed input) c file.imports d ∧
    InOrder (Item.Formed input) d file.items input.length

end

section
variable {input : List Char}

theorem Parameter.Formed.le (lo : Nat) (parameter : Parameter) (hi : Nat) (h : Parameter.Formed input lo parameter hi) :
    lo ≤ hi := by
  obtain ⟨-, x, y, hplaced, -⟩ := h
  exact Nat.le_of_lt hplaced.lt

theorem StateField.Formed.le (lo : Nat) (field : StateField) (hi : Nat) (h : StateField.Formed input lo field hi) : lo ≤ hi := by
  obtain ⟨-, x, y, hplaced, -⟩ := h
  exact Nat.le_of_lt hplaced.lt

theorem Property.Formed.le (lo : Nat) (property : Property) (hi : Nat) (h : Property.Formed input lo property hi) : lo ≤ hi := by
  obtain ⟨-, x, y, hplaced, -⟩ := h
  exact Nat.le_of_lt hplaced.lt

theorem Item.Formed.le (lo : Nat) (item : Item) (hi : Nat) (h : Item.Formed input lo item hi) : lo ≤ hi := by
  obtain ⟨-, x, y, hplaced, -⟩ := h
  exact Nat.le_of_lt hplaced.lt

end

end Ast
end Syllog
