import Syllog.AstUses
import Mathlib.Data.List.Forall2
/-!
# AstLowerIds — what lowering allocates and what it resolves names to

A body's bindings are the indices from the counter before it to the counter after it, in order.  Where nothing was reported,
every use stands for what it was looked up as: a name that nothing shadows for its global, a path for its member.
-/
namespace Syllog
namespace AstLower

open Hir Ast

/-! ## Consecutive identities -/

/-- The identities of a module from one index to another. -/
def idRange (module first last : Nat) : List DefId := (List.range' first (last - first)).map (DefId.mk module)

theorem mem_idRange {module first last : Nat} {d : DefId} :
    d ∈ idRange module first last ↔ d.module = module ∧ first ≤ d.index ∧ d.index < last := by
  unfold idRange
  rw [List.mem_map]
  constructor
  · rintro ⟨i, hi, rfl⟩
    rw [List.mem_range'_1] at hi
    refine ⟨rfl, hi.1, ?_⟩
    show i < last
    omega
  · rintro ⟨rfl, hfirst, hlast⟩
    exact ⟨d.index, List.mem_range'_1.mpr ⟨hfirst, by omega⟩, rfl⟩

theorem nodup_idRange (module first last : Nat) : (idRange module first last).Nodup :=
  List.Nodup.map (fun _ _ h => by cases h; rfl) List.nodup_range'

@[simp] theorem idRange_self (module first : Nat) : idRange module first first = [] := by simp [idRange]

theorem idRange_succ (module first : Nat) : idRange module first (first + 1) = [⟨module, first⟩] := by
  simp [idRange]

theorem idRange_append {module first mid last : Nat} (hfirst : first ≤ mid) (hlast : mid ≤ last) :
    idRange module first mid ++ idRange module mid last = idRange module first last := by
  unfold idRange
  rw [← List.map_append]
  have hmid : mid = first + 1 * (mid - first) := by omega
  have hlen : last - first = (mid - first) + (last - mid) := by omega
  rw [hlen, ← List.range'_append, ← hmid]

/-- From `s` to `s'` the counter has given out `ids`, and only errors have been added to the reports. -/
structure Took (module : Nat) (s s' : LowerState) (ids : List DefId) : Prop where
  le : s.next ≤ s'.next
  ids_eq : ids = idRange module s.next s'.next
  grows : s.diagnostics <+: s'.diagnostics
  errors : ∀ d ∈ s'.diagnostics, d ∈ s.diagnostics ∨ d.severity = .error

namespace Took

variable {module : Nat} {s s' s'' : LowerState} {ids ids' : List DefId}

theorem refl (module : Nat) (s : LowerState) : Took module s s [] :=
  ⟨le_rfl, by simp, List.prefix_rfl, fun _ hd => .inl hd⟩

theorem trans (h : Took module s s' ids) (h' : Took module s' s'' ids') : Took module s s'' (ids ++ ids') :=
  ⟨h.le.trans h'.le, by rw [h.ids_eq, h'.ids_eq, idRange_append h.le h'.le], h.grows.trans h'.grows,
    fun d hd => (h'.errors d hd).elim (h.errors d) .inr⟩

theorem advance (module : Nat) (s : LowerState) : Took module s s.advance [⟨module, s.next⟩] :=
  ⟨Nat.le_succ _, (idRange_succ module s.next).symm, List.prefix_rfl, fun _ hd => .inl hd⟩

theorem report (module : Nat) (s : LowerState) (span : Span) (message : String) :
    Took module s (s.report span message) [] := by
  refine ⟨le_rfl, by simp [LowerState.report], List.prefix_append _ _, fun d hd => ?_⟩
  rcases List.mem_append.mp hd with hd | hd
  · exact .inl hd
  · rw [List.mem_singleton.mp hd]
    exact .inr rfl

/-- One index, then others. -/
theorem cons (h : Took module s.advance s' ids) : Took module s s' (⟨module, s.next⟩ :: ids) := (advance module s).trans h

/-- Then nothing. -/
theorem pause (h : Took module s s' ids) (h' : Took module s' s'' []) : Took module s s'' ids := by
  rw [← List.append_nil ids]
  exact h.trans h'

/-- Nothing was reported before a point at which nothing had been. -/
theorem silent (h : Took module s s' ids) (hs : s'.diagnostics = []) : s.diagnostics = [] :=
  List.prefix_nil.mp (hs ▸ h.grows)

end Took

theorem resolveMember_took (l : Lowerer) (name : String) (span : Span) (s : LowerState) :
    Took l.module s (l.resolveMember name span s).2 [] := by
  unfold Lowerer.resolveMember
  split
  · exact .refl _ _
  · exact .report _ _ _ _

theorem resolveValue_took (l : Lowerer) (name : String) (scope : LocalScope) (span : Span) (s : LowerState) :
    Took l.module s (l.resolveValue name scope span s).2 [] := by
  unfold Lowerer.resolveValue
  split
  · exact .refl _ _
  · exact .report _ _ _ _

mutual
theorem lowerPattern_took (l : Lowerer) : ∀ (p : Pattern) (scope : LocalScope) (s : LowerState),
    Took l.module s (lowerPattern l p scope s).2.2 (lowerPattern l p scope s).1.bindings
  | .wildcard _, _, s => .refl _ s
  | .literal _ _, _, s => .refl _ s
  | .path [_] _, _, s => .advance _ s
  | .path [] _, _, s => resolveMember_took l _ _ s
  | .path (_ :: _ :: _) _, _, s => resolveMember_took l _ _ s
  | .constructor segments fields span, scope, s =>
    (resolveMember_took l (joinPath segments) span s).trans (lowerPatterns_took l fields scope _)
theorem lowerPatterns_took (l : Lowerer) : ∀ (ps : List Pattern) (scope : LocalScope) (s : LowerState),
    Took l.module s (lowerPatterns l ps scope s).2.2 (patternBindings (lowerPatterns l ps scope s).1)
  | [], _, s => .refl _ s
  | p :: ps, scope, s => (lowerPattern_took l p scope s).trans (lowerPatterns_took l ps _ _)
end

mutual
theorem lowerExpression_took (l : Lowerer) : ∀ (e : Expr) (scope : LocalScope) (s : LowerState),
    Took l.module s (lowerExpression l e scope s).2 (lowerExpression l e scope s).1.bindings
  | .mk kind span, scope, s => lowerKind_took l kind span scope s
theorem lowerKind_took (l : Lowerer) : ∀ (kind : ExprKind) (span : Span) (scope : LocalScope) (s : LowerState),
    Took l.module s (lowerKind l kind span scope s).2 (lowerKind l kind span scope s).1.bindings
  | .borrow _ operand, _, scope, s => lowerExpression_took l operand scope s
  | .await operand, _, scope, s => lowerExpression_took l operand scope s
  | .literal (.identifier name), span, scope, s => by
    rw [lowerKind]
    split_ifs with hnone
    · exact .refl _ s
    · have h := resolveValue_took l name scope span s
      split <;> rename_i heq <;> rw [heq] at h <;> exact h
  | .literal (.string _), _, _, s => .refl _ s
  | .literal (.integer _), _, _, s => .refl _ s
  | .literal (.float _), _, _, s => .refl _ s
  | .literal (.boolean _), _, _, s => .refl _ s
  | .path segments, span, _, s => resolveMember_took l (joinPath segments) span s
  | .array items, _, scope, s => lowerItems_took l items scope s
  | .call callee arguments, _, scope, s =>
    (lowerExpression_took l callee scope s).trans (lowerArguments_took l arguments scope _)
  | .field base _, _, scope, s => (lowerExpression_took l base scope s).pause (resolveMember_took l _ _ _)
  | .unary _ operand, _, scope, s => lowerExpression_took l operand scope s
  | .binary _ left right, _, scope, s =>
    (lowerExpression_took l left scope s).trans (lowerExpression_took l right scope _)
  | .match_ value arms, _, scope, s => (lowerExpression_took l value scope s).trans (lowerArms_took l arms scope _)
  | .block (.mk statements _), _, scope, s => lowerStatements_took l statements scope s
theorem lowerItems_took (l : Lowerer) : ∀ (es : List Expr) (scope : LocalScope) (s : LowerState),
    Took l.module s (lowerItems l es scope s).2 (itemBindings (lowerItems l es scope s).1)
  | [], _, s => .refl _ s
  | e :: es, scope, s => (lowerExpression_took l e scope s).trans (lowerItems_took l es scope _)
theorem lowerArguments_took (l : Lowerer) : ∀ (as : List CallArgument) (scope : LocalScope) (s : LowerState),
    Took l.module s (lowerArguments l as scope s).2 (itemBindings (lowerArguments l as scope s).1)
  | [], _, s => .refl _ s
  | .mk _ value _ :: as, scope, s => (lowerExpression_took l value scope s).trans (lowerArguments_took l as scope _)
theorem lowerArms_took (l : Lowerer) : ∀ (arms : List MatchArm) (scope : LocalScope) (s : LowerState),
    Took l.module s (lowerArms l arms scope s).2 (armBindings (lowerArms l arms scope s).1)
  | [], _, s => .refl _ s
  | .mk pattern guard body _ :: arms, scope, s =>
    (lowerPattern_took l pattern scope s).trans ((lowerOptional_took l guard _ _).trans
      ((lowerExpression_took l body _ _).trans (lowerArms_took l arms scope _)))
theorem lowerOptional_took (l : Lowerer) : ∀ (e : Option Expr) (scope : LocalScope) (s : LowerState),
    Took l.module s (lowerOptional l e scope s).2 (optionBindings (lowerOptional l e scope s).1)
  | none, _, s => .refl _ s
  | some value, scope, s => lowerExpression_took l value scope s
theorem lowerStatements_took (l : Lowerer) : ∀ (ss : List Statement) (scope : LocalScope) (s : LowerState),
    Took l.module s (lowerStatements l ss scope s).2 (statementBindings (lowerStatements l ss scope s).1)
  | [], _, s => .refl _ s
  | .let_ _ _ value _ :: rest, scope, s => (lowerExpression_took l value scope s).trans (lowerStatements_took l rest _ _).cons
  | .return_ value _ :: rest, scope, s => (lowerOptional_took l value scope s).trans (lowerStatements_took l rest scope _)
  | .expression e _ :: rest, scope, s => (lowerExpression_took l e scope s).trans (lowerStatements_took l rest scope _)
end

theorem lowerParameters_took (l : Lowerer) : ∀ (ps : List Parameter) (scope : LocalScope) (s : LowerState),
    Took l.module s (lowerParameters l ps scope s).2.2 ((lowerParameters l ps scope s).1.map (·.id))
  | [], _, s => .refl _ s
  | _ :: ps, _, _ => (lowerParameters_took l ps _ _).cons

/-- A definition's parameters, `let`s and pattern bindings take the next indices. -/
theorem lowerDefinition_took (l : Lowerer) (item : Item) (s : LowerState) :
    Took l.module s (lowerDefinition l item s).2 (lowerDefinition l item s).1.bindings := by
  cases item with
  | struct node => exact .refl _ s
  | enum node => exact .refl _ s
  | function node =>
    obtain ⟨_, _, _, parameters, _, _, ⟨statements, _⟩, _⟩ := node
    exact (lowerParameters_took l parameters _ s).trans (lowerStatements_took l statements _ _)
  | state node => exact .refl _ s
  | agent node => exact .refl _ s
  | pipeline node => exact (lowerParameters_took l node.parameters _ s).trans (lowerOptional_took l _ _ _)
  | safetyBound node => exact .refl _ s

theorem lowerDefinitions_took (l : Lowerer) : ∀ (items : List Item) (s : LowerState),
    Took l.module s (lowerDefinitions l items s).2 ((lowerDefinitions l items s).1.flatMap HirDefinition.bindings)
  | [], s => .refl _ s
  | item :: items, s => (lowerDefinition_took l item s).trans (lowerDefinitions_took l items _)

/-! ## One identity for each binder -/

mutual
theorem lowerPattern_binders (l : Lowerer) : ∀ (p : Pattern) (scope : LocalScope) (s : LowerState),
    (lowerPattern l p scope s).1.bindings.length = p.names.length
  | .wildcard _, _, _ => rfl
  | .literal _ _, _, _ => rfl
  | .path [_] _, _, _ => rfl
  | .path [] _, _, _ => rfl
  | .path (_ :: _ :: _) _, _, _ => rfl
  | .constructor _ fields _, scope, _ => lowerPatterns_binders l fields scope _
theorem lowerPatterns_binders (l : Lowerer) : ∀ (ps : List Pattern) (scope : LocalScope) (s : LowerState),
    (patternBindings (lowerPatterns l ps scope s).1).length = (patternNames ps).length
  | [], _, _ => rfl
  | p :: ps, scope, s => by
    simp only [lowerPatterns, patternBindings, patternNames, List.length_append]
    rw [lowerPattern_binders l p, lowerPatterns_binders l ps]
end

mutual
theorem lowerExpression_binders (l : Lowerer) : ∀ (e : Expr) (scope : LocalScope) (s : LowerState),
    (lowerExpression l e scope s).1.bindings.length = e.binders.length
  | .mk kind span, scope, s => lowerKind_binders l kind span scope s
theorem lowerKind_binders (l : Lowerer) : ∀ (kind : ExprKind) (span : Span) (scope : LocalScope) (s : LowerState),
    (lowerKind l kind span scope s).1.bindings.length = kind.binders.length
  | .borrow _ operand, _, scope, s => lowerExpression_binders l operand scope s
  | .await operand, _, scope, s => lowerExpression_binders l operand scope s
  | .literal (.identifier name), span, scope, s => by
    rw [lowerKind]
    split_ifs with hnone
    · rfl
    · split <;> rfl
  | .literal (.string _), _, _, _ => rfl
  | .literal (.integer _), _, _, _ => rfl
  | .literal (.float _), _, _, _ => rfl
  | .literal (.boolean _), _, _, _ => rfl
  | .path _, _, _, _ => rfl
  | .array items, _, scope, s => lowerItems_binders l items scope s
  | .call callee arguments, _, scope, s => by
    simp only [lowerKind, HirExprKind.bindings, ExprKind.binders, List.length_append]
    rw [lowerExpression_binders l callee, lowerArguments_binders l arguments]
  | .field base _, _, scope, s => lowerExpression_binders l base scope s
  | .unary _ operand, _, scope, s => lowerExpression_binders l operand scope s
  | .binary _ left right, _, scope, s => by
    simp only [lowerKind, HirExprKind.bindings, ExprKind.binders, List.length_append]
    rw [lowerExpression_binders l left, lowerExpression_binders l right]
  | .match_ value arms, _, scope, s => by
    simp only [lowerKind, HirExprKind.bindings, ExprKind.binders, List.length_append]
    rw [lowerExpression_binders l value, lowerArms_binders l arms]
  | .block (.mk statements _), _, scope, s => lowerStatements_binders l statements scope s
theorem lowerItems_binders (l : Lowerer) : ∀ (es : List Expr) (scope : LocalScope) (s : LowerState),
    (itemBindings (lowerItems l es scope s).1).length = (itemBinders es).length
  | [], _, _ => rfl
  | e :: es, scope, s => by
    simp only [lowerItems, itemBindings, itemBinders, List.length_append]
    rw [lowerExpression_binders l e, lowerItems_binders l es]
theorem lowerArguments_binders (l : Lowerer) : ∀ (as : List CallArgument) (scope : LocalScope) (s : LowerState),
    (itemBindings (lowerArguments l as scope s).1).length = (argumentBinders as).length
  | [], _, _ => rfl
  | .mk _ value _ :: as, scope, s => by
    simp only [lowerArguments, itemBindings, argumentBinders, List.length_append]
    rw [lowerExpression_binders l value, lowerArguments_binders l as]
theorem lowerArms_binders (l : Lowerer) : ∀ (arms : List MatchArm) (scope : LocalScope) (s : LowerState),
    (armBindings (lowerArms l arms scope s).1).length = (armBinders arms).length
  | [], _, _ => rfl
  | .mk pattern guard body _ :: arms, scope, s => by
    simp only [lowerArms, armBindings, armBinders, List.length_append]
    rw [lowerPattern_binders l pattern, lowerOptional_binders l guard, lowerExpression_binders l body,
      lowerArms_binders l arms]
theorem lowerOptional_binders (l : Lowerer) : ∀ (e : Option Expr) (scope : LocalScope) (s : LowerState),
    (optionBindings (lowerOptional l e scope s).1).length = (optionBinders e).length
  | none, _, _ => rfl
  | some value, scope, s => lowerExpression_binders l value scope s
theorem lowerStatements_binders (l : Lowerer) : ∀ (ss : List Statement) (scope : LocalScope) (s : LowerState),
    (statementBindings (lowerStatements l ss scope s).1).length = (statementBinders ss).length
  | [], _, _ => rfl
  | .let_ _ _ value _ :: rest, scope, s => by
    simp only [lowerStatements, statementBindings, statementBinders, List.length_append, List.length_cons]
    rw [lowerExpression_binders l value, lowerStatements_binders l rest]
  | .return_ value _ :: rest, scope, s => by
    simp only [lowerStatements, statementBindings, statementBinders, List.length_append]
    rw [lowerOptional_binders l value, lowerStatements_binders l rest]
  | .expression e _ :: rest, scope, s => by
    simp only [lowerStatements, statementBindings, statementBinders, List.length_append]
    rw [lowerExpression_binders l e, lowerStatements_binders l rest]
end

theorem lowerParameters_binders (l : Lowerer) : ∀ (ps : List Parameter) (scope : LocalScope) (s : LowerState),
    (lowerParameters l ps scope s).1.length = ps.length
  | [], _, _ => rfl
  | _ :: ps, _, _ => congrArg (· + 1) (lowerParameters_binders l ps _ _)

theorem lowerDefinition_binders (l : Lowerer) (item : Item) (s : LowerState) :
    (lowerDefinition l item s).1.bindings.length = item.binders.length := by
  cases item with
  | struct node => rfl
  | enum node => rfl
  | function node =>
    obtain ⟨_, _, _, parameters, _, _, ⟨statements, _⟩, _⟩ := node
    simp only [lowerDefinition, lowerDefinitionKind, lowerFunction, HirDefinition.bindings, Item.binders, List.length_append,
      List.length_map]
    rw [lowerParameters_binders, lowerStatements_binders]
  | state node => rfl
  | agent node => rfl
  | pipeline node =>
    simp only [lowerDefinition, lowerDefinitionKind, lowerPipeline, HirDefinition.bindings, Item.binders, List.length_append,
      List.length_map]
    rw [lowerParameters_binders, lowerOptional_binders]
  | safetyBound node => rfl

/-! ## What names resolve to -/

/-- The member a path is looked up as. -/
def Lowerer.memberOf (l : Lowerer) (segments : List String) : Option DefId :=
  (l.members.get? (joinPath segments)).or (builtinDefinition (joinPath segments))

/-- What a use may be lowered to: local identities of a file start at `base`. -/
inductive Resolved (l : Lowerer) (base : Nat) : Use → Referent → Prop
  | free {name : String} {d : DefId} (global : l.globals.get? name = some d) : Resolved l base (.value name false) (.reference d)
  | bound {name : String} {d : DefId} (module : d.module = l.module) (index : base ≤ d.index) :
      Resolved l base (.value name true) (.reference d)
  | path {segments : List String} {d : DefId} (member : l.memberOf segments = some d) :
      Resolved l base (.path segments) (.reference d)
  | pattern {segments : List String} {d : DefId} (member : l.memberOf segments = some d) :
      Resolved l base (.pattern segments) (.variant d)

/-- A scope holds the bound names, all as identities of the file. -/
structure Names (l : Lowerer) (base : Nat) (bound : List String) (scope : LocalScope) : Prop where
  bound_iff : ∀ name, name ∈ bound ↔ scope.contains name = true
  placed : ∀ name d, scope.get? name = some d → d.module = l.module ∧ base ≤ d.index

section
variable {l : Lowerer} {base : Nat} {bound bound' : List String} {scope : LocalScope}

theorem Names.congr (h : Names l base bound scope) (hbound : ∀ name, name ∈ bound' ↔ name ∈ bound) :
    Names l base bound' scope := ⟨fun name => (hbound name).trans (h.bound_iff name), h.placed⟩

theorem Names.empty (l : Lowerer) (base : Nat) : Names l base [] OrdMap.empty :=
  ⟨fun name => by simp [OrdMap.contains], fun name d h => by simp at h⟩

theorem Names.insert (h : Names l base bound scope) {i : Nat} (hi : base ≤ i) (name : String) :
    Names l base (name :: bound) (scope.insert name ⟨l.module, i⟩) := by
  refine ⟨fun n => ?_, fun n d hd => ?_⟩
  · have hn := h.bound_iff n
    rw [OrdMap.contains] at hn ⊢
    rw [List.mem_cons, OrdMap.get?_insert, hn]
    by_cases heq : name = n
    · simp [heq]
    · rw [if_neg heq, or_iff_right (fun he => heq he.symm)]
  · rw [OrdMap.get?_insert] at hd
    split_ifs at hd with heq
    · cases hd
      exact ⟨rfl, hi⟩
    · exact h.placed n d hd

theorem resolveValue_resolved {name : String} {span : Span} {s : LowerState} (hnames : Names l base bound scope)
    (hs : (l.resolveValue name scope span s).2.diagnostics = []) :
    ∃ d, l.resolveValue name scope span s = (some d, s) ∧ Resolved l base (.value name (name ∈ bound)) (.reference d) := by
  unfold Lowerer.resolveValue at hs ⊢
  have hbound := hnames.bound_iff name
  rw [OrdMap.contains] at hbound
  cases hget : scope.get? name with
  | some d =>
    rw [hget] at hbound
    have hmem : name ∈ bound := hbound.mpr rfl
    refine ⟨d, rfl, ?_⟩
    rw [decide_eq_true hmem]
    exact .bound (hnames.placed name d hget).1 (hnames.placed name d hget).2
  | none =>
    rw [hget] at hbound hs
    have hmem : name ∉ bound := fun hm => by cases hbound.mp hm
    rw [decide_eq_false hmem]
    cases hglobal : l.globals.get? name with
    | some d => exact ⟨d, rfl, .free hglobal⟩
    | none =>
      rw [hglobal] at hs
      simp [LowerState.report] at hs

theorem resolveMember_resolved {segments : List String} {span : Span} {s : LowerState}
    (hs : (l.resolveMember (joinPath segments) span s).2.diagnostics = []) :
    l.memberOf segments = some (l.resolveMember (joinPath segments) span s).1 := by
  unfold Lowerer.resolveMember at hs ⊢
  unfold Lowerer.memberOf
  split
  · rename_i d hd
    exact hd
  · rename_i hnone
    rw [hnone] at hs
    simp [LowerState.report] at hs

mutual
theorem lowerPattern_names : ∀ (p : Pattern) {bound : List String} {scope : LocalScope} (s : LowerState),
    Names l base bound scope → base ≤ s.next → Names l base (p.names ++ bound) (lowerPattern l p scope s).2.1
  | .wildcard _, _, _, _, h, _ => h
  | .literal _ _, _, _, _, h, _ => h
  | .path [name] _, _, _, _, h, hbase => h.insert hbase name
  | .path [] _, _, _, _, h, _ => h
  | .path (_ :: _ :: _) _, _, _, _, h, _ => h
  | .constructor segments fields span, _, _, s, h, hbase =>
    lowerPatterns_names fields _ h (hbase.trans (resolveMember_took l (joinPath segments) span s).le)
theorem lowerPatterns_names : ∀ (ps : List Pattern) {bound : List String} {scope : LocalScope} (s : LowerState),
    Names l base bound scope → base ≤ s.next → Names l base (patternNames ps ++ bound) (lowerPatterns l ps scope s).2.1
  | [], _, _, _, h, _ => h
  | p :: ps, _, scope, s, h, hbase => by
    have hp := lowerPattern_names p s h hbase
    have hps := lowerPatterns_names ps (lowerPattern l p scope s).2.2 hp (hbase.trans (lowerPattern_took l p scope s).le)
    refine hps.congr fun name => ?_
    simp only [patternNames, List.mem_append]
    tauto
end

mutual
theorem lowerPattern_resolved : ∀ (p : Pattern) (scope : LocalScope) (s : LowerState),
    (lowerPattern l p scope s).2.2.diagnostics = [] →
      List.Forall₂ (Resolved l base) p.uses (lowerPattern l p scope s).1.referents
  | .wildcard _, _, _, _ => .nil
  | .literal _ _, _, _, _ => .nil
  | .path [_] _, _, _, _ => .nil
  | .path [] _, _, _, hs => .cons (.pattern (resolveMember_resolved hs)) .nil
  | .path (_ :: _ :: _) _, _, _, hs => .cons (.pattern (resolveMember_resolved hs)) .nil
  | .constructor _ fields _, scope, _, hs =>
    .cons (.pattern (resolveMember_resolved ((lowerPatterns_took l fields scope _).silent hs)))
      (lowerPatterns_resolved fields scope _ hs)
theorem lowerPatterns_resolved : ∀ (ps : List Pattern) (scope : LocalScope) (s : LowerState),
    (lowerPatterns l ps scope s).2.2.diagnostics = [] →
      List.Forall₂ (Resolved l base) (patternUses ps) (patternReferents (lowerPatterns l ps scope s).1)
  | [], _, _, _ => .nil
  | p :: ps, scope, s, hs =>
    List.rel_append (lowerPattern_resolved p scope s ((lowerPatterns_took l ps _ _).silent hs))
      (lowerPatterns_resolved ps _ _ hs)
end

mutual
theorem lowerExpression_resolved : ∀ (e : Expr) {bound : List String} {scope : LocalScope} (s : LowerState),
    Names l base bound scope → base ≤ s.next → (lowerExpression l e scope s).2.diagnostics = [] →
      List.Forall₂ (Resolved l base) (e.uses bound) (lowerExpression l e scope s).1.referents
  | .mk kind span, _, _, s, h, hbase, hs => lowerKind_resolved kind span s h hbase hs
theorem lowerKind_resolved : ∀ (kind : ExprKind) (span : Span) {bound : List String} {scope : LocalScope} (s : LowerState),
    Names l base bound scope → base ≤ s.next → (lowerKind l kind span scope s).2.diagnostics = [] →
      List.Forall₂ (Resolved l base) (kind.uses bound) (lowerKind l kind span scope s).1.referents
  | .borrow _ operand, _, _, _, s, h, hbase, hs => lowerExpression_resolved operand s h hbase hs
  | .await operand, _, _, _, s, h, hbase, hs => lowerExpression_resolved operand s h hbase hs
  | .literal (.identifier name), span, _, scope, s, h, _, hs => by
    rw [lowerKind] at hs ⊢
    rw [ExprKind.uses]
    split_ifs at hs ⊢ with hnone
    · exact .nil
    · have hdiag : (l.resolveValue name scope span s).2.diagnostics = [] := by
        split at hs <;> rename_i heq <;> rw [heq] <;> exact hs
      obtain ⟨d, hd, hres⟩ := resolveValue_resolved h hdiag
      rw [hd]
      exact .cons hres .nil
  | .literal (.string _), _, _, _, _, _, _, _ => .nil
  | .literal (.integer _), _, _, _, _, _, _, _ => .nil
  | .literal (.float _), _, _, _, _, _, _, _ => .nil
  | .literal (.boolean _), _, _, _, _, _, _, _ => .nil
  | .path _, _, _, _, _, _, _, hs => .cons (.path (resolveMember_resolved hs)) .nil
  | .array items, _, _, _, s, h, hbase, hs => lowerItems_resolved items s h hbase hs
  | .call callee arguments, _, _, scope, s, h, hbase, hs =>
    List.rel_append (lowerExpression_resolved callee s h hbase ((lowerArguments_took l arguments scope _).silent hs))
      (lowerArguments_resolved arguments _ h (hbase.trans (lowerExpression_took l callee scope s).le) hs)
  | .field base _, _, _, scope, s, h, hbase, hs =>
    lowerExpression_resolved base s h hbase ((resolveMember_took l _ _ _).silent hs)
  | .unary _ operand, _, _, _, s, h, hbase, hs => lowerExpression_resolved operand s h hbase hs
  | .binary _ left right, _, _, scope, s, h, hbase, hs =>
    List.rel_append (lowerExpression_resolved left s h hbase ((lowerExpression_took l right scope _).silent hs))
      (lowerExpression_resolved right _ h (hbase.trans (lowerExpression_took l left scope s).le) hs)
  | .match_ value arms, _, _, scope, s, h, hbase, hs =>
    List.rel_append (lowerExpression_resolved value s h hbase ((lowerArms_took l arms scope _).silent hs))
      (lowerArms_resolved arms _ h (hbase.trans (lowerExpression_took l value scope s).le) hs)
  | .block (.mk statements _), _, _, _, s, h, hbase, hs => lowerStatements_resolved statements s h hbase hs
theorem lowerItems_resolved : ∀ (es : List Expr) {bound : List String} {scope : LocalScope} (s : LowerState),
    Names l base bound scope → base ≤ s.next → (lowerItems l es scope s).2.diagnostics = [] →
      List.Forall₂ (Resolved l base) (itemUses es bound) (itemReferents (lowerItems l es scope s).1)
  | [], _, _, _, _, _, _ => .nil
  | e :: es, _, scope, s, h, hbase, hs =>
    List.rel_append (lowerExpression_resolved e s h hbase ((lowerItems_took l es scope _).silent hs))
      (lowerItems_resolved es _ h (hbase.trans (lowerExpression_took l e scope s).le) hs)
theorem lowerArguments_resolved : ∀ (as : List CallArgument) {bound : List String} {scope : LocalScope} (s : LowerState),
    Names l base bound scope → base ≤ s.next → (lowerArguments l as scope s).2.diagnostics = [] →
      List.Forall₂ (Resolved l base) (argumentUses as bound) (itemReferents (lowerArguments l as scope s).1)
  | [], _, _, _, _, _, _ => .nil
  | .mk _ value _ :: as, _, scope, s, h, hbase, hs =>
    List.rel_append (lowerExpression_resolved value s h hbase ((lowerArguments_took l as scope _).silent hs))
      (lowerArguments_resolved as _ h (hbase.trans (lowerExpression_took l value scope s).le) hs)
theorem lowerArms_resolved : ∀ (arms : List MatchArm) {bound : List String} {scope : LocalScope} (s : LowerState),
    Names l base bound scope → base ≤ s.next → (lowerArms l arms scope s).2.diagnostics = [] →
      List.Forall₂ (Resolved l base) (armUses arms bound) (armReferents (lowerArms l arms scope s).1)
  | [], _, _, _, _, _, _ => .nil
  | .mk pattern guard body _ :: arms, _, scope, s, h, hbase, hs => by
    -- silence runs backwards over the arm, the counter forwards
    let p := lowerPattern l pattern scope s
    let g := lowerOptional l guard p.2.1 p.2.2
    have tpattern := lowerPattern_took l pattern scope s
    have tguard := lowerOptional_took l guard p.2.1 p.2.2
    have tbody := lowerExpression_took l body p.2.1 g.2
    have hbody := (lowerArms_took l arms scope _).silent hs
    have hguard := tbody.silent hbody
    have hpattern := tguard.silent hguard
    have hp := hbase.trans tpattern.le
    have hg := hp.trans tguard.le
    have hb := hg.trans tbody.le
    have hnames := lowerPattern_names pattern s h hbase
    exact List.rel_append (List.rel_append (List.rel_append (lowerPattern_resolved pattern scope s hpattern)
      (lowerOptional_resolved guard _ hnames hp hguard)) (lowerExpression_resolved body _ hnames hg hbody))
      (lowerArms_resolved arms _ h hb hs)
theorem lowerOptional_resolved : ∀ (e : Option Expr) {bound : List String} {scope : LocalScope} (s : LowerState),
    Names l base bound scope → base ≤ s.next → (lowerOptional l e scope s).2.diagnostics = [] →
      List.Forall₂ (Resolved l base) (optionUses e bound) (optionReferents (lowerOptional l e scope s).1)
  | none, _, _, _, _, _, _ => .nil
  | some value, _, _, s, h, hbase, hs => lowerExpression_resolved value s h hbase hs
theorem lowerStatements_resolved : ∀ (ss : List Statement) {bound : List String} {scope : LocalScope} (s : LowerState),
    Names l base bound scope → base ≤ s.next → (lowerStatements l ss scope s).2.diagnostics = [] →
      List.Forall₂ (Resolved l base) (statementUses ss bound) (statementReferents (lowerStatements l ss scope s).1)
  | [], _, _, _, _, _, _ => .nil
  | .let_ name _ value _ :: rest, _, scope, s, h, hbase, hs => by
    let r := lowerExpression l value scope s
    have hrest := (lowerStatements_took l rest (scope.insert name ⟨l.module, r.2.next⟩) r.2.advance).cons
    have hle := hbase.trans (lowerExpression_took l value scope s).le
    exact List.rel_append (lowerExpression_resolved value s h hbase (hrest.silent hs))
      (lowerStatements_resolved rest _ (h.insert hle name) (hle.trans (Nat.le_succ _)) hs)
  | .return_ value _ :: rest, _, scope, s, h, hbase, hs =>
    List.rel_append (lowerOptional_resolved value s h hbase ((lowerStatements_took l rest scope _).silent hs))
      (lowerStatements_resolved rest _ h (hbase.trans (lowerOptional_took l value scope s).le) hs)
  | .expression e _ :: rest, _, scope, s, h, hbase, hs =>
    List.rel_append (lowerExpression_resolved e s h hbase ((lowerStatements_took l rest scope _).silent hs))
      (lowerStatements_resolved rest _ h (hbase.trans (lowerExpression_took l e scope s).le) hs)
end

theorem lowerParameters_names : ∀ (ps : List Parameter) {bound : List String} {scope : LocalScope} (s : LowerState),
    Names l base bound scope → base ≤ s.next →
      Names l base (ps.map (·.name) ++ bound) (lowerParameters l ps scope s).2.1
  | [], _, _, _, h, _ => h
  | p :: ps, _, _, s, h, hbase => by
    have hps := lowerParameters_names ps s.advance (h.insert hbase p.name) (hbase.trans (Nat.le_succ _))
    refine hps.congr fun name => ?_
    simp only [List.map_cons, List.cons_append, List.mem_cons, List.mem_append]
    tauto

/-- Where nothing was reported, every use in an item's body stands for what it names. -/
theorem lowerDefinition_resolved (item : Item) (s : LowerState) (hbase : base ≤ s.next)
    (hs : (lowerDefinition l item s).2.diagnostics = []) :
    List.Forall₂ (Resolved l base) item.uses (lowerDefinition l item s).1.referents := by
  cases item with
  | struct node => exact .nil
  | enum node => exact .nil
  | function node =>
    obtain ⟨_, _, _, parameters, _, _, ⟨statements, _⟩, _⟩ := node
    have hnames := lowerParameters_names parameters s (Names.empty l base) hbase
    rw [List.append_nil] at hnames
    exact lowerStatements_resolved statements _ hnames (hbase.trans (lowerParameters_took l parameters _ s).le) hs
  | state node => exact .nil
  | agent node => exact .nil
  | pipeline node =>
    have hnames := lowerParameters_names node.parameters s (Names.empty l base) hbase
    rw [List.append_nil] at hnames
    exact lowerOptional_resolved _ _ hnames (hbase.trans (lowerParameters_took l node.parameters _ s).le) hs
  | safetyBound node => exact .nil

/-- What lowering makes of one item. -/
structure Defines (l : Lowerer) (base : Nat) (item : Item) (d : HirDefinition) : Prop where
  id : d.id = l.globalId item.name
  name : d.name = item.name
  span : d.span = item.span
  members : d.memberIds = (memberKeys item).map l.memberId
  binders : d.bindings.length = item.binders.length
  isType : d.kind.isType = item.isType
  referents : List.Forall₂ (Resolved l base) item.uses d.referents

theorem lowerDefinition_defines (item : Item) (s : LowerState) (hbase : base ≤ s.next)
    (hs : (lowerDefinition l item s).2.diagnostics = []) : Defines l base item (lowerDefinition l item s).1 := by
  refine ⟨rfl, rfl, rfl, ?_, lowerDefinition_binders l item s, ?_, lowerDefinition_resolved item s hbase hs⟩
  · cases item <;> simp [lowerDefinition, lowerDefinitionKind, HirDefinition.memberIds, memberKeys]
  · cases item <;> rfl

theorem lowerDefinitions_defines : ∀ (items : List Item) (s : LowerState), base ≤ s.next →
    (lowerDefinitions l items s).2.diagnostics = [] →
      List.Forall₂ (Defines l base) items (lowerDefinitions l items s).1
  | [], _, _, _ => .nil
  | item :: items, s, hbase, hs =>
    .cons (lowerDefinition_defines item s hbase ((lowerDefinitions_took l items _).silent hs))
      (lowerDefinitions_defines items _ (hbase.trans (lowerDefinition_took l item s).le) hs)

end

/-! ## Names planned or given here -/

theorem contains_indexKeys {module : Nat} {k : String} : ∀ {keys : List String} {ids : OrdMap String DefId} {next : Nat},
    (indexKeys module keys ids next).1.contains k = true ↔ ids.contains k = true ∨ k ∈ keys
  | [], ids, next => by simp [indexKeys]
  | key :: keys, ids, next => by
    have ih := fun ids next => @contains_indexKeys module k keys ids next
    unfold indexKeys at ih ⊢
    rw [List.foldl_cons, List.mem_cons]
    by_cases hkey : ids.contains key = true
    · rw [if_pos hkey, ih]
      constructor
      · rintro (h | h)
        · exact .inl h
        · exact .inr (.inr h)
      · rintro (h | rfl | h)
        · exact .inl h
        · exact .inl hkey
        · exact .inr h
    · rw [if_neg hkey, ih, OrdMap.contains, OrdMap.get?_insert, OrdMap.contains]
      by_cases heq : key = k
      · simp [heq]
      · rw [if_neg heq, or_iff_right (fun h : k = key => heq h.symm)]

/-- Where every key has an identity already, none is given. -/
theorem indexKeys_planned {module : Nat} {next : Nat} {ids : OrdMap String DefId} : ∀ {keys : List String},
    (∀ k ∈ keys, ids.contains k = true) → indexKeys module keys ids next = (ids, next)
  | [], _ => rfl
  | key :: keys, h => by
    have ih := @indexKeys_planned module next ids keys fun k hk => h k (List.mem_cons_of_mem _ hk)
    unfold indexKeys at ih ⊢
    rw [List.foldl_cons, if_pos (h key List.mem_cons_self)]
    exact ih

/-- Identities given from `first` on, one to each key. -/
structure Given (module first : Nat) (r : OrdMap String DefId × Nat) : Prop where
  le : first ≤ r.2
  placed : ∀ k d, r.1.get? k = some d → d ∈ idRange module first r.2
  injective : ∀ k k' d, r.1.get? k = some d → r.1.get? k' = some d → k = k'

theorem Given.empty (module first : Nat) : Given module first (OrdMap.empty, first) :=
  ⟨le_rfl, fun k d h => by simp at h, fun k k' d h => by simp at h⟩

theorem Given.insert {module first next : Nat} {ids : OrdMap String DefId} (h : Given module first (ids, next)) (key : String) :
    Given module first (ids.insert key ⟨module, next⟩, next + 1) := by
  have hle : first ≤ next := h.le
  have hold : ∀ k d, ids.get? k = some d → d.module = module ∧ first ≤ d.index ∧ d.index < next :=
    fun k d hd => mem_idRange.mp (h.placed k d hd)
  refine ⟨hle.trans (Nat.le_succ _), fun k d hd => ?_, fun k k' d hd hd' => ?_⟩
  · rw [OrdMap.get?_insert] at hd
    split_ifs at hd with heq
    · cases hd
      exact mem_idRange.mpr ⟨rfl, hle, Nat.lt_succ_self _⟩
    · obtain ⟨hm, hf, hl⟩ := hold k d hd
      exact mem_idRange.mpr ⟨hm, hf, hl.trans (Nat.lt_succ_self _)⟩
  · rw [OrdMap.get?_insert] at hd hd'
    split_ifs at hd hd' with heq heq' heq'
    · exact heq.symm.trans heq'
    · cases hd
      exact absurd (hold k' _ hd').2.2 (lt_irrefl next)
    · cases hd'
      exact absurd (hold k _ hd).2.2 (lt_irrefl next)
    · exact h.injective k k' d hd hd'

theorem Given.indexKeys {module first : Nat} : ∀ {keys : List String} {ids : OrdMap String DefId} {next : Nat},
    Given module first (ids, next) → Given module first (indexKeys module keys ids next)
  | [], _, _, h => h
  | key :: keys, ids, next, h => by
    have ih := fun ids next => @Given.indexKeys module first keys ids next
    unfold AstLower.indexKeys at ih ⊢
    rw [List.foldl_cons]
    split_ifs
    · exact ih ids next h
    · exact ih _ _ (h.insert key)

/-! ## A lowered file -/

/-- What lowering a file from the names `l` makes, its local identities from `base` up to `last`. -/
structure Lowers (l : Lowerer) (base : Nat) (items : List Item) (m : HirModule) (last : Nat) : Prop where
  id : m.id = l.module
  le : base ≤ last
  defines : List.Forall₂ (Defines l base) items m.definitions
  bindings : m.definitions.flatMap HirDefinition.bindings = idRange l.module base last

theorem lowerModuleToHir_lowers {ast : SourceFile} {analysis : Semantic.Analysis} {module next next' : Nat}
    {globals members : OrdMap String DefId} {m : HirModule} {entry : Option DefId}
    (h : lowerModuleToHir ast analysis module globals members next = .ok (m, entry, next')) :
    Lowers (indexed ast analysis module globals members next).1 (indexed ast analysis module globals members next).2
      ast.items m next' := by
  unfold lowerModuleToHir at h
  simp only at h
  split at h
  · cases h
  · rename_i hdiag
    cases h
    rw [not_not] at hdiag
    have htook := lowerDefinitions_took (indexed ast analysis module globals members next).1 ast.items
      ⟨(indexed ast analysis module globals members next).2, []⟩
    exact ⟨rfl, htook.le, lowerDefinitions_defines ast.items _ le_rfl hdiag, htook.ids_eq⟩

/-- What fails does so with errors. -/
theorem lowerModuleToHir_errors {ast : SourceFile} {analysis : Semantic.Analysis} {module next : Nat}
    {globals members : OrdMap String DefId} {errors : List Diagnostic}
    (h : lowerModuleToHir ast analysis module globals members next = .error errors) :
    errors ≠ [] ∧ ∀ d ∈ errors, d.severity = .error := by
  unfold lowerModuleToHir at h
  simp only at h
  split at h
  · rename_i hdiag
    cases h
    refine ⟨hdiag, fun d hd => ?_⟩
    exact ((lowerDefinitions_took _ ast.items _).errors d hd).resolve_left List.not_mem_nil
  · cases h

end AstLower
end Syllog
