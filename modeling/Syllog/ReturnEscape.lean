import Syllog.AffineSound
/-!
# ReturnEscape — borrows that leave their function

A name holds a borrow of a `let` of the function where its value is such a borrow or has one in it.  This is read off the text,
whatever the checker does: a borrow of a place rooted in a `let`, a name that holds one, and what is built from either.  A call may
give back what it is given, unless its result has no room for a reference.

The checker looks at a `return` of a borrow that is written there.  It passes over the end of the body, a `return` of anything
else, and whatever stands under a borrow.
-/
namespace Syllog
namespace Escape

open Hir Ast
open Semantic (Analyzer)
open Ownership (Variable Variables Checker Origin Uses UseMode placeName)
open Ownership (checkExpr checkItems checkArguments checkArms checkBlock checkStatements)
open Syllog.Affine (patternNames parameterVariables)
open Syllog.Affine.CheckerLaws

/-! ## Types with room for a reference -/

mutual
/-- A value of the type can have a reference in it, where one of these named types can. -/
def bears (named : List String) : ResolvedType → Bool
  | .reference _ _ _ => true
  | .struct name     => name ∈ named
  | .enum name       => name ∈ named
  | .state name      => name ∈ named
  | .option inner    => bears named inner
  | .array inner     => bears named inner
  | .result ok err   => bears named ok || bears named err
  | .tuple items     => anyBears named items
  | _                => false
def anyBears (named : List String) : List ResolvedType → Bool
  | []      => false
  | t :: ts => bears named t || anyBears named ts
end

def nominals (a : Analyzer) : List String := a.structs.keys ++ a.enums.keys ++ a.states.keys

/-- The types of the fields of a named type. -/
def fieldTypes (a : Analyzer) (name : String) : List ResolvedType :=
  ((a.structs.get? name).map (·.values)).getD [] ++ ((a.enums.get? name).map (·.flatMap (·.2))).getD [] ++
    (a.states.get? name).getD []

/-- The named types with room for a reference; a chain of fields need not pass a type twice. -/
def bearing (a : Analyzer) : List String :=
  (fun named => (nominals a).filter fun name => anyBears named (fieldTypes a name))^[(nominals a).length] []

/-! ## What a value holds -/

/-- What is known of a name: `isLocal` if a `let` of the function binds it, `holds` if its value holds a borrow of one. -/
structure Binding where
  isLocal : Bool
  holds : Bool
deriving DecidableEq

abbrev Names := OrdMap String Binding

def isLocal (names : Names) (name : String) : Bool := (names.get? name).any (·.isLocal)

def nameHolds (names : Names) (name : String) : Bool := (names.get? name).any (·.holds)

def bindPattern (pattern : Pattern) (holds : Bool) (names : Names) : Names :=
  (patternNames pattern).foldl (fun names name => names.insert name ⟨false, holds⟩) names

/-- A call of a function by its name. -/
def calledFunction (a : Analyzer) (names : Names) : Expr → Option Semantic.FunctionSignature
  | .mk (.literal (.identifier name)) _ => if names.contains name then none else a.functions.get? name
  | .mk (.path [name]) _                => if names.contains name then none else a.functions.get? name
  | _                                   => none

/-- What is called may give back a borrow that it is given. -/
def mayReturnBorrow (a : Analyzer) (names : Names) (callee : Expr) : Bool :=
  (calledFunction a names callee).all fun signature => bears (bearing a) signature.result

mutual
/-- The value of the expression may hold a borrow of a `let` of the function. -/
def exprHolds (a : Analyzer) : Expr → Names → Bool
  | .mk (.borrow _ operand) _, names            => (placeName operand).any (isLocal names) || exprHolds a operand names
  | .mk (.await operand) _, names               => exprHolds a operand names
  | .mk (.literal (.identifier name)) _, names  => nameHolds names name
  | .mk (.literal _) _, _                       => false
  | .mk (.path [name]) _, names                 => nameHolds names name
  | .mk (.path _) _, _                          => false
  | .mk (.array items) _, names                 => itemsHold a items names
  | .mk (.call callee arguments) _, names       =>
    mayReturnBorrow a names callee && (exprHolds a callee names || argumentsHold a arguments names)
  | .mk (.field base _) _, names                => exprHolds a base names
  | .mk (.unary _ _) _, _                       => false
  | .mk (.binary _ _ _) _, _                    => false
  | .mk (.match_ value arms) _, names           => armsHold a arms (exprHolds a value names) names
  | .mk (.block (.mk statements _)) _, names    => statementsHold a statements names
def itemsHold (a : Analyzer) : List Expr → Names → Bool
  | [], _             => false
  | item :: items, names => exprHolds a item names || itemsHold a items names
def argumentsHold (a : Analyzer) : List CallArgument → Names → Bool
  | [], _                           => false
  | .mk _ value _ :: arguments, names => exprHolds a value names || argumentsHold a arguments names
/-- What a pattern binds is part of the value; `holds` is whether that holds a borrow. -/
def armsHold (a : Analyzer) : List MatchArm → Bool → Names → Bool
  | [], _, _                                    => false
  | .mk pattern _ body _ :: arms, holds, names =>
    exprHolds a body (bindPattern pattern holds names) || armsHold a arms holds names
/-- The value of a block is that of its last expression. -/
def statementsHold (a : Analyzer) : List Statement → Names → Bool
  | [], _                              => false
  | .let_ name _ value _ :: rest, names => statementsHold a rest (names.insert name ⟨true, exprHolds a value names⟩)
  | .return_ _ _ :: rest, names        => statementsHold a rest names
  | .expression e _ :: rest, names     => if rest.isEmpty then exprHolds a e names else statementsHold a rest names
end

/-! ## What a function returns -/

inductive ReturnKind where
  /-- A `return` of a borrow of a `let` that is written there. -/
  | borrowed
  /-- A `return` of anything else. -/
  | stored
  /-- A `return` that stands under a borrow. -/
  | hidden
  /-- The end of the body. -/
  | tail
deriving DecidableEq

structure Returned where
  kind : ReturnKind
  escapes : Bool
deriving DecidableEq

def Returned.hide (r : Returned) : Returned := { r with kind := .hidden }

def returnKind (names : Names) : Expr → ReturnKind
  | .mk (.borrow _ operand) _ => if (placeName operand).any (isLocal names) then .borrowed else .stored
  | _                         => .stored

mutual
/-- The values that the expression returns from the function around it. -/
def exprReturns (a : Analyzer) : Expr → Names → List Returned
  | .mk (.borrow _ operand) _, names         => (exprReturns a operand names).map Returned.hide
  | .mk (.await operand) _, names            => exprReturns a operand names
  | .mk (.literal _) _, _                    => []
  | .mk (.path _) _, _                       => []
  | .mk (.array items) _, names              => itemsReturns a items names
  | .mk (.call callee arguments) _, names    => exprReturns a callee names ++ argumentsReturns a arguments names
  | .mk (.field base _) _, names             => exprReturns a base names
  | .mk (.unary _ operand) _, names          => exprReturns a operand names
  | .mk (.binary _ left right) _, names      => exprReturns a left names ++ exprReturns a right names
  | .mk (.match_ value arms) _, names        => exprReturns a value names ++ armsReturns a arms (exprHolds a value names) names
  | .mk (.block (.mk statements _)) _, names => statementsReturns a statements names
def itemsReturns (a : Analyzer) : List Expr → Names → List Returned
  | [], _                => []
  | item :: items, names => exprReturns a item names ++ itemsReturns a items names
def argumentsReturns (a : Analyzer) : List CallArgument → Names → List Returned
  | [], _                             => []
  | .mk _ value _ :: arguments, names => exprReturns a value names ++ argumentsReturns a arguments names
def armsReturns (a : Analyzer) : List MatchArm → Bool → Names → List Returned
  | [], _, _                                             => []
  | .mk pattern none body _ :: arms, holds, names         =>
    exprReturns a body (bindPattern pattern holds names) ++ armsReturns a arms holds names
  | .mk pattern (some guard) body _ :: arms, holds, names =>
    exprReturns a guard (bindPattern pattern holds names) ++ exprReturns a body (bindPattern pattern holds names) ++
      armsReturns a arms holds names
def statementsReturns (a : Analyzer) : List Statement → Names → List Returned
  | [], _                                => []
  | .let_ name _ value _ :: rest, names  =>
    exprReturns a value names ++ statementsReturns a rest (names.insert name ⟨true, exprHolds a value names⟩)
  | .return_ (some value) _ :: rest, names =>
    ⟨returnKind names value, exprHolds a value names⟩ :: (exprReturns a value names ++ statementsReturns a rest names)
  | .return_ none _ :: rest, names       => statementsReturns a rest names
  | .expression e _ :: rest, names       => exprReturns a e names ++ statementsReturns a rest names
end

def parameterNames (node : FunctionNode) : Names :=
  OrdMap.ofList (node.parameters.map fun parameter => (parameter.name, (⟨false, false⟩ : Binding)))

/-- The values that a function returns. -/
def functionReturns (a : Analyzer) (node : FunctionNode) : List Returned :=
  match node.body with
  | .mk statements _ =>
    statementsReturns a statements (parameterNames node) ++ [⟨.tail, statementsHold a statements (parameterNames node)⟩]

/-! ## Where a variable comes from -/

def originOf (vars : Variables) (name : String) : Option Origin := (vars.get? name).map (·.origin)

theorem originOf_insert {vars : Variables} {name : String} {var : Variable} (h : originOf vars name = some var.origin) :
    originOf (vars.insert name var) = originOf vars := by
  funext other
  unfold originOf at h ⊢
  rw [OrdMap.get?_insert]
  by_cases heq : name = other
  · rw [if_pos heq, ← heq, h]
    rfl
  · rw [if_neg heq]

theorem setState_origin (c : Checker) (name : String) (state : Ownership.OwnershipState) :
    originOf (c.setState name state).vars = originOf c.vars := by
  unfold Checker.setState
  cases hget : c.vars.get? name with
  | none => rfl
  | some var => exact originOf_insert (by simp [originOf, hget])

theorem useVariable_origin (c : Checker) (name : String) (mode : UseMode) (span : Span) :
    originOf (c.useVariable name mode span).vars = originOf c.vars := by
  unfold Checker.useVariable
  split
  · rfl
  · split
    · rfl
    · split
      · split
        · rfl
        · rfl
        · exact setState_origin c name _
      · rfl

theorem borrow_origin (c : Checker) (operand : Expr) (mutable : Bool) :
    originOf (c.borrow operand mutable).vars = originOf c.vars := by
  unfold Checker.borrow
  split
  · rfl
  · split
    · rfl
    · split
      · rfl
      · exact setState_origin c _ _
      · exact setState_origin c _ _
      · exact setState_origin c _ _
      · rfl

theorem dropBorrow_origin (c : Checker) (binding : String) : originOf (match c.vars.get? binding with
    | some var => { c with vars := c.vars.insert binding { var with borrow := none } }
    | none     => c).vars = originOf c.vars := by
  split
  · rename_i var hget
    exact originOf_insert (by simp [originOf, hget])
  · rfl

theorem releaseBorrow_origin (c : Checker) (binding : String) : originOf (c.releaseBorrow binding).vars = originOf c.vars := by
  unfold Checker.releaseBorrow
  split
  · rfl
  · rename_i target mutable hborrow
    cases c.vars.get? target with
    | none => exact dropBorrow_origin c binding
    | some var =>
      exact (dropBorrow_origin (c.setState target (Checker.released mutable var.state)) binding).trans (setState_origin c target _)

theorem foldl_releaseBorrow_origin : ∀ (names : List String) (c : Checker),
    originOf (names.foldl Checker.releaseBorrow c).vars = originOf c.vars
  | [], _ => rfl
  | name :: names, c => (foldl_releaseBorrow_origin names (c.releaseBorrow name)).trans (releaseBorrow_origin c name)

theorem endBorrows_origin (c : Checker) (lastUses : Uses) (index : Nat) :
    originOf (c.endBorrows lastUses index).vars = originOf c.vars := foldl_releaseBorrow_origin _ c

theorem declare_origin (c : Checker) (name other : String) (ty : Option TypeNode) (value : Expr) :
    originOf (c.declare name ty value).vars other = if name = other then some .local_ else originOf c.vars other := by
  rw [← releaseBorrow_origin c name]
  unfold Checker.declare originOf
  rw [OrdMap.get?_insert]
  split <;> rfl

theorem mergeArms_origin (before : Variables) (branches : List Variables) :
    originOf (Checker.mergeArms before branches) = originOf before := by
  funext name
  unfold originOf
  rw [Affine.get?_mergeArms]
  cases before.get? name <;> rfl

/-- Where a name comes from at the end of the block. -/
def viewOrigin (shadowed : OrdMap String (Option Variable)) (vars : Variables) (name : String) : Option Origin :=
  match shadowed.get? name with
  | some saved => saved.map (·.origin)
  | none       => originOf vars name

theorem foldl_restore_origin : ∀ (entries : List (String × Option Variable)) (c : Checker) (name : String),
    (entries.map (·.1)).Nodup →
    originOf (entries.foldl (fun c e =>
      let c := c.releaseBorrow e.1
      match e.2 with
      | some var => { c with vars := c.vars.insert e.1 var }
      | none     => { c with vars := c.vars.erase e.1 }) c).vars name =
    match OrdMap.lookup name entries with
    | some saved => saved.map (·.origin)
    | none       => originOf c.vars name
  | [], _, _, _ => rfl
  | (key, saved) :: entries, c, name, hnodup => by
    rw [List.map_cons, List.nodup_cons] at hnodup
    rw [List.foldl_cons, foldl_restore_origin entries _ name hnodup.2]
    by_cases hkey : key = name
    · subst hkey
      have hnone : OrdMap.lookup key entries = none := OrdMap.lookup_eq_none_of_notMem hnodup.1
      simp only [OrdMap.lookup, if_true, hnone]
      cases saved with
      | none => simp [originOf]
      | some var => simp [originOf]
    · have hlookup : OrdMap.lookup name ((key, saved) :: entries) = OrdMap.lookup name entries := by
        simp [OrdMap.lookup, hkey]
      rw [hlookup, ← releaseBorrow_origin c key]
      cases OrdMap.lookup name entries with
      | some saved' => rfl
      | none => cases saved <;> simp [originOf, hkey]

theorem restore_origin (c : Checker) (shadowed : OrdMap String (Option Variable)) (name : String) :
    originOf (c.restore shadowed).vars name = viewOrigin shadowed c.vars name :=
  foldl_restore_origin shadowed.entries c name (OrdMap.nodup_keys shadowed)

/-- What a `let` saves is what the name stands for at the end of the block. -/
theorem viewOrigin_let (c c' : Checker) (shadowed : OrdMap String (Option Variable)) (name : String)
    (h : ∀ other, name ≠ other → originOf c'.vars other = originOf c.vars other) :
    viewOrigin (if shadowed.contains name then shadowed else shadowed.insert name (c.vars.get? name)) c'.vars =
      viewOrigin shadowed c.vars := by
  funext other
  unfold viewOrigin
  by_cases hshadowed : shadowed.contains name
  · rw [if_pos hshadowed]
    cases hget : shadowed.get? other with
    | some saved => rfl
    | none =>
      refine h other fun heq => ?_
      simp [OrdMap.contains, heq, hget] at hshadowed
  · have hnone : shadowed.get? name = none := by simpa [OrdMap.contains] using hshadowed
    rw [if_neg hshadowed, OrdMap.get?_insert]
    by_cases heq : name = other
    · rw [if_pos heq, ← heq, hnone]
      rfl
    · rw [if_neg heq]
      cases shadowed.get? other with
      | some saved => rfl
      | none => exact h other heq

mutual
/-- **No variable changes its origin**: the checker gives each back as it found it. -/
theorem checkExpr_origin : ∀ (e : Expr) (mode : UseMode) (c : Checker), originOf (checkExpr e mode c).vars = originOf c.vars
  | .mk (.borrow mutable operand) _, _, c => borrow_origin c operand mutable
  | .mk (.await operand) span, mode, c => by
    simp only [checkExpr, Affine.CheckerLaws.checkSuspension_vars]
    exact checkExpr_origin operand mode c
  | .mk (.literal (.identifier name)) span, mode, c => useVariable_origin c name mode span
  | .mk (.literal (.string _)) _, _, _ => rfl
  | .mk (.literal (.boolean _)) _, _, _ => rfl
  | .mk (.literal (.integer _)) _, _, _ => rfl
  | .mk (.literal (.float _)) _, _, _ => rfl
  | .mk (.path [name]) span, mode, c => useVariable_origin c name mode span
  | .mk (.path []) _, _, _ => rfl
  | .mk (.path (_ :: _ :: _)) _, _, _ => rfl
  | .mk (.array items) _, _, c => checkItems_origin items c
  | .mk (.call callee arguments) _, _, c => (checkArguments_origin arguments _).trans (checkExpr_origin callee .read c)
  | .mk (.field base _) _, mode, c => checkExpr_origin base mode c
  | .mk (.unary _ operand) _, mode, c => checkExpr_origin operand mode c
  | .mk (.binary _ left right) _, _, c => (checkExpr_origin right .read _).trans (checkExpr_origin left .read c)
  | .mk (.match_ value _) _, _, c => (mergeArms_origin _ _).trans (checkExpr_origin value .consume c)
  | .mk (.block (.mk statements _)) _, _, c => by
    funext name
    show originOf (checkBlock _ c).vars name = _
    rw [checkBlock, restore_origin, checkStatements_origin]
    rfl
theorem checkItems_origin : ∀ (items : List Expr) (c : Checker), originOf (checkItems items c).vars = originOf c.vars
  | [], _ => rfl
  | item :: items, c => (checkItems_origin items _).trans (checkExpr_origin item .consume c)
theorem checkArguments_origin : ∀ (arguments : List CallArgument) (c : Checker),
    originOf (checkArguments arguments c).vars = originOf c.vars
  | [], _ => rfl
  | .mk _ value _ :: arguments, c => (checkArguments_origin arguments _).trans (checkExpr_origin value .consume c)
theorem checkStatements_origin : ∀ (statements : List Statement) (index : Nat) (lastUses : Uses)
    (shadowed : OrdMap String (Option Variable)) (c : Checker),
    viewOrigin (checkStatements statements index lastUses shadowed c).1
      (checkStatements statements index lastUses shadowed c).2.vars = viewOrigin shadowed c.vars
  | [], _, _, _, _ => rfl
  | .let_ name ty value _ :: rest, index, lastUses, shadowed, c => by
    rw [checkStatements, checkStatements_origin rest]
    have hvalue := checkExpr_origin value .consume c
    rw [viewOrigin_let (checkExpr value .consume c)]
    · unfold viewOrigin
      rw [hvalue]
    · intro other hne
      rw [endBorrows_origin, declare_origin, if_neg hne]
  | .return_ (some value) _ :: rest, index, lastUses, shadowed, c => by
    rw [checkStatements, checkStatements_origin rest]
    unfold viewOrigin
    rw [endBorrows_origin, checkExpr_origin value, checkReturnEscape_vars]
  | .return_ none _ :: rest, index, lastUses, shadowed, c => by
    rw [checkStatements, checkStatements_origin rest]
    unfold viewOrigin
    rw [endBorrows_origin]
  | .expression e _ :: rest, index, lastUses, shadowed, c => by
    rw [checkStatements, checkStatements_origin rest]
    unfold viewOrigin
    rw [endBorrows_origin, checkExpr_origin e]
end

/-! ## A `return` of a borrow that is written there -/

/-- The checker knows the names a `let` binds for locals. -/
def Locals (names : Names) (vars : Variables) : Prop :=
  ∀ name, isLocal names name = true → originOf vars name = some .local_

theorem Locals.congr {names : Names} {vars vars' : Variables} (h : Locals names vars)
    (horigin : originOf vars' = originOf vars) : Locals names vars' := fun name hname =>
  (congrFun horigin name).trans (h name hname)

theorem isLocal_insert (names : Names) (name other : String) (binding : Binding) :
    isLocal (names.insert name binding) other = if name = other then binding.isLocal else isLocal names other := by
  unfold isLocal
  rw [OrdMap.get?_insert]
  split <;> rfl

theorem Locals.declare {names : Names} {c : Checker} (h : Locals names c.vars) (name : String) (holds : Bool)
    (ty : Option TypeNode) (value : Expr) (lastUses : Uses) (index : Nat) :
    Locals (names.insert name ⟨true, holds⟩) ((c.declare name ty value).endBorrows lastUses index).vars := by
  intro other hother
  rw [isLocal_insert] at hother
  rw [endBorrows_origin, declare_origin]
  by_cases heq : name = other
  · rw [if_pos heq]
  · rw [if_neg heq] at hother ⊢
    exact h other hother

/-- What a pattern binds is no local, so that less is asked of the checker. -/
theorem Locals.bindPattern {names : Names} {vars : Variables} (h : Locals names vars) (pattern : Pattern) (holds : Bool) :
    Locals (bindPattern pattern holds names) vars := by
  unfold Escape.bindPattern
  induction patternNames pattern generalizing names with
  | nil => exact h
  | cons name rest ih =>
    refine ih fun other hother => ?_
    rw [isLocal_insert] at hother
    split at hother
    · cases hother
    · exact h other hother

theorem returnKind_of_quiet {names : Names} {c : Checker} {value : Expr} (hlocals : Locals names c.vars)
    (hquiet : Quiet (c.checkReturnEscape value)) : returnKind names value ≠ .borrowed := by
  obtain ⟨kind, span⟩ := value
  cases kind with
  | borrow mutable operand =>
    intro hkind
    have hany : (placeName operand).any (isLocal names) = true := by
      by_contra hnot
      simp [returnKind, hnot] at hkind
    obtain ⟨root, hroot, hlocal⟩ := (Option.any_eq_true _ _).mp hany
    obtain ⟨var, hvar, horigin⟩ := Option.map_eq_some_iff.mp (hlocals root hlocal)
    have htarget : c.returnTarget (.borrow mutable operand) = some root := hroot
    simp only [Checker.checkReturnEscape, Expr.kind, htarget, hvar, Option.any_some, horigin, decide_true, if_true] at hquiet
    exact not_quiet_error hquiet
  | _ => exact fun hkind => by cases hkind

theorem hidden_ne {returns : List Returned} : ∀ r ∈ returns.map Returned.hide, r.kind ≠ .borrowed := by
  rintro r hr hkind
  obtain ⟨s, -, rfl⟩ := List.mem_map.mp hr
  cases hkind

mutual
/-- **Nothing is returned as a borrow of a `let` that is written there**, where the checker reports nothing. -/
theorem exprReturns_ne {a : Analyzer} : ∀ (e : Expr) (mode : UseMode) (names : Names) (c : Checker), Locals names c.vars →
    Quiet (checkExpr e mode c) → ∀ r ∈ exprReturns a e names, r.kind ≠ .borrowed
  | .mk (.borrow _ _) _, _, _, _, _, _ => hidden_ne
  | .mk (.await operand) _, mode, names, c, hlocals, hquiet =>
    exprReturns_ne operand mode names c hlocals (quiet_checkSuspension hquiet)
  | .mk (.literal _) _, _, _, _, _, _ => fun _ hr => nomatch hr
  | .mk (.path _) _, _, _, _, _, _ => fun _ hr => nomatch hr
  | .mk (.array items) _, _, names, c, hlocals, hquiet => itemsReturns_ne items names c hlocals hquiet
  | .mk (.call callee arguments) _, _, names, c, hlocals, hquiet => by
    have hcallee : Quiet (checkExpr callee .read c) := quiet_checkArguments arguments _ hquiet
    exact List.forall_mem_append.mpr ⟨exprReturns_ne callee .read names c hlocals hcallee,
      argumentsReturns_ne arguments names _ (hlocals.congr (checkExpr_origin callee .read c)) hquiet⟩
  | .mk (.field base _) _, mode, names, c, hlocals, hquiet => exprReturns_ne base mode names c hlocals hquiet
  | .mk (.unary _ operand) _, mode, names, c, hlocals, hquiet => exprReturns_ne operand mode names c hlocals hquiet
  | .mk (.binary _ left right) _, _, names, c, hlocals, hquiet => by
    have hleft : Quiet (checkExpr left .read c) := quiet_checkExpr right .read _ hquiet
    exact List.forall_mem_append.mpr ⟨exprReturns_ne left .read names c hlocals hleft,
      exprReturns_ne right .read names _ (hlocals.congr (checkExpr_origin left .read c)) hquiet⟩
  | .mk (.match_ value arms) _, _, names, c, hlocals, hquiet => by
    have hvalue : Quiet (checkExpr value .consume c) := quiet_checkArms arms _ _ hquiet
    exact List.forall_mem_append.mpr ⟨exprReturns_ne value .consume names c hlocals hvalue,
      armsReturns_ne arms _ names _ _ (hlocals.congr (checkExpr_origin value .consume c)) hquiet⟩
  | .mk (.block (.mk statements _)) _, _, names, c, hlocals, hquiet =>
    statementsReturns_ne statements 0 _ _ names c hlocals ((restore_diagnostics _ _).symm.trans hquiet)
theorem itemsReturns_ne {a : Analyzer} : ∀ (items : List Expr) (names : Names) (c : Checker), Locals names c.vars →
    Quiet (checkItems items c) → ∀ r ∈ itemsReturns a items names, r.kind ≠ .borrowed
  | [], _, _, _, _ => fun _ hr => nomatch hr
  | item :: items, names, c, hlocals, hquiet => by
    have hitem : Quiet (checkExpr item .consume c) := quiet_checkItems items _ hquiet
    exact List.forall_mem_append.mpr ⟨exprReturns_ne item .consume names c hlocals hitem,
      itemsReturns_ne items names _ (hlocals.congr (checkExpr_origin item .consume c)) hquiet⟩
theorem argumentsReturns_ne {a : Analyzer} : ∀ (arguments : List CallArgument) (names : Names) (c : Checker),
    Locals names c.vars → Quiet (checkArguments arguments c) → ∀ r ∈ argumentsReturns a arguments names, r.kind ≠ .borrowed
  | [], _, _, _, _ => fun _ hr => nomatch hr
  | .mk _ value _ :: arguments, names, c, hlocals, hquiet => by
    have hvalue : Quiet (checkExpr value .consume c) := quiet_checkArguments arguments _ hquiet
    exact List.forall_mem_append.mpr ⟨exprReturns_ne value .consume names c hlocals hvalue,
      argumentsReturns_ne arguments names _ (hlocals.congr (checkExpr_origin value .consume c)) hquiet⟩
theorem armsReturns_ne {a : Analyzer} : ∀ (arms : List MatchArm) (holds : Bool) (names : Names) (before : Variables)
    (c : Checker), Locals names before → Quiet (checkArms arms before c).2 →
    ∀ r ∈ armsReturns a arms holds names, r.kind ≠ .borrowed
  | [], _, _, _, _, _, _ => fun _ hr => nomatch hr
  | .mk pattern none body _ :: arms, holds, names, before, c, hlocals, hquiet => by
    have hbody : Quiet (checkExpr body .consume { c with vars := before }) := quiet_checkArms arms before _ hquiet
    exact List.forall_mem_append.mpr ⟨exprReturns_ne body .consume _ _ (hlocals.bindPattern pattern holds) hbody,
      armsReturns_ne arms holds names before _ hlocals hquiet⟩
  | .mk pattern (some guard) body _ :: arms, holds, names, before, c, hlocals, hquiet => by
    have hbody : Quiet (checkExpr body .consume (checkExpr guard .read { c with vars := before })) :=
      quiet_checkArms arms before _ hquiet
    have hguard : Quiet (checkExpr guard .read { c with vars := before }) := quiet_checkExpr body .consume _ hbody
    have hinner := hlocals.bindPattern pattern holds
    exact List.forall_mem_append.mpr ⟨List.forall_mem_append.mpr ⟨exprReturns_ne guard .read _ _ hinner hguard,
      exprReturns_ne body .consume _ _ (hinner.congr (checkExpr_origin guard .read _)) hbody⟩,
      armsReturns_ne arms holds names before _ hlocals hquiet⟩
theorem statementsReturns_ne {a : Analyzer} : ∀ (statements : List Statement) (index : Nat) (lastUses : Uses)
    (shadowed : OrdMap String (Option Variable)) (names : Names) (c : Checker), Locals names c.vars →
    Quiet (checkStatements statements index lastUses shadowed c).2 → ∀ r ∈ statementsReturns a statements names, r.kind ≠ .borrowed
  | [], _, _, _, _, _, _, _ => fun _ hr => nomatch hr
  | .let_ name ty value _ :: rest, index, lastUses, shadowed, names, c, hlocals, hquiet => by
    have hvalue : Quiet (checkExpr value .consume c) := by
      have hrest := quiet_checkStatements rest _ _ _ _ hquiet
      rwa [Quiet, endBorrows_diagnostics, declare_diagnostics] at hrest
    have hlocals' : Locals names (checkExpr value .consume c).vars := hlocals.congr (checkExpr_origin value .consume c)
    exact List.forall_mem_append.mpr ⟨exprReturns_ne value .consume names c hlocals hvalue,
      statementsReturns_ne rest _ _ _ _ _ (hlocals'.declare name _ ty value lastUses index) hquiet⟩
  | .return_ (some value) _ :: rest, index, lastUses, shadowed, names, c, hlocals, hquiet => by
    have hvalue : Quiet (checkExpr value .consume (c.checkReturnEscape value)) := by
      have hrest := quiet_checkStatements rest _ _ _ _ hquiet
      rwa [Quiet, endBorrows_diagnostics] at hrest
    have hescape : Locals names (c.checkReturnEscape value).vars := by
      rw [checkReturnEscape_vars]
      exact hlocals
    refine List.forall_mem_cons.mpr ⟨returnKind_of_quiet hlocals (quiet_checkExpr value .consume _ hvalue), ?_⟩
    refine List.forall_mem_append.mpr ⟨exprReturns_ne value .consume names _ hescape hvalue, ?_⟩
    refine statementsReturns_ne rest _ _ _ names _ (hescape.congr ?_) hquiet
    rw [endBorrows_origin, checkExpr_origin value]
  | .return_ none _ :: rest, _, _, _, names, c, hlocals, hquiet =>
    statementsReturns_ne rest _ _ _ names _ (hlocals.congr (endBorrows_origin c _ _)) hquiet
  | .expression e _ :: rest, _, _, _, names, c, hlocals, hquiet => by
    have he : Quiet (checkExpr e .consume c) := by
      have hrest := quiet_checkStatements rest _ _ _ _ hquiet
      rwa [Quiet, endBorrows_diagnostics] at hrest
    refine List.forall_mem_append.mpr ⟨exprReturns_ne e .consume names c hlocals he, ?_⟩
    refine statementsReturns_ne rest _ _ _ names _ (hlocals.congr ?_) hquiet
    rw [endBorrows_origin, checkExpr_origin e]
end

/-! ## Functions -/

theorem locals_parameters (node : FunctionNode) : Locals (parameterNames node) (parameterVariables node) := by
  intro name hname
  obtain ⟨binding, hget, hlocal⟩ := (Option.any_eq_true _ _).mp hname
  obtain ⟨parameter, -, heq⟩ := List.mem_map.mp (OrdMap.mem_of_get?_ofList hget)
  cases heq
  cases hlocal

theorem functionReturns_ne {file : String} {ast : SourceFile} {imports : List (String × Item)} {node : FunctionNode}
    (hnode : .function node ∈ ast.items) (hdiagnostics : (Semantic.analyzeWithImports file ast imports).diagnostics = [])
    (a : Analyzer) : ∀ r ∈ functionReturns a node, r.kind ≠ .borrowed := by
  have hownership : Ownership.analyzeOwnership file ast = [] := (List.append_eq_nil_iff.mp hdiagnostics).2
  have hfunction : Ownership.checkFunction file node = [] := List.flatMap_eq_nil_iff.mp hownership _ hnode
  unfold functionReturns
  cases hbody : node.body with
  | mk statements span =>
    let c := Ownership.checkSignatureRegions node ⟨file, parameterVariables node, []⟩
    have hlocals : Locals (parameterNames node) c.vars := by
      rw [Affine.checkSignatureRegions_vars]
      exact locals_parameters node
    have hquiet : Quiet (checkBlock (.mk statements span) c) := by
      rw [← hbody]
      exact hfunction
    refine List.forall_mem_append.mpr ⟨?_, by simp⟩
    exact statementsReturns_ne statements 0 _ .empty _ c hlocals ((restore_diagnostics _ _).symm.trans hquiet)

section
variable (line : Nat)

/-- `&String` -/
def referenceNode (column : Nat) : TypeNode :=
  .reference none false (Affine.stringNode line (column + 1)) (Affine.at_ line column 7)

/-- `(text: &String) -> &String`, the name and the body before and after it. -/
def textFunction (name : String) (statements : List Statement) : FunctionNode :=
  ⟨false, false, name, [⟨"text", referenceNode line 20, Affine.at_ line 14 13⟩], some (referenceNode line 32), none,
    .mk statements (Affine.at_ line 40 40), Affine.at_ line 1 90⟩

/-- `let value: String = "owned"` -/
def ownedLet : Statement :=
  .let_ "value" (some (Affine.stringNode line 12)) (.mk (.literal (.string "owned")) (Affine.at_ line 21 7)) (Affine.at_ line 1 27)

/-- `&value` -/
def borrowedValue (column : Nat) : Expr :=
  .mk (.borrow false (Affine.name line "value" (column + 1))) (Affine.at_ line column 6)

end

/-- `fn keep(text: &String) -> &String { return text }` -/
def keepNode : FunctionNode :=
  textFunction 1 "keep" [.return_ (some (Affine.name 2 "text" 8)) (Affine.at_ 2 1 11)]

/-- `fn last(text: &String) -> &String { let value: String = "owned"`, and `&value` ends it. -/
def lastNode : FunctionNode :=
  textFunction 3 "last" [ownedLet 4, .expression (borrowedValue 5 1) (Affine.at_ 5 1 6)]

/-- The same `let`, `let held = &value` and `return held`. -/
def heldNode : FunctionNode :=
  textFunction 6 "held" [ownedLet 7, .let_ "held" none (borrowedValue 8 12) (Affine.at_ 8 1 17),
    .return_ (some (Affine.name 9 "held" 8)) (Affine.at_ 9 1 11)]

/-- The same `let` and `return match text { other => &value }`. -/
def matchedNode : FunctionNode :=
  textFunction 10 "matched" [ownedLet 11,
    .return_ (some (.mk (.match_ (Affine.name 12 "text" 14) [.mk (.path ["other"] (Affine.at_ 12 21 5)) none
      (borrowedValue 12 30) (Affine.at_ 12 21 15)]) (Affine.at_ 12 8 30))) (Affine.at_ 12 1 37)]

def textFile (nodes : List FunctionNode) : SourceFile := ⟨none, [], nodes.map .function, Affine.at_ 1 1 1200⟩

end Escape
end Syllog
