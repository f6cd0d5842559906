import Syllog.Affine
/-!
# AffineSound — the checker against the paths

The checker walks every arm; a path takes one.  Along a path the checker knows at least what is consumed: a variable that is
not `Copy` is one that the checker does not take for `Copy`, and one that is gone is moved (`Follows`).  What the checker does
at the end of a block and of a borrow never makes a moved variable available (`Keeps`).
-/
namespace Syllog
namespace Affine

open Hir Ast
open Semantic (Analyzer Scope inferExpr checkPattern)
open Ownership (UseMode typeIsCopy placeName Variable Variables Checker OwnershipState Uses)
open Ownership (checkExpr checkItems checkArguments checkArms checkBlock checkStatements expressionIsCopy variableIsCopy)
open Ownership (borrowTarget)

/-! ## What the checker never undoes -/

/-- The variable is still there, taken for `Copy` as before, and moved if it was. -/
def KeepsAt (before after : Option Variable) : Prop :=
  ∀ var, before = some var → ∃ var', after = some var' ∧ var'.copy = var.copy ∧ (var.state = .moved → var'.state = .moved)

theorem KeepsAt.refl (o : Option Variable) : KeepsAt o o := fun var h => ⟨var, h, rfl, id⟩

theorem KeepsAt.trans {o o' o'' : Option Variable} (h : KeepsAt o o') (h' : KeepsAt o' o'') : KeepsAt o o'' := by
  intro var hvar
  obtain ⟨var', hvar', hcopy, hmoved⟩ := h var hvar
  obtain ⟨var'', hvar'', hcopy', hmoved'⟩ := h' var' hvar'
  exact ⟨var'', hvar'', hcopy'.trans hcopy, fun h => hmoved' (hmoved h)⟩

def Keeps (before after : Variables) : Prop := ∀ name, KeepsAt (before.get? name) (after.get? name)

theorem Keeps.refl (vars : Variables) : Keeps vars vars := fun _ => .refl _

theorem Keeps.trans {vars vars' vars'' : Variables} (h : Keeps vars vars') (h' : Keeps vars' vars'') : Keeps vars vars'' :=
  fun name => (h name).trans (h' name)

theorem keeps_insert {vars : Variables} {name : String} {var : Variable} (h : KeepsAt (vars.get? name) (some var)) :
    Keeps vars (vars.insert name var) := by
  intro other
  rw [OrdMap.get?_insert]
  by_cases heq : name = other
  · rw [if_pos heq, ← heq]
    exact h
  · rw [if_neg heq]
    exact .refl _

namespace CheckerLaws

theorem setState_keeps {c : Checker} {name : String} {state : OwnershipState}
    (h : ∀ var, c.vars.get? name = some var → var.state = .moved → state = .moved) : Keeps c.vars (c.setState name state).vars := by
  unfold Checker.setState
  cases hget : c.vars.get? name with
  | none => exact .refl _
  | some var =>
    refine keeps_insert fun var' hvar' => ?_
    cases hget.symm.trans hvar'
    exact ⟨_, rfl, rfl, h var hget⟩

theorem useVariable_keeps (c : Checker) (name : String) (mode : UseMode) (span : Span) :
    Keeps c.vars (c.useVariable name mode span).vars := by
  unfold Checker.useVariable
  split
  · exact .refl _
  · split
    · exact .refl _
    · split
      · split
        · exact .refl _
        · exact .refl _
        · exact setState_keeps fun _ _ _ => rfl
      · exact .refl _

theorem borrow_keeps (c : Checker) (operand : Expr) (mutable : Bool) : Keeps c.vars (c.borrow operand mutable).vars := by
  unfold Checker.borrow
  split
  · exact .refl _
  · split
    · exact .refl _
    · rename_i name _ _ var hget
      have hset : ∀ state, var.state ≠ .moved → Keeps c.vars (c.setState name state).vars := by
        intro state hstate
        refine setState_keeps fun var' hvar' hmoved => ?_
        cases hget.symm.trans hvar'
        exact absurd hmoved hstate
      split
      · exact .refl _
      · rename_i hstate
        exact hset _ (by simp [hstate])
      · rename_i hstate
        exact hset _ (by simp [hstate])
      · rename_i hstate
        exact hset _ (by simp [hstate])
      · exact .refl _

theorem released_moved {mutable : Bool} {state : OwnershipState} (h : state = .moved) :
    Checker.released mutable state = .moved := by
  subst h
  rfl

theorem dropBorrow_keeps (c : Checker) (binding : String) : Keeps c.vars (match c.vars.get? binding with
    | some var => { c with vars := c.vars.insert binding { var with borrow := none } }
    | none     => c).vars := by
  split
  · rename_i var hget
    refine keeps_insert fun var' hvar' => ?_
    cases hget.symm.trans hvar'
    exact ⟨_, rfl, rfl, id⟩
  · exact .refl _

theorem releaseBorrow_keeps (c : Checker) (binding : String) : Keeps c.vars (c.releaseBorrow binding).vars := by
  unfold Checker.releaseBorrow
  split
  · exact .refl _
  · rename_i target mutable hborrow
    cases htarget : c.vars.get? target with
    | none => exact dropBorrow_keeps c binding
    | some var =>
      refine (setState_keeps fun var' hvar' hmoved => ?_).trans
        (dropBorrow_keeps (c.setState target (Checker.released mutable var.state)) binding)
      cases htarget.symm.trans hvar'
      exact released_moved hmoved

theorem foldl_releaseBorrow_keeps : ∀ (names : List String) (c : Checker),
    Keeps c.vars (names.foldl Checker.releaseBorrow c).vars
  | [], _ => .refl _
  | name :: names, c => (releaseBorrow_keeps c name).trans (foldl_releaseBorrow_keeps names (c.releaseBorrow name))

theorem endBorrows_keeps (c : Checker) (lastUses : Uses) (index : Nat) : Keeps c.vars (c.endBorrows lastUses index).vars :=
  foldl_releaseBorrow_keeps _ c

theorem checkReturnEscape_vars (c : Checker) (e : Expr) : (c.checkReturnEscape e).vars = c.vars := by
  unfold Checker.checkReturnEscape
  split
  · rfl
  · split <;> rfl

theorem foldl_error_vars (message : String → String) (span : Span) : ∀ (names : List String) (c : Checker),
    (names.foldl (fun c name => c.error "SYL2606" (message name) span) c).vars = c.vars
  | [], _ => rfl
  | _ :: names, _ => foldl_error_vars message span names _

theorem checkSuspension_vars (c : Checker) (before : List String) (span : Span) : (c.checkSuspension before span).vars = c.vars :=
  foldl_error_vars _ span _ c

/-- A declaration touches no other name. -/
theorem declare_keeps (c : Checker) {name other : String} (ty : Option TypeNode) (value : Expr) (h : name ≠ other) :
    KeepsAt (c.vars.get? other) ((c.declare name ty value).vars.get? other) := by
  unfold Checker.declare
  simp only [OrdMap.get?_insert, if_neg h]
  exact releaseBorrow_keeps c name other

/-! ## Nothing is reported before the end if nothing is at the end -/

def Quiet (c : Checker) : Prop := c.diagnostics = []

theorem not_quiet_error {c : Checker} {code message : String} {span : Span} : ¬ Quiet (c.error code message span) := by
  simp [Quiet, Checker.error]

theorem setState_diagnostics (c : Checker) (name : String) (state : OwnershipState) :
    (c.setState name state).diagnostics = c.diagnostics := by
  unfold Checker.setState
  split <;> rfl

theorem releaseBorrow_diagnostics (c : Checker) (binding : String) : (c.releaseBorrow binding).diagnostics = c.diagnostics := by
  unfold Checker.releaseBorrow
  split
  · rfl
  · rename_i target mutable hborrow
    cases htarget : c.vars.get? target with
    | none =>
      dsimp only
      split <;> rfl
    | some var =>
      dsimp only
      split <;> exact setState_diagnostics c target _

theorem foldl_releaseBorrow_diagnostics : ∀ (names : List String) (c : Checker),
    (names.foldl Checker.releaseBorrow c).diagnostics = c.diagnostics
  | [], _ => rfl
  | name :: names, c => (foldl_releaseBorrow_diagnostics names _).trans (releaseBorrow_diagnostics c name)

theorem endBorrows_diagnostics (c : Checker) (lastUses : Uses) (index : Nat) :
    (c.endBorrows lastUses index).diagnostics = c.diagnostics := foldl_releaseBorrow_diagnostics _ c

theorem declare_diagnostics (c : Checker) (name : String) (ty : Option TypeNode) (value : Expr) :
    (c.declare name ty value).diagnostics = c.diagnostics := releaseBorrow_diagnostics c name

theorem quiet_useVariable {c : Checker} {name : String} {mode : UseMode} {span : Span}
    (h : Quiet (c.useVariable name mode span)) : Quiet c := by
  unfold Checker.useVariable at h
  split at h
  · exact h
  · split at h
    · exact absurd h not_quiet_error
    · split at h
      · split at h
        · exact absurd h not_quiet_error
        · exact absurd h not_quiet_error
        · exact (setState_diagnostics c name _).symm.trans h
      · exact h

theorem quiet_borrow {c : Checker} {operand : Expr} {mutable : Bool} (h : Quiet (c.borrow operand mutable)) : Quiet c := by
  unfold Checker.borrow at h
  split at h
  · exact h
  · split at h
    · exact h
    · split at h
      · exact absurd h not_quiet_error
      · exact (setState_diagnostics c _ _).symm.trans h
      · exact (setState_diagnostics c _ _).symm.trans h
      · exact (setState_diagnostics c _ _).symm.trans h
      · exact absurd h not_quiet_error

theorem quiet_checkReturnEscape {c : Checker} {e : Expr} (h : Quiet (c.checkReturnEscape e)) : Quiet c := by
  unfold Checker.checkReturnEscape at h
  split at h
  · exact h
  · split at h
    · exact absurd h not_quiet_error
    · exact h

theorem quiet_foldl_error {message : String → String} {span : Span} : ∀ {names : List String} {c : Checker},
    Quiet (names.foldl (fun c name => c.error "SYL2606" (message name) span) c) → Quiet c
  | [], _, h => h
  | name :: names, c, h => by
    have hquiet : Quiet (c.error "SYL2606" (message name) span) := quiet_foldl_error h
    exact absurd hquiet not_quiet_error

theorem quiet_checkSuspension {c : Checker} {before : List String} {span : Span} (h : Quiet (c.checkSuspension before span)) :
    Quiet c := quiet_foldl_error h

theorem foldl_restore_diagnostics : ∀ (entries : List (String × Option Variable)) (c : Checker),
    (entries.foldl (fun c e =>
      let c := c.releaseBorrow e.1
      match e.2 with
      | some var => { c with vars := c.vars.insert e.1 var }
      | none     => { c with vars := c.vars.erase e.1 }) c).diagnostics = c.diagnostics
  | [], _ => rfl
  | e :: entries, c => by
    rw [List.foldl_cons, foldl_restore_diagnostics entries]
    obtain ⟨name, saved⟩ := e
    cases saved <;> exact releaseBorrow_diagnostics c name

theorem restore_diagnostics (c : Checker) (shadowed : OrdMap String (Option Variable)) :
    (c.restore shadowed).diagnostics = c.diagnostics := foldl_restore_diagnostics _ c

mutual
theorem quiet_checkExpr : ∀ (e : Expr) (mode : UseMode) (c : Checker), Quiet (checkExpr e mode c) → Quiet c
  | .mk (.borrow _ _) _, _, _, h => quiet_borrow h
  | .mk (.await operand) _, mode, c, h => quiet_checkExpr operand mode c (quiet_checkSuspension h)
  | .mk (.literal (.identifier _)) _, _, _, h => quiet_useVariable h
  | .mk (.literal (.string _)) _, _, _, h => h
  | .mk (.literal (.boolean _)) _, _, _, h => h
  | .mk (.literal (.integer _)) _, _, _, h => h
  | .mk (.literal (.float _)) _, _, _, h => h
  | .mk (.path [_]) _, _, _, h => quiet_useVariable h
  | .mk (.path []) _, _, _, h => h
  | .mk (.path (_ :: _ :: _)) _, _, _, h => h
  | .mk (.array items) _, _, c, h => quiet_checkItems items c h
  | .mk (.call callee arguments) _, _, c, h => quiet_checkExpr callee .read c (quiet_checkArguments arguments _ h)
  | .mk (.field base _) _, mode, c, h => quiet_checkExpr base mode c h
  | .mk (.unary _ operand) _, mode, c, h => quiet_checkExpr operand mode c h
  | .mk (.binary _ left right) _, _, c, h => quiet_checkExpr left .read c (quiet_checkExpr right .read _ h)
  | .mk (.match_ value arms) _, _, c, h => quiet_checkExpr value .consume c (quiet_checkArms arms _ _ h)
  | .mk (.block block) _, _, c, h => quiet_checkBlock block c h
theorem quiet_checkItems : ∀ (items : List Expr) (c : Checker), Quiet (checkItems items c) → Quiet c
  | [], _, h => h
  | item :: items, c, h => quiet_checkExpr item .consume c (quiet_checkItems items _ h)
theorem quiet_checkArguments : ∀ (arguments : List CallArgument) (c : Checker), Quiet (checkArguments arguments c) → Quiet c
  | [], _, h => h
  | .mk _ value _ :: arguments, c, h => quiet_checkExpr value .consume c (quiet_checkArguments arguments _ h)
theorem quiet_checkArms : ∀ (arms : List MatchArm) (before : Variables) (c : Checker), Quiet (checkArms arms before c).2 →
    Quiet c
  | [], _, _, h => h
  | .mk _ none body _ :: arms, before, c, h =>
    quiet_checkExpr body .consume { c with vars := before } (quiet_checkArms arms before _ h)
  | .mk _ (some guard) body _ :: arms, before, c, h =>
    quiet_checkExpr guard .read { c with vars := before } (quiet_checkExpr body .consume _ (quiet_checkArms arms before _ h))
theorem quiet_checkBlock : ∀ (block : Block) (c : Checker), Quiet (checkBlock block c) → Quiet c
  | .mk statements _, c, h =>
    quiet_checkStatements statements 0 _ _ c ((restore_diagnostics _ _).symm.trans h)
theorem quiet_checkStatements : ∀ (statements : List Statement) (index : Nat) (lastUses : Uses)
    (shadowed : OrdMap String (Option Variable)) (c : Checker),
    Quiet (checkStatements statements index lastUses shadowed c).2 → Quiet c
  | [], _, _, _, _, h => h
  | .let_ _ _ value _ :: rest, _, _, _, c, h => by
    have hrest := quiet_checkStatements rest _ _ _ _ h
    rw [Quiet, endBorrows_diagnostics, declare_diagnostics] at hrest
    exact quiet_checkExpr value .consume c hrest
  | .return_ (some value) _ :: rest, _, _, _, c, h => by
    have hrest := quiet_checkStatements rest _ _ _ _ h
    rw [Quiet, endBorrows_diagnostics] at hrest
    exact quiet_checkReturnEscape (quiet_checkExpr value .consume _ hrest)
  | .return_ none _ :: rest, _, _, _, c, h => by
    have hrest := quiet_checkStatements rest _ _ _ _ h
    rwa [Quiet, endBorrows_diagnostics] at hrest
  | .expression e _ :: rest, _, _, _, c, h => by
    have hrest := quiet_checkStatements rest _ _ _ _ h
    rw [Quiet, endBorrows_diagnostics] at hrest
    exact quiet_checkExpr e .consume c hrest
end

end CheckerLaws

open CheckerLaws

/-! ## The checker follows a path -/

/-- The checker does not take the variable for `Copy`, and knows it for moved if it is gone. -/
def FollowsAt (gone : Finset String) (name : String) (o : Option Variable) : Prop :=
  ∃ var, o = some var ∧ var.copy = false ∧ (name ∈ gone → var.state = .moved)

theorem FollowsAt.keeps {gone : Finset String} {name : String} {o o' : Option Variable} (h : FollowsAt gone name o)
    (hkeeps : KeepsAt o o') : FollowsAt gone name o' := by
  obtain ⟨var, hvar, hcopy, hgone⟩ := h
  obtain ⟨var', hvar', hcopy', hmoved⟩ := hkeeps var hvar
  exact ⟨var', hvar', hcopy'.trans hcopy, fun h => hmoved (hgone h)⟩

theorem FollowsAt.congr {gone gone' : Finset String} {name : String} {o : Option Variable} (h : FollowsAt gone name o)
    (hsame : name ∈ gone' → name ∈ gone) : FollowsAt gone' name o := by
  obtain ⟨var, hvar, hcopy, hgone⟩ := h
  exact ⟨var, hvar, hcopy, fun h => hgone (hsame h)⟩

def Follows (owned gone : Finset String) (vars : Variables) : Prop := ∀ name ∈ owned, FollowsAt gone name (vars.get? name)

theorem Follows.keeps {owned gone : Finset String} {vars vars' : Variables} (h : Follows owned gone vars)
    (hkeeps : Keeps vars vars') : Follows owned gone vars' := fun name hname => (h name hname).keeps (hkeeps name)

/-- The path never faults; where it goes on, the checker follows, and nothing but owned variables was consumed. -/
def Sound (owned gone : Finset String) (vars vars' : Variables) : Outcome → Prop
  | .done gone' => Follows owned gone' vars' ∧ (∀ name, name ∉ owned → (name ∈ gone' ↔ name ∈ gone)) ∧ Keeps vars vars'
  | .returned   => True
  | .fault _    => False

theorem Sound.stay {owned gone : Finset String} {vars vars' : Variables} (h : Follows owned gone vars)
    (hkeeps : Keeps vars vars') : Sound owned gone vars vars' (.done gone) := ⟨h.keeps hkeeps, fun _ _ => Iff.rfl, hkeeps⟩

/-- **One after the other.** -/
theorem sound_andThen {owned gone : Finset String} {vars vars' vars'' : Variables} {first : List Outcome}
    {next : Finset String → List Outcome} (hfirst : ∀ o ∈ first, Sound owned gone vars vars' o)
    (hnext : ∀ gone', Follows owned gone' vars' → ∀ o ∈ next gone', Sound owned gone' vars' vars'' o) :
    ∀ o ∈ andThen first next, Sound owned gone vars vars'' o := by
  intro o ho
  obtain ⟨o', ho', ho⟩ := List.mem_flatMap.mp ho
  have hsound := hfirst o' ho'
  cases o' with
  | done gone' =>
    obtain ⟨hfollows, houtside, hkeeps⟩ := hsound
    have hsound' := hnext gone' hfollows o ho
    cases o with
    | done gone'' =>
      obtain ⟨hfollows', houtside', hkeeps'⟩ := hsound'
      exact ⟨hfollows', fun name hname => (houtside' name hname).trans (houtside name hname), hkeeps.trans hkeeps'⟩
    | returned => trivial
    | fault name => exact hsound'
  | returned =>
    cases List.mem_singleton.mp ho
    trivial
  | fault name => exact hsound.elim

/-- **A use**: what is gone would be reported. -/
theorem sound_use {owned gone : Finset String} {c : Checker} {name : String} {mode : UseMode} {span : Span}
    (hfollows : Follows owned gone c.vars) (hquiet : Quiet (c.useVariable name mode span)) :
    Sound owned gone c.vars (c.useVariable name mode span).vars (usePath owned gone name mode) := by
  have hkeeps := useVariable_keeps c name mode span
  unfold usePath
  by_cases howned : name ∈ owned
  · obtain ⟨var, hget, hcopy, hgone⟩ := hfollows name howned
    have hmoved : var.state ≠ .moved := by
      intro hmoved
      simp only [Checker.useVariable, hget, hmoved, if_true] at hquiet
      exact not_quiet_error hquiet
    rw [if_pos howned, if_neg fun h => hmoved (hgone h)]
    by_cases hmode : mode = .consume
    · rw [if_pos hmode]
      refine ⟨fun other hother => ?_, fun other hother => ?_, hkeeps⟩
      · by_cases heq : other = name
        · -- a variable that is borrowed would be reported too
          subst heq
          have hset : (c.useVariable other mode span).vars.get? other = some { var with state := .moved } := by
            unfold Checker.useVariable at hquiet ⊢
            simp only [hget, if_neg hmoved, hmode, hcopy, and_self, if_true] at hquiet ⊢
            split at hquiet
            · exact absurd hquiet not_quiet_error
            · exact absurd hquiet not_quiet_error
            · simp [Checker.setState, hget, hcopy]
          rw [hset]
          exact ⟨_, rfl, hcopy, fun _ => rfl⟩
        · refine ((hfollows other hother).keeps (hkeeps other)).congr fun h => ?_
          exact (Finset.mem_insert.mp h).resolve_left heq
      · have hne : other ≠ name := fun heq => hother (heq ▸ howned)
        simp [hne]
    · rw [if_neg hmode]
      exact .stay hfollows hkeeps
  · rw [if_neg howned]
    exact .stay hfollows hkeeps

/-- The paths of a place are one use of its variable. -/
theorem placePaths {a : Analyzer} {asyncContext : Bool} {name : String} : ∀ {e : Expr}, placeName e = some name →
    ∀ (mode : UseMode) (scope : Scope) (owned gone : Finset String),
      exprPaths a asyncContext e mode scope owned gone = [usePath owned gone name mode]
  | .mk (.path [_]) _, h, _, _, _, _ => by
    cases h
    rfl
  | .mk (.literal (.identifier _)) _, h, _, _, _, _ => by
    cases h
    rfl
  | .mk (.field base _) _, h, mode, scope, owned, gone => @placePaths a asyncContext name base h mode scope owned gone

theorem sound_borrow {owned gone : Finset String} {c : Checker} {operand : Expr} {mutable : Bool} {name : String}
    (hname : placeName operand = some name) (hfollows : Follows owned gone c.vars) (hquiet : Quiet (c.borrow operand mutable)) :
    Sound owned gone c.vars (c.borrow operand mutable).vars (usePath owned gone name .read) := by
  have hkeeps := borrow_keeps c operand mutable
  unfold usePath
  by_cases howned : name ∈ owned
  · obtain ⟨var, hget, hcopy, hgone⟩ := hfollows name howned
    have hmoved : var.state ≠ .moved := by
      intro hmoved
      simp only [Checker.borrow, hname, hget, hmoved] at hquiet
      exact not_quiet_error hquiet
    rw [if_pos howned, if_neg fun h => hmoved (hgone h), if_neg (by decide)]
    exact .stay hfollows hkeeps
  · rw [if_neg howned]
    exact .stay hfollows hkeeps

/-! ## Arms -/

theorem mergeStates_moved {states : List OwnershipState} (h : .moved ∈ states) : Checker.mergeStates states = .moved := by
  unfold Checker.mergeStates
  rw [if_pos h]

theorem get?_mergeArms (before : Variables) (branches : List Variables) (name : String) :
    (Checker.mergeArms before branches).get? name = (before.get? name).map fun var =>
      { var with state := Checker.mergeStates (branches.filterMap fun branch => (branch.get? name).map Variable.state) } := by
  unfold Checker.mergeArms
  rw [OrdMap.get?_filterMap]
  cases before.get? name <;> rfl

theorem get?_mergeArms_some {before : Variables} (branches : List Variables) {name : String} {var : Variable}
    (hvar : before.get? name = some var) :
    ∃ merged, (Checker.mergeArms before branches).get? name = some merged ∧ merged.copy = var.copy := by
  rw [get?_mergeArms, hvar]
  exact ⟨_, rfl, rfl⟩

theorem mergeArms_moved {before branch : Variables} {branches : List Variables} (hmem : branch ∈ branches) {name : String}
    {var var' : Variable} (hvar : before.get? name = some var) (hvar' : branch.get? name = some var')
    (hmoved : var'.state = .moved) :
    ∃ merged, (Checker.mergeArms before branches).get? name = some merged ∧ merged.copy = var.copy ∧ merged.state = .moved := by
  rw [get?_mergeArms, hvar]
  refine ⟨_, rfl, rfl, mergeStates_moved (List.mem_filterMap.mpr ⟨branch, hmem, ?_⟩)⟩
  rw [hvar', Option.map_some, hmoved]

/-- **What one arm leaves, the merged variables know.** -/
theorem sound_merge {owned gone : Finset String} {before : Variables} {branches : List Variables} {o : Outcome}
    (hfollows : Follows owned gone before) (h : ∃ branch ∈ branches, Sound owned gone before branch o) :
    Sound owned gone before (Checker.mergeArms before branches) o := by
  obtain ⟨branch, hmem, hsound⟩ := h
  cases o with
  | returned => trivial
  | fault name => exact hsound
  | done gone' =>
    obtain ⟨hbranch, houtside, hkeeps⟩ := hsound
    refine ⟨fun name hname => ?_, houtside, fun name var hvar => ?_⟩
    · obtain ⟨var, hvar, hcopy, -⟩ := hfollows name hname
      obtain ⟨var', hvar', -, hgone⟩ := hbranch name hname
      by_cases hin : name ∈ gone'
      · obtain ⟨merged, hmerged, hcopy', hstate⟩ := mergeArms_moved hmem hvar hvar' (hgone hin)
        exact ⟨merged, hmerged, hcopy'.trans hcopy, fun _ => hstate⟩
      · obtain ⟨merged, hmerged, hcopy'⟩ := get?_mergeArms_some branches hvar
        exact ⟨merged, hmerged, hcopy'.trans hcopy, fun h => absurd h hin⟩
    · obtain ⟨var', hvar', -, hmoved⟩ := hkeeps name var hvar
      by_cases hstate : var.state = .moved
      · obtain ⟨merged, hmerged, hcopy, hmerged'⟩ := mergeArms_moved hmem hvar hvar' (hmoved hstate)
        exact ⟨merged, hmerged, hcopy, fun _ => hmerged'⟩
      · obtain ⟨merged, hmerged, hcopy⟩ := get?_mergeArms_some branches hvar
        exact ⟨merged, hmerged, hcopy, fun h => absurd h hstate⟩

/-- The names of a pattern hide variables that stay as they are. -/
theorem sound_outside {owned gone : Finset String} {pattern : Pattern} {before branch : Variables} {o : Outcome}
    (hfollows : Follows owned gone before) (h : Sound (outside owned pattern) gone before branch o) :
    Sound owned gone before branch o := by
  cases o with
  | returned => trivial
  | fault name => exact h
  | done gone' =>
    obtain ⟨hbranch, houtside, hkeeps⟩ := h
    have hsub : ∀ name, name ∉ owned → name ∉ outside owned pattern := by
      intro name hname hmem
      exact hname (Finset.mem_sdiff.mp hmem).1
    refine ⟨fun name hname => ?_, fun name hname => houtside name (hsub name hname), hkeeps⟩
    by_cases hin : name ∈ outside owned pattern
    · exact hbranch name hin
    · exact ((hfollows name hname).keeps (hkeeps name)).congr (houtside name hin).mp

theorem Follows.outside {owned gone : Finset String} {vars : Variables} (h : Follows owned gone vars) (pattern : Pattern) :
    Follows (Affine.outside owned pattern) gone vars := fun name hname => h name (Finset.mem_sdiff.mp hname).1

/-! ## Blocks -/

/-- What a name will stand for at the end of the block. -/
def view (shadowed : OrdMap String (Option Variable)) (vars : Variables) (name : String) : Option Variable :=
  match shadowed.get? name with
  | some saved => saved
  | none       => vars.get? name

theorem foldl_restore_keeps : ∀ (entries : List (String × Option Variable)) (c : Checker) (name : String),
    (entries.map (·.1)).Nodup →
    KeepsAt (match OrdMap.lookup name entries with
      | some saved => saved
      | none       => c.vars.get? name)
    ((entries.foldl (fun c e =>
      let c := c.releaseBorrow e.1
      match e.2 with
      | some var => { c with vars := c.vars.insert e.1 var }
      | none     => { c with vars := c.vars.erase e.1 }) c).vars.get? name)
  | [], _, _, _ => .refl _
  | (key, saved) :: entries, c, name, hnodup => by
    rw [List.map_cons, List.nodup_cons] at hnodup
    rw [List.foldl_cons]
    refine KeepsAt.trans ?_ (foldl_restore_keeps entries _ name hnodup.2)
    by_cases hkey : key = name
    · subst hkey
      have hnone : OrdMap.lookup key entries = none := OrdMap.lookup_eq_none_of_notMem hnodup.1
      simp only [OrdMap.lookup, if_true, hnone]
      cases saved with
      | none => exact fun _ h => by cases h
      | some var =>
        rw [OrdMap.get?_insert, if_pos rfl]
        exact .refl _
    · have hlookup : OrdMap.lookup name ((key, saved) :: entries) = OrdMap.lookup name entries := by
        simp [OrdMap.lookup, hkey]
      rw [hlookup]
      cases OrdMap.lookup name entries with
      | some saved' => exact .refl _
      | none =>
        cases saved with
        | none =>
          dsimp only
          rw [OrdMap.get?_erase, if_neg hkey]
          exact releaseBorrow_keeps c key name
        | some var =>
          dsimp only
          rw [OrdMap.get?_insert, if_neg hkey]
          exact releaseBorrow_keeps c key name

theorem restore_keeps (c : Checker) (shadowed : OrdMap String (Option Variable)) (name : String) :
    KeepsAt (view shadowed c.vars name) ((c.restore shadowed).vars.get? name) :=
  foldl_restore_keeps shadowed.entries c name (OrdMap.nodup_keys shadowed)

theorem checkStatements_shadowed {name : String} {saved : Option Variable} : ∀ (statements : List Statement) (index : Nat)
    (lastUses : Uses) (shadowed : OrdMap String (Option Variable)) (c : Checker), shadowed.get? name = some saved →
    (checkStatements statements index lastUses shadowed c).1.get? name = some saved
  | [], _, _, _, _, h => h
  | .let_ key ty value _ :: rest, index, lastUses, shadowed, c, h => by
    refine checkStatements_shadowed rest _ _ _ _ ?_
    split
    · exact h
    · rename_i hnew
      have hne : key ≠ name := by
        rintro rfl
        simp [OrdMap.contains, h] at hnew
      rw [OrdMap.get?_insert, if_neg hne]
      exact h
  | .return_ (some _) _ :: rest, _, _, _, _, h => checkStatements_shadowed rest _ _ _ _ h
  | .return_ none _ :: rest, _, _, _, _, h => checkStatements_shadowed rest _ _ _ _ h
  | .expression _ _ :: rest, _, _, _, _, h => checkStatements_shadowed rest _ _ _ _ h

/-- `Sound` for the rest of a block: of the names it has shadowed before nothing is said, they come back with their block. -/
def SoundIn (owned gone : Finset String) (shadowed shadowed' : OrdMap String (Option Variable)) (vars vars' : Variables) :
    Outcome → Prop
  | .done gone' =>
    (∀ name ∈ owned, shadowed.get? name = none → FollowsAt gone' name (view shadowed' vars' name)) ∧
    (∀ name, name ∉ owned → (name ∈ gone' ↔ name ∈ gone)) ∧
    ∀ name, shadowed.get? name = none → KeepsAt (vars.get? name) (view shadowed' vars' name)
  | .returned   => True
  | .fault _    => False

theorem expressionIsCopy_false {owned gone : Finset String} {vars : Variables} (hfollows : Follows owned gone vars) :
    ∀ value : Expr, looksCopy owned none value = false → expressionIsCopy vars value = false := by
  have hname : ∀ name, decide (name ∉ owned) = false → variableIsCopy vars name = false := by
    intro name hnot
    obtain ⟨var, hget, hcopy, -⟩ := hfollows name (by simpa using hnot)
    simp [variableIsCopy, hget, hcopy]
  rintro ⟨kind, span⟩ h
  cases kind with
  | borrow mutable operand => exact h
  | array items => rfl
  | literal literal =>
    cases literal with
    | string text => rfl
    | identifier name => exact hname name h
    | boolean value => cases h
    | integer text => cases h
    | float text => cases h
  | path segments =>
    match segments, h with
    | [name], h => exact hname name h
    | [], h => cases h
    | _ :: _ :: _, h => cases h
  | await operand => cases h
  | call callee arguments => cases h
  | field base name => cases h
  | unary operator operand => cases h
  | binary operator left right => cases h
  | match_ value arms => cases h
  | block block => cases h

/-- The flag `declare` gives a variable. -/
def copyFlag (vars : Variables) : Option TypeNode → Expr → Bool
  | some ty, _  => typeIsCopy ty
  | none, value => expressionIsCopy vars value

/-- A `let` that does not look `Copy` is not flagged so. -/
theorem copyFlag_false {owned gone : Finset String} {vars : Variables} (hfollows : Follows owned gone vars)
    {ty : Option TypeNode} {value : Expr} (h : looksCopy owned ty value = false) : copyFlag vars ty value = false := by
  cases ty with
  | some ty => exact h
  | none => exact expressionIsCopy_false hfollows value h

theorem get?_declare (c : Checker) (name : String) (ty : Option TypeNode) (value : Expr) :
    ∃ var, (c.declare name ty value).vars.get? name = some var ∧ var.copy = copyFlag c.vars ty value := by
  unfold Checker.declare
  simp only [OrdMap.get?_insert, if_true]
  cases ty <;> exact ⟨_, rfl, rfl⟩

theorem mem_shadow_of_ne {owned : Finset String} {name other : String} {ty : ResolvedType} (h : other ≠ name) :
    other ∈ shadow owned name ty ↔ other ∈ owned := by
  unfold shadow
  split <;> simp [h]

/-- **A `let`**: its variable is fresh in the rest of the block. -/
theorem follows_declare {owned gone : Finset String} {c : Checker} {name : String} {ty : Option TypeNode} {value : Expr}
    {resolved : ResolvedType} (hfollows : Follows owned gone c.vars)
    (hplain : isCopy resolved = true ∨ looksCopy owned ty value = false) (lastUses : Uses) (index : Nat) :
    Follows (shadow owned name resolved) (gone.erase name) ((c.declare name ty value).endBorrows lastUses index).vars := by
  intro other hother
  refine FollowsAt.keeps ?_ (endBorrows_keeps _ lastUses index other)
  by_cases heq : other = name
  · subst heq
    have hnot : isCopy resolved = false := by
      rw [← Bool.not_eq_true]
      intro hcopy
      simp [shadow, hcopy] at hother
    obtain ⟨var, hget, hcopy⟩ := get?_declare c other ty value
    refine ⟨var, hget, hcopy.trans (copyFlag_false hfollows (hplain.resolve_left (by simp [hnot]))), fun hgone => ?_⟩
    exact absurd hgone (Finset.notMem_erase other gone)
  · refine ((hfollows other ((mem_shadow_of_ne heq).mp hother)).keeps ?_).congr Finset.mem_of_mem_erase
    exact declare_keeps c ty value fun h => heq h.symm

/-- What the rest of the block leaves, with the shadowed variable back. -/
theorem soundIn_unshadow {owned gone : Finset String} {shadowed shadowed₁ shadowed' : OrdMap String (Option Variable)}
    {vars vars₁ vars' : Variables} {name : String} {resolved : ResolvedType} {o : Outcome}
    (hfollows : Follows owned gone vars)
    (hshadowed : ∀ other, name ≠ other → shadowed.get? other = none → shadowed₁.get? other = none)
    (hsaved : shadowed.get? name = none → shadowed'.get? name = some (vars.get? name))
    (hkeeps : ∀ other, name ≠ other → KeepsAt (vars.get? other) (vars₁.get? other))
    (h : SoundIn (shadow owned name resolved) (gone.erase name) shadowed₁ shadowed' vars₁ vars' o) :
    SoundIn owned gone shadowed shadowed' vars vars' (o.unshadow name gone) := by
  cases o with
  | returned => trivial
  | fault name => exact h
  | done gone' =>
    obtain ⟨hrest, houtside, hkept⟩ := h
    have hback : ∀ other, (other ∈ if name ∈ gone then insert name gone' else gone'.erase name) ↔
        if other = name then name ∈ gone else other ∈ gone' := by
      intro other
      by_cases heq : other = name
      · subst heq
        by_cases hin : other ∈ gone <;> simp [hin]
      · by_cases hin : name ∈ gone <;> simp [hin, heq]
    refine ⟨fun other hother hnone => ?_, fun other hother => ?_, fun other hnone => ?_⟩
    · by_cases heq : other = name
      · subst heq
        rw [view, hsaved hnone]
        refine (hfollows other hother).congr fun hmem => ?_
        simpa using (hback other).mp hmem
      · refine (hrest other ((mem_shadow_of_ne heq).mpr hother) (hshadowed other (fun h => heq h.symm) hnone)).congr
          fun hmem => ?_
        simpa [heq] using (hback other).mp hmem
    · rw [hback other]
      by_cases heq : other = name
      · rw [if_pos heq, heq]
      · rw [if_neg heq, houtside other fun hmem => hother ((mem_shadow_of_ne heq).mp hmem)]
        simp [heq]
    · by_cases heq : other = name
      · subst heq
        rw [view, hsaved hnone]
        exact .refl _
      · have hne : name ≠ other := fun h => heq h.symm
        exact (hkeeps other hne).trans (hkept other (hshadowed other hne hnone))

theorem soundIn_of_keeps {owned gone : Finset String} {shadowed shadowed' : OrdMap String (Option Variable)}
    {vars vars₁ vars' : Variables} {o : Outcome} (hkeeps : Keeps vars vars₁)
    (h : SoundIn owned gone shadowed shadowed' vars₁ vars' o) : SoundIn owned gone shadowed shadowed' vars vars' o := by
  cases o with
  | returned => trivial
  | fault name => exact h
  | done gone' => exact ⟨h.1, h.2.1, fun name hnone => (hkeeps name).trans (h.2.2 name hnone)⟩

theorem soundIn_andThen {owned gone : Finset String} {shadowed shadowed' : OrdMap String (Option Variable)}
    {vars vars₁ vars' : Variables} {first : List Outcome} {next : Finset String → List Outcome}
    (hfirst : ∀ o ∈ first, Sound owned gone vars vars₁ o)
    (hnext : ∀ gone', Follows owned gone' vars₁ → ∀ o ∈ next gone', SoundIn owned gone' shadowed shadowed' vars₁ vars' o) :
    ∀ o ∈ andThen first next, SoundIn owned gone shadowed shadowed' vars vars' o := by
  intro o ho
  obtain ⟨o', ho', ho⟩ := List.mem_flatMap.mp ho
  have hsound := hfirst o' ho'
  cases o' with
  | done gone' =>
    obtain ⟨hfollows, houtside, hkeeps⟩ := hsound
    have hsound' := hnext gone' hfollows o ho
    cases o with
    | done gone'' =>
      obtain ⟨hview, houtside', hkept⟩ := hsound'
      exact ⟨hview, fun name hname => (houtside' name hname).trans (houtside name hname),
        fun name hnone => (hkeeps name).trans (hkept name hnone)⟩
    | returned => trivial
    | fault name => exact hsound'
  | returned =>
    cases List.mem_singleton.mp ho
    trivial
  | fault name => exact hsound.elim

/-! ## The walk -/

/-- The names shadowed after a `let`. -/
def shadowAlso (shadowed : OrdMap String (Option Variable)) (vars : Variables) (name : String) : OrdMap String (Option Variable) :=
  if shadowed.contains name then shadowed else shadowed.insert name (vars.get? name)

theorem shadowAlso_other {shadowed : OrdMap String (Option Variable)} {vars : Variables} {name other : String}
    (hne : name ≠ other) (hnone : shadowed.get? other = none) : (shadowAlso shadowed vars name).get? other = none := by
  unfold shadowAlso
  split
  · exact hnone
  · rw [OrdMap.get?_insert, if_neg hne]
    exact hnone

theorem shadowAlso_self {shadowed : OrdMap String (Option Variable)} {vars : Variables} {name : String}
    (hnone : shadowed.get? name = none) : (shadowAlso shadowed vars name).get? name = some (vars.get? name) := by
  simp [shadowAlso, OrdMap.contains, hnone]

section
variable (a : Analyzer) (asyncContext : Bool)

mutual
theorem sound_checkExpr : ∀ (e : Expr) (mode : UseMode) (scope : Scope) (owned gone : Finset String) (c : Checker),
    ExprPlain a asyncContext e scope owned → Follows owned gone c.vars → Quiet (checkExpr e mode c) →
    ∀ o ∈ exprPaths a asyncContext e mode scope owned gone, Sound owned gone c.vars (checkExpr e mode c).vars o
  | .mk (.borrow mutable operand) _, _, scope, owned, gone, c, hplain, hfollows, hquiet => by
    obtain ⟨name, hname⟩ := Option.isSome_iff_exists.mp hplain
    intro o ho
    rw [exprPaths, placePaths hname] at ho
    cases List.mem_singleton.mp ho
    exact sound_borrow hname hfollows hquiet
  | .mk (.await operand) span, mode, scope, owned, gone, c, hplain, hfollows, hquiet => by
    rw [checkExpr, checkSuspension_vars]
    exact sound_checkExpr operand mode scope owned gone c hplain hfollows (quiet_checkSuspension hquiet)
  | .mk (.literal (.identifier _)) _, _, _, _, _, _, _, hfollows, hquiet => by
    intro o ho
    cases List.mem_singleton.mp ho
    exact sound_use hfollows hquiet
  | .mk (.literal (.string _)) _, _, _, _, _, _, _, hfollows, _ => fun o ho => by
    cases List.mem_singleton.mp ho
    exact .stay hfollows (.refl _)
  | .mk (.literal (.boolean _)) _, _, _, _, _, _, _, hfollows, _ => fun o ho => by
    cases List.mem_singleton.mp ho
    exact .stay hfollows (.refl _)
  | .mk (.literal (.integer _)) _, _, _, _, _, _, _, hfollows, _ => fun o ho => by
    cases List.mem_singleton.mp ho
    exact .stay hfollows (.refl _)
  | .mk (.literal (.float _)) _, _, _, _, _, _, _, hfollows, _ => fun o ho => by
    cases List.mem_singleton.mp ho
    exact .stay hfollows (.refl _)
  | .mk (.path [_]) _, _, _, _, _, _, _, hfollows, hquiet => by
    intro o ho
    cases List.mem_singleton.mp ho
    exact sound_use hfollows hquiet
  | .mk (.path []) _, _, _, _, _, _, _, hfollows, _ => fun o ho => by
    cases List.mem_singleton.mp ho
    exact .stay hfollows (.refl _)
  | .mk (.path (_ :: _ :: _)) _, _, _, _, _, _, _, hfollows, _ => fun o ho => by
    cases List.mem_singleton.mp ho
    exact .stay hfollows (.refl _)
  | .mk (.array items) _, _, scope, owned, gone, c, hplain, hfollows, hquiet =>
    sound_checkItems items scope owned gone c hplain hfollows hquiet
  | .mk (.call callee arguments) _, _, scope, owned, gone, c, hplain, hfollows, hquiet => by
    refine sound_andThen (sound_checkExpr callee .read scope owned gone c hplain.1 hfollows
      (quiet_checkArguments arguments _ hquiet)) fun gone' hfollows' => ?_
    exact sound_checkArguments arguments scope owned gone' _ hplain.2 hfollows' hquiet
  | .mk (.field base _) _, mode, scope, owned, gone, c, hplain, hfollows, hquiet =>
    sound_checkExpr base mode scope owned gone c hplain hfollows hquiet
  | .mk (.unary _ operand) _, mode, scope, owned, gone, c, hplain, hfollows, hquiet =>
    sound_checkExpr operand mode scope owned gone c hplain hfollows hquiet
  | .mk (.binary _ left right) _, _, scope, owned, gone, c, hplain, hfollows, hquiet => by
    refine sound_andThen (sound_checkExpr left .read scope owned gone c hplain.1 hfollows
      (quiet_checkExpr right .read _ hquiet)) fun gone' hfollows' => ?_
    exact sound_checkExpr right .read scope owned gone' _ hplain.2 hfollows' hquiet
  | .mk (.match_ value arms) _, _, scope, owned, gone, c, hplain, hfollows, hquiet => by
    refine sound_andThen (sound_checkExpr value .consume scope owned gone c hplain.1 hfollows
      (quiet_checkArms arms _ _ hquiet)) fun gone' hfollows' o ho => ?_
    exact sound_merge hfollows' (sound_checkArms arms _ scope owned gone' _ _ hplain.2 hfollows' hquiet o ho)
  | .mk (.block (.mk statements _)) _, _, scope, owned, gone, c, hplain, hfollows, hquiet => by
    intro o ho
    have hsound := sound_checkStatements statements 0 (Ownership.statementUses statements 0 .empty) .empty scope owned gone c
      hplain hfollows ((restore_diagnostics _ _).symm.trans hquiet) o ho
    cases o with
    | returned => trivial
    | fault name => exact hsound
    | done gone' =>
      obtain ⟨hview, houtside, hkept⟩ := hsound
      exact ⟨fun name hname => (hview name hname rfl).keeps (restore_keeps _ _ name), houtside,
        fun name => (hkept name rfl).trans (restore_keeps _ _ name)⟩
theorem sound_checkItems : ∀ (items : List Expr) (scope : Scope) (owned gone : Finset String) (c : Checker),
    ItemsPlain a asyncContext items scope owned → Follows owned gone c.vars → Quiet (checkItems items c) →
    ∀ o ∈ itemPaths a asyncContext items scope owned gone, Sound owned gone c.vars (checkItems items c).vars o
  | [], _, _, _, _, _, hfollows, _ => fun o ho => by
    cases List.mem_singleton.mp ho
    exact .stay hfollows (.refl _)
  | item :: items, scope, owned, gone, c, hplain, hfollows, hquiet => by
    refine sound_andThen (sound_checkExpr item .consume scope owned gone c hplain.1 hfollows
      (quiet_checkItems items _ hquiet)) fun gone' hfollows' => ?_
    exact sound_checkItems items scope owned gone' _ hplain.2 hfollows' hquiet
theorem sound_checkArguments : ∀ (arguments : List CallArgument) (scope : Scope) (owned gone : Finset String) (c : Checker),
    ArgumentsPlain a asyncContext arguments scope owned → Follows owned gone c.vars → Quiet (checkArguments arguments c) →
    ∀ o ∈ argumentPaths a asyncContext arguments scope owned gone, Sound owned gone c.vars (checkArguments arguments c).vars o
  | [], _, _, _, _, _, hfollows, _ => fun o ho => by
    cases List.mem_singleton.mp ho
    exact .stay hfollows (.refl _)
  | .mk _ value _ :: arguments, scope, owned, gone, c, hplain, hfollows, hquiet => by
    refine sound_andThen (sound_checkExpr value .consume scope owned gone c hplain.1 hfollows
      (quiet_checkArguments arguments _ hquiet)) fun gone' hfollows' => ?_
    exact sound_checkArguments arguments scope owned gone' _ hplain.2 hfollows' hquiet
theorem sound_checkArms : ∀ (arms : List MatchArm) (valueType : ResolvedType) (scope : Scope) (owned gone : Finset String)
    (before : Variables) (c : Checker), ArmsPlain a asyncContext arms valueType scope owned → Follows owned gone before →
    Quiet (checkArms arms before c).2 → ∀ o ∈ armPaths a asyncContext arms valueType scope owned gone,
    ∃ branch ∈ (checkArms arms before c).1, Sound owned gone before branch o
  | [], _, _, _, _, _, _, _, _, _ => fun _ ho => by cases ho
  | .mk pattern none body _ :: arms, valueType, scope, owned, gone, before, c, hplain, hfollows, hquiet => by
    intro o ho
    rcases List.mem_append.mp ho with ho | ho
    · obtain ⟨branch, hmem, hsound⟩ := sound_checkArms arms valueType scope owned gone before _ hplain.2 hfollows hquiet o ho
      exact ⟨branch, List.mem_cons_of_mem _ hmem, hsound⟩
    · refine ⟨_, List.mem_cons_self, @sound_outside _ _ pattern _ _ _ hfollows ?_⟩
      exact sound_checkExpr body .consume _ _ gone { c with vars := before } hplain.1 (hfollows.outside pattern)
        (quiet_checkArms arms before _ hquiet) o ho
  | .mk pattern (some guard) body span :: arms, valueType, scope, owned, gone, before, c, hplain, hfollows, hquiet => by
    obtain ⟨hguard, hspares, hbody, harms⟩ := hplain
    have hquietBody := quiet_checkArms arms before _ hquiet
    have hsoundGuard := sound_checkExpr guard .read (checkPattern a pattern valueType scope).value (outside owned pattern) gone
      { c with vars := before } hguard (hfollows.outside pattern) (quiet_checkExpr body .consume _ hquietBody)
    have hlater : ∀ o ∈ armPaths a asyncContext arms valueType scope owned gone,
        ∃ branch ∈ (checkArms (.mk pattern (some guard) body span :: arms) before c).1, Sound owned gone before branch o := by
      intro o ho
      obtain ⟨branch, hmem, hsound⟩ := sound_checkArms arms valueType scope owned gone before _ harms hfollows hquiet o ho
      exact ⟨branch, List.mem_cons_of_mem _ hmem, hsound⟩
    intro o ho
    rcases List.mem_append.mp ho with ho | ho
    · exact hlater o ho
    · obtain ⟨o', ho', ho⟩ := List.mem_flatMap.mp ho
      have hsound := hsoundGuard o' ho'
      cases o' with
      | fault name => exact hsound.elim
      | returned =>
        cases List.mem_singleton.mp ho
        exact ⟨_, List.mem_cons_self, trivial⟩
      | done gone' =>
        -- the guard has consumed nothing, so the next arm starts where the checker starts it
        cases hspares gone gone' ho'
        rcases List.mem_append.mp ho with ho | ho
        · refine ⟨_, List.mem_cons_self, @sound_outside _ _ pattern _ _ _ hfollows ?_⟩
          have hsoundBody := sound_checkExpr body .consume (checkPattern a pattern valueType scope).value
            (outside owned pattern) gone _ hbody hsound.1 hquietBody o ho
          cases o with
          | returned => trivial
          | fault name => exact hsoundBody
          | done gone'' => exact ⟨hsoundBody.1, hsoundBody.2.1, hsound.2.2.trans hsoundBody.2.2⟩
        · exact hlater o ho
theorem sound_checkStatements : ∀ (statements : List Statement) (index : Nat) (lastUses : Uses)
    (shadowed : OrdMap String (Option Variable)) (scope : Scope) (owned gone : Finset String) (c : Checker),
    StatementsPlain a asyncContext statements scope owned → Follows owned gone c.vars →
    Quiet (checkStatements statements index lastUses shadowed c).2 →
    ∀ o ∈ statementPaths a asyncContext statements scope owned gone,
    SoundIn owned gone shadowed (checkStatements statements index lastUses shadowed c).1 c.vars
      (checkStatements statements index lastUses shadowed c).2.vars o
  | [], _, _, shadowed, _, _, _, c, _, hfollows, _ => fun o ho => by
    cases List.mem_singleton.mp ho
    have hview : ∀ name, shadowed.get? name = none → view shadowed c.vars name = c.vars.get? name := by
      intro name hnone
      rw [view, hnone]
    refine ⟨fun name hname hnone => ?_, fun _ _ => Iff.rfl, fun name hnone => ?_⟩
    · rw [checkStatements, hview name hnone]
      exact hfollows name hname
    · rw [checkStatements, hview name hnone]
      exact .refl _
  | .let_ name ty value _ :: rest, index, lastUses, shadowed, scope, owned, gone, c, hplain, hfollows, hquiet => by
    obtain ⟨hvalue, hlooks, hrest⟩ := hplain
    have hquietRest := quiet_checkStatements rest _ _ _ _ hquiet
    rw [Quiet, endBorrows_diagnostics, declare_diagnostics] at hquietRest
    refine soundIn_andThen (sound_checkExpr value .consume scope owned gone c hvalue hfollows hquietRest)
      fun gone' hfollows' o ho => ?_
    obtain ⟨o', ho', rfl⟩ := List.mem_map.mp ho
    have hsound := sound_checkStatements rest (index + 1) lastUses (shadowAlso shadowed (checkExpr value .consume c).vars name) _ _
      _ _ hrest (follows_declare hfollows' hlooks lastUses index) hquiet o' ho'
    refine soundIn_unshadow hfollows' (fun other hne hnone => shadowAlso_other hne hnone) (fun hnone => ?_)
      (fun other hne => (declare_keeps _ ty value hne).trans (endBorrows_keeps _ lastUses index other)) hsound
    exact checkStatements_shadowed rest _ _ _ _ (shadowAlso_self hnone)
  | .return_ (some value) _ :: rest, _, _, _, scope, owned, gone, c, hplain, hfollows, hquiet => by
    have hquietRest := quiet_checkStatements rest _ _ _ _ hquiet
    rw [Quiet, endBorrows_diagnostics] at hquietRest
    have hvalue := sound_checkExpr value .consume scope owned gone (c.checkReturnEscape value) hplain.1
      (by rwa [checkReturnEscape_vars]) hquietRest
    rw [checkReturnEscape_vars] at hvalue
    refine soundIn_andThen hvalue fun _ _ o ho => ?_
    cases List.mem_singleton.mp ho
    trivial
  | .return_ none _ :: _, _, _, _, _, _, _, _, _, _, _ => fun o ho => by
    cases List.mem_singleton.mp ho
    trivial
  | .expression e _ :: rest, index, lastUses, shadowed, scope, owned, gone, c, hplain, hfollows, hquiet => by
    have hquietRest := quiet_checkStatements rest _ _ _ _ hquiet
    rw [Quiet, endBorrows_diagnostics] at hquietRest
    refine soundIn_andThen (sound_checkExpr e .consume scope owned gone c hplain.1 hfollows hquietRest)
      fun gone' hfollows' o ho => ?_
    have hkeeps := endBorrows_keeps (checkExpr e .consume c) lastUses index
    exact soundIn_of_keeps hkeeps (sound_checkStatements rest (index + 1) lastUses shadowed scope owned gone' _ hplain.2
      (hfollows'.keeps hkeeps) hquiet o ho)
end

end

/-! ## Functions -/

/-- The variables a function starts with. -/
def parameterVariables (node : FunctionNode) : Variables :=
  OrdMap.ofList (node.parameters.map fun parameter =>
    (parameter.name, (⟨.available, typeIsCopy parameter.ty, .parameter, none⟩ : Variable)))

theorem checkSignatureRegions_vars (node : FunctionNode) (c : Checker) :
    (Ownership.checkSignatureRegions node c).vars = c.vars := by
  unfold Ownership.checkSignatureRegions
  split
  · dsimp only
    split <;> split <;> rfl
  · rfl

theorem mem_ownedParameters {a : Analyzer} {node : FunctionNode} {name : String}
    (h : name ∈ ownedParameters (signatureScope a node)) : name ∈ node.parameters.map (·.name) := by
  unfold ownedParameters at h
  obtain ⟨⟨key, ty⟩, hmem, hkey⟩ := List.mem_filterMap.mp (List.mem_toFinset.mp h)
  split at hkey
  · cases hkey
  · cases hkey
    exact (List.of_mem_zip (OrdMap.mem_of_get?_ofList (OrdMap.get?_eq_some_iff.mpr hmem))).1

theorem follows_parameters {a : Analyzer} {node : FunctionNode} (h : FunctionPlain a node) :
    Follows (ownedParameters (signatureScope a node)) ∅ (parameterVariables node) := by
  intro name hname
  obtain ⟨var, hget⟩ : ∃ var, (parameterVariables node).get? name = some var := by
    refine OrdMap.exists_get?_ofList ?_
    simpa using mem_ownedParameters hname
  obtain ⟨parameter, hparameter, heq⟩ := List.mem_map.mp (OrdMap.mem_of_get?_ofList hget)
  cases heq
  exact ⟨_, hget, h.parameters parameter hparameter hname, fun hgone => absurd hgone (Finset.notMem_empty _)⟩

section
variable (line : Nat)

/-- A token on its own line. -/
def at_ (column width : Nat) : Span := ⟨100 * line + column, 100 * line + column + width, line, column, line, column + width⟩

def name (text : String) (column : Nat) : Expr := .mk (.literal (.identifier text)) (at_ line column text.length)

def callOf (callee argument : String) (column : Nat) : Expr :=
  .mk (.call (name line callee column) [.mk none (name line argument (column + callee.length + 1))
    (at_ line (column + callee.length + 1) argument.length)]) (at_ line column (callee.length + argument.length + 2))

def stringNode (column : Nat) : TypeNode := .path ["String"] [] (at_ line column 6)

end

/-- `fn make() -> String { "a" }` -/
def makeNode : FunctionNode :=
  ⟨false, false, "make", [], some (stringNode 1 14), none,
    .mk [.expression (.mk (.literal (.string "a")) (at_ 1 23 3)) (at_ 1 23 3)] (at_ 1 21 7), at_ 1 1 27⟩

/-- `fn take(value: String) {}` -/
def takeNode : FunctionNode :=
  ⟨false, false, "take", [⟨"value", stringNode 2 16, at_ 2 9 13⟩], none, none, .mk [] (at_ 2 24 2), at_ 2 1 25⟩

/-- `fn once(value: String) { let held = value`, and it is taken. -/
def onceNode : FunctionNode :=
  ⟨false, false, "once", [⟨"value", stringNode 3 16, at_ 3 9 13⟩], none, none,
    .mk [.let_ "held" none (name 4 "value" 14) (at_ 4 3 16), .expression (callOf 5 "take" "held" 3) (at_ 5 3 10)] (at_ 3 24 40),
    at_ 3 1 60⟩

/-- `fn twice() { let held = make()`, and it is taken twice. -/
def twiceNode : FunctionNode :=
  ⟨false, false, "twice", [], none, none,
    .mk [.let_ "held" none (.mk (.call (name 7 "make" 14) []) (at_ 7 14 6)) (at_ 7 3 17),
      .expression (callOf 8 "take" "held" 3) (at_ 8 3 10), .expression (callOf 9 "take" "held" 3) (at_ 9 3 10)] (at_ 6 12 60),
    at_ 6 1 80⟩

def handedOver (last : FunctionNode) : SourceFile :=
  ⟨none, [], [.function makeNode, .function takeNode, .function last], at_ 1 1 200⟩

end Affine
end Syllog
