import Syllog.HirTypes
import Syllog.Formed
/-!
# Places — positions tell the expressions of a text apart

Two expressions of a text have different spans: either one comes behind the other, or one is inside the other and takes less.  The
scope an expression is inferred in depends on where it is and not on what the context expects of it, so the two visits of a
constructor's first argument see one scope.  What inference records for a span is of one expression (`spansTell_of_formed`).
-/
namespace Syllog
namespace Semantic

open Hir Ast Syl Peg AstLower

/-! ## Places of a text -/

theorem byteLength_append (s t : List Char) : byteLength (s ++ t) = byteLength s + byteLength t := by
  induction s with
  | nil => rw [List.nil_append, byteLength, Nat.zero_add]
  | cons c s ih => rw [List.cons_append, byteLength, byteLength, ih, Nat.add_assoc]

section
variable {input : List Char}

/-- Later places are further on in bytes. -/
theorem byteLength_take_lt {x y : Nat} (hlt : x < y) (hy : y ≤ input.length) :
    byteLength (input.take x) < byteLength (input.take y) := by
  obtain ⟨k, rfl⟩ := Nat.exists_eq_add_of_lt hlt
  have hsplit : input.take (x + k + 1) = input.take x ++ (input.drop x).take (k + 1) := by
    rw [Nat.add_assoc, List.take_add]
  rw [hsplit, byteLength_append]
  have hne : (input.drop x).take (k + 1) ≠ [] := by
    intro h
    have hlength := congrArg List.length h
    rw [List.length_take, List.length_drop, List.length_nil] at hlength
    omega
  obtain ⟨c, cs, hcs⟩ := List.exists_cons_of_ne_nil hne
  have hpos := c.utf8Size_pos
  rw [hcs, byteLength]
  omega

theorem place_inj {x y : Nat} (hx : x ≤ input.length) (hy : y ≤ input.length)
    (h : byteLength (input.take x) = byteLength (input.take y)) : x = y := by
  by_contra hne
  rcases Nat.lt_or_gt_of_ne hne with hlt | hlt
  · exact absurd h (Nat.ne_of_lt (byteLength_take_lt hlt hy))
  · exact absurd h.symm (Nat.ne_of_lt (byteLength_take_lt hlt hx))

theorem spanOf_inj {x y x' y' : Nat} (hx : x < y) (hy : y ≤ input.length) (hx' : x' < y') (hy' : y' ≤ input.length)
    (h : spanOf input x y = spanOf input x' y') : x = x' ∧ y = y' :=
  ⟨place_inj (by omega) (by omega) (congrArg Span.start h), place_inj hy hy' (congrArg Span.stop h)⟩

/-! ## Where visits go -/

/-- The visit is to a part of the text between two places. -/
def Between (input : List Char) (lo hi : Nat) (v : Visit) : Prop := ∃ x y, Placed input v.expression.span lo x y hi

/-- And not to all that is between them. -/
def Inside (input : List Char) (a b : Nat) (v : Visit) : Prop := Between input (a + 1) b v ∨ ∃ mid < b, Between input a mid v

theorem Between.widen {lo hi lo' hi' : Nat} {v : Visit} (h : Between input lo hi v) (hlo : lo' ≤ lo) (hhi : hi ≤ hi') :
    Between input lo' hi' v := by
  obtain ⟨x, y, hplaced⟩ := h
  exact ⟨x, y, hplaced.widen hlo hhi⟩

theorem Inside.between {a b : Nat} {v : Visit} (h : Inside input a b v) : Between input a b v := by
  rcases h with h | h
  · exact h.widen (Nat.le_succ a) (Nat.le_refl _)
  · obtain ⟨mid, hlt, h⟩ := h
    exact h.widen (Nat.le_refl _) (Nat.le_of_lt hlt)

/-- Two visits to one span are to one expression, in one scope. -/
def Alike (v w : Visit) : Prop :=
  v.expression.span = w.expression.span → v.asyncContext = w.asyncContext ∧ v.expression = w.expression ∧ v.scope = w.scope

theorem Alike.symm {v w : Visit} (h : Alike v w) : Alike w v := by
  intro heq
  obtain ⟨hasync, hexpression, hscope⟩ := h heq.symm
  exact ⟨hasync.symm, hexpression.symm, hscope.symm⟩

theorem alike_of_apart {lo mid hi : Nat} {v w : Visit} (hv : Between input lo mid v) (hw : Between input mid hi w)
    (hend : hi ≤ input.length) : Alike v w := by
  intro heq
  obtain ⟨x, y, hlo, hxy, hy, hvspan⟩ := hv
  obtain ⟨x', y', hlo', hxy', hy', hwspan⟩ := hw
  obtain ⟨rfl, rfl⟩ := spanOf_inj hxy (by omega) hxy' (by omega) (hvspan.symm.trans (heq.trans hwspan))
  omega

theorem alike_of_inside {a b : Nat} {v w : Visit} (hv : Inside input a b v) (hab : a < b) (hend : b ≤ input.length)
    (hw : w.expression.span = spanOf input a b) : Alike v w := by
  intro heq
  rcases hv with hv | hv
  · obtain ⟨x, y, hlo, hxy, hy, hvspan⟩ := hv
    obtain ⟨rfl, rfl⟩ := spanOf_inj hxy (by omega) hab hend (hvspan.symm.trans (heq.trans hw))
    omega
  · obtain ⟨mid, hlt, x, y, hlo, hxy, hy, hvspan⟩ := hv
    obtain ⟨rfl, rfl⟩ := spanOf_inj hxy (by omega) hab hend (hvspan.symm.trans (heq.trans hw))
    omega

/-! ## The visits of an expression -/

section
variable {a : Analyzer} {asyncContext : Bool}

/-- A visit to an argument, whatever is expected of it. -/
def ArgumentVisit (a : Analyzer) (asyncContext : Bool) (scope : Scope) (v : Visit) : List CallArgument → Prop
  | []                => False
  | .mk _ value _ :: rest =>
    (∃ expected, v ∈ exprVisits a asyncContext value scope expected) ∨ ArgumentVisit a asyncContext scope v rest

theorem firstVisits_visit {arguments : List CallArgument} {scope : Scope} {v : Visit}
    (hv : v ∈ firstVisits a asyncContext arguments scope) : ArgumentVisit a asyncContext scope v arguments := by
  cases arguments with
  | nil => cases hv
  | cons argument rest =>
    cases argument with
    | mk name value span => exact .inl ⟨none, hv⟩

theorem untypedVisits_visit {arguments : List CallArgument} {scope : Scope} {v : Visit}
    (hv : v ∈ untypedVisits a asyncContext arguments scope) : ArgumentVisit a asyncContext scope v arguments := by
  induction arguments with
  | nil => cases hv
  | cons argument rest ih =>
    cases argument with
    | mk name value span =>
      rw [untypedVisits, List.mem_append] at hv
      rcases hv with hv | hv
      · exact .inl ⟨none, hv⟩
      · exact .inr (ih hv)

theorem argumentVisits_visit {arguments : List CallArgument} {types : List ResolvedType} {scope : Scope} {v : Visit}
    (hv : v ∈ argumentVisits a asyncContext arguments types scope) : ArgumentVisit a asyncContext scope v arguments := by
  induction arguments generalizing types with
  | nil =>
    rw [argumentVisits] at hv
    cases hv
  | cons argument rest ih =>
    cases argument with
    | mk name value span =>
      cases types with
      | nil =>
        rw [argumentVisits] at hv
        · cases hv
        · intros; contradiction
      | cons ty types =>
        rw [argumentVisits, List.mem_append] at hv
        rcases hv with hv | hv
        · exact .inl ⟨some ty, hv⟩
        · exact .inr (ih hv)

/-- A visit inside a call is to the expression that is called, or to an argument. -/
theorem callVisits_visit {callee : Expr} {arguments : List CallArgument} {span : Span} {scope : Scope}
    {expected : Option ResolvedType} {v : Visit}
    (hv : v ∈ kindVisits a asyncContext (.call callee arguments) span scope expected) :
    v ∈ exprVisits a asyncContext callee scope none ∨ ArgumentVisit a asyncContext scope v arguments := by
  by_cases hpath : ∃ segments span', callee = .mk (.path segments) span'
  · obtain ⟨segments, span', rfl⟩ := hpath
    rw [kindVisits, List.mem_append] at hv
    rcases hv with hv | hv
    · split_ifs at hv
      · exact .inr (firstVisits_visit hv)
      · cases hv
    · exact .inr (argumentVisits_visit hv)
  · rw [kindVisits_call (fun segments span' heq => hpath ⟨segments, span', heq⟩), List.mem_append] at hv
    rcases hv with hv | hv
    · exact .inl hv
    · split at hv
      · exact .inr (argumentVisits_visit hv)
      · exact .inr (untypedVisits_visit hv)

mutual
theorem exprVisits_between (e : Expr) {lo hi : Nat} (h : Expr.Formed input lo e hi) (scope : Scope)
    (expected : Option ResolvedType) : ∀ v ∈ exprVisits a asyncContext e scope expected, Between input lo hi v := by
  cases e with
  | mk kind span =>
    obtain ⟨x, y, hplaced, hkind⟩ := h
    intro v hv
    rw [exprVisits, List.mem_append, List.mem_singleton] at hv
    rcases hv with hv | rfl
    · exact (kindVisits_inside kind hkind span scope expected v hv).between.widen hplaced.1 hplaced.2.2.1
    · exact ⟨x, y, hplaced⟩

theorem kindVisits_inside (kind : ExprKind) {x y : Nat} (h : ExprKind.Formed input kind x y) (span : Span) (scope : Scope)
    (expected : Option ResolvedType) : ∀ v ∈ kindVisits a asyncContext kind span scope expected, Inside input x y v := by
  intro v hv
  cases kind with
  | borrow mutable operand => exact .inl (exprVisits_between operand h scope none v hv)
  | await operand => exact .inl (exprVisits_between operand h scope expected v hv)
  | literal literal => cases hv
  | path segments => cases hv
  | array items => exact .inl (itemVisits_between items h scope (expectedItem expected) v hv)
  | call callee arguments =>
    obtain ⟨mid, hcallee, hlt, harguments⟩ := h
    rcases callVisits_visit hv with hv | hv
    · exact .inr ⟨mid, hlt, exprVisits_between callee hcallee scope none v hv⟩
    · have hle : x + 1 ≤ mid + 1 := Nat.succ_le_succ (Nat.le_of_lt hcallee.lt)
      exact .inl ((argumentVisit_between arguments harguments scope v hv).widen hle (Nat.le_refl _))
  | field base name =>
    obtain ⟨-, mid, hbase, hlt⟩ := h
    exact .inr ⟨mid, hlt, exprVisits_between base hbase scope none v hv⟩
  | unary operator operand => exact .inl (exprVisits_between operand h scope none v hv)
  | binary operator left right =>
    obtain ⟨mid, hleft, hright⟩ := h
    rw [kindVisits, List.mem_append] at hv
    rcases hv with hv | hv
    · exact .inr ⟨mid, hright.lt, exprVisits_between left hleft scope none v hv⟩
    · exact .inl ((exprVisits_between right hright scope _ v hv).widen hleft.lt (Nat.le_refl _))
  | match_ value arms =>
    obtain ⟨mid, hvalue, harms⟩ := h
    rw [kindVisits, List.mem_append] at hv
    rcases hv with hv | hv
    · exact .inl ((exprVisits_between value hvalue scope none v hv).widen (Nat.le_refl _) (le_of_formedArms harms))
    · exact .inl ((armVisits_between arms harms _ scope expected v hv).widen (Nat.le_of_lt hvalue.lt) (Nat.le_refl _))
  | block block =>
    cases block with
    | mk statements blockSpan =>
      obtain ⟨-, hstatements⟩ := h
      exact .inl (statementVisits_between statements hstatements scope (expected.getD .unknown) v hv)

theorem itemVisits_between (es : List Expr) {lo hi : Nat} (h : formedItems input lo es hi) (scope : Scope)
    (expected : Option ResolvedType) : ∀ v ∈ itemVisits a asyncContext es scope expected, Between input lo hi v := by
  intro v hv
  cases es with
  | nil => cases hv
  | cons e es =>
    obtain ⟨mid, he, hes⟩ := h
    rw [itemVisits, List.mem_append] at hv
    rcases hv with hv | hv
    · exact (exprVisits_between e he scope expected v hv).widen (Nat.le_refl _) (le_of_formedItems hes)
    · exact (itemVisits_between es hes scope expected v hv).widen (Nat.le_of_lt he.lt) (Nat.le_refl _)

theorem argumentVisit_between (arguments : List CallArgument) {lo hi : Nat} (h : formedArguments input lo arguments hi)
    (scope : Scope) : ∀ v, ArgumentVisit a asyncContext scope v arguments → Between input lo hi v := by
  intro v hv
  cases arguments with
  | nil => exact hv.elim
  | cons argument rest =>
    cases argument with
    | mk name value span =>
      obtain ⟨mid, ⟨-, x, y, hplaced, hvalue⟩, hrest⟩ := h
      have hlt := hplaced.lt
      have hle := le_of_formedArguments hrest
      rcases hv with hv | hv
      · obtain ⟨expected, hv⟩ := hv
        exact (exprVisits_between value hvalue scope expected v hv).widen hplaced.1 (Nat.le_trans hplaced.2.2.1 hle)
      · exact (argumentVisit_between rest hrest scope v hv).widen (Nat.le_of_lt hlt) (Nat.le_refl _)

theorem armVisits_between (arms : List MatchArm) {lo hi : Nat} (h : formedArms input lo arms hi) (valueType : ResolvedType)
    (scope : Scope) (expected : Option ResolvedType) :
    ∀ v ∈ armVisits a asyncContext arms valueType scope expected, Between input lo hi v := by
  intro v hv
  cases arms with
  | nil => cases hv
  | cons arm arms =>
    cases arm with
    | mk pattern guard body span =>
      obtain ⟨mid, ⟨x, y, hplaced, c, hpattern, d, hguard, hbody⟩, harms⟩ := h
      have hle := le_of_formedArms harms
      have hbodylt := hbody.lt
      have hguardle := le_of_formedOption hguard
      have hpatternlt := hpattern.lt
      obtain ⟨hlo, hxy, hy, -⟩ := hplaced
      rw [armVisits, List.mem_append, List.mem_append] at hv
      rcases hv with (hv | hv) | hv
      · exact (guardVisits_between guard hguard _ v hv).widen (by omega) (by omega)
      · exact (exprVisits_between body hbody _ expected v hv).widen (by omega) (by omega)
      · exact (armVisits_between arms harms valueType scope expected v hv).widen (by omega) (Nat.le_refl _)

theorem guardVisits_between (guard : Option Expr) {lo hi : Nat} (h : formedOption input lo guard hi) (scope : Scope) :
    ∀ v ∈ guardVisits a asyncContext guard scope, Between input lo hi v := by
  intro v hv
  cases guard with
  | none => cases hv
  | some e => exact exprVisits_between e h scope (some boolType) v hv

theorem statementVisits_between (statements : List Statement) {lo hi : Nat} (h : formedStatements input lo statements hi)
    (scope : Scope) (expectedResult : ResolvedType) :
    ∀ v ∈ statementVisits a asyncContext statements scope expectedResult, Between input lo hi v := by
  intro v hv
  cases statements with
  | nil => cases hv
  | cons statement rest =>
    obtain ⟨mid, hstatement, hrest⟩ := h
    have hle := le_of_formedStatements hrest
    cases statement with
    | let_ name ty value span =>
      obtain ⟨-, x, y, ⟨hlo, hxy, hy, -⟩, c, hc, -, hvalue⟩ := hstatement
      rw [statementVisits, List.mem_append] at hv
      rcases hv with hv | hv
      · exact (exprVisits_between value hvalue scope _ v hv).widen (by omega) (by omega)
      · exact (statementVisits_between rest hrest _ expectedResult v hv).widen (by omega) (Nat.le_refl _)
    | return_ value span =>
      obtain ⟨x, y, ⟨hlo, hxy, hy, -⟩, hvalue⟩ := hstatement
      cases value with
      | none =>
        rw [statementVisits] at hv
        exact (statementVisits_between rest hrest scope expectedResult v hv).widen (by omega) (Nat.le_refl _)
      | some value =>
        rw [statementVisits, List.mem_append] at hv
        rcases hv with hv | hv
        · exact (exprVisits_between value hvalue scope _ v hv).widen (by omega) (by omega)
        · exact (statementVisits_between rest hrest scope expectedResult v hv).widen (by omega) (Nat.le_refl _)
    | expression e span =>
      obtain ⟨x, y, ⟨hlo, hxy, hy, -⟩, he⟩ := hstatement
      rw [statementVisits, List.mem_append] at hv
      rcases hv with hv | hv
      · exact (exprVisits_between e he scope _ v hv).widen (by omega) (by omega)
      · exact (statementVisits_between rest hrest scope expectedResult v hv).widen (by omega) (Nat.le_refl _)
end

/-! ## One scope for a place -/

/-- The guard of an arm and its body. -/
theorem armFront_between {pattern : Pattern} {guard : Option Expr} {body : Expr} {span : Span} {lo hi : Nat}
    (h : MatchArm.Formed input lo (.mk pattern guard body span) hi) (scope : Scope) (expected : Option ResolvedType) :
    ∀ v ∈ guardVisits a asyncContext guard scope ++ exprVisits a asyncContext body scope expected, Between input lo hi v := by
  obtain ⟨x, y, ⟨hlo, hxy, hy, -⟩, c, hpattern, d, hguard, hbody⟩ := h
  have hpatternlt := hpattern.lt
  have hguardle := le_of_formedOption hguard
  have hbodylt := hbody.lt
  intro v hv
  rw [List.mem_append] at hv
  rcases hv with hv | hv
  · exact (guardVisits_between guard hguard scope v hv).widen (by omega) (by omega)
  · exact (exprVisits_between body hbody scope expected v hv).widen (by omega) (by omega)

mutual
theorem exprVisits_alike (e : Expr) {lo hi : Nat} (h : Expr.Formed input lo e hi) (hend : hi ≤ input.length) (scope : Scope)
    (expected expected' : Option ResolvedType) :
    ∀ v ∈ exprVisits a asyncContext e scope expected, ∀ w ∈ exprVisits a asyncContext e scope expected', Alike v w := by
  cases e with
  | mk kind span =>
    obtain ⟨x, y, ⟨-, hxy, hy, hspan⟩, hkind⟩ := h
    have hy' : y ≤ input.length := Nat.le_trans hy hend
    intro v hv w hw
    rw [exprVisits, List.mem_append, List.mem_singleton] at hv hw
    rcases hv with hv | rfl
    · rcases hw with hw | rfl
      · exact kindVisits_alike kind hkind hy' span scope expected expected' v hv w hw
      · exact alike_of_inside (kindVisits_inside kind hkind span scope expected v hv) hxy hy' hspan
    · rcases hw with hw | rfl
      · have hparent : Alike w ⟨asyncContext, .mk kind span, scope, expected⟩ :=
          alike_of_inside (kindVisits_inside kind hkind span scope expected' w hw) hxy hy' hspan
        exact hparent.symm
      · exact fun _ => ⟨rfl, rfl, rfl⟩

theorem kindVisits_alike (kind : ExprKind) {x hi : Nat} (h : ExprKind.Formed input kind x hi) (hend : hi ≤ input.length)
    (span : Span) (scope : Scope) (expected expected' : Option ResolvedType) :
    ∀ v ∈ kindVisits a asyncContext kind span scope expected, ∀ w ∈ kindVisits a asyncContext kind span scope expected',
      Alike v w := by
  intro v hv w hw
  cases kind with
  | borrow mutable operand => exact exprVisits_alike operand h hend scope none none v hv w hw
  | await operand => exact exprVisits_alike operand h hend scope expected expected' v hv w hw
  | literal literal => cases hv
  | path segments => cases hv
  | array items => exact itemVisits_alike items h hend scope _ _ v hv w hw
  | call callee arguments =>
    obtain ⟨mid, hcallee, hlt, harguments⟩ := h
    rcases callVisits_visit hv with hv | hv <;> rcases callVisits_visit hw with hw | hw
    · exact exprVisits_alike callee hcallee (by omega) scope none none v hv w hw
    · exact alike_of_apart (exprVisits_between callee hcallee scope none v hv)
        ((argumentVisit_between arguments harguments scope w hw).widen (Nat.le_succ _) (Nat.le_refl _)) hend
    · exact (alike_of_apart (exprVisits_between callee hcallee scope none w hw)
        ((argumentVisit_between arguments harguments scope v hv).widen (Nat.le_succ _) (Nat.le_refl _)) hend).symm
    · exact argumentVisit_alike arguments harguments hend scope v hv w hw
  | field base name =>
    obtain ⟨-, mid, hbase, hlt⟩ := h
    exact exprVisits_alike base hbase (by omega) scope none none v hv w hw
  | unary operator operand => exact exprVisits_alike operand h hend scope none none v hv w hw
  | binary operator left right =>
    obtain ⟨mid, hleft, hright⟩ := h
    have hlt := hright.lt
    rw [kindVisits, List.mem_append] at hv hw
    rcases hv with hv | hv <;> rcases hw with hw | hw
    · exact exprVisits_alike left hleft (by omega) scope none none v hv w hw
    · exact alike_of_apart (exprVisits_between left hleft scope none v hv) (exprVisits_between right hright scope _ w hw) hend
    · exact (alike_of_apart (exprVisits_between left hleft scope none w hw)
        (exprVisits_between right hright scope _ v hv) hend).symm
    · exact exprVisits_alike right hright hend scope _ _ v hv w hw
  | match_ value arms =>
    obtain ⟨mid, hvalue, harms⟩ := h
    have hle := le_of_formedArms harms
    rw [kindVisits, List.mem_append] at hv hw
    rcases hv with hv | hv <;> rcases hw with hw | hw
    · exact exprVisits_alike value hvalue (by omega) scope none none v hv w hw
    · exact alike_of_apart (exprVisits_between value hvalue scope none v hv)
        (armVisits_between arms harms _ scope expected' w hw) hend
    · exact (alike_of_apart (exprVisits_between value hvalue scope none w hw)
        (armVisits_between arms harms _ scope expected v hv) hend).symm
    · exact armVisits_alike arms harms hend _ scope expected expected' v hv w hw
  | block block =>
    cases block with
    | mk statements blockSpan =>
      obtain ⟨-, hstatements⟩ := h
      exact statementVisits_alike statements hstatements hend scope _ _ v hv w hw

theorem itemVisits_alike (es : List Expr) {lo hi : Nat} (h : formedItems input lo es hi) (hend : hi ≤ input.length)
    (scope : Scope)
    (expected expected' : Option ResolvedType) :
    ∀ v ∈ itemVisits a asyncContext es scope expected, ∀ w ∈ itemVisits a asyncContext es scope expected', Alike v w := by
  intro v hv w hw
  cases es with
  | nil => cases hv
  | cons e es =>
    obtain ⟨mid, he, hes⟩ := h
    have hle := le_of_formedItems hes
    rw [itemVisits, List.mem_append] at hv hw
    rcases hv with hv | hv <;> rcases hw with hw | hw
    · exact exprVisits_alike e he (by omega) scope expected expected' v hv w hw
    · exact alike_of_apart (exprVisits_between e he scope expected v hv) (itemVisits_between es hes scope expected' w hw) hend
    · exact (alike_of_apart (exprVisits_between e he scope expected' w hw)
        (itemVisits_between es hes scope expected v hv) hend).symm
    · exact itemVisits_alike es hes hend scope expected expected' v hv w hw

theorem argumentVisit_alike (arguments : List CallArgument) {lo hi : Nat} (h : formedArguments input lo arguments hi)
    (hend : hi ≤ input.length) (scope : Scope) :
    ∀ v, ArgumentVisit a asyncContext scope v arguments → ∀ w, ArgumentVisit a asyncContext scope w arguments → Alike v w := by
  intro v hv w hw
  cases arguments with
  | nil => exact hv.elim
  | cons argument rest =>
    cases argument with
    | mk name value span =>
      obtain ⟨mid, ⟨-, x, y, ⟨hlo, hxy, hy, -⟩, hvalue⟩, hrest⟩ := h
      have hle := le_of_formedArguments hrest
      rcases hv with hv | hv <;> rcases hw with hw | hw
      · obtain ⟨expected, hv⟩ := hv
        obtain ⟨expected', hw⟩ := hw
        exact exprVisits_alike value hvalue (by omega) scope expected expected' v hv w hw
      · obtain ⟨expected, hv⟩ := hv
        exact alike_of_apart ((exprVisits_between value hvalue scope expected v hv).widen (Nat.le_refl _) hy)
          (argumentVisit_between rest hrest scope w hw) hend
      · obtain ⟨expected, hw⟩ := hw
        exact (alike_of_apart ((exprVisits_between value hvalue scope expected w hw).widen (Nat.le_refl _) hy)
          (argumentVisit_between rest hrest scope v hv) hend).symm
      · exact argumentVisit_alike rest hrest hend scope v hv w hw

theorem armVisits_alike (arms : List MatchArm) {lo hi : Nat} (h : formedArms input lo arms hi) (hend : hi ≤ input.length)
    (valueType : ResolvedType) (scope : Scope) (expected expected' : Option ResolvedType) :
    ∀ v ∈ armVisits a asyncContext arms valueType scope expected,
      ∀ w ∈ armVisits a asyncContext arms valueType scope expected', Alike v w := by
  intro v hv w hw
  cases arms with
  | nil => cases hv
  | cons arm arms =>
    cases arm with
    | mk pattern guard body span =>
      obtain ⟨mid, harm, harms⟩ := h
      have hle := le_of_formedArms harms
      have hfront := @armFront_between input a asyncContext pattern guard body span lo mid harm
      rw [armVisits, List.mem_append] at hv hw
      rcases hv with hv | hv <;> rcases hw with hw | hw
      · obtain ⟨x, y, ⟨hlo, hxy, hy, -⟩, c, hpattern, d, hguard, hbody⟩ := harm
        have hbodylt := hbody.lt
        rw [List.mem_append] at hv hw
        rcases hv with hv | hv <;> rcases hw with hw | hw
        · exact guardVisits_alike guard hguard (by omega) _ v hv w hw
        · exact alike_of_apart (guardVisits_between guard hguard _ v hv) (exprVisits_between body hbody _ expected' w hw)
            (by omega)
        · exact (alike_of_apart (guardVisits_between guard hguard _ w hw) (exprVisits_between body hbody _ expected v hv)
            (by omega)).symm
        · exact exprVisits_alike body hbody (by omega) _ expected expected' v hv w hw
      · exact alike_of_apart (hfront _ _ v hv) (armVisits_between arms harms valueType scope expected' w hw) hend
      · exact (alike_of_apart (hfront _ _ w hw) (armVisits_between arms harms valueType scope expected v hv) hend).symm
      · exact armVisits_alike arms harms hend valueType scope expected expected' v hv w hw

theorem guardVisits_alike (guard : Option Expr) {lo hi : Nat} (h : formedOption input lo guard hi) (hend : hi ≤ input.length)
    (scope : Scope) :
    ∀ v ∈ guardVisits a asyncContext guard scope, ∀ w ∈ guardVisits a asyncContext guard scope, Alike v w := by
  intro v hv w hw
  cases guard with
  | none => cases hv
  | some e => exact exprVisits_alike e h hend scope _ _ v hv w hw

theorem statementVisits_alike (statements : List Statement) {lo hi : Nat} (h : formedStatements input lo statements hi)
    (hend : hi ≤ input.length) (scope : Scope) (expectedResult expectedResult' : ResolvedType) :
    ∀ v ∈ statementVisits a asyncContext statements scope expectedResult,
      ∀ w ∈ statementVisits a asyncContext statements scope expectedResult', Alike v w := by
  intro v hv w hw
  cases statements with
  | nil => cases hv
  | cons statement rest =>
    obtain ⟨mid, hstatement, hrest⟩ := h
    have hle := le_of_formedStatements hrest
    cases statement with
    | let_ name ty value span =>
      obtain ⟨-, x, y, ⟨hlo, hxy, hy, -⟩, c, hc, -, hvalue⟩ := hstatement
      rw [statementVisits, List.mem_append] at hv hw
      rcases hv with hv | hv <;> rcases hw with hw | hw
      · exact exprVisits_alike value hvalue (by omega) scope _ _ v hv w hw
      · exact alike_of_apart ((exprVisits_between value hvalue scope _ v hv).widen (Nat.le_refl _) hy)
          (statementVisits_between rest hrest _ expectedResult' w hw) hend
      · exact (alike_of_apart ((exprVisits_between value hvalue scope _ w hw).widen (Nat.le_refl _) hy)
          (statementVisits_between rest hrest _ expectedResult v hv) hend).symm
      · exact statementVisits_alike rest hrest hend _ expectedResult expectedResult' v hv w hw
    | return_ value span =>
      obtain ⟨x, y, ⟨hlo, hxy, hy, -⟩, hvalue⟩ := hstatement
      cases value with
      | none =>
        rw [statementVisits] at hv hw
        exact statementVisits_alike rest hrest hend scope expectedResult expectedResult' v hv w hw
      | some value =>
        rw [statementVisits, List.mem_append] at hv hw
        rcases hv with hv | hv <;> rcases hw with hw | hw
        · exact exprVisits_alike value hvalue (by omega) scope _ _ v hv w hw
        · exact alike_of_apart ((exprVisits_between value hvalue scope _ v hv).widen (Nat.le_refl _) hy)
            (statementVisits_between rest hrest scope expectedResult' w hw) hend
        · exact (alike_of_apart ((exprVisits_between value hvalue scope _ w hw).widen (Nat.le_refl _) hy)
            (statementVisits_between rest hrest scope expectedResult v hv) hend).symm
        · exact statementVisits_alike rest hrest hend scope expectedResult expectedResult' v hv w hw
    | expression e span =>
      obtain ⟨x, y, ⟨hlo, hxy, hy, -⟩, he⟩ := hstatement
      rw [statementVisits, List.mem_append] at hv hw
      rcases hv with hv | hv <;> rcases hw with hw | hw
      · exact exprVisits_alike e he (by omega) scope _ _ v hv w hw
      · exact alike_of_apart ((exprVisits_between e he scope _ v hv).widen (Nat.le_refl _) hy)
          (statementVisits_between rest hrest scope expectedResult' w hw) hend
      · exact (alike_of_apart ((exprVisits_between e he scope _ w hw).widen (Nat.le_refl _) hy)
          (statementVisits_between rest hrest scope expectedResult v hv) hend).symm
      · exact statementVisits_alike rest hrest hend scope expectedResult expectedResult' v hv w hw
end

/-! ## Files -/

section
variable {α : Type} {P : Nat → α → Nat → Prop} {V : α → Visit → Prop} {xs : List α} {lo hi : Nat}

/-- What stands in order in the text is visited there. -/
theorem between_of_inOrder (h : InOrder P lo xs hi) (hle : ∀ lo x hi, P lo x hi → lo ≤ hi)
    (hb : ∀ lo x hi, P lo x hi → ∀ v, V x v → Between input lo hi v) {v : Visit} (hv : ∃ x ∈ xs, V x v) :
    Between input lo hi v := by
  obtain ⟨x, hx, hv⟩ := hv
  obtain ⟨lo', hi', hlo, hhi, hx⟩ := h.within hle hx
  exact (hb lo' x hi' hx v hv).widen hlo hhi

/-- Visits are alike over what stands in order if they are over each part of it. -/
theorem alike_of_inOrder (h : InOrder P lo xs hi) (hend : hi ≤ input.length) (hle : ∀ lo x hi, P lo x hi → lo ≤ hi)
    (hb : ∀ lo x hi, P lo x hi → ∀ v, V x v → Between input lo hi v)
    (ha : ∀ lo x hi, P lo x hi → hi ≤ input.length → ∀ v w, V x v → V x w → Alike v w) {v w : Visit}
    (hv : ∃ x ∈ xs, V x v) (hw : ∃ x ∈ xs, V x w) : Alike v w := by
  induction h with
  | nil =>
    obtain ⟨x, hx, -⟩ := hv
    cases hx
  | @cons lo mid hi x xs hx hxs ih =>
    have hmid := hxs.le hle
    obtain ⟨y, hy, hvy⟩ := hv
    obtain ⟨z, hz, hwz⟩ := hw
    rcases List.mem_cons.mp hy with rfl | hy' <;> rcases List.mem_cons.mp hz with rfl | hz'
    · exact ha lo _ mid hx (Nat.le_trans hmid hend) v w hvy hwz
    · exact alike_of_apart (hb lo _ mid hx v hvy) (between_of_inOrder hxs hle hb ⟨z, hz', hwz⟩) hend
    · exact (alike_of_apart (hb lo _ mid hx w hwz) (between_of_inOrder hxs hle hb ⟨y, hy', hvy⟩) hend).symm
    · exact ih hend ⟨y, hy', hvy⟩ ⟨z, hz', hwz⟩

end

/-- A visit to the value a field starts with. -/
def FieldVisit (a : Analyzer) (field : StateField) (v : Visit) : Prop :=
  ∃ initializer, field.initializer = some initializer ∧ ∃ expected, v ∈ exprVisits a false initializer OrdMap.empty expected

theorem initializerVisits_visit {fields : List StateField} {types : List ResolvedType} {v : Visit}
    (hv : v ∈ initializerVisits a fields types) : ∃ field ∈ fields, FieldVisit a field v := by
  induction fields generalizing types with
  | nil =>
    rw [initializerVisits] at hv
    cases hv
  | cons field fields ih =>
    cases types with
    | nil =>
      rw [initializerVisits] at hv
      · cases hv
      · intros; contradiction
    | cons ty types =>
      rw [initializerVisits, List.mem_append] at hv
      rcases hv with hv | hv
      · cases hinit : field.initializer with
        | none =>
          rw [hinit] at hv
          cases hv
        | some initializer =>
          rw [hinit] at hv
          exact ⟨field, List.mem_cons_self, initializer, hinit, some ty, hv⟩
      · obtain ⟨other, hother, hv⟩ := ih hv
        exact ⟨other, List.mem_cons_of_mem _ hother, hv⟩

theorem fieldVisit_between (lo : Nat) (field : StateField) (hi : Nat) (h : StateField.Formed input lo field hi) (v : Visit)
    (hv : FieldVisit a field v) : Between input lo hi v := by
  obtain ⟨-, x, y, ⟨hlo, hxy, hy, -⟩, c, hty, hinitializer⟩ := h
  obtain ⟨initializer, heq, expected, hv⟩ := hv
  rw [heq] at hinitializer
  have hlt := hty.lt
  exact (exprVisits_between initializer hinitializer _ expected v hv).widen (by omega) hy

theorem fieldVisit_alike (lo : Nat) (field : StateField) (hi : Nat) (h : StateField.Formed input lo field hi)
    (hend : hi ≤ input.length) (v w : Visit) (hv : FieldVisit a field v) (hw : FieldVisit a field w) : Alike v w := by
  obtain ⟨-, x, y, ⟨hlo, hxy, hy, -⟩, c, hty, hinitializer⟩ := h
  obtain ⟨initializer, heq, expected, hv⟩ := hv
  obtain ⟨initializer', heq', expected', hw⟩ := hw
  rw [heq] at hinitializer heq'
  cases heq'
  exact exprVisits_alike initializer hinitializer (Nat.le_trans hy hend) _ expected expected' v hv w hw

theorem bodyVisits_between (lo : Nat) (item : Item) (hi : Nat) (h : Item.Formed input lo item hi) (v : Visit)
    (hv : v ∈ bodyVisits a item) : Between input lo hi v := by
  obtain ⟨-, x, y, ⟨hlo, hxy, hy, -⟩, hmembers⟩ := h
  cases item with
  | function node =>
    obtain ⟨-, c, hparameters, d, hcd, -, e, f, hde, hef, hfy, hbody⟩ := hmembers
    have hxc := hparameters.le Parameter.Formed.le
    cases hsignature : a.functions.get? node.name with
    | none =>
      simp only [bodyVisits, hsignature] at hv
      cases hv
    | some signature =>
      cases hnode : node.body with
      | mk statements span =>
        rw [hnode] at hbody
        simp only [bodyVisits, hsignature, hnode] at hv
        exact (statementVisits_between statements hbody.2 _ _ v hv).widen (by omega) (by omega)
  | state node =>
    exact (between_of_inOrder hmembers StateField.Formed.le fieldVisit_between (initializerVisits_visit hv)).widen hlo hy
  | pipeline node =>
    obtain ⟨c, hparameters, d, hcd, -, hfields⟩ := hmembers
    have hxc := hparameters.le Parameter.Formed.le
    cases hresult : property node.fields "result" with
    | none =>
      simp only [bodyVisits, hresult] at hv
      cases hv
    | some result =>
      obtain ⟨lo', hi', hlo', hhi', -, x', y', ⟨hx', hxy', hy', -⟩, c', hc', -, hvalue⟩ :=
        hfields.within Property.Formed.le (List.mem_of_find?_eq_some hresult)
      simp only [bodyVisits, hresult] at hv
      exact (exprVisits_between result.value hvalue _ _ v hv).widen (by omega) (by omega)
  | _ => cases hv

theorem bodyVisits_alike (lo : Nat) (item : Item) (hi : Nat) (h : Item.Formed input lo item hi) (hend : hi ≤ input.length)
    (v w : Visit) (hv : v ∈ bodyVisits a item) (hw : w ∈ bodyVisits a item) : Alike v w := by
  obtain ⟨-, x, y, ⟨hlo, hxy, hy, -⟩, hmembers⟩ := h
  cases item with
  | function node =>
    obtain ⟨-, c, hparameters, d, hcd, -, e, f, hde, hef, hfy, hbody⟩ := hmembers
    cases hsignature : a.functions.get? node.name with
    | none =>
      simp only [bodyVisits, hsignature] at hv
      cases hv
    | some signature =>
      cases hnode : node.body with
      | mk statements span =>
        rw [hnode] at hbody
        simp only [bodyVisits, hsignature, hnode] at hv hw
        exact statementVisits_alike statements hbody.2 (by omega) _ _ _ v hv w hw
  | state node =>
    exact alike_of_inOrder hmembers (Nat.le_trans hy hend) StateField.Formed.le fieldVisit_between fieldVisit_alike
      (initializerVisits_visit hv) (initializerVisits_visit hw)
  | pipeline node =>
    obtain ⟨c, hparameters, d, hcd, -, hfields⟩ := hmembers
    cases hresult : property node.fields "result" with
    | none =>
      simp only [bodyVisits, hresult] at hv
      cases hv
    | some result =>
      obtain ⟨lo', hi', hlo', hhi', -, x', y', ⟨hx', hxy', hy', -⟩, c', hc', -, hvalue⟩ :=
        hfields.within Property.Formed.le (List.mem_of_find?_eq_some hresult)
      simp only [bodyVisits, hresult] at hv hw
      exact exprVisits_alike result.value hvalue (by omega) _ _ _ v hv w hw
  | _ => cases hv

/-- The file of a text has one expression for a span, and one scope for it. -/
theorem spansTell_of_formed (a : Analyzer) {ast : SourceFile} (h : ast.Formed input) : SpansTell (fileVisits a ast) := by
  obtain ⟨c, d, -, -, hitems⟩ := h.parts
  intro v hv w hw
  exact alike_of_inOrder hitems (Nat.le_refl _) Item.Formed.le bodyVisits_between bodyVisits_alike (List.mem_flatMap.mp hv)
    (List.mem_flatMap.mp hw)

end

end

end Semantic
end Syllog
