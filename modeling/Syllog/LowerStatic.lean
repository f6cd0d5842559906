import Syllog.HirBlocks
import Syllog.HirEval
import Syllog.LowerShape
/-!
# LowerStatic — what is known of lowered code before it runs

Where no diagnostic is reported, the operand of an expression has the type `typeOf` gives it, names a local that exists,
and the return slot only for a block; bindings lead to locals of the declared types; and the current block is ended as
`seals` says.
-/
namespace Syllog
namespace Lower

open Mir Hir

/-! ## Lookups -/

section
variable {κ α : Type} [DecidableEq κ] {key : κ}

@[simp] theorem lookupKey_nil : lookupKey key ([] : List (κ × α)) = none := rfl

theorem lookupKey_cons (k : κ) (v : α) (entries : List (κ × α)) :
    lookupKey key ((k, v) :: entries) = if k = key then some v else lookupKey key entries := by
  unfold lookupKey
  rw [List.find?_cons]
  by_cases h : k = key
  · simp [h]
  · simp [h]

theorem lookupKey_append {xs ys : List (κ × α)} {v : α} (h : lookupKey key (xs ++ ys) = some v) :
    (key, v) ∈ xs ∨ lookupKey key ys = some v := by
  induction xs with
  | nil => exact .inr h
  | cons x xs ih =>
    obtain ⟨k, w⟩ := x
    rw [List.cons_append, lookupKey_cons] at h
    split at h
    · rename_i hk
      cases h
      exact .inl (by simp [hk])
    · rcases ih h with h | h
      · exact .inl (List.mem_cons_of_mem _ h)
      · exact .inr h

end

/-! ## Builders that report nothing -/

theorem Keeps.quiet {b b' : FunctionBuilder} (h : Keeps b b') (hd : b'.diagnostics = []) : b.diagnostics = [] := by
  have := h.diagnostics
  rw [hd] at this
  exact List.prefix_nil.1 this

theorem Fills.quiet {result join block count : Nat} {b b' : FunctionBuilder} (h : Fills result join block count b b')
    (hd : b'.diagnostics = []) : b.diagnostics = [] := by
  have := h.diagnostics
  rw [hd] at this
  exact List.prefix_nil.1 this

theorem error_not_quiet (b : FunctionBuilder) (span : Span) (message : DiagnosticMessage) :
    (b.error span message).diagnostics ≠ [] := by
  simp [FunctionBuilder.error]

/-! ## The end of the current block -/

/-- The terminator of a block that is ended or not. -/
def endOf (ended : Bool) : Option Terminator := if ended then some .ret else none

section
variable {b : FunctionBuilder}

@[simp] theorem terminator_newLocal (ty : MirType) : (b.newLocal ty).2.terminator = b.terminator := rfl

@[simp] theorem terminator_bind (d : DefId) (l : Nat) : (b.bind d l).terminator = b.terminator := rfl

@[simp] theorem terminator_assign (destination : Place) (value : Rvalue) :
    (b.assign destination value).terminator = b.terminator := by
  unfold FunctionBuilder.terminator FunctionBuilder.assign
  simp only [List.getElem?_modify_eq]
  cases b.blocks[b.current]? <;> rfl

theorem terminator_terminate (h : Open b) (t : Terminator) : (b.terminate t).terminator = some t := by
  obtain ⟨block, hb⟩ := h.block
  unfold FunctionBuilder.terminator FunctionBuilder.terminate
  simp only [List.getElem?_modify_eq, hb]
  rfl

end

/-! ## Bindings -/

/-- Bindings lead past the return slot, to locals of the declared types. -/
structure Bound (c : Scope) (b : FunctionBuilder) : Prop where
  result : b.locals[0]? = some c.result
  bindings : ∀ d l, lookupKey d b.bindings = some l →
    0 < l ∧ ∃ ty, b.locals[l]? = some ty ∧ lookupKey d c.types = some ty

theorem getElem?_of_extends {α : Type} {xs ys : List α} (h : xs <+: ys) {i : Nat} {a : α} (hi : xs[i]? = some a) :
    ys[i]? = some a := by
  obtain ⟨zs, rfl⟩ := h
  rw [List.getElem?_append_left (List.getElem?_eq_some_iff.1 hi).1]
  exact hi

theorem Bound.extend {c : Scope} {b b' : FunctionBuilder} (h : Bound c b) (hl : b.locals <+: b'.locals)
    (hb : b'.bindings = b.bindings) : Bound c b' := by
  refine ⟨getElem?_of_extends hl h.result, fun d l hd => ?_⟩
  rw [hb] at hd
  obtain ⟨hpos, ty, hty, hdecl⟩ := h.bindings d l hd
  exact ⟨hpos, ty, getElem?_of_extends hl hty, hdecl⟩

theorem Bound.pos {c : Scope} {b : FunctionBuilder} (h : Bound c b) : 0 < b.locals.length :=
  (List.getElem?_eq_some_iff.1 h.result).1

theorem bound_bindLocal {c : Scope} {b : FunctionBuilder} (h : Bound c b) {d : DefId} {ty : MirType}
    (hd : lookupKey d c.types = some ty) (value : Operand) : Bound c (bindLocal d ty value b) := by
  have hpre : b.locals <+: (bindLocal d ty value b).locals := List.prefix_append _ _
  refine ⟨getElem?_of_extends hpre h.result, fun d' l hl => ?_⟩
  have hcons : lookupKey d' ((d, b.locals.length) :: b.bindings) = some l := hl
  rw [lookupKey_cons] at hcons
  split at hcons
  · rename_i heq
    subst heq
    cases hcons
    exact ⟨h.pos, ty, List.getElem?_concat_length, hd⟩
  · obtain ⟨hpos, ty', hty, hdecl⟩ := h.bindings d' l hcons
    exact ⟨hpos, ty', getElem?_of_extends hpre hty, hdecl⟩

/-- Variables are no variants. -/
def Scoped (c : Scope) : Prop := ∀ d ty, lookupKey d c.types = some ty → lookupKey d c.ix.variants = none

/-- The variables of a block are declared. -/
def LetsDeclared (c : Scope) (statements : List HirStatement) : Prop :=
  ∀ entry ∈ blockLets c.ix statements, lookupKey entry.1 c.types = some entry.2

def BlocksDeclared (c : Scope) (es : List TypedExpr) : Prop :=
  ∀ e ∈ es, ∀ entry ∈ e.lets c.ix, lookupKey entry.1 c.types = some entry.2

/-! ## The lowering functions -/

/-- The operand of an expression: its type, and the local it names. -/
structure Reads (c : Scope) (e : TypedExpr) (expected : Option MirType) (o : Operand) (b : FunctionBuilder) : Prop where
  ty : b.operandType o = some (typeOf c e expected)
  result : o = .copy 0 ∨ o = .move 0 → e.viaResult = true

/-- What is known behind an expression. -/
structure Known (c : Scope) (e : TypedExpr) (expected : Option MirType) (ended : Bool)
    (r : Operand × FunctionBuilder) : Prop where
  bound : Bound c r.2
  reads : Reads c e expected r.1 r.2
  final : r.2.terminator = endOf (e.seals ended)

section
variable {c : Scope} {b : FunctionBuilder} {ended : Bool}

/-- A value in a fresh local. -/
theorem known_storeFresh {e : TypedExpr} {expected : Option MirType} (hb : Bound c b)
    (he : b.terminator = endOf (e.seals ended)) {ty : MirType} (hty : typeOf c e expected = ty) (value : Rvalue) :
    Known c e expected ended (.move b.locals.length, (b.newLocal ty).2.assign (.loc b.locals.length) value) := by
  have hpos := hb.pos
  refine ⟨hb.extend (List.prefix_append _ _) rfl, ⟨?_, ?_⟩, ?_⟩
  · rw [hty]
    exact List.getElem?_concat_length
  · rintro (h | h)
    · cases h
    · have := Operand.move.inj h
      omega
  · rw [terminator_assign, terminator_newLocal]
    exact he

theorem known_lowerReference (hs : Scoped c) (hb : Bound c b) (he : b.terminator = endOf ended) {definition : DefId}
    {ty : ResolvedType} {span : Span} {expected : Option MirType}
    (hd : (lowerReference c.ix definition span b).2.diagnostics = []) :
    Known c (.mk (.reference definition) ty span) expected ended (lowerReference c.ix definition span b) := by
  unfold lowerReference at hd ⊢
  split
  · rename_i l hl
    obtain ⟨hpos, t, ht, hdecl⟩ := hb.bindings definition l hl
    have hty : typeOf c (.mk (.reference definition) ty span) expected = t := by
      simp only [typeOf, hdecl]
    split
    · refine ⟨hb, ⟨by rw [hty]; exact ht, ?_⟩, he⟩
      rintro (h | h) <;> cases h
      omega
    · refine ⟨hb, ⟨by rw [hty]; exact ht, ?_⟩, he⟩
      rintro (h | h) <;> cases h
      omega
  · rename_i hnone
    rw [hnone] at hd
    split
    · rename_i aggregate discriminant hv
      refine known_storeFresh hb (by simpa only [TypedExpr.seals] using he) ?_ _
      cases hdecl : lookupKey definition c.types with
      | some t =>
        have := hs definition t hdecl
        rw [hv] at this
        cases this
      | none => simp only [typeOf, hdecl, hv]
    · rename_i hv
      rw [hv] at hd
      exact absurd hd (error_not_quiet _ _ _)

end

theorem requiredType_quiet {b : FunctionBuilder} {ix : ProgramIndex} {ty : ResolvedType} {span : Span}
    (hd : (b.requiredType ix ty span).2.diagnostics = []) : b.requiredType ix ty span = (lowered ix ty, b) := by
  unfold FunctionBuilder.requiredType at hd ⊢
  unfold lowered
  split
  · rename_i t ht
    rw [ht]
    rfl
  · rename_i ht
    rw [ht] at hd
    exact absurd hd (error_not_quiet _ _ _)

theorem terminator_finishCall {b : FunctionBuilder} (h : Open b) (callee : DefId) (args : List Operand) (ty : MirType) :
    (finishCall callee args ty b).2.terminator = none := by
  have hlt : b.current < b.blocks.length := h
  show (((b.blocks ++ [_]).modify b.current _)[b.blocks.length]?).bind _ = none
  rw [List.getElem?_modify_ne _ _ (by omega), List.getElem?_concat_length]
  rfl

/-- The join of a match is not ended when it is entered. -/
theorem terminator_match {b bm ba : FunctionBuilder} {value : Operand} {resultTy : MirType} {targets : List (Nat × Nat)}
    {count result : Nat} (ho : Opened b bm value resultTy targets count)
    (hf : Fills result b.blocks.length (b.blocks.length + 1) count bm ba) :
    (ba.enter b.blocks.length).terminator = none := by
  have hsize := ho.size
  unfold FunctionBuilder.terminator
  show ba.blocks[b.blocks.length]?.bind _ = none
  rw [hf.others _ (by omega) (by omega), ho.fresh _ (Nat.le_refl _) (by omega)]
  rfl

theorem BlocksDeclared.of_kind {c : Scope} {kind : HirExprKind} {ty : ResolvedType} {span : Span}
    (h : BlocksDeclared c (TypedExpr.mk kind ty span).walk) : BlocksDeclared c kind.walk := by
  rw [TypedExpr.walk] at h
  exact fun e he => h e (List.mem_cons_of_mem _ he)

theorem blocksDeclared_append {c : Scope} {xs ys : List TypedExpr} :
    BlocksDeclared c (xs ++ ys) ↔ BlocksDeclared c xs ∧ BlocksDeclared c ys := List.forall_mem_append

theorem LetsDeclared.tail {c : Scope} {statement : HirStatement} {rest : List HirStatement}
    (h : LetsDeclared c (statement :: rest)) : LetsDeclared c rest := by
  intro entry he
  refine h entry ?_
  unfold blockLets at he ⊢
  rw [List.filterMap_cons]
  split
  · exact he
  · exact List.mem_cons_of_mem _ he

theorem openArm_quiet {b : FunctionBuilder} {block : Nat} {guard : Option TypedExpr} {span : Span}
    (hd : (openArm block guard span b).diagnostics = []) : guard = none ∧ openArm block guard span b = b.enter block := by
  unfold openArm at hd ⊢
  cases guard with
  | none => exact ⟨rfl, rfl⟩
  | some g => exact absurd hd (error_not_quiet _ _ _)

theorem sealsBlock_true (statements : List HirStatement) : sealsBlock statements true = true := by
  cases statements with
  | nil => simp only [sealsBlock]
  | cons statement rest =>
    cases statement with
    | let_ definition ty value => simp only [sealsBlock, Bool.true_or]
    | return_ value => simp only [sealsBlock]
    | expression e => cases rest <;> simp only [sealsBlock, Bool.true_or]

/-! ## What is shown of each kind of tree -/

section
variable (c : Scope)

/-- What is known behind the expression, wherever it is lowered without a diagnostic. -/
def ExpressionKnown (e : TypedExpr) : Prop :=
  ∀ (expected : Option MirType) (b : FunctionBuilder) (ended : Bool), Open b → Bound c b → b.terminator = endOf ended →
    BlocksDeclared c e.walk → (lowerExpression c.ix e expected b).2.diagnostics = [] →
    Known c e expected ended (lowerExpression c.ix e expected b)

def ArgumentsKnown (es : List TypedExpr) : Prop :=
  ∀ (b : FunctionBuilder) (ended : Bool), Open b → Bound c b → b.terminator = endOf ended → BlocksDeclared c (walkAll es) →
    (lowerArguments c.ix es b).2.diagnostics = [] → Bound c (lowerArguments c.ix es b).2

def ArmsKnown (arms : List HirMatchArm) : Prop :=
  ∀ (resultTy : MirType) (result join block : Nat) (b : FunctionBuilder), join < b.blocks.length →
    result < b.locals.length → block + arms.length ≤ b.blocks.length →
    (∀ i, block ≤ i → i < block + arms.length → b.blocks[i]? = some ⟨[], none⟩) → Bound c b →
    BlocksDeclared c (walkArms arms) → (lowerArms c.ix resultTy result join block arms b).diagnostics = [] →
    Bound c (lowerArms c.ix resultTy result join block arms b)

def BlockKnown (statements : List HirStatement) : Prop :=
  ∀ (result : MirType) (b : FunctionBuilder) (ended : Bool), Open b → Bound c b → b.terminator = endOf ended →
    LetsDeclared c statements → BlocksDeclared c (walkStatements statements) →
    (lowerBlock c.ix statements result b).diagnostics = [] → Bound c (lowerBlock c.ix statements result b) ∧
      (lowerBlock c.ix statements result b).terminator = endOf (sealsBlock statements ended)

end

/-! ## One lemma for each constructor -/

section
variable {c : Scope}

theorem borrow_known (mutable : Bool) (operand : TypedExpr) (ty : ResolvedType) (span : Span) :
    ExpressionKnown c (.mk (.borrow mutable operand) ty span) := by
  intro expected b ended ho hb he hw hd
  rw [lowerExpression] at hd ⊢
  unfold lowerBorrow at hd ⊢
  split at hd
  · rename_i definition hk
    split at hd
    · rename_i l hl
      exact known_storeFresh hb (by simpa only [TypedExpr.seals] using he) (by simp only [typeOf, lowered]) _
    · exact absurd hd (error_not_quiet _ _ _)
  · exact absurd hd (error_not_quiet _ _ _)

theorem await_known {operand : TypedExpr} (ty : ResolvedType) (span : Span) (ihoperand : ExpressionKnown c operand) :
    ExpressionKnown c (.mk (.await operand) ty span) := by
  intro expected b ended ho hb he hw hd
  rw [lowerExpression] at hd ⊢
  have hw' := hw.of_kind
  rw [HirExprKind.walk] at hw'
  have h := ihoperand expected b ended ho hb he hw' hd
  refine ⟨h.bound, ⟨?_, ?_⟩, ?_⟩
  · simpa only [typeOf] using h.reads.ty
  · simpa only [TypedExpr.viaResult] using h.reads.result
  · simpa only [TypedExpr.seals] using h.final

theorem literal_known (literal : Literal) (ty : ResolvedType) (span : Span) :
    ExpressionKnown c (.mk (.literal literal) ty span) := by
  intro expected b ended ho hb he hw hd
  rw [lowerExpression] at hd ⊢
  unfold lowerLiteral at hd ⊢
  split at hd
  · rename_i constant hc
    refine ⟨hb, ⟨by simp only [typeOf, hc]; rfl, by rintro (h | h) <;> cases h⟩, ?_⟩
    simpa only [TypedExpr.seals] using he
  · exact absurd hd (error_not_quiet _ _ _)

theorem binary_known (operator : BinaryOperator) {left right : TypedExpr} (ty : ResolvedType) (span : Span)
    (ihleft : ExpressionKnown c left) (ihright : ExpressionKnown c right) :
    ExpressionKnown c (.mk (.binary operator left right) ty span) := by
  intro expected b ended ho hb he hw hd
  have hw' := hw.of_kind
  rw [HirExprKind.walk, blocksDeclared_append] at hw'
  have hgl := lowerExpression_grows c.ix left expected b ho
  have hkl := ihleft expected b ended ho hb he hw'.1
  rcases hl : lowerExpression c.ix left expected b with ⟨l, b1⟩
  rw [hl] at hgl hkl
  simp only [lowerExpression, hl] at hd ⊢
  have hgr := lowerExpression_grows c.ix right ((b1.operandType l).or expected) b1 hgl.live
  have hq := (grows_finishBinary hgr.live operator l
    (lowerExpression c.ix right ((b1.operandType l).or expected) b1).1 ((b1.operandType l).or expected) span).quiet hd
  have hkl := hkl (hgr.quiet hq)
  rw [hkl.reads.ty, Option.some_or] at hd hq hgr ⊢
  have hkr := ihright (some (typeOf c left expected)) b1 (left.seals ended) hgl.live hkl.bound
    hkl.final hw'.2 hq
  rcases hr : lowerExpression c.ix right (some (typeOf c left expected)) b1 with ⟨r, b2⟩
  rw [hr] at hkr
  simp only [hr] at hd ⊢
  unfold finishBinary at hd ⊢
  simp only [Option.getD_some] at hd ⊢
  split at hd
  · exact absurd hd (error_not_quiet _ _ _)
  · refine known_storeFresh hkr.bound (by simpa only [TypedExpr.seals] using hkr.final) ?_ _
    simp only [typeOf]

theorem call_known (callee : TypedExpr) {arguments : List TypedExpr} (ty : ResolvedType) (span : Span)
    (iharguments : ArgumentsKnown c arguments) : ExpressionKnown c (.mk (.call callee arguments) ty span) := by
  intro expected b ended ho hb he hw hd
  have hw' := hw.of_kind
  rw [HirExprKind.walk, blocksDeclared_append] at hw'
  rw [lowerExpression] at hd ⊢
  split at hd
  · have hga := lowerArguments_grows c.ix arguments b ho
    have hba := iharguments b ended ho hb he hw'.2
    rcases ha : lowerArguments c.ix arguments b with ⟨args, b1⟩
    rw [ha] at hga hba
    simp only [ha] at hd ⊢
    rename_i definition hk
    have hba : Bound c b1 := hba ((grows_finishCall hga.live definition args (storedType c.ix ty expected)).quiet hd)
    have hpos := hba.pos
    refine ⟨hba.extend (List.prefix_append _ _) rfl, ⟨?_, ?_⟩, ?_⟩
    · show (b1.locals ++ [_])[b1.locals.length]? = _
      rw [List.getElem?_concat_length]
      simp only [typeOf]
    · rintro (h | h)
      · cases h
      · have : b1.locals.length = 0 := Operand.move.inj h
        omega
    · rw [terminator_finishCall hga.live]
      simp only [TypedExpr.seals]
      rfl
  · exact absurd hd (error_not_quiet _ _ _)

theorem match_known {value : TypedExpr} {arm : HirMatchArm} {rest : List HirMatchArm} (ty : ResolvedType) (span : Span)
    (ihvalue : ExpressionKnown c value) (iharms : ArmsKnown c (arm :: rest)) :
    ExpressionKnown c (.mk (.match_ value (arm :: rest)) ty span) := by
  intro expected b ended ho hb he hw hd
  have hw' := hw.of_kind
  rw [HirExprKind.walk, blocksDeclared_append] at hw'
  have hgv := lowerExpression_grows c.ix value none b ho
  have hkv := ihvalue none b ended ho hb he hw'.1
  rcases hv : lowerExpression c.ix value none b with ⟨v, b1⟩
  rw [hv] at hgv hkv
  have hlive : Open b1 := hgv.live
  obtain ⟨bm, heq, hopen⟩ := openMatch_eq hlive c.ix v (storedType c.ix ty expected) (List.cons_ne_nil arm rest)
  rw [lowerExpression] at hd ⊢
  simp only [hv, heq] at hd ⊢
  have hsize := hopen.size
  have hlen : bm.locals.length = b1.locals.length + 2 := by rw [hopen.locals]; simp
  have hfills := lowerArms_fills c.ix (storedType c.ix ty expected) (b1.locals.length + 1) b1.blocks.length
    (arm :: rest) (b1.blocks.length + 1) bm (by omega) (by omega) (by omega)
  have hq : bm.diagnostics = [] := hfills.quiet hd
  have hq1 : b1.diagnostics = [] := by
    have := hopen.diagnostics
    rw [hq] at this
    exact List.prefix_nil.1 this
  have hkv := hkv hq1
  have hbm : Bound c bm := hkv.bound.extend (by rw [hopen.locals]; exact List.prefix_append _ _) hopen.bindings
  have hba := iharms (storedType c.ix ty expected) (b1.locals.length + 1) b1.blocks.length
    (b1.blocks.length + 1) bm (by omega) (by omega) (by omega)
    (fun i hi hlt => hopen.fresh i (by omega) (by omega)) hbm hw'.2 hd
  refine ⟨hba.extend List.prefix_rfl rfl, ⟨?_, ?_⟩, ?_⟩
  · have hresult : bm.locals[b1.locals.length + 1]? = some (storedType c.ix ty expected) := by
      rw [hopen.locals, List.getElem?_append_right (by omega)]
      simp
    simp only [typeOf]
    exact getElem?_of_extends hfills.locals hresult
  · rintro (h | h)
    · cases h
    · have : b1.locals.length + 1 = 0 := Operand.move.inj h
      omega
  · rw [terminator_match hopen hfills]
    simp only [TypedExpr.seals]
    rfl

theorem block_known {statements : List HirStatement} (ty : ResolvedType) (span : Span)
    (ihstatements : BlockKnown c statements) : ExpressionKnown c (.mk (.block statements) ty span) := by
  intro expected b ended ho hb he hw hd
  rw [lowerExpression] at hd ⊢
  have hlets : LetsDeclared c statements := by
    intro entry hentry
    refine hw (.mk (.block statements) ty span) (by rw [TypedExpr.walk]; exact List.mem_cons_self) entry ?_
    exact hentry
  have hw' := hw.of_kind
  rw [HirExprKind.walk] at hw'
  obtain ⟨hb', he'⟩ := ihstatements _ b ended ho hb he hlets hw' hd
  refine ⟨hb', ⟨?_, fun _ => by simp only [TypedExpr.viaResult]⟩, ?_⟩
  · simp only [typeOf]
    exact hb'.result
  · simpa only [TypedExpr.seals] using he'

theorem arguments_known {e : TypedExpr} {es : List TypedExpr} (ihe : ExpressionKnown c e) (ihes : ArgumentsKnown c es) :
    ArgumentsKnown c (e :: es) := by
  intro b ended ho hb he hw hd
  rw [walkAll, blocksDeclared_append] at hw
  have hge := lowerExpression_grows c.ix e none b ho
  have hke := ihe none b ended ho hb he hw.1
  rcases hl : lowerExpression c.ix e none b with ⟨o, b1⟩
  rw [hl] at hge hke
  simp only [lowerArguments, hl] at hd ⊢
  have hke := hke ((lowerArguments_grows c.ix es b1 hge.live).quiet hd)
  exact ihes b1 (e.seals ended) hge.live hke.bound hke.final hw.2 hd

theorem arms_known (pattern : HirPattern) (guard : Option TypedExpr) {body : TypedExpr} (span : Span)
    {arms : List HirMatchArm} (ihbody : ExpressionKnown c body) (iharms : ArmsKnown c arms) :
    ArmsKnown c (.mk pattern guard body span :: arms) := by
  intro resultTy result join block b hjoin hresult hblock hfresh hb hw hd
  simp only [List.length_cons] at hblock hfresh
  have hopen := grows_openArm (show block < b.blocks.length by omega) guard span
  have hbody := lowerExpression_grows c.ix body (some resultTy) _ hopen.live
  rw [lowerArms] at hd ⊢
  have harm := fills_arm hjoin hresult
    (lowerExpression c.ix body (some resultTy) (openArm block guard span b)).1 (hopen.trans hbody)
  have hsize := harm.size
  have hlocals := harm.locals.length_le
  have hrest := lowerArms_fills c.ix resultTy result join arms (block + 1)
    (closeArm result join (lowerExpression c.ix body (some resultTy) (openArm block guard span b)).1
      (lowerExpression c.ix body (some resultTy) (openArm block guard span b)).2) (by omega) (by omega) (by omega)
  have hq : (lowerExpression c.ix body (some resultTy) (openArm block guard span b)).2.diagnostics = [] :=
    hrest.quiet hd
  obtain ⟨hguard, henter⟩ := openArm_quiet (hbody.quiet hq)
  subst hguard
  rw [walkArms, blocksDeclared_append] at hw
  have hstart : (b.enter block).terminator = endOf false := by
    unfold FunctionBuilder.terminator
    show b.blocks[block]?.bind _ = none
    rw [hfresh block (Nat.le_refl _) (by omega)]
    rfl
  rw [henter] at hd hq harm hsize hlocals hopen ⊢
  have hk := ihbody (some resultTy) (b.enter block) false hopen.live
    (hb.extend List.prefix_rfl rfl) hstart hw.1 hq
  refine iharms resultTy result join (block + 1) _ (by omega) (by omega) (by omega) ?_
    (hk.bound.extend List.prefix_rfl rfl) hw.2 hd
  intro i hi hlt
  rw [harm.others i (by omega) (by omega)]
  exact hfresh i (by omega) (by omega)

theorem let_known (definition : DefId) (ty : ResolvedType) {value : TypedExpr} {rest : List HirStatement}
    (ihvalue : ExpressionKnown c value) (ihrest : BlockKnown c rest) :
    BlockKnown c (.let_ definition ty value :: rest) := by
  intro result b ended ho hb he hlets hw hd
  cases ended with
  | true =>
    rw [lowerBlock, if_pos (by rw [he]; rfl)]
    exact ⟨hb, by simpa only [sealsBlock, Bool.true_or] using he⟩
  | false =>
    rw [lowerBlock, if_neg (by rw [he]; simp [endOf])] at hd ⊢
    rw [walkStatements, blocksDeclared_append] at hw
    have hgt := grows_requiredType ho c.ix ty value.span
    have hgv := lowerExpression_grows c.ix value (some (b.requiredType c.ix ty value.span).1) _ hgt.live
    have hbind := grows_bindLocal hgv.live definition (b.requiredType c.ix ty value.span).1
      (lowerExpression c.ix value (some (b.requiredType c.ix ty value.span).1) (b.requiredType c.ix ty value.span).2).1
    have hgr := lowerBlock_grows c.ix rest result _ hbind.live
    have hq := hbind.quiet (hgr.quiet hd)
    have hreq := requiredType_quiet (hgv.quiet hq)
    rw [hreq] at hd hq hbind ⊢
    have hk := ihvalue (some (lowered c.ix ty)) b false ho hb he hw.1 hq
    have hdecl : lookupKey definition c.types = some (lowered c.ix ty) :=
      hlets (definition, lowered c.ix ty) (by simp [blockLets])
    have hend : (bindLocal definition (lowered c.ix ty) (lowerExpression c.ix value (some (lowered c.ix ty)) b).1
        (lowerExpression c.ix value (some (lowered c.ix ty)) b).2).terminator = endOf (value.seals false) := by
      unfold bindLocal
      rw [terminator_bind, terminator_assign, terminator_newLocal]
      exact hk.final
    obtain ⟨hb', he'⟩ := ihrest result _ (value.seals false) hbind.live
      (bound_bindLocal hk.bound hdecl _) hend hlets.tail hw.2 hd
    exact ⟨hb', by simpa only [sealsBlock, Bool.false_or] using he'⟩

theorem return_known {value : TypedExpr} {rest : List HirStatement} (ihvalue : ExpressionKnown c value)
    (ihrest : BlockKnown c rest) : BlockKnown c (.return_ (some value) :: rest) := by
  intro result b ended ho hb he hlets hw hd
  cases ended with
  | true =>
    rw [lowerBlock, if_pos (by rw [he]; rfl)]
    exact ⟨hb, by simpa only [sealsBlock] using he⟩
  | false =>
    rw [lowerBlock, if_neg (by rw [he]; simp [endOf])] at hd ⊢
    rw [walkStatements, blocksDeclared_append] at hw
    have hgv := lowerExpression_grows c.ix value (some result) b ho
    have hset := grows_setResult hgv.live (lowerExpression c.ix value (some result) b).1
    have hq := hset.quiet ((lowerBlock_grows c.ix rest result _ hset.live).quiet hd)
    have hk := ihvalue (some result) b false ho hb he hw.1 hq
    have hend : (setResult (lowerExpression c.ix value (some result) b).1
        (lowerExpression c.ix value (some result) b).2).terminator = endOf true :=
      terminator_terminate (by simpa [Open, FunctionBuilder.assign] using hgv.live) _
    obtain ⟨hb', he'⟩ := ihrest result _ true hset.live (hk.bound.extend List.prefix_rfl rfl) hend
      hlets.tail hw.2 hd
    refine ⟨hb', ?_⟩
    rw [he']
    cases rest with
    | nil => simp only [sealsBlock]
    | cons st rest => simp only [sealsBlock_true, sealsBlock]

theorem return_none_known {rest : List HirStatement} (ihrest : BlockKnown c rest) :
    BlockKnown c (.return_ none :: rest) := by
  intro result b ended ho hb he hlets hw hd
  cases ended with
  | true =>
    rw [lowerBlock, if_pos (by rw [he]; rfl)]
    exact ⟨hb, by simpa only [sealsBlock] using he⟩
  | false =>
    rw [lowerBlock, if_neg (by rw [he]; simp [endOf])] at hd ⊢
    rw [walkStatements] at hw
    have hret := grows_returnUnit ho result
    have hend : (returnUnit result b).terminator = endOf true := by
      unfold returnUnit
      split
      · exact terminator_terminate (by simpa [Open, FunctionBuilder.assign] using ho) _
      · exact terminator_terminate ho _
    have hb1 : Bound c (returnUnit result b) := by
      refine hb.extend ?_ ?_ <;> unfold returnUnit <;> split
      · exact List.prefix_rfl
      · exact List.prefix_rfl
      · rfl
      · rfl
    obtain ⟨hb', he'⟩ := ihrest result _ true hret.live hb1 hend hlets.tail hw hd
    refine ⟨hb', ?_⟩
    rw [he', sealsBlock_true]
    simp only [sealsBlock]

theorem last_known {e : TypedExpr} (ihe : ExpressionKnown c e) : BlockKnown c [.expression e] := by
  intro result b ended ho hb he hlets hw hd
  cases ended with
  | true =>
    rw [lowerBlock, if_pos (by rw [he]; rfl)]
    exact ⟨hb, by simpa only [sealsBlock] using he⟩
  | false =>
    rw [lowerBlock, if_neg (by rw [he]; simp [endOf])] at hd ⊢
    rw [walkStatements, blocksDeclared_append] at hw
    have hgv := lowerExpression_grows c.ix e (some result) b ho
    have hset := grows_setResult hgv.live (lowerExpression c.ix e (some result) b).1
    have hk := ihe (some result) b false ho hb he hw.1 (hset.quiet hd)
    refine ⟨hk.bound.extend List.prefix_rfl rfl, ?_⟩
    simp only [sealsBlock]
    exact terminator_terminate (by simpa [Open, FunctionBuilder.assign] using hgv.live) _

theorem statement_known {e : TypedExpr} {next : HirStatement} {rest : List HirStatement} (ihe : ExpressionKnown c e)
    (ihrest : BlockKnown c (next :: rest)) : BlockKnown c (.expression e :: next :: rest) := by
  intro result b ended ho hb he hlets hw hd
  cases ended with
  | true =>
    rw [lowerBlock, if_pos (by rw [he]; rfl)]
    exact ⟨hb, by simpa only [sealsBlock, Bool.true_or] using he⟩
  | false =>
    rw [lowerBlock, if_neg (by rw [he]; simp [endOf])] at hd ⊢
    rw [walkStatements, blocksDeclared_append] at hw
    have hgv := lowerExpression_grows c.ix e none b ho
    have hq := (lowerBlock_grows c.ix (next :: rest) result _ hgv.live).quiet hd
    have hk := ihe none b false ho hb he hw.1 hq
    obtain ⟨hb', he'⟩ := ihrest result _ (e.seals false) hgv.live hk.bound hk.final
      hlets.tail hw.2 hd
    exact ⟨hb', by simpa only [sealsBlock, Bool.false_or] using he'⟩

end

/-! ## The induction -/

mutual
/-- **What is known behind an expression that was lowered without a diagnostic.** -/
theorem lowerExpression_known {c : Scope} (hs : Scoped c) : ∀ (e : TypedExpr), ExpressionKnown c e
  | .mk (.borrow mutable operand) ty span => borrow_known mutable operand ty span
  | .mk (.await operand) ty span => await_known ty span (lowerExpression_known hs operand)
  | .mk (.literal literal) ty span => literal_known literal ty span
  | .mk (.reference definition) ty span => by
    intro expected b ended ho hb he hw hd
    rw [lowerExpression] at hd ⊢
    exact known_lowerReference hs hb he hd
  | .mk (.binary operator left right) ty span =>
    binary_known operator ty span (lowerExpression_known hs left) (lowerExpression_known hs right)
  | .mk (.call callee arguments) ty span => call_known callee ty span (lowerArguments_known hs arguments)
  | .mk (.match_ value []) ty span => by
    intro expected b ended ho hb he hw hd
    rw [lowerExpression] at hd
    exact absurd hd (error_not_quiet _ _ _)
  | .mk (.match_ value (arm :: rest)) ty span =>
    match_known ty span (lowerExpression_known hs value) (lowerArms_known hs (arm :: rest))
  | .mk (.block statements) ty span => block_known ty span (lowerBlock_known hs statements)
  | .mk (.array _) _ span => by
    intro expected b ended ho hb he hw hd
    rw [lowerExpression] at hd
    exact absurd hd (error_not_quiet _ _ _)
  | .mk (.field _ _) _ span => by
    intro expected b ended ho hb he hw hd
    rw [lowerExpression] at hd
    exact absurd hd (error_not_quiet _ _ _)
  | .mk (.unary _ _) _ span => by
    intro expected b ended ho hb he hw hd
    rw [lowerExpression] at hd
    exact absurd hd (error_not_quiet _ _ _)
theorem lowerArguments_known {c : Scope} (hs : Scoped c) : ∀ (es : List TypedExpr), ArgumentsKnown c es
  | [] => by
    intro b ended ho hb he hw hd
    rw [lowerArguments]
    exact hb
  | e :: es => arguments_known (lowerExpression_known hs e) (lowerArguments_known hs es)
theorem lowerArms_known {c : Scope} (hs : Scoped c) : ∀ (arms : List HirMatchArm), ArmsKnown c arms
  | [] => by
    intro resultTy result join block b hjoin hresult hblock hfresh hb hw hd
    rw [lowerArms]
    exact hb
  | .mk pattern guard body span :: arms =>
    arms_known pattern guard span (lowerExpression_known hs body) (lowerArms_known hs arms)
theorem lowerBlock_known {c : Scope} (hs : Scoped c) : ∀ (statements : List HirStatement), BlockKnown c statements
  | [] => by
    intro result b ended ho hb he hlets hw hd
    rw [lowerBlock]
    exact ⟨hb, by simpa only [sealsBlock] using he⟩
  | .let_ definition ty value :: rest =>
    let_known definition ty (lowerExpression_known hs value) (lowerBlock_known hs rest)
  | .return_ (some value) :: rest => return_known (lowerExpression_known hs value) (lowerBlock_known hs rest)
  | .return_ none :: rest => return_none_known (lowerBlock_known hs rest)
  | [.expression e] => last_known (lowerExpression_known hs e)
  | .expression e :: next :: rest => statement_known (lowerExpression_known hs e) (lowerBlock_known hs (next :: rest))
end

end Lower
end Syllog
