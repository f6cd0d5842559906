import Syllog.LowerSim
/-!
# LowerTrees — lowered trees do what the evaluator says

One statement for each lowering function (`ExpressionFollows`, `ArgumentsFollow`, `ArmsFollow`, `BlockFollows`), one lemma
for each constructor, and the induction over the tree at the end.  Blocks are allowed where they are `placed`: elsewhere
the machine may return where the evaluator goes on.
-/
namespace Syllog
namespace Lower

open Mir Hir Runs
open Interp hiding Trap

/-! ## Behind a block -/

/-- A function without nested blocks has not written its return slot yet. -/
def Vacant (site : Site) (L : Locals) : Prop := site.plain = true → ∀ w, L[0]? ≠ some (some w)

/-- Behind the statements of a block: its value, if it has one, is in the return slot. -/
structure BlockLands (p : MirProgram) (F : MirFunction) (cs : List Caller) (admits : DefId → UInt64 → List Value → Prop)
    (c : Scope) (site : Site) (n : Nat) (L : Locals) (ended : Bool) (b : FunctionBuilder) (r : Option Value × Env)
    (s : State) : Prop where
  standing : Standing p F cs admits c b ended r.2 s
  value : ∀ v, r.1 = some v → Holds (.copy 0) v s.frame.locals
  vacant : r.1 = none → Vacant site s.frame.locals
  fades : Fades n true L s.frame.locals

theorem Vacant.fades {site : Site} {L L' : Locals} {n : Nat} {z : Bool} (h : Vacant site L) (hf : Fades n z L L')
    (hn : 0 < n) (hz : site.plain = true → z = false) : Vacant site L' :=
  fun hp w hw => h hp w (hf 0 w hn (fun _ => hz hp) hw)

theorem any_walkAll (es : List TypedExpr) : (walkAll es).any TypedExpr.isBlock = es.any TypedExpr.hasBlock := by
  induction es with
  | nil => simp [walkAll]
  | cons e es ih => rw [walkAll, List.any_append, ih, List.any_cons, TypedExpr.hasBlock]

/-- A slot of type unit holds unit. -/
theorem Inside.unit {p : MirProgram} {F : MirFunction} {cs : List Caller} {admits : DefId → UInt64 → List Value → Prop}
    {s : State} (h : Inside p F cs admits s) (hF : F.locals[0]? = some .unit) : Holds (.copy 0) .unit s.frame.locals := by
  intro w hw
  have hty := h.typed 0 w _ hw hF
  cases w <;> first | rfl | exact hty.elim

section
variable {p : MirProgram} {F : MirFunction} {cs : List Caller} {admits : DefId → UInt64 → List Value → Prop}
  {c : Context} {fuel : Nat} {site : Site} {b : FunctionBuilder} {ended : Bool} {env : Env} {s : State}

/-- Where nothing escapes, nothing has to be said about it. -/
theorem Follow.inner {e : TypedExpr} {expected : Option MirType} {used : Bool} {r : Operand × FunctionBuilder}
    {R : Value → State → Prop} (h : Follow p F cs admits c fuel e expected false used ended b env s r) :
    Follows (step p unlimited) (Stops p (fuel + 1) R) s (evalExpression c e expected env)
      (Lands p F cs admits c.toScope b.locals.length s.frame.locals e.hasBlock used (e.seals ended) r.1 r.2) :=
  Follows.mono h (fun _ he => he.mono (fun _ hv => by cases hv.1)) (fun _ _ _ hl => hl)

/-- A `return` among the statements of a block: what follows it is not lowered. -/
def Leaves (p : MirProgram) (F : MirFunction) (cs : List Caller) (admits : DefId → UInt64 → List Value → Prop)
    (returns ended : Bool) (b : FunctionBuilder) (v : Value) (s : State) : Prop :=
  ended = true ∧ Escapes p F cs admits returns (.copy 0) b v s

theorem forward_leaves (returns ended : Bool) (b : FunctionBuilder) :
    Forward (step p unlimited) (Stops p fuel (Leaves p F cs admits returns ended b)) :=
  stops_forward (fun v s s' hr h => ⟨h.1, escapes_forward returns _ b v s s' hr h.2⟩)

theorem forward_escapes (tail : Bool) (o : Operand) (b : FunctionBuilder) :
    Forward (step p unlimited) (Stops p fuel (Escapes p F cs admits tail o b)) :=
  stops_forward (fun v s s' => escapes_forward tail o b v s s')

/-- The value of an expression goes to the return slot, if it ends there or leaves there. -/
theorem Follow.result (hset : Setting p admits c fuel site) {e : TypedExpr} {expected : Option MirType} {tail : Bool}
    {o : Operand} {b1 : FunctionBuilder} (h : Follow p F cs admits c fuel e expected tail true ended b env s (o, b1))
    (hlive : Open b1) (hb : Built (setResult o b1) F) :
    Follows (step p unlimited) (Stops p (fuel + 1) (Leaves p F cs admits tail true (setResult o b1))) s
      (evalExpression c e expected env)
      (fun r s' => Standing p F cs admits c.toScope (setResult o b1) true r.2 s' ∧ Holds (.copy 0) r.1 s'.frame.locals ∧
        Fades b.locals.length true s.frame.locals s'.frame.locals) := by
  refine Follows.then h (fun _ he => he.mono ?_) ?_
  · rintro v ⟨htail, s1, hr1, hat, ho⟩
    obtain ⟨s2, L', hr2, hat2, -, hL⟩ := hat.setResult hset.verified hlive ho hb
    exact ⟨rfl, htail, s2, hr1.trans hr2, hat2, by rw [hL]; exact holds_set L' 0 v⟩
  · rintro ⟨v, env1⟩ s1 - hl
    obtain ⟨s2, L', hr2, hat2, hthin, hL⟩ := hl.standing.toAt.setResult hset.verified hlive (hl.holds rfl) hb
    have hpos := hl.standing.bound.pos
    refine ⟨s2, hr2, ⟨hat2, (grows_setResult hlive o).live, hl.standing.bound.extend List.prefix_rfl rfl, ?_, ?_⟩, ?_, ?_⟩
    · exact terminator_terminate (keeps_assign hlive _ _).live _
    · rw [hL]
      exact (hl.standing.agrees.thins hthin).set (setResult o b1) rfl (Nat.le_refl _) hpos
        (hl.standing.bound.free (.inr rfl)) v
    · rw [hL]
      exact holds_set L' 0 v
    · rw [hL]
      have hwrite := (hthin.fades (n := b.locals.length) (z := true)).set (.inr ⟨rfl, rfl⟩) v
      have := hl.fades.trans hwrite (Nat.le_refl _)
      rw [Bool.or_true] at this
      exact this

end

/-! ## What is shown of each kind of tree -/

section
variable (p : MirProgram) (F : MirFunction) (cs : List Caller) (admits : DefId → UInt64 → List Value → Prop) (c : Context)
  (fuel : Nat) (site : Site)

/-- From in front of the expression's code the machine runs to behind it, with its value in the operand. -/
def ExpressionFollows (e : TypedExpr) : Prop :=
  ∀ (expected : Option MirType) (b : FunctionBuilder) (tail used ended : Bool) (env : Env) (s : State),
    Standing p F cs admits c.toScope b ended env s → Fit c.toScope admits site e.walk →
    e.placed site tail used ended = true → (lowerExpression c.ix e expected b).2.diagnostics = [] →
    Built (lowerExpression c.ix e expected b).2 F →
    Follow p F cs admits c fuel e expected tail used ended b env s (lowerExpression c.ix e expected b)

def ArgumentsFollow (es : List TypedExpr) : Prop :=
  ∀ (b : FunctionBuilder) (ended : Bool) (env : Env) (s : State), Standing p F cs admits c.toScope b ended env s →
    Fit c.toScope admits site (walkAll es) → placedArguments site es ended = true →
    (lowerArguments c.ix es b).2.diagnostics = [] → Built (lowerArguments c.ix es b).2 F →
    Follows (step p unlimited) (Stops p (fuel + 1) (fun _ _ => False)) s (evalArguments c es env) (fun r s' =>
      (∃ ended', Standing p F cs admits c.toScope (lowerArguments c.ix es b).2 ended' r.2 s') ∧
      List.Forall₂ (fun o v => Holds o v s'.frame.locals) (lowerArguments c.ix es b).1 r.1 ∧
      Fades b.locals.length ((walkAll es).any TypedExpr.isBlock) s.frame.locals s'.frame.locals)

/-- The builder in front of the arms of a match, whose result is the local `result` and whose join the block `join`. -/
structure InFront (result join block count : Nat) (b : FunctionBuilder) : Prop where
  before : join < block
  size : block + count ≤ b.blocks.length
  fresh : ∀ i, block ≤ i → i < block + count → b.blocks[i]? = some ⟨[], none⟩
  joins : b.blocks[join]? = some ⟨[], none⟩
  local_ : result < b.locals.length
  free : ∀ d, lookupKey d b.bindings ≠ some result
  bound : Bound c.toScope b

/-- What is left of a match whose scrutinee is the given value. -/
structure Remaining (k : UInt64) (fields : List Value) (arms : List HirMatchArm) : Prop where
  closed : ClosedArms c.ix arms
  patterns : ∀ arm ∈ arms, ∀ literal, arm.pattern ≠ .literal literal
  binders : ∀ arm ∈ arms, ∀ d ∈ arm.pattern.binders, lookupKey d c.types = none
  covered : ∃ arm ∈ arms, matchesPattern c.ix arm.pattern (.aggregate k fields) = true

/-- From the block the switch leads to the machine runs to the join, with the value of the first arm that matches. -/
def ArmsFollow (arms : List HirMatchArm) : Prop :=
  ∀ (ty : MirType) (result join block n : Nat) (b : FunctionBuilder) (tail : Bool) (env : Env) (s : State) (k : UInt64)
    (fields : List Value), Remaining c k fields arms → InFront c result join block arms.length b → n ≤ result →
    Fit c.toScope admits site (walkArms arms) → placedArms site arms tail = true →
    (lowerArms c.ix ty result join block arms b).diagnostics = [] →
    Sealed (lowerArms c.ix ty result join block arms b) F →
    At p F cs admits (b.enter (switchTarget k.toNat (matchTargets c.ix block arms b).1 (block + arms.length - 1))) s →
    Agrees b env s.frame.locals →
    Follows (step p unlimited) (Stops p (fuel + 1)
        (Escapes p F cs admits tail (.move result) ((lowerArms c.ix ty result join block arms b).enter join))) s
      (evalArms c ty (.aggregate k fields) arms env)
      (Lands p F cs admits c.toScope n s.frame.locals ((walkArms arms).any TypedExpr.isBlock) true false (.move result)
        ((lowerArms c.ix ty result join block arms b).enter join))

def BlockFollows (statements : List HirStatement) : Prop :=
  ∀ (result : MirType) (b : FunctionBuilder) (returns ended : Bool) (env : Env) (s : State),
    Standing p F cs admits c.toScope b ended env s → (statements = [] ∨ ended = false) →
    LetsDeclared c.toScope statements → Fit c.toScope admits site (walkStatements statements) →
    Vacant site s.frame.locals → placedBlock site statements returns = true →
    (lowerBlock c.ix statements result b).diagnostics = [] → Built (lowerBlock c.ix statements result b) F →
    Follows (step p unlimited) (Stops p (fuel + 1)
        (Leaves p F cs admits returns (sealsBlock statements ended) (lowerBlock c.ix statements result b))) s
      (evalBlock c statements result env)
      (BlockLands p F cs admits c.toScope site b.locals.length s.frame.locals (sealsBlock statements ended)
        (lowerBlock c.ix statements result b))

end

/-! ## From one arm to the next -/

section
variable {c : Context}

/-- What is left of a match when its first arm does not match. -/
theorem Remaining.tail {k : UInt64} {fields : List Value} {arm next : HirMatchArm} {more : List HirMatchArm}
    (h : Remaining c k fields (arm :: next :: more)) (hno : matchesPattern c.ix arm.pattern (.aggregate k fields) = false) :
    Remaining c k fields (next :: more) := by
  refine ⟨h.closed.2, fun arm' hmem => h.patterns arm' (List.mem_cons_of_mem _ hmem),
    fun arm' hmem => h.binders arm' (List.mem_cons_of_mem _ hmem), ?_⟩
  obtain ⟨arm', hmem, hmatch⟩ := h.covered
  rcases List.mem_cons.1 hmem with rfl | hmem
  · rw [hno] at hmatch
    cases hmatch
  · exact ⟨arm', hmem, hmatch⟩

/-- The builder in front of the other arms, once the first is filled. -/
theorem InFront.next {result join block count : Nat} {b b' : FunctionBuilder}
    (h : InFront c result join block (count + 1) b) (hf : Fills result join block 1 b b') (hb : Bound c.toScope b') :
    InFront c result join (block + 1) count b' := by
  have hbefore := h.before
  have hsize := h.size
  have hresult := h.local_
  refine ⟨by omega, Nat.le_trans (by omega) hf.size, fun i hi hlt => ?_, ?_, ?_, fun d hd => ?_, hb⟩
  · rw [hf.others i (by omega) (by omega)]
    exact h.fresh i (by omega) (by omega)
  · rw [hf.others join (by omega) (by omega)]
    exact h.joins
  · exact Nat.lt_of_lt_of_le hresult hf.locals.length_le
  · obtain ⟨new, hnew, hrange⟩ := hf.bindings
    rw [hnew] at hd
    rcases lookupKey_append hd with hmem | hd
    · have := (hrange _ hmem).1
      omega
    · exact h.free d hd

end

/-! ## One lemma for each constructor -/

section
variable {p : MirProgram} {F : MirFunction} {cs : List Caller} {admits : DefId → UInt64 → List Value → Prop}
  {c : Context} {fuel : Nat} {site : Site} (hset : Setting p admits c fuel site)
include hset

omit hset in
theorem await_follows {operand : TypedExpr} (ty : ResolvedType) (span : Span)
    (ihoperand : ExpressionFollows p F cs admits c fuel site operand) :
    ExpressionFollows p F cs admits c fuel site (.mk (.await operand) ty span) := by
  intro expected b tail used ended env s h hfit hp hd hb
  rw [lowerExpression] at hd hb ⊢
  have hfit' := hfit.of_kind
  rw [HirExprKind.walk] at hfit'
  rw [TypedExpr.placed] at hp
  have ih := ihoperand expected b tail used ended env s h hfit' hp hd hb
  have hblock : (TypedExpr.mk (.await operand) ty span).hasBlock = operand.hasBlock := by
    rw [hasBlock_mk, HirExprKind.walk, TypedExpr.hasBlock]
    rfl
  unfold Follow at ih ⊢
  rw [evalExpression, hblock, TypedExpr.seals]
  exact ih

theorem binary_follows (operator : BinaryOperator) {left right : TypedExpr} (ty : ResolvedType) (span : Span)
    (ihleft : ExpressionFollows p F cs admits c fuel site left)
    (ihright : ExpressionFollows p F cs admits c fuel site right) :
    ExpressionFollows p F cs admits c fuel site (.mk (.binary operator left right) ty span) := by
  intro expected b tail used ended env s h hfit hp hd hb
  have hfit' := hfit.of_kind
  rw [HirExprKind.walk, fit_append] at hfit'
  simp only [TypedExpr.placed, Bool.and_eq_true, Bool.not_eq_true', Bool.and_eq_false_iff] at hp
  obtain ⟨⟨hpl, hpr⟩, hclash⟩ := hp
  have hblock : (TypedExpr.mk (.binary operator left right) ty span).hasBlock = (left.hasBlock || right.hasBlock) := by
    rw [hasBlock_mk, HirExprKind.walk, List.any_append, TypedExpr.hasBlock, TypedExpr.hasBlock]
    rfl
  have hgl := lowerExpression_grows c.ix left expected b h.live
  have hkl := lowerExpression_known hset.names left expected b ended h.live h.bound h.final hfit'.1.declared
  have ihl := ihleft expected b false true ended env s h hfit'.1 hpl
  rcases hl : lowerExpression c.ix left expected b with ⟨l, b1⟩
  rw [hl] at hgl hkl ihl
  simp only [lowerExpression, hl] at hd hb ⊢
  have hgr := lowerExpression_grows c.ix right ((b1.operandType l).or expected) b1 hgl.live
  have hgf := grows_finishBinary hgr.live operator l
    (lowerExpression c.ix right ((b1.operandType l).or expected) b1).1 ((b1.operandType l).or expected) span
  have hkl := hkl (hgr.quiet (hgf.quiet hd))
  rw [hkl.reads.ty, Option.some_or] at hd hb hgr hgf ⊢
  have hkr := lowerExpression_known hset.names right (some (typeOf c.toScope left expected)) b1 (left.seals ended)
    hgl.live hkl.bound hkl.final hfit'.2.declared (hgf.quiet hd)
  have ihr := fun env1 s1 (hst : Standing p F cs admits c.toScope b1 (left.seals ended) env1 s1) =>
    ihright (some (typeOf c.toScope left expected)) b1 false true (left.seals ended) env1 s1
      hst hfit'.2 hpr (hgf.quiet hd) (hb.of_keeps hgf.toKeeps)
  have ihl := ihl (hgr.quiet (hgf.quiet hd)) ((hb.of_keeps hgf.toKeeps).of_keeps hgr.toKeeps)
  rcases hr : lowerExpression c.ix right (some (typeOf c.toScope left expected)) b1 with ⟨r, b2⟩
  rw [hr] at hgr hkr ihr
  simp only [hr] at hd hb ⊢
  unfold Follow
  rw [evalExpression, hblock, TypedExpr.seals]
  unfold finishBinary at hd hb ⊢
  simp only [Option.getD_some] at hd hb ⊢
  cases hop : lowerBinary operator with
  | none =>
    simp only [hop] at hd
    exact absurd hd (error_not_quiet _ _ _)
  | some op =>
    simp only [hop] at hb ⊢
    refine Follows.bind (forward_escapes _ _ _) ihl.inner ?_
    rintro ⟨x, env1⟩ s1 - hl1
    refine Follows.bind (forward_escapes _ _ _) (ihr env1 s1 hl1.standing).inner ?_
    rintro ⟨y, env2⟩ s2 - hl2
    have hx : Holds l x s2.frame.locals := (hl1.holds rfl).fades hkl.reads hl2.fades (fun hvia => by
      rcases hclash with hc | hc
      · rw [hvia] at hc
        cases hc
      · exact hc)
    refine Follows.mono (hl2.standing.binary hset.verified hop hx (hl2.holds rfl) _ used hb) (fun _ he => he)
      (fun r' s3 _ hl3 => ?_)
    have hle1 : b.locals.length ≤ b1.locals.length := hgl.locals.length_le
    have hle2 : b1.locals.length ≤ b2.locals.length := hgr.locals.length_le
    have hmid := hl3.after hl2.fades hle2
    rw [Bool.or_false] at hmid
    exact hmid.after hl1.fades hle1

theorem call_follows (callee : TypedExpr) {arguments : List TypedExpr} (ty : ResolvedType) (span : Span)
    (iharguments : ArgumentsFollow p F cs admits c fuel site arguments) :
    ExpressionFollows p F cs admits c fuel site (.mk (.call callee arguments) ty span) := by
  intro expected b tail used ended env s h hfit hp hd hb
  have hfit' := hfit.of_kind
  rw [HirExprKind.walk, fit_append] at hfit'
  rw [TypedExpr.placed] at hp
  have hblock : (walkAll arguments).any TypedExpr.isBlock = true →
      (TypedExpr.mk (.call callee arguments) ty span).hasBlock = true := by
    intro hany
    rw [hasBlock_mk, HirExprKind.walk, List.any_append, hany, Bool.or_true, Bool.or_true]
  unfold Follow
  rw [lowerExpression] at hd hb ⊢
  rw [evalExpression, TypedExpr.seals]
  cases hk : callee.kind with
  | reference definition =>
    simp only [hk] at hd hb ⊢
    have hga := lowerArguments_grows c.ix arguments b h.live
    have hgf := grows_finishCall hga.live definition (lowerArguments c.ix arguments b).1 (storedType c.ix ty expected)
    have iha := iharguments b ended env s h hfit'.2 hp (hgf.quiet hd) (hb.of_keeps hgf.toKeeps)
    rcases ha : lowerArguments c.ix arguments b with ⟨args, b1⟩
    rw [ha] at hga iha
    simp only [ha] at hb ⊢
    refine Follows.bind (forward_escapes _ _ _)
      (Follows.mono iha (fun _ he => he.mono (fun _ hv => hv.elim)) (fun _ _ _ hq => hq)) ?_
    rintro ⟨vs, env1⟩ s1 - ⟨⟨ended1, hst⟩, hargs, hfades⟩
    refine Follows.mono (hst.call hset (forward_escapes _ _ _) definition (storedType c.ix ty expected) used hargs hb)
      (fun _ he => he) (fun r' s3 _ hl3 => ?_)
    have hle : b.locals.length ≤ b1.locals.length := hga.locals.length_le
    have := hl3.after hfades hle
    rw [Bool.or_false] at this
    exact this.mono (Nat.le_refl _) hblock
  | _ =>
    simp only [hk] at hd
    exact absurd hd (error_not_quiet _ _ _)

theorem match_follows {value : TypedExpr} {arm : HirMatchArm} {rest : List HirMatchArm} (ty : ResolvedType) (span : Span)
    (ihvalue : ExpressionFollows p F cs admits c fuel site value)
    (iharms : ArmsFollow p F cs admits c fuel site (arm :: rest)) :
    ExpressionFollows p F cs admits c fuel site (.mk (.match_ value (arm :: rest)) ty span) := by
  intro expected b tail used ended env s h hfit hp hd hb
  obtain ⟨⟨id, hid, hcov⟩, hlit, hbinders⟩ : CoveredMatch c.toScope admits value (arm :: rest) :=
    hfit.head.covered _ List.mem_cons_self
  have hfit' := hfit.of_kind
  rw [HirExprKind.walk, fit_append] at hfit'
  simp only [TypedExpr.placed, Bool.and_eq_true] at hp
  have hblock : (TypedExpr.mk (.match_ value (arm :: rest)) ty span).hasBlock =
      (value.hasBlock || (walkArms (arm :: rest)).any TypedExpr.isBlock) := by
    rw [hasBlock_mk, HirExprKind.walk, List.any_append, TypedExpr.hasBlock]
    rfl
  have hgv := lowerExpression_grows c.ix value none b h.live
  have hkv := lowerExpression_known hset.names value none b ended h.live h.bound h.final hfit'.1.declared
  have ihv := ihvalue none b false true ended env s h hfit'.1 hp.1
  rcases hv : lowerExpression c.ix value none b with ⟨v, b1⟩
  rw [hv] at hgv hkv ihv
  have hlive : Open b1 := hgv.live
  obtain ⟨bm, heq, hopen⟩ := openMatch_eq hlive c.ix v (storedType c.ix ty expected) (List.cons_ne_nil arm rest)
  have hclosed : bm.diagnostics = [] → ClosedArms c.ix (arm :: rest) := fun hq => openMatch_quiet
    (show (openMatch c.ix v (storedType c.ix ty expected) (arm :: rest) b1).2.2.diagnostics = [] by rw [heq]; exact hq)
  rw [lowerExpression] at hd hb ⊢
  simp only [hv, heq] at hd hb ⊢
  have hsize := hopen.size
  have hlen : bm.locals.length = b1.locals.length + 2 := by rw [hopen.locals]; simp
  have hfills := lowerArms_fills c.ix (storedType c.ix ty expected) (b1.locals.length + 1) b1.blocks.length
    (arm :: rest) (b1.blocks.length + 1) bm (by omega) (by omega) (by omega)
  have hq : bm.diagnostics = [] := hfills.quiet hd
  have hq1 : b1.diagnostics = [] := by
    have := hopen.diagnostics
    rw [hq] at this
    exact List.prefix_nil.1 this
  have hkv := hkv hq1
  have hsealed : Sealed (lowerArms c.ix (storedType c.ix ty expected) (b1.locals.length + 1) b1.blocks.length
      (b1.blocks.length + 1) (arm :: rest) bm) F := hb.of_enter (terminator_match hopen hfills)
  have hfresh : ∀ i, b1.blocks.length + 1 ≤ i → i < b1.blocks.length + 1 + (arm :: rest).length →
      bm.blocks[i]? = some ⟨[], none⟩ := fun i hi hlt => hopen.fresh i (by omega) (by omega)
  have hsealedm := hsealed.of_fills hfills hfresh
  have hbuilt1 : Built b1 F := hb.of_keeps (grows_match hlive hopen hfills).toKeeps
  have ihv := ihv hq1 hbuilt1
  have hbm : Bound c.toScope bm :=
    hkv.bound.extend (by rw [hopen.locals]; exact List.prefix_append _ _) hopen.bindings
  unfold Follow
  rw [evalExpression, hblock, TypedExpr.seals]
  refine Follows.bind (forward_escapes _ _ _) ihv.inner ?_
  rintro ⟨x, env1⟩ s1 - hl1
  have hty : b1.operandType v = some (.aggregate id) := by rw [← hid]; exact hkv.reads.ty
  have hlast : b1.blocks.length + 1 + (arm :: rest).length - 1 = b1.blocks.length + (arm :: rest).length := by omega
  have hrange := matchTargets_range c.ix (List.cons_ne_nil arm rest) (b1.blocks.length + 1) b1
  rw [hlast] at hrange
  have hst1 : Standing p F cs admits c.toScope b1 (value.seals ended) env1 s1 := hl1.standing
  obtain ⟨s2, k, fields, rfl, hadm, hr2, hat2, hagree2, hfades2⟩ := hst1.switch hset.verified hopen hsealedm
    (hl1.holds rfl) hty hrange
  rw [← hlast] at hat2
  refine Follows.after (forward_escapes _ _ _) hr2 ?_
  have hfront : InFront c (b1.locals.length + 1) b1.blocks.length (b1.blocks.length + 1) (arm :: rest).length bm := by
    refine ⟨Nat.lt_succ_self _, by omega, hfresh, hopen.fresh _ (Nat.le_refl _) (by omega), by omega, fun d => ?_, hbm⟩
    rw [hopen.bindings]
    exact hkv.bound.free (.inl (Nat.le_succ _)) d
  have iha := iharms (storedType c.ix ty expected) _ _ _ b1.locals.length bm tail env1 s2 k fields
    ⟨hclosed hq, hlit, hbinders, hcov k fields hadm⟩ hfront (Nat.le_succ _) hfit'.2 hp.2 hd hsealed (by
      rw [matchTargets_fst c.ix (arm :: rest) (b1.blocks.length + 1) bm b1]
      exact hat2) hagree2
  refine Follows.mono iha (fun _ he => he) (fun r' s3 _ hl3 => ?_)
  have hle : b.locals.length ≤ b1.locals.length := hgv.locals.length_le
  have hmid := (⟨hl3.standing, fun _ => hl3.holds rfl, hl3.fades⟩ : Lands p F cs admits c.toScope b1.locals.length
    s2.frame.locals _ used false _ _ r' s3).after hfades2 (Nat.le_refl _)
  rw [Bool.false_or] at hmid
  exact hmid.after hl1.fades hle

theorem block_follows {statements : List HirStatement} (ty : ResolvedType) (span : Span)
    (ihstatements : BlockFollows p F cs admits c fuel site statements) :
    ExpressionFollows p F cs admits c fuel site (.mk (.block statements) ty span) := by
  intro expected b tail used ended env s h hfit hp hd hb
  rw [lowerExpression] at hd hb ⊢
  have hblock : (TypedExpr.mk (.block statements) ty span).hasBlock = true := by
    rw [hasBlock_mk]
    rfl
  have hplain : site.plain = false := by
    cases hplain : site.plain with
    | false => rfl
    | true =>
      have := hfit.plain hplain
      rw [← TypedExpr.hasBlock, hblock] at this
      cases this
  have hlets : LetsDeclared c.toScope statements := fun entry hentry =>
    hfit.head.declared (.mk (.block statements) ty span) List.mem_cons_self entry hentry
  have hfit' := hfit.of_kind
  rw [HirExprKind.walk] at hfit'
  simp only [TypedExpr.placed, Bool.and_eq_true, Bool.not_eq_true', Bool.or_eq_true] at hp
  obtain ⟨⟨hended, hpb⟩, hvalue⟩ := hp
  subst hended
  have ih := ihstatements (expected.getD .unit) b tail false env s h (.inr rfl) hlets hfit'
    (fun hp => by rw [hplain] at hp; cases hp) hpb hd hb
  unfold Follow
  rw [evalExpression, hblock, TypedExpr.seals]
  cases hr : evalBlock c statements (expected.getD .unit) env with
  | error e =>
    rw [hr] at ih
    exact Stops.mono ih (fun v hv => hv.2)
  | ok r =>
    rw [hr] at ih
    obtain ⟨v, env1⟩ := r
    obtain ⟨s1, hr1, hl⟩ := ih
    refine ⟨s1, hr1, hl.standing, fun hused => ?_, hl.fades⟩
    cases v with
    | some v => exact hl.value v rfl
    | none =>
      rcases hvalue with ((hu | hu) | hu) | hu
      · rw [hused] at hu
        cases hu
      · have hF : F.locals[0]? = some .unit := by
          rw [← hset.unit hu]
          exact getElem?_of_extends hb.locals hl.standing.bound.result
        exact hl.standing.toInside.unit hF
      · exact absurd hr (evalBlock_of_valued statements _ _ _ hu)
      · exact absurd hr (evalBlock_of_leaves statements _ _ _ hu)

omit hset in
theorem arguments_nil_follow : ArgumentsFollow p F cs admits c fuel site [] := by
  intro b ended env s h hfit hp hd hb
  rw [lowerArguments, evalArguments]
  exact Follows.pure ⟨⟨ended, h⟩, .nil, (Thins.refl _).fades⟩

theorem arguments_cons_follow {e : TypedExpr} {es : List TypedExpr}
    (ihe : ExpressionFollows p F cs admits c fuel site e) (ihes : ArgumentsFollow p F cs admits c fuel site es) :
    ArgumentsFollow p F cs admits c fuel site (e :: es) := by
  intro b ended env s h hfit hp hd hb
  rw [walkAll, fit_append] at hfit
  simp only [placedArguments, Bool.and_eq_true, Bool.not_eq_true', Bool.and_eq_false_iff] at hp
  obtain ⟨⟨hpe, hpes⟩, hclash⟩ := hp
  have hge := lowerExpression_grows c.ix e none b h.live
  have hke := lowerExpression_known hset.names e none b ended h.live h.bound h.final hfit.1.declared
  have ihe := ihe none b false true ended env s h hfit.1 hpe
  rcases hl : lowerExpression c.ix e none b with ⟨o, b1⟩
  rw [hl] at hge hke ihe
  simp only [lowerArguments, hl] at hd hb ⊢
  have hgs := lowerArguments_grows c.ix es b1 hge.live
  have hke := hke (hgs.quiet hd)
  have hforward : Forward (step p unlimited) (Stops p (fuel + 1) (fun _ _ => False)) :=
    stops_forward (fun _ _ _ _ hf => hf)
  rw [evalArguments, walkAll, List.any_append]
  refine Follows.bind hforward (ihe (hgs.quiet hd) (hb.of_keeps hgs.toKeeps)).inner ?_
  rintro ⟨v, env1⟩ s1 - hl1
  have ihs := ihes b1 (e.seals ended) env1 s1 hl1.standing hfit.2 hpes hd hb
  refine Follows.bind hforward ihs ?_
  rintro ⟨vs, env2⟩ s2 - ⟨hst, hargs, hfades⟩
  have hholds : Holds o v s2.frame.locals := (hl1.holds rfl).fades hke.reads hfades (fun hvia => by
    rcases hclash with hc | hc
    · rw [hvia] at hc
      cases hc
    · rw [any_walkAll]
      exact hc)
  exact Follows.pure ⟨hst, .cons hholds hargs, hl1.fades.trans hfades hge.locals.length_le⟩

omit hset in
theorem arms_nil_follow : ArmsFollow p F cs admits c fuel site [] := by
  intro ty result join block n b tail env s k fields hrem
  obtain ⟨arm, hmem, -⟩ := hrem.covered
  cases hmem

theorem arms_cons_follow (pattern : HirPattern) (guard : Option TypedExpr) {body : TypedExpr} (span : Span)
    {arms : List HirMatchArm} (ihbody : ExpressionFollows p F cs admits c fuel site body)
    (iharms : ArmsFollow p F cs admits c fuel site arms) :
    ArmsFollow p F cs admits c fuel site (.mk pattern guard body span :: arms) := by
  intro ty result join block n b tail env s k fields hrem hfront hn hfit hp hd hs hat hagree
  simp only [List.length_cons] at hfront hat
  have hjoin := hfront.before
  have hsize := hfront.size
  have hresult := hfront.local_
  have hopen := grows_openArm (show block < b.blocks.length by omega) guard span
  have hbody := lowerExpression_grows c.ix body (some ty) _ hopen.live
  rw [lowerArms] at hd hs ⊢
  have harm := fills_arm (show join < b.blocks.length by omega) hresult
    (lowerExpression c.ix body (some ty) (openArm block guard span b)).1 (hopen.trans hbody)
  have hasize := harm.size
  have hlocals := harm.locals.length_le
  have hrest := lowerArms_fills c.ix ty result join arms (block + 1)
    (closeArm result join (lowerExpression c.ix body (some ty) (openArm block guard span b)).1
      (lowerExpression c.ix body (some ty) (openArm block guard span b)).2) (by omega) (by omega) (by omega)
  have hq : (lowerExpression c.ix body (some ty) (openArm block guard span b)).2.diagnostics = [] := hrest.quiet hd
  obtain ⟨hguard, henter⟩ := openArm_quiet (hbody.quiet hq)
  subst hguard
  rw [henter] at hd hs hq harm hasize hlocals hopen hbody hrest ⊢
  rw [walkArms, fit_append] at hfit
  rw [placedArms, Bool.and_eq_true] at hp
  have hstart : (b.enter block).terminator = endOf false := by
    unfold FunctionBuilder.terminator
    show b.blocks[block]?.bind _ = none
    rw [hfront.fresh block (Nat.le_refl _) (by omega)]
    rfl
  have hbound : Bound c.toScope (b.enter block) := hfront.bound.extend List.prefix_rfl rfl
  have hk := lowerExpression_known hset.names body (some ty) (b.enter block) false hopen.live hbound hstart
    hfit.1.declared hq
  have ih := fun env' hst => ihbody (some ty) (b.enter block) tail true false env' s hst hfit.1 hp.1 hq
  rcases hl : lowerExpression c.ix body (some ty) (b.enter block) with ⟨o, b2⟩
  rw [hl] at hk hbody ih
  simp only [hl] at hd hs harm hasize hlocals hrest ⊢
  have hnext : InFront c result join (block + 1) arms.length (closeArm result join o b2) :=
    hfront.next harm (hk.bound.extend List.prefix_rfl rfl)
  have hsarm := hs.of_fills hrest hnext.fresh
  have hlive2 : Open (b2.assign (.loc result) (.use o)) := (keeps_assign hbody.live _ _).live
  have hbuilt : Built b2 F :=
    (built_of_terminate hlive2 (hsarm.built (terminator_terminate hlive2 _))).of_keeps (keeps_assign hbody.live _ _)
  -- the arm the machine is in, if its pattern matches
  have htaken : matchesPattern c.ix pattern (.aggregate k fields) = true → At p F cs admits (b.enter block) s →
      Follows (step p unlimited) (Stops p (fuel + 1) (Escapes p F cs admits tail (.move result)
        ((lowerArms c.ix ty result join (block + 1) arms (closeArm result join o b2)).enter join))) s
        (evalArms c ty (.aggregate k fields) (.mk pattern none body span :: arms) env)
        (Lands p F cs admits c.toScope n s.frame.locals
          ((walkArms (.mk pattern none body span :: arms)).any TypedExpr.isBlock) true false (.move result)
          ((lowerArms c.ix ty result join (block + 1) arms (closeArm result join o b2)).enter join)) := by
    intro hmatch hatb
    rw [evalArms, if_pos hmatch, walkArms, List.any_append]
    have hagreeb := (show Agrees (b.enter block) env s.frame.locals from ⟨hagree.bindings, hagree.fresh⟩).bindPattern hbound
      (hrem.binders _ List.mem_cons_self) (.aggregate k fields)
    have ih := ih _ ⟨hatb, hopen.live, hbound, hstart, hagreeb⟩ hbuilt
    refine Follows.mono (Follow.arm hset ih hbody hrest hsarm ?_ ?_ hresult hfront.free hn) (fun _ he => he)
      (fun r s' _ hl => hl.mono (Nat.le_refl _) (fun hz => ?_))
    · rw [hrest.others join (by omega) (by omega)]
      exact hnext.joins
    · exact lowerArms_known hset.names arms ty result join (block + 1) _ (by omega) (by omega) (by omega) hnext.fresh
        hnext.bound hfit.2.declared hd
    · rw [TypedExpr.hasBlock] at hz
      rw [hz, Bool.true_or]
  cases arms with
  | nil =>
    obtain ⟨arm, hmem, hmatch⟩ := hrem.covered
    cases List.mem_singleton.1 hmem
    exact htaken hmatch (by simpa [matchTargets, switchTarget] using hat)
  | cons next more =>
    obtain ⟨d, hpat⟩ : ∃ d, patternDiscriminant c.ix pattern = some d := hrem.closed.1
    have hmatches : matchesPattern c.ix pattern (.aggregate k fields) = decide (d = k) :=
      matchesPattern_discriminant hpat (hrem.patterns _ List.mem_cons_self)
    simp only [matchTargets, hpat, switchTarget_cons] at hat
    by_cases hdk : d = k
    · rw [if_pos (by rw [hdk])] at hat
      exact htaken (by rw [hmatches, hdk]; exact decide_eq_true rfl) hat
    · -- the machine is in a later arm
      rw [if_neg (fun heq => hdk (UInt64.toNat_inj.1 heq))] at hat
      have hno : matchesPattern c.ix pattern (.aggregate k fields) = false := by
        rw [hmatches]
        exact decide_eq_false hdk
      rw [evalArms, if_neg (by rw [hno]; exact Bool.false_ne_true), walkArms, List.any_append]
      obtain ⟨new, hnew, hnewrange⟩ := harm.bindings
      have hlast : block + ((next :: more).length + 1) - 1 = block + 1 + (next :: more).length - 1 := by omega
      rw [hlast] at hat
      have ih := iharms ty result join (block + 1) n _ tail env s k fields (hrem.tail hno) hnext hn hfit.2 hp.2 hd hs (by
          rw [matchTargets_fst c.ix (next :: more) (block + 1) _ b]
          have hrange := matchTargets_range c.ix (List.cons_ne_nil next more) (block + 1) b k.toNat
          exact hat.enter_congr (harm.others _ (by omega) (by omega)))
        (hagree.extend hnew (fun entry he => (hnewrange entry he).1) hlocals)
      refine Follows.mono ih (fun _ he => he) (fun r s' _ hl => hl.mono (Nat.le_refl _) (fun hz => ?_))
      rw [hz, Bool.or_true]

omit hset in
theorem statements_nil_follow : BlockFollows p F cs admits c fuel site [] := by
  intro result b returns ended env s h hended hlets hfit hvac hp hd hb
  rw [lowerBlock, evalBlock, sealsBlock]
  exact Follows.pure ⟨h, fun v hv => (by cases hv), fun _ => hvac, (Thins.refl _).fades⟩

theorem let_follows (definition : DefId) (ty : ResolvedType) {value : TypedExpr} {rest : List HirStatement}
    (ihvalue : ExpressionFollows p F cs admits c fuel site value) (ihrest : BlockFollows p F cs admits c fuel site rest) :
    BlockFollows p F cs admits c fuel site (.let_ definition ty value :: rest) := by
  intro result b returns ended env s h hended hlets hfit hvac hp hd hb
  obtain rfl : ended = false := hended.resolve_left (List.cons_ne_nil _ _)
  rw [lowerBlock, if_neg (by rw [h.final]; simp [endOf])] at hd hb ⊢
  rw [walkStatements, fit_append] at hfit
  simp only [placedBlock, Bool.and_eq_true, Bool.or_eq_true, Bool.not_eq_true', List.isEmpty_iff] at hp
  obtain ⟨⟨hpv, hlead⟩, hprest⟩ := hp
  have hgt := grows_requiredType h.live c.ix ty value.span
  have hgv := lowerExpression_grows c.ix value (some (b.requiredType c.ix ty value.span).1) _ hgt.live
  have hbind := grows_bindLocal hgv.live definition (b.requiredType c.ix ty value.span).1
    (lowerExpression c.ix value (some (b.requiredType c.ix ty value.span).1) (b.requiredType c.ix ty value.span).2).1
  have hgr := lowerBlock_grows c.ix rest result _ hbind.live
  have hq := hbind.quiet (hgr.quiet hd)
  have hreq := requiredType_quiet (hgv.quiet hq)
  rw [hreq] at hd hb hq hgv hbind hgr ⊢
  have hdecl : lookupKey definition c.types = some (lowered c.ix ty) :=
    hlets (definition, lowered c.ix ty) (by simp [blockLets])
  have hbuilt := hb.of_keeps hgr.toKeeps
  have ihv := ihvalue (some (lowered c.ix ty)) b false true false env s h hfit.1 hpv hq
    (hbuilt.of_keeps hbind.toKeeps)
  rw [evalBlock, sealsBlock, Bool.false_or]
  refine Follows.bind (forward_leaves _ _ _) ihv.inner ?_
  rintro ⟨v, env1⟩ s1 - hl1
  obtain ⟨s2, hr2, hst2, hfades2⟩ := hl1.standing.bindLocal hset.verified hdecl (hl1.holds rfl) hbuilt
  have hfades : Fades b.locals.length value.hasBlock s.frame.locals s2.frame.locals := by
    have := hl1.fades.trans hfades2 hgv.locals.length_le
    rw [Bool.or_false] at this
    exact this
  have ihr := ihrest result _ returns (value.seals false) _ s2 hst2 hlead hlets.tail hfit.2
    (hvac.fades hfades h.bound.pos hfit.1.plain) hprest hd hb
  refine Follows.after (forward_leaves _ _ _) hr2 (Follows.mono ihr (fun _ he => he) (fun r s3 _ hl3 => ?_))
  refine ⟨hl3.standing, hl3.value, hl3.vacant, ?_⟩
  have := hfades.trans hl3.fades (hgv.toKeeps.trans hbind.toKeeps).locals.length_le
  rw [Bool.or_true] at this
  exact this

theorem return_follows {value : TypedExpr} (rest : List HirStatement)
    (ihvalue : ExpressionFollows p F cs admits c fuel site value) :
    BlockFollows p F cs admits c fuel site (.return_ (some value) :: rest) := by
  intro result b returns ended env s h hended hlets hfit hvac hp hd hb
  obtain rfl : ended = false := hended.resolve_left (List.cons_ne_nil _ _)
  rw [lowerBlock, if_neg (by rw [h.final]; simp [endOf])] at hd hb ⊢
  rw [walkStatements, fit_append] at hfit
  rw [placedBlock, Bool.and_eq_true] at hp
  obtain ⟨rfl, hpv⟩ := hp
  have hgv := lowerExpression_grows c.ix value (some result) b h.live
  have hgs := grows_setResult hgv.live (lowerExpression c.ix value (some result) b).1
  have hend : (setResult (lowerExpression c.ix value (some result) b).1
      (lowerExpression c.ix value (some result) b).2).terminator.isSome = true := by
    rw [show (setResult _ _).terminator = _ from terminator_terminate (keeps_assign hgv.live _ _).live _]
    rfl
  simp only [lowerBlock_ended c.ix result hend] at hd hb ⊢
  have ih := ihvalue (some result) b true true false env s h hfit.1 hpv (hgs.quiet hd)
    (hb.of_keeps hgs.toKeeps)
  rw [evalBlock, sealsBlock]
  refine Follows.bind (forward_leaves _ _ _) (Follow.result hset ih hgv.live hb) ?_
  rintro ⟨v, env1⟩ s1 - ⟨hst, hholds, -⟩
  exact ⟨rfl, rfl, s1, .refl _ _, hst.toAt, hholds⟩

theorem return_none_follows (rest : List HirStatement) :
    BlockFollows p F cs admits c fuel site (.return_ none :: rest) := by
  intro result b returns ended env s h hended hlets hfit hvac hp hd hb
  obtain rfl : ended = false := hended.resolve_left (List.cons_ne_nil _ _)
  rw [lowerBlock, if_neg (by rw [h.final]; simp [endOf])] at hd hb ⊢
  simp only [placedBlock, Bool.and_eq_true, Bool.or_eq_true] at hp
  obtain ⟨rfl, hunit⟩ := hp
  rw [evalBlock, sealsBlock]
  unfold returnUnit at hd hb ⊢
  split
  · rename_i hres
    simp only [hres, if_true] at hd hb
    have hend : ((b.assign (.loc 0) (.use unitOperand)).terminate .ret).terminator.isSome = true := by
      rw [terminator_terminate (keeps_assign h.live _ _).live]
      rfl
    simp only [lowerBlock_ended c.ix _ hend] at hd hb ⊢
    obtain ⟨s1, L', hr1, hat1, -, hL⟩ := h.toAt.setResult hset.verified h.live (o := unitOperand) (v := .unit) rfl hb
    exact ⟨rfl, rfl, s1, hr1, hat1, by rw [hL]; exact holds_set L' 0 _⟩
  · rename_i hres
    simp only [if_neg hres] at hd hb
    have hend : (b.terminate .ret).terminator.isSome = true := by
      rw [terminator_terminate h.live]
      rfl
    simp only [lowerBlock_ended c.ix _ hend] at hd hb ⊢
    refine ⟨rfl, rfl, s, .refl _ _, h.toAt.terminate .ret, ?_⟩
    rcases hunit with hunit | hplain
    · refine h.toInside.unit ?_
      rw [← hset.unit hunit]
      exact getElem?_of_extends hb.locals h.bound.result
    · exact fun w hw => absurd hw (hvac hplain w)

theorem last_follows {e : TypedExpr} (ihe : ExpressionFollows p F cs admits c fuel site e) :
    BlockFollows p F cs admits c fuel site [.expression e] := by
  intro result b returns ended env s h hended hlets hfit hvac hp hd hb
  obtain rfl : ended = false := hended.resolve_left (List.cons_ne_nil _ _)
  rw [lowerBlock, if_neg (by rw [h.final]; simp [endOf])] at hd hb ⊢
  rw [walkStatements, fit_append] at hfit
  rw [placedBlock] at hp
  have hgv := lowerExpression_grows c.ix e (some result) b h.live
  have hgs := grows_setResult hgv.live (lowerExpression c.ix e (some result) b).1
  have ih := ihe (some result) b returns true false env s h hfit.1 hp (hgs.quiet hd)
    (hb.of_keeps hgs.toKeeps)
  rw [evalBlock, sealsBlock]
  refine Follows.bind (forward_leaves _ _ _) (Follow.result hset ih hgv.live hb) ?_
  rintro ⟨v, env1⟩ s1 - ⟨hst, hholds, hfades⟩
  refine Follows.pure ⟨hst, fun w hw => ?_, fun hnone => (by cases hnone), hfades⟩
  cases hw
  exact hholds

theorem statement_follows {e : TypedExpr} {next : HirStatement} {rest : List HirStatement}
    (ihe : ExpressionFollows p F cs admits c fuel site e)
    (ihrest : BlockFollows p F cs admits c fuel site (next :: rest)) :
    BlockFollows p F cs admits c fuel site (.expression e :: next :: rest) := by
  intro result b returns ended env s h hended hlets hfit hvac hp hd hb
  obtain rfl : ended = false := hended.resolve_left (List.cons_ne_nil _ _)
  rw [lowerBlock, if_neg (by rw [h.final]; simp [endOf])] at hd hb ⊢
  rw [walkStatements, fit_append] at hfit
  have hgv := lowerExpression_grows c.ix e none b h.live
  have hgr := lowerBlock_grows c.ix (next :: rest) result _ hgv.live
  have hq := hgr.quiet hd
  have hbuilt := hb.of_keeps hgr.toKeeps
  have hk := lowerExpression_known hset.names e none b false h.live h.bound h.final hfit.1.declared hq
  rw [evalBlock, sealsBlock, Bool.false_or]
  rcases placedBlock_expression hp with ⟨rfl, hpe, statements, ty, span, rfl, hleaves⟩ | ⟨hpe, hseals, hprest⟩
  · -- the block leaves the function: what follows is neither lowered nor reached
    have ih := ihe none b true false false env s h hfit.1 hpe
      hq hbuilt
    have hend : (lowerExpression c.ix (.mk (.block statements) ty span) none b).2.terminator.isSome = true := by
      rw [hk.final, TypedExpr.seals, sealsBlock_of_leaves statements false hleaves]
      rfl
    rcases hle : lowerExpression c.ix (.mk (.block statements) ty span) none b with ⟨o, b1⟩
    have ho : o = .copy 0 := by
      rw [lowerExpression] at hle
      exact (congrArg Prod.fst hle).symm
    subst ho
    rw [hle] at ih hend
    have hseals : sealsBlock (next :: rest) ((TypedExpr.mk (.block statements) ty span).seals false) = true := by
      rw [TypedExpr.seals, sealsBlock_of_leaves statements false hleaves, sealsBlock_true]
    simp only [lowerBlock_ended c.ix result hend]
    cases hr : evalExpression c (.mk (.block statements) ty span) none env with
    | error stop =>
      unfold Follow at ih
      rw [hr] at ih
      exact Stops.mono ih (fun v hv => ⟨hseals, hv⟩)
    | ok r =>
      rw [evalExpression] at hr
      obtain ⟨r1, hr1, -⟩ := bind_eq_ok hr
      exact absurd hr1 (evalBlock_of_leaves statements _ _ r1 hleaves)
  · have ih := ihe none b false false false env s h hfit.1 hpe hq hbuilt
    refine Follows.bind (forward_leaves _ _ _) ih.inner ?_
    rintro ⟨v, env1⟩ s1 - hl1
    have ihr := ihrest result _ returns (e.seals false) env1 s1 hl1.standing (.inr hseals)
      hlets.tail hfit.2 (hvac.fades hl1.fades h.bound.pos hfit.1.plain) hprest hd hb
    refine Follows.mono ihr (fun _ he => he) (fun r s2 _ hl2 => ⟨hl2.standing, hl2.value, hl2.vacant, ?_⟩)
    have := hl1.fades.trans hl2.fades hgv.locals.length_le
    rw [Bool.or_true] at this
    exact this

end

/-! ## The induction -/

mutual
/-- **Lowered expressions do what the evaluator says.** -/
theorem lowerExpression_follows {p : MirProgram} {F : MirFunction} {cs : List Caller}
    {admits : DefId → UInt64 → List Value → Prop} {c : Context} {fuel : Nat} {site : Site}
    (hset : Setting p admits c fuel site) : ∀ (e : TypedExpr), ExpressionFollows p F cs admits c fuel site e
  | .mk (.borrow mutable operand) ty span => by
    intro expected b tail used ended env s h hfit hp hd hb
    rw [lowerExpression] at hd hb ⊢
    exact lowerBorrow_follows hset h hd hb
  | .mk (.await operand) ty span => await_follows ty span (lowerExpression_follows hset operand)
  | .mk (.literal literal) ty span => by
    intro expected b tail used ended env s h hfit hp hd hb
    rw [lowerExpression] at hd hb ⊢
    exact lowerLiteral_follows h hd
  | .mk (.reference definition) ty span => by
    intro expected b tail used ended env s h hfit hp hd hb
    rw [lowerExpression] at hd hb ⊢
    exact lowerReference_follows hset h hd hb
  | .mk (.binary operator left right) ty span =>
    binary_follows hset operator ty span (lowerExpression_follows hset left) (lowerExpression_follows hset right)
  | .mk (.call callee arguments) ty span => call_follows hset callee ty span (lowerArguments_follow hset arguments)
  | .mk (.match_ value []) ty span => by
    intro expected b tail used ended env s h hfit hp hd hb
    rw [lowerExpression] at hd
    exact absurd hd (error_not_quiet _ _ _)
  | .mk (.match_ value (arm :: rest)) ty span =>
    match_follows hset ty span (lowerExpression_follows hset value) (lowerArms_follow hset (arm :: rest))
  | .mk (.block statements) ty span => block_follows hset ty span (lowerBlock_follows hset statements)
  | .mk (.array _) _ span => by
    intro expected b tail used ended env s h hfit hp hd hb
    rw [lowerExpression] at hd
    exact absurd hd (error_not_quiet _ _ _)
  | .mk (.field _ _) _ span => by
    intro expected b tail used ended env s h hfit hp hd hb
    rw [lowerExpression] at hd
    exact absurd hd (error_not_quiet _ _ _)
  | .mk (.unary _ _) _ span => by
    intro expected b tail used ended env s h hfit hp hd hb
    rw [lowerExpression] at hd
    exact absurd hd (error_not_quiet _ _ _)
theorem lowerArguments_follow {p : MirProgram} {F : MirFunction} {cs : List Caller}
    {admits : DefId → UInt64 → List Value → Prop} {c : Context} {fuel : Nat} {site : Site}
    (hset : Setting p admits c fuel site) : ∀ (es : List TypedExpr), ArgumentsFollow p F cs admits c fuel site es
  | [] => arguments_nil_follow
  | e :: es => arguments_cons_follow hset (lowerExpression_follows hset e) (lowerArguments_follow hset es)
theorem lowerArms_follow {p : MirProgram} {F : MirFunction} {cs : List Caller}
    {admits : DefId → UInt64 → List Value → Prop} {c : Context} {fuel : Nat} {site : Site}
    (hset : Setting p admits c fuel site) : ∀ (arms : List HirMatchArm), ArmsFollow p F cs admits c fuel site arms
  | [] => arms_nil_follow
  | .mk pattern guard body span :: arms =>
    arms_cons_follow hset pattern guard span (lowerExpression_follows hset body) (lowerArms_follow hset arms)
theorem lowerBlock_follows {p : MirProgram} {F : MirFunction} {cs : List Caller}
    {admits : DefId → UInt64 → List Value → Prop} {c : Context} {fuel : Nat} {site : Site}
    (hset : Setting p admits c fuel site) : ∀ (statements : List HirStatement),
    BlockFollows p F cs admits c fuel site statements
  | [] => statements_nil_follow
  | .let_ definition ty value :: rest =>
    let_follows hset definition ty (lowerExpression_follows hset value) (lowerBlock_follows hset rest)
  | .return_ (some value) :: rest => return_follows hset rest (lowerExpression_follows hset value)
  | .return_ none :: rest => return_none_follows hset rest
  | [.expression e] => last_follows hset (lowerExpression_follows hset e)
  | .expression e :: next :: rest =>
    statement_follows hset (lowerExpression_follows hset e) (lowerBlock_follows hset (next :: rest))
end

end Lower
end Syllog
