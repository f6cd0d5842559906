import Syllog.LowerSteps
/-!
# LowerSim — the parts of lowered expressions under the machine

What is assumed of a tree (`Fit`) and of the program around it (`Setting`), the expressions without parts, and what is left
of a call, a match and an arm once their parts are evaluated.
-/
namespace Syllog
namespace Lower

open Mir Hir Runs
open Interp hiding Trap

/-! ## What is assumed of the tree -/

/-- A match over the values of an enum: one of its arms takes each of them. -/
structure CoveredMatch (c : Scope) (admits : DefId → UInt64 → List Value → Prop) (value : TypedExpr)
    (arms : List HirMatchArm) : Prop where
  covered : ∃ id, typeOf c value none = .aggregate id ∧
    ∀ d fields, admits id d fields → ∃ arm ∈ arms, matchesPattern c.ix arm.pattern (.aggregate d fields) = true
  patterns : ∀ arm ∈ arms, ∀ literal, arm.pattern ≠ .literal literal
  binders : ∀ arm ∈ arms, ∀ d ∈ arm.pattern.binders, lookupKey d c.types = none

def CoveredExpr (c : Scope) (admits : DefId → UInt64 → List Value → Prop) (e : TypedExpr) : Prop :=
  match e.kind with
  | .match_ value arms => CoveredMatch c admits value arms
  | _                  => True

/-- The expressions are closed under what the lowering needs to know of them. -/
structure Fit (c : Scope) (admits : DefId → UInt64 → List Value → Prop) (site : Site) (es : List TypedExpr) : Prop where
  declared : BlocksDeclared c es
  covered : ∀ e ∈ es, CoveredExpr c admits e
  plain : site.plain = true → es.any TypedExpr.isBlock = false

section
variable {c : Scope} {admits : DefId → UInt64 → List Value → Prop} {site : Site}

theorem fit_append {xs ys : List TypedExpr} :
    Fit c admits site (xs ++ ys) ↔ Fit c admits site xs ∧ Fit c admits site ys := by
  constructor
  · rintro ⟨hd, hc, hp⟩
    rw [blocksDeclared_append] at hd
    rw [List.forall_mem_append] at hc
    simp only [List.any_append, Bool.or_eq_false_iff] at hp
    exact ⟨⟨hd.1, hc.1, fun h => (hp h).1⟩, ⟨hd.2, hc.2, fun h => (hp h).2⟩⟩
  · rintro ⟨hx, hy⟩
    refine ⟨blocksDeclared_append.2 ⟨hx.declared, hy.declared⟩, List.forall_mem_append.2 ⟨hx.covered, hy.covered⟩, ?_⟩
    intro h
    rw [List.any_append, hx.plain h, hy.plain h]
    rfl

theorem Fit.of_kind {kind : HirExprKind} {ty : ResolvedType} {span : Span}
    (h : Fit c admits site (TypedExpr.mk kind ty span).walk) : Fit c admits site kind.walk := by
  rw [TypedExpr.walk, ← List.singleton_append, fit_append] at h
  exact h.2

theorem Fit.head {kind : HirExprKind} {ty : ResolvedType} {span : Span}
    (h : Fit c admits site (TypedExpr.mk kind ty span).walk) : Fit c admits site [TypedExpr.mk kind ty span] := by
  rw [TypedExpr.walk, ← List.singleton_append, fit_append] at h
  exact h.1

end

theorem hasBlock_mk (kind : HirExprKind) (ty : ResolvedType) (span : Span) :
    (TypedExpr.mk kind ty span).hasBlock =
      ((TypedExpr.mk kind ty span).isBlock || kind.walk.any TypedExpr.isBlock) := by
  rw [TypedExpr.hasBlock, TypedExpr.walk, List.any_cons]

/-- The program is verified, and calls are answered. -/
structure Setting (p : MirProgram) (admits : DefId → UInt64 → List Value → Prop) (c : Context) (fuel : Nat)
    (site : Site) : Prop where
  verified : verify p = .ok ()
  names : Scoped c.toScope
  variants : ∀ d id k, lookupKey d c.ix.variants = some (id, k) → admits id k []
  answers : Answers p admits fuel c.call
  unit : site.unit = true → c.result = .unit

/-! ## Expressions without parts -/

section
variable {p : MirProgram} {F : MirFunction} {cs : List Caller} {admits : DefId → UInt64 → List Value → Prop}
  {c : Context} {fuel : Nat} {site : Site} {b : FunctionBuilder} {ended tail used : Bool} {env : Env} {s : State}

attribute [local simp] evalExpression

/-- What the machine does behind an expression, in one line. -/
def Follow (p : MirProgram) (F : MirFunction) (cs : List Caller) (admits : DefId → UInt64 → List Value → Prop)
    (c : Context) (fuel : Nat) (e : TypedExpr) (expected : Option MirType) (tail used ended : Bool) (b : FunctionBuilder)
    (env : Env) (s : State) (r : Operand × FunctionBuilder) : Prop :=
  Follows (step p unlimited) (Stops p (fuel + 1) (Escapes p F cs admits tail r.1 r.2)) s (evalExpression c e expected env)
    (Lands p F cs admits c.toScope b.locals.length s.frame.locals e.hasBlock used (e.seals ended) r.1 r.2)

theorem Lands.mono {n m : Nat} {L : Locals} {y z ended : Bool} {o : Operand} {r : Value × Env}
    (h : Lands p F cs admits c.toScope m L y used ended o b r s) (hle : n ≤ m) (hz : y = true → z = true) :
    Lands p F cs admits c.toScope n L z used ended o b r s :=
  ⟨h.standing, h.holds, h.fades.mono hle hz⟩

theorem Lands.after {n m : Nat} {L L' : Locals} {y z ended : Bool} {o : Operand} {r : Value × Env}
    (h : Lands p F cs admits c.toScope m L' z used ended o b r s) (hf : Fades n y L L') (hle : n ≤ m) :
    Lands p F cs admits c.toScope n L (y || z) used ended o b r s :=
  ⟨h.standing, h.holds, hf.trans h.fades hle⟩

theorem lowerBorrow_follows (hset : Setting p admits c fuel site) (h : Standing p F cs admits c.toScope b ended env s)
    {mutable : Bool} {operand : TypedExpr} {ty : ResolvedType} {span : Span} {expected : Option MirType}
    (hd : (lowerBorrow c.ix mutable operand ty span b).2.diagnostics = [])
    (hb : Built (lowerBorrow c.ix mutable operand ty span b).2 F) :
    Follow p F cs admits c fuel (.mk (.borrow mutable operand) ty span) expected tail used ended b env s
      (lowerBorrow c.ix mutable operand ty span b) := by
  unfold Follow
  rw [evalExpression]
  simp only [TypedExpr.seals]
  unfold lowerBorrow at hd hb ⊢
  split at hd
  · rename_i definition hk
    simp only [hk] at hb ⊢
    split at hd
    · rename_i l hl
      simp only [hl] at hb ⊢
      obtain ⟨s', w, rfl, hr, hst, hholds, hfades⟩ := h.store hset.verified _ hb
        ⟨trivial, fun _ _ _ _ hu => by cases hu⟩ (P := fun w => .reference (env definition) = w) (fun m => by
          refine (computes_borrow (v := env definition) (fun w hw => ?_) mutable m).mono (fun _ he => he) (fun r hr => ?_)
          · exact (h.agrees.bindings definition l w hl hw).symm
          · exact ⟨hr.1.symm, hr.2⟩)
      exact ⟨s', hr, hst, fun _ => hholds, hfades.mono (Nat.le_refl _) (fun hz => by cases hz)⟩
    · exact absurd hd (error_not_quiet _ _ _)
  · exact absurd hd (error_not_quiet _ _ _)

theorem lowerLiteral_follows (h : Standing p F cs admits c.toScope b ended env s) {literal : Literal}
    {ty : ResolvedType} {span : Span} {expected : Option MirType}
    (hd : (lowerLiteral literal span expected b).2.diagnostics = []) :
    Follow p F cs admits c fuel (.mk (.literal literal) ty span) expected tail used ended b env s
      (lowerLiteral literal span expected b) := by
  unfold Follow
  rw [evalExpression]
  simp only [TypedExpr.seals]
  unfold lowerLiteral at hd ⊢
  split at hd
  · rename_i constant hc
    simp only [hc]
    exact Follows.pure ⟨h, fun _ => rfl, (Thins.refl _).fades⟩
  · exact absurd hd (error_not_quiet _ _ _)

theorem lowerReference_follows (hset : Setting p admits c fuel site) (h : Standing p F cs admits c.toScope b ended env s)
    {definition : DefId} {ty : ResolvedType} {span : Span} {expected : Option MirType}
    (hd : (lowerReference c.ix definition span b).2.diagnostics = [])
    (hb : Built (lowerReference c.ix definition span b).2 F) :
    Follow p F cs admits c fuel (.mk (.reference definition) ty span) expected tail used ended b env s
      (lowerReference c.ix definition span b) := by
  unfold Follow
  rw [evalExpression]
  simp only [TypedExpr.seals]
  unfold lowerReference at hd hb ⊢
  cases hl : lookupKey definition b.bindings with
  | some l =>
    obtain ⟨-, t, -, hdecl⟩ := h.bound.bindings definition l hl
    have hnone := hset.names definition t hdecl
    have hslot : ∀ w, s.frame.locals[l]? = some (some w) → w = env definition :=
      fun w hw => (h.agrees.bindings definition l w hl hw).symm
    simp only [hnone]
    split
    · exact Follows.pure ⟨h, fun _ => hslot, (Thins.refl _).fades⟩
    · exact Follows.pure ⟨h, fun _ => hslot, (Thins.refl _).fades⟩
  | none =>
    simp only [hl] at hd hb ⊢
    split at hd
    · rename_i aggregate discriminant hvar
      simp only [hvar] at hb ⊢
      obtain ⟨s', w, rfl, hr, hst, hholds, hfades⟩ := h.store hset.verified _ hb
        ⟨⟨fun hf => (by cases hf), fun ok hok => by
            cases hok
            exact ⟨rfl, hset.variants _ _ _ hvar⟩⟩, fun _ _ _ _ hu => by cases hu⟩
        (P := fun w => .aggregate discriminant [] = w) (fun m => by
          refine (computes_variant aggregate discriminant _ m).mono (fun _ he => he) (fun r hr => ?_)
          exact ⟨hr.1.symm, hr.2⟩)
      exact ⟨s', hr, hst, fun _ => hholds, hfades.mono (Nat.le_refl _) (fun hz => by cases hz)⟩
    · exact absurd hd (error_not_quiet _ _ _)

end

/-! ## Arms -/

mutual
/-- A pattern sets its own variables only. -/
theorem bindPattern_other {d : DefId} : ∀ (pattern : HirPattern) (v : Value) (env : Env), d ∉ pattern.binders →
    bindPattern pattern v env d = env d
  | .wildcard, v, env, _ => by simp [bindPattern]
  | .literal literal, v, env, _ => by simp [bindPattern]
  | .binding definition, v, env, h => by
    rw [HirPattern.binders, List.mem_singleton] at h
    rw [bindPattern]
    exact if_neg h
  | .variant definition fields, v, env, h => by
    rw [HirPattern.binders] at h
    cases v with
    | aggregate k values =>
      rw [bindPattern]
      exact bindPatterns_other fields values env h
    | _ => simp [bindPattern]
theorem bindPatterns_other {d : DefId} : ∀ (patterns : List HirPattern) (vs : List Value) (env : Env),
    d ∉ patternsBinders patterns → bindPatterns patterns vs env d = env d
  | [], vs, env, _ => by simp [bindPatterns]
  | pattern :: patterns, [], env, _ => by simp [bindPatterns]
  | pattern :: patterns, v :: vs, env, h => by
    rw [patternsBinders, List.mem_append, not_or] at h
    rw [bindPatterns, bindPatterns_other patterns vs _ h.2, bindPattern_other pattern v env h.1]
end

/-- A pattern's variables have no slots. -/
theorem Agrees.bindPattern {c : Scope} {b : FunctionBuilder} {env : Env} {L : Locals} (h : Agrees b env L) (hb : Bound c b)
    {pattern : HirPattern} (hbinders : ∀ d ∈ pattern.binders, lookupKey d c.types = none) (v : Value) :
    Agrees b (Hir.bindPattern pattern v env) L := by
  refine ⟨fun d l w hd hw => ?_, h.fresh⟩
  have hother : d ∉ pattern.binders := by
    intro hmem
    obtain ⟨-, t, -, hdecl⟩ := hb.bindings d l hd
    rw [hbinders d hmem] at hdecl
    cases hdecl
  rw [bindPattern_other pattern v env hother]
  exact h.bindings d l w hd hw

/-- Every arm but the last has an edge of its own. -/
def ClosedArms (ix : ProgramIndex) : List HirMatchArm → Prop
  | arm :: next :: arms => (∃ d, patternDiscriminant ix arm.pattern = some d) ∧ ClosedArms ix (next :: arms)
  | _                   => True

theorem matchTargets_quiet (ix : ProgramIndex) : ∀ (arms : List HirMatchArm) (block : Nat) (b : FunctionBuilder),
    (matchTargets ix block arms b).2.diagnostics = [] → ClosedArms ix arms
  | [], _, _, _ => trivial
  | [_], _, _, _ => trivial
  | .mk pattern guard body span :: next :: arms, block, b, hd => by
    simp only [matchTargets] at hd
    split at hd
    · rename_i d hpat
      exact ⟨⟨d, hpat⟩, matchTargets_quiet ix (next :: arms) (block + 1) b hd⟩
    · obtain ⟨ds, hds, -⟩ := matchTargets_builder ix (next :: arms) (block + 1)
        (b.error span (.text "non-final match arms require a closed discriminant"))
      rw [hds] at hd
      simp [FunctionBuilder.error] at hd

/-- The switch of a match leads to one of its arms. -/
theorem matchTargets_range (ix : ProgramIndex) {arms : List HirMatchArm} (hne : arms ≠ []) (block : Nat)
    (b : FunctionBuilder) (n : Nat) :
    block ≤ switchTarget n (matchTargets ix block arms b).1 (block + arms.length - 1) ∧
      switchTarget n (matchTargets ix block arms b).1 (block + arms.length - 1) < block + arms.length := by
  have hpos := List.length_pos_iff.2 hne
  obtain ⟨-, -, hrange⟩ := matchTargets_builder ix arms block b
  have hmem := switchTarget_mem n unitOperand (matchTargets ix block arms b).1 (block + arms.length - 1)
  simp only [successors, List.mem_append, List.mem_map, List.mem_singleton] at hmem
  rcases hmem with ⟨edge, hedge, heq⟩ | heq
  · have := hrange edge hedge
    omega
  · omega

theorem openMatch_quiet {ix : ProgramIndex} {value : Operand} {ty : MirType} {arms : List HirMatchArm}
    {b : FunctionBuilder} (hd : (openMatch ix value ty arms b).2.2.diagnostics = []) : ClosedArms ix arms :=
  matchTargets_quiet ix arms _ _ hd

section

attribute [local simp] matchesPattern matchesPatterns

theorem matchesPattern_discriminant {ix : ProgramIndex} {pattern : HirPattern} {d k : UInt64} {fields : List Value}
    (h : patternDiscriminant ix pattern = some d) (hlit : ∀ literal, pattern ≠ .literal literal) :
    matchesPattern ix pattern (.aggregate k fields) = decide (d = k) := by
  unfold patternDiscriminant at h
  split at h
  · rename_i definition
    rw [matchesPattern, matchesPatterns, h]
    · simp
    · intros
      contradiction
  · exact absurd rfl (hlit _)
  · cases h

end

section
variable {p : MirProgram} {F : MirFunction} {cs : List Caller} {admits : DefId → UInt64 → List Value → Prop}
  {b b' : FunctionBuilder} {s : State}

/-- A position in a block depends on that block only. -/
theorem At.enter_congr {k : Nat} (h : At p F cs admits (b.enter k) s) (hb : b'.blocks[k]? = b.blocks[k]?) :
    At p F cs admits (b'.enter k) s := by
  refine ⟨h.toInside, h.block, ?_⟩
  obtain ⟨blk, last, hblk, hlast, hcode⟩ := h.code
  exact ⟨blk, last, hb.trans hblk, hlast, hcode⟩

/-- The end of an arm leads to the join. -/
theorem At.closeArm (hv : verify p = .ok ()) (h : At p F cs admits b s) (hlive : Open b) {o : Operand} {v : Value}
    (ho : Holds o v s.frame.locals) (bj : FunctionBuilder) {result : Nat} {t : Option Terminator}
    (hs : Sealed (closeArm result bj.current o b) F) (hb : bj.blocks[bj.current]? = some ⟨[], t⟩) :
    ∃ s' L', Reaches (step p unlimited) s s' ∧ At p F cs admits bj s' ∧ Thins s.frame.locals L' ∧
      Thins (L'.set result (some v)) s'.frame.locals := by
  have hlive' : Open (b.assign (.loc result) (.use o)) := (keeps_assign hlive _ _).live
  have hterm : (Lower.closeArm result bj.current o b).terminator = some (.goto bj.current) :=
    terminator_terminate hlive' _
  have hassign := built_of_terminate hlive' (hs.built hterm)
  have htame : Tame (.within admits) F (.assign (.loc result) (.use o)) := ⟨trivial, fun _ _ _ _ hu => by cases hu⟩
  obtain ⟨s1, L', w, hw, hr, hat, hthin, hL⟩ := h.computes hv hassign htame (P := fun w => w = v)
    (fun m => computes_use ho m)
  subst hw
  obtain ⟨blk, hblk, hblkterm⟩ := Option.bind_eq_some_iff.1 hterm
  obtain ⟨s2, hr2, hready, hthin2, -⟩ := (hat.terminate (.goto bj.current)).finish hv hblk (hs.blocks _ blk _ hblk hblkterm)
  obtain ⟨s3, hr3, hat3, hL3⟩ := hready.goto hv hb
  refine ⟨s3, L', (hr.trans hr2).trans hr3, hat3, hthin, ?_⟩
  rw [hL3, ← hL]
  exact hthin2

end

/-! ## Calls and matches -/

theorem Opened.keeps {b bm : FunctionBuilder} {value : Operand} {ty : MirType} {targets : List (Nat × Nat)} {count : Nat}
    (h : Opened b bm value ty targets count) (hlive : Open b) :
    Keeps ((b.newLocal .u64).2.assign (.loc b.locals.length) (.discriminant value)) bm := by
  have hlt : b.current < b.blocks.length := hlive
  have hlen : ((b.newLocal .u64).2.assign (.loc b.locals.length) (.discriminant value)).blocks.length = b.blocks.length :=
    List.length_modify ..
  have hsize := h.size
  obtain ⟨block, hb, hbm⟩ := h.filled
  refine ⟨by omega, ?_, ?_, h.diagnostics, ⟨[], h.bindings, by simp⟩, ?_, ?_⟩
  · show bm.current < bm.blocks.length
    rw [h.current]
    omega
  · rw [h.locals]
    exact ⟨[ty], by show (b.locals ++ [.u64]) ++ [ty] = _; rw [List.append_assoc]; rfl⟩
  · intro i hi hne
    rw [hlen] at hi
    rw [h.others i hi hne]
    exact (List.getElem?_modify_ne _ _ (Ne.symm hne)).symm
  · refine ⟨{ block with statements := block.statements ++ [.assign (.loc b.locals.length) (.discriminant value)] }, _, ?_,
      hbm, List.prefix_rfl, .inl h.current⟩
    show (b.blocks.modify b.current _)[b.current]? = _
    rw [List.getElem?_modify_eq, hb]
    rfl

section
variable {p : MirProgram} {F : MirFunction} {cs : List Caller} {admits : DefId → UInt64 → List Value → Prop}
  {c : Context} {fuel : Nat} {site : Site} {b bm : FunctionBuilder} {ended : Bool} {env : Env} {s : State}

/-- What is left of a call. -/
theorem Standing.call (hset : Setting p admits c fuel site) (h : Standing p F cs admits c.toScope b ended env s)
    {R : Value → State → Prop} (hR : Forward (step p unlimited) (Stops p (fuel + 1) R)) (callee : DefId) {args : List Operand} {vs : List Value} (ty : MirType) (used : Bool)
    (hargs : List.Forall₂ (fun o v => Holds o v s.frame.locals) args vs) (hb : Built (finishCall callee args ty b).2 F) :
    Follows (step p unlimited) (Stops p (fuel + 1) R) s (c.call callee vs >>= fun v => .ok (v, env))
      (Lands p F cs admits c.toScope b.locals.length s.frame.locals false used false (.move b.locals.length)
        (finishCall callee args ty b).2) := by
  have hv := hset.verified
  have hlt : b.current < b.blocks.length := h.live
  obtain ⟨blk, hblk⟩ := h.live.block
  have hcur : (finishCall callee args ty b).2.blocks[b.current]? =
      some ⟨blk.statements, some (.call callee args (.loc b.locals.length) b.blocks.length)⟩ := by
    show ((b.blocks ++ [_]).modify b.current _)[b.current]? = _
    rw [List.getElem?_modify_eq, List.getElem?_append_left hlt, hblk]
    rfl
  have hnext : (finishCall callee args ty b).2.blocks[b.blocks.length]? = some ⟨[], none⟩ := by
    show ((b.blocks ++ [_]).modify b.current _)[b.blocks.length]? = _
    rw [List.getElem?_modify_ne _ _ (by omega), List.getElem?_concat_length]
  have hinst := hb.blocks b.current _ _ (show b.current ≠ b.blocks.length by omega) hcur rfl
  obtain ⟨s1, hr1, hready, hthin, -⟩ := h.toAt.finish hv hblk hinst
  have hargs1 := hargs.imp (fun _ _ ho => Holds.thins ho hthin)
  refine Follows.after hR hr1 (Follows.bind hR (hready.call hv hset.answers hargs1 hnext) ?_)
  rintro v s2 - ⟨L', hthin', hat, hL⟩
  have hlen : b.locals.length < (finishCall callee args ty b).2.locals.length := by
    show b.locals.length < (b.locals ++ [ty]).length
    simp
  refine Follows.pure ⟨⟨hat, (grows_finishCall h.live callee args ty).live, h.bound.extend (List.prefix_append _ _) rfl,
    terminator_finishCall h.live callee args ty, ?_⟩, fun _ => ?_, ?_⟩
  · rw [hL]
    exact (h.agrees.thins (hthin.trans hthin')).set (finishCall callee args ty b).2 rfl (Nat.le_of_lt hlen) hlen
      (h.bound.free (.inl (Nat.le_refl _))) v
  · rw [hL]
    exact holds_set L' _ v
  · rw [hL]
    exact (hthin.trans hthin').fades.set (.inl (Nat.le_refl _)) v

/-- The switch of a match over an enum goes to the block its edges say. -/
theorem Standing.switch (hv : verify p = .ok ()) (h : Standing p F cs admits c.toScope b ended env s) {o : Operand}
    {v : Value} {id : DefId} {ty : MirType} {targets : List (Nat × Nat)} {count : Nat}
    (hopen : Opened b bm o ty targets count) (hs : Sealed bm F) (ho : Holds o v s.frame.locals)
    (hty : b.operandType o = some (.aggregate id))
    (htarget : ∀ n, b.blocks.length < switchTarget n targets (b.blocks.length + count) ∧
      switchTarget n targets (b.blocks.length + count) < b.blocks.length + 1 + count) :
    ∃ s' d fields, v = .aggregate d fields ∧ admits id d fields ∧ Reaches (step p unlimited) s s' ∧
      At p F cs admits (bm.enter (switchTarget d.toNat targets (b.blocks.length + count))) s' ∧
      Agrees bm env s'.frame.locals ∧ Fades b.locals.length false s.frame.locals s'.frame.locals := by
  obtain ⟨blk, hblk, hbm⟩ := hopen.filled
  have hterm : bm.terminator = some (.switchInt (.copy b.locals.length) targets (b.blocks.length + count)) := by
    unfold FunctionBuilder.terminator
    rw [hopen.current, hbm]
    rfl
  have hbuilt := (hs.built hterm).of_keeps (hopen.keeps h.live)
  have hdecl : declaredType F o = some (.aggregate id) := by
    have hpre : b.locals <+: F.locals := List.IsPrefix.trans (by rw [hopen.locals]; exact List.prefix_append _ _) hs.locals
    cases o with
    | const constant => exact hty
    | copy l => exact getElem?_of_extends hpre hty
    | move l => exact getElem?_of_extends hpre hty
  obtain ⟨s1, w, ⟨d, fields, rfl, hadm, rfl⟩, hr1, hst, hholds, hfades⟩ := h.store hv .u64 hbuilt
    ⟨trivial, fun _ _ _ _ hu => by cases hu⟩
    (P := fun w => ∃ d fields, v = .aggregate d fields ∧ admits id d fields ∧ w = .u64 d)
    (fun m => discriminant_computes ho h.typed hdecl m)
  have hat : At p F cs admits bm s1 := by
    obtain ⟨blk1, last, hblk1, hlast, hcode⟩ := hst.code
    refine ⟨hst.toInside, by rw [hopen.current]; exact hst.block, _, last, by rw [hopen.current]; exact hbm, ?_, ?_⟩
    · rw [hopen.current]
      exact hlast
    · have hsame : blk1.statements = blk.statements ++ [.assign (.loc b.locals.length) (.discriminant o)] := by
        have heq : (b.blocks.modify b.current _)[b.current]? = some blk1 := hblk1
        rw [List.getElem?_modify_eq, hblk] at heq
        cases heq
        rfl
      rw [← hsame]
      exact hcode
  have hinst := hs.blocks bm.current _ _ (by rw [hopen.current]; exact hbm) rfl
  obtain ⟨s2, hr2, hready, hthin, -⟩ := hat.finish hv (by rw [hopen.current]; exact hbm) hinst
  have hfresh := hopen.fresh _ (Nat.le_of_lt (htarget d.toNat).1) (htarget d.toNat).2
  obtain ⟨s3, hr3, hat3, hL3⟩ := hready.switch hv (hholds.thins hthin) (b := bm.enter _) rfl hfresh
  refine ⟨s3, d, fields, rfl, hadm, (hr1.trans hr2).trans hr3, hat3, ?_, ?_⟩
  · rw [hL3]
    refine (hst.agrees.thins hthin).extend (show bm.bindings = [] ++ _ from hopen.bindings) (by simp) ?_
    show (b.locals ++ [MirType.u64]).length ≤ bm.locals.length
    rw [hopen.locals]
    simp
  · rw [hL3]
    have := hfades.trans (hthin.fades (n := b.locals.length) (z := false)) (Nat.le_refl _)
    exact this

/-- An arm, from its body to the join behind all of them. -/
theorem Follow.arm (hset : Setting p admits c fuel site) {body : TypedExpr} {ty : MirType} {o : Operand}
    {b2 bF : FunctionBuilder} {tail : Bool} {block result join count n : Nat}
    (h : Follow p F cs admits c fuel body (some ty) tail true false (b.enter block) env s (o, b2))
    (hg : Grows (b.enter block) b2) (hf : Fills result join (block + 1) count (closeArm result join o b2) bF)
    (hs : Sealed (closeArm result join o b2) F) (hjoin : bF.blocks[join]? = some ⟨[], none⟩) (hbF : Bound c.toScope bF)
    (hresult : result < b.locals.length) (hfree : ∀ d, lookupKey d b.bindings ≠ some result) (hn : n ≤ result) :
    Follows (step p unlimited) (Stops p (fuel + 1) (Escapes p F cs admits tail (.move result) (bF.enter join))) s
      (evalExpression c body (some ty) env)
      (Lands p F cs admits c.toScope n s.frame.locals body.hasBlock true false (.move result) (bF.enter join)) := by
  have hv := hset.verified
  have hlt : result < b2.locals.length := Nat.lt_of_lt_of_le hresult hg.locals.length_le
  -- from the end of the body on: the value goes to the result, the machine to the join
  have hclose : ∀ v s1, At p F cs admits b2 s1 → Holds o v s1.frame.locals →
      ∃ s2 L', Reaches (step p unlimited) s1 s2 ∧ At p F cs admits (bF.enter join) s2 ∧ Thins s1.frame.locals L' ∧
        Thins (L'.set result (some v)) s2.frame.locals :=
    fun v s1 hat ho => hat.closeArm hv hg.live ho (bF.enter join) hs hjoin
  refine Follows.then h (fun e he => he.mono ?_) ?_
  · rintro v ⟨htail, s1, hr1, hat, ho⟩
    obtain ⟨s2, L', hr2, hat2, -, hthin2⟩ := hclose v s1 hat ho
    exact ⟨htail, s2, hr1.trans hr2, hat2, (holds_set L' result v).thins hthin2⟩
  · rintro ⟨v, env1⟩ s1 - hl
    obtain ⟨s2, L', hr2, hat2, hthin, hthin2⟩ := hclose v s1 hl.standing.toAt (hl.holds rfl)
    obtain ⟨new, hnew, hrange⟩ := hg.bindings
    obtain ⟨new', hnew', hrange'⟩ := hf.bindings
    have hfree2 : ∀ d, lookupKey d b2.bindings ≠ some result := by
      intro d hd
      rw [hnew] at hd
      rcases lookupKey_append hd with hmem | hd
      · have : b.locals.length ≤ result := (hrange _ hmem).1
        omega
      · exact hfree d hd
    refine ⟨s2, hr2, ⟨hat2, (List.getElem?_eq_some_iff.1 hjoin).1, hbF.extend List.prefix_rfl rfl, ?_, ?_⟩, fun _ => ?_, ?_⟩
    · unfold FunctionBuilder.terminator
      show bF.blocks[join]?.bind _ = none
      rw [hjoin]
      rfl
    · have hset2 : Agrees b2 env1 (L'.set result (some v)) :=
        (hl.standing.agrees.thins hthin).set b2 rfl (Nat.le_refl _) hlt hfree2 v
      exact (hset2.thins hthin2).extend hnew' (fun entry he => (hrange' entry he).1) hf.locals.length_le
    · exact (holds_set L' result v).thins hthin2
    · have hbody := hl.fades.mono (n := n) (z := body.hasBlock) (by show n ≤ b.locals.length; omega) (fun hz => hz)
      have hwrite : Fades n false s1.frame.locals s2.frame.locals := by
        have hset2 := (hthin.fades (n := n) (z := false)).set (.inl hn) v
        exact hset2.trans (hthin2.fades (n := n) (z := false)) (Nat.le_refl _)
      have := hbody.trans hwrite (Nat.le_refl _)
      rw [Bool.or_false] at this
      exact this

end

/-! ## Statements -/

attribute [local simp] evalBlock leaves

/-- Behind a `return` nothing is lowered. -/
theorem lowerBlock_ended (ix : ProgramIndex) (result : MirType) {b : FunctionBuilder} (h : b.terminator.isSome = true) :
    ∀ statements, lowerBlock ix statements result b = b := by
  intro statements
  cases statements with
  | nil => rw [lowerBlock]
  | cons statement rest =>
    cases statement with
    | let_ name declared value => rw [lowerBlock, if_pos h]
    | return_ value =>
      cases value with
      | none => rw [lowerBlock, if_pos h]
      | some e => rw [lowerBlock, if_pos h]
    | expression e =>
      cases rest with
      | nil => rw [lowerBlock, if_pos h]
      | cons next rest => rw [lowerBlock, if_pos h]

theorem sealsBlock_of_leaves : ∀ (statements : List HirStatement) (ended : Bool), leaves statements = true →
    sealsBlock statements ended = true
  | [], _, h => by simp [leaves] at h
  | .return_ _ :: _, _, _ => by simp only [sealsBlock]
  | .let_ _ _ value :: rest, ended, h => by
    rw [leaves] at h
    simp only [sealsBlock, sealsBlock_of_leaves rest _ h, Bool.or_true]
  | [.expression _], _, _ => by simp only [sealsBlock]
  | .expression (.mk kind ty span) :: next :: rest, ended, h => by
    have hrest : leaves (next :: rest) = true ∨ (TypedExpr.mk kind ty span).seals false = true := by
      cases kind with
      | block statements =>
        rw [leaves, Bool.or_eq_true] at h
        simp only [TypedExpr.seals]
        exact h.symm.imp_right (sealsBlock_of_leaves statements false)
      | _ => exact .inl (by simpa [leaves] using h)
    simp only [sealsBlock]
    rcases hrest with h | h
    · rw [sealsBlock_of_leaves (next :: rest) _ h, Bool.or_true]
    · rw [h, sealsBlock_true, Bool.or_true]

theorem evalBlock_of_leaves {c : Context} : ∀ (statements : List HirStatement) (result : MirType) (env : Env)
    (r : Option Value × Env), leaves statements = true → evalBlock c statements result env ≠ .ok r
  | [], _, _, _, h, _ => by simp [leaves] at h
  | .return_ none :: _, _, _, _, _, hr => by
    rw [evalBlock] at hr
    cases hr
  | .return_ (some value) :: _, _, _, _, _, hr => by
    rw [evalBlock] at hr
    obtain ⟨r, -, hr⟩ := bind_eq_ok hr
    cases hr
  | .let_ _ _ value :: rest, result, env, r, h, hr => by
    rw [leaves] at h
    rw [evalBlock] at hr
    obtain ⟨r1, -, hr⟩ := bind_eq_ok hr
    exact evalBlock_of_leaves rest result _ r h hr
  | [.expression (.mk kind ty span)], result, env, r, h, hr => by
    cases kind with
    | block statements =>
      rw [leaves, Bool.or_eq_true] at h
      rw [evalBlock] at hr
      obtain ⟨r1, hr1, -⟩ := bind_eq_ok hr
      rw [evalExpression] at hr1
      obtain ⟨r2, hr2, -⟩ := bind_eq_ok hr1
      rcases h with h | h
      · exact evalBlock_of_leaves statements _ _ r2 h hr2
      · simp [leaves] at h
    | _ => simp [leaves] at h
  | .expression (.mk kind ty span) :: next :: rest, result, env, r, h, hr => by
    rw [evalBlock] at hr
    obtain ⟨r1, hr1, hr⟩ := bind_eq_ok hr
    have hrest : leaves (next :: rest) = true := by
      cases kind with
      | block statements =>
        rw [leaves, Bool.or_eq_true] at h
        rw [evalExpression] at hr1
        obtain ⟨r2, hr2, -⟩ := bind_eq_ok hr1
        exact h.resolve_left (fun h => evalBlock_of_leaves statements _ _ r2 h hr2)
      | _ => simpa [leaves] using h
    exact evalBlock_of_leaves (next :: rest) result _ r hrest hr

/-- A block that ends in an expression, or in a `return`, has a value where it ends. -/
theorem evalBlock_of_valued {c : Context} : ∀ (statements : List HirStatement) (result : MirType) (env env' : Env),
    valued statements = true → evalBlock c statements result env ≠ .ok (none, env')
  | [], _, _, _, h, _ => by simp [valued] at h
  | .return_ none :: _, _, _, _, _, hr => by
    rw [evalBlock] at hr
    cases hr
  | .return_ (some value) :: _, _, _, _, _, hr => by
    rw [evalBlock] at hr
    obtain ⟨r, -, hr⟩ := bind_eq_ok hr
    cases hr
  | [.let_ _ _ value], _, _, _, h, _ => by simp [valued] at h
  | .let_ _ _ value :: next :: rest, result, env, env', h, hr => by
    rw [valued] at h
    rw [evalBlock] at hr
    obtain ⟨r1, -, hr⟩ := bind_eq_ok hr
    exact evalBlock_of_valued (next :: rest) result _ env' h hr
  | [.expression e], result, env, env', h, hr => by
    rw [evalBlock] at hr
    obtain ⟨r1, -, hr⟩ := bind_eq_ok hr
    cases hr
  | .expression e :: next :: rest, result, env, env', h, hr => by
    rw [valued] at h
    rw [evalBlock] at hr
    obtain ⟨r1, -, hr⟩ := bind_eq_ok hr
    exact evalBlock_of_valued (next :: rest) result _ env' h hr

/-- A statement that is not the last: it always leaves, or it leads on. -/
theorem placedBlock_expression {site : Site} {e : TypedExpr} {next : HirStatement} {rest : List HirStatement}
    {returns : Bool} (h : placedBlock site (.expression e :: next :: rest) returns = true) :
    (returns = true ∧ e.placed site true false false = true ∧
      ∃ statements ty span, e = .mk (.block statements) ty span ∧ leaves statements = true) ∨
    (e.placed site false false false = true ∧ e.seals false = false ∧ placedBlock site (next :: rest) returns = true) := by
  obtain ⟨kind, ty, span⟩ := e
  cases kind with
  | block statements =>
    rw [placedBlock] at h
    simp only [TypedExpr.placed, TypedExpr.seals, Bool.not_false, Bool.true_and, Bool.true_or, Bool.and_true]
    split at h
    · rename_i hl
      simp only [Bool.and_eq_true] at h
      exact .inl ⟨h.1, h.2, statements, ty, span, rfl, hl⟩
    · simp only [Bool.and_eq_true, Bool.not_eq_true'] at h
      exact .inr ⟨h.1.1, h.1.2, h.2⟩
  | _ =>
    rw [placedBlock] at h
    · simp only [Bool.and_eq_true, Bool.not_eq_true'] at h
      exact .inr ⟨h.1.1, h.1.2, h.2⟩
    · rintro _ _ _ ⟨⟩

end Lower
end Syllog
