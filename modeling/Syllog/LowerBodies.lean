import Syllog.LowerDrops
import Syllog.LowerScope
import Syllog.LowerTrees
/-!
# LowerBodies — lowered functions do what the evaluator says

The start of a body (return slot empty, parameters bound to their slots), its end (the return the builder left there, or
the one `closeFunction` adds), and the induction on the fuel of the calls.
-/
namespace Syllog
namespace Lower

open Mir Hir Runs
open Interp hiding Trap

/-! ## Functions whose blocks are placed -/

/-- What the placement of a function's blocks depends on. -/
def HirFunction.site (ix : ProgramIndex) (f : HirFunction) : Site :=
  ⟨lowered ix f.result = .unit, !statementsHaveBlock f.body⟩

/-- **The blocks of a function are placed**, and its result does not come from a block that only a `let` has left behind. -/
def HirFunction.placed (ix : ProgramIndex) (f : HirFunction) : Bool :=
  placedBlock (HirFunction.site ix f) f.body true &&
    ((HirFunction.site ix f).unit || (HirFunction.site ix f).plain || valued f.body || leaves f.body)

/-- A match is over an enum, or another named type, and its arms take every value of it.  Literals are not patterns of such
a type: the checker compares their types. -/
def Exhaustive (p : HirProgram) (c : Scope) (e : TypedExpr) : Prop :=
  match e.kind with
  | .match_ value arms => (∀ arm ∈ arms, ∀ literal, arm.pattern ≠ .literal literal) ∧
    ∃ id, typeOf c value none = .aggregate id ∧
      ∀ v, Inhabits p v (.aggregate id) → ∃ arm ∈ arms, matchesPattern c.ix arm.pattern v = true
  | _                  => True

section
variable {p : HirProgram} {d : HirDefinition} {f : HirFunction} (hnd : (identities p).Nodup)
  (hf : (d, f) ∈ HirProgram.functions p)
include hnd hf

theorem function_fit (hm : ∀ e ∈ walkStatements f.body, Exhaustive p (functionScope (ProgramIndex.new p) f) e) :
    Fit (functionScope (ProgramIndex.new p) f) (Admits p) (HirFunction.site (ProgramIndex.new p) f)
      (walkStatements f.body) := by
  refine ⟨functionScope_blocks hnd hf, fun e he => ?_, fun hp => ?_⟩
  · have hex := hm e he
    obtain ⟨kind, ty, span⟩ := e
    cases kind with
    | match_ value arms =>
      obtain ⟨hlit, id, hty, hcov⟩ := hex
      refine ⟨⟨id, hty, fun k fields => hcov _⟩, hlit, fun arm harm b hb => lookup_binder hnd hf ?_⟩
      unfold HirFunction.binders
      exact List.mem_flatMap.2 ⟨_, he, List.mem_flatMap.2 ⟨arm, harm, hb⟩⟩
    | _ => trivial
  · simpa [HirFunction.site, statementsHaveBlock] using hp

end

/-! ## The start of a body -/

theorem lowerParameters_diagnostics (ix : ProgramIndex) : ∀ (ps : List HirParameter) (b : FunctionBuilder),
    b.diagnostics <+: (lowerParameters ix ps b).diagnostics
  | [], _ => List.prefix_rfl
  | q :: ps, b => by
    obtain ⟨ds, hds⟩ := requiredType_eq b ix q.ty q.span
    have ih := lowerParameters_diagnostics ix ps
      (((b.requiredType ix q.ty q.span).2.newLocal (b.requiredType ix q.ty q.span).1).2.bind q.id
        (b.requiredType ix q.ty q.span).2.locals.length)
    rw [lowerParameters]
    refine List.IsPrefix.trans ?_ ih
    rw [hds]
    exact List.prefix_append _ _

/-- The slots of the variables hold their values. -/
def Matches (bindings : List (DefId × Nat)) (env : Env) (L : Locals) : Prop :=
  ∀ d l w, lookupKey d bindings = some l → L[l]? = some (some w) → env d = w

/-- **Parameters are bound to consecutive slots**, with the types and values they have. -/
theorem lowerParameters_opens {c : Scope} {L : Locals} : ∀ (ps : List HirParameter) (vs : List Value)
    (b : FunctionBuilder) (env : Env), Bound c b → (lowerParameters c.ix ps b).diagnostics = [] →
    (∀ q ∈ ps, lookupKey q.id c.types = some (lowered c.ix q.ty)) → vs.length = ps.length → Matches b.bindings env L →
    (∀ i v w, vs[i]? = some v → L[b.locals.length + i]? = some (some w) → w = v) →
    Bound c (lowerParameters c.ix ps b) ∧
      (lowerParameters c.ix ps b).locals = b.locals ++ ps.map (fun q => lowered c.ix q.ty) ∧
      Matches (lowerParameters c.ix ps b).bindings (bindParameters ps vs env) L
  | [], vs, b, env, hb, _, _, _, hm, _ => by
    rw [lowerParameters, bindParameters]
    · exact ⟨hb, by simp, hm⟩
    · rintro _ _ _ _ ⟨⟩
  | q :: ps, [], _, _, _, _, _, hlen, _, _ => by simp at hlen
  | q :: ps, v :: vs, b, env, hb, hd, hdecl, hlen, hm, hslots => by
    have hquiet : (b.requiredType c.ix q.ty q.span).2.diagnostics = [] := by
      rw [lowerParameters] at hd
      have hpre := lowerParameters_diagnostics c.ix ps
        (((b.requiredType c.ix q.ty q.span).2.newLocal (b.requiredType c.ix q.ty q.span).1).2.bind q.id
          (b.requiredType c.ix q.ty q.span).2.locals.length)
      exact List.prefix_nil.1 (hpre.trans ⟨[], (List.append_nil _).trans hd⟩)
    simp only [lowerParameters, requiredType_quiet hquiet] at hd ⊢
    rw [bindParameters]
    have hbind := bound_bindLocal hb (hdecl q List.mem_cons_self) unitOperand
    have hmatch : Matches ((q.id, b.locals.length) :: b.bindings) (env.set q.id v) L := by
      intro d l w hl hw
      rw [lookupKey_cons] at hl
      unfold Env.set
      by_cases heq : q.id = d
      · rw [if_pos heq] at hl
        cases hl
        rw [if_pos heq.symm]
        exact (hslots 0 v w rfl hw).symm
      · rw [if_neg heq] at hl
        rw [if_neg (Ne.symm heq)]
        exact hm d l w hl hw
    obtain ⟨hbound, hlocals, hmatches⟩ := lowerParameters_opens ps vs
      ((b.newLocal (lowered c.ix q.ty)).2.bind q.id b.locals.length) (env.set q.id v) ⟨hbind.result, hbind.bindings⟩ hd
      (fun q' hq' => hdecl q' (List.mem_cons_of_mem _ hq')) (by simpa using hlen) hmatch
      (fun i v' w hv hw => hslots (i + 1) v' w hv (by
        rw [← hw]
        show _ = L[(b.locals ++ [_]).length + i]?
        rw [List.length_append, List.length_singleton]
        congr 1
        omega))
    refine ⟨hbound, hlocals.trans ?_, hmatches⟩
    show (b.locals ++ [lowered c.ix q.ty]) ++ _ = _
    rw [List.append_assoc]
    rfl

theorem initialLocals_some {n l : Nat} {vs : List Value} {w : Value} (h : (initialLocals n vs)[l]? = some (some w)) :
    0 < l ∧ vs[l - 1]? = some w := by
  have hlt : l < n := by simpa [initialLocals] using (List.getElem?_eq_some_iff.1 h).1
  rw [initialLocals_getElem? n vs hlt, Option.some.injEq] at h
  split at h
  · cases h
  · exact ⟨by omega, h⟩

theorem openFunction_eq {ix : ProgramIndex} {d : HirDefinition} {f : HirFunction}
    (hd : (openFunction ix d f).2.diagnostics = []) : openFunction ix d f =
      (lowered ix f.result, lowerParameters ix f.parameters (FunctionBuilder.new.newLocal (lowered ix f.result)).2) := by
  have hpre := lowerParameters_diagnostics ix f.parameters
    ((FunctionBuilder.new.requiredType ix f.result d.span).2.newLocal
      (FunctionBuilder.new.requiredType ix f.result d.span).1).2
  have hquiet : (FunctionBuilder.new.requiredType ix f.result d.span).2.diagnostics = [] :=
    List.prefix_nil.1 (hpre.trans ⟨[], (List.append_nil _).trans hd⟩)
  simp only [openFunction, requiredType_quiet hquiet]

section
variable {hir : HirProgram} {d : HirDefinition} {f : HirFunction} (hnd : (identities hir).Nodup)
  (hf : (d, f) ∈ HirProgram.functions hir) (hd : (openFunction (ProgramIndex.new hir) d f).2.diagnostics = [])
include hnd hf hd

theorem openFunction_opens {n : Nat} {vs : List Value} (hlen : vs.length = f.parameters.length) :
    Bound (functionScope (ProgramIndex.new hir) f) (openFunction (ProgramIndex.new hir) d f).2 ∧
      (openFunction (ProgramIndex.new hir) d f).2.locals =
        lowered (ProgramIndex.new hir) f.result :: f.parameters.map (fun q => lowered (ProgramIndex.new hir) q.ty) ∧
      Matches (openFunction (ProgramIndex.new hir) d f).2.bindings
        (bindParameters f.parameters vs (fun _ => .unit)) (initialLocals n vs) := by
  have heq := openFunction_eq hd
  rw [heq] at hd ⊢
  refine lowerParameters_opens (c := functionScope (ProgramIndex.new hir) f) f.parameters vs _ _ ⟨rfl, ?_⟩ hd ?_ hlen ?_ ?_
  · intro x l hl
    cases hl
  · intro q hq
    have hmem : (q.id, lowered (ProgramIndex.new hir) q.ty) ∈ f.declared (ProgramIndex.new hir) :=
      List.mem_append_left _ (List.mem_append_left _ (List.mem_map.2 ⟨q, hq, rfl⟩))
    exact lookup_declared hnd hf hmem
  · intro x l w hl
    cases hl
  · intro i v w hv hw
    have hslot := (initialLocals_some hw).2
    rw [show (FunctionBuilder.new.newLocal (lowered (ProgramIndex.new hir) f.result)).2.locals.length + i - 1 = i by
      simp [FunctionBuilder.newLocal, FunctionBuilder.new]] at hslot
    rw [hv] at hslot
    cases hslot
    rfl

/-- **The machine, the builder and the evaluator at the start of a body.** -/
theorem standing_open {p : MirProgram} {F : MirFunction} {cs : List Caller} {vs : List Value} {blk : BasicBlock}
    {m : Machine} {depth : Nat} (hlen : vs.length = f.parameters.length) (hblk : F.blocks[0]? = some blk)
    (hok : StateOk p ⟨m, ⟨F, initialLocals F.locals.length vs, 0, blk.statements, depth⟩, cs⟩)
    (htyped : TypedLocals (.within (Admits hir)) F (initialLocals F.locals.length vs)) :
    Standing p F cs (Admits hir) (functionScope (ProgramIndex.new hir) f) (openFunction (ProgramIndex.new hir) d f).2 false
      (bindParameters f.parameters vs (fun _ => .unit))
      ⟨m, ⟨F, initialLocals F.locals.length vs, 0, blk.statements, depth⟩, cs⟩ := by
  obtain ⟨hbound, -, hmatches⟩ := openFunction_opens (n := F.locals.length) hnd hf hd hlen
  obtain ⟨hblocks, hcurrent, hlocals⟩ := openFunction_blocks (ProgramIndex.new hir) d f
  have hin : Inside p F cs (Admits hir) ⟨m, ⟨F, initialLocals F.locals.length vs, 0, blk.statements, depth⟩, cs⟩ :=
    ⟨hok, rfl, rfl, htyped⟩
  have hfirst : (openFunction (ProgramIndex.new hir) d f).2.blocks[(openFunction (ProgramIndex.new hir) d f).2.current]? =
      some ⟨[], none⟩ := by
    rw [hblocks, hcurrent]
    rfl
  refine ⟨hin.enter hcurrent.symm hfirst (by rw [hcurrent]; exact hblk) rfl, openFunction_open _ d f, hbound, ?_, hmatches, ?_⟩
  · unfold FunctionBuilder.terminator
    rw [hfirst]
    rfl
  · intro l w hw
    obtain ⟨hpos, hv⟩ := initialLocals_some hw
    have := (List.getElem?_eq_some_iff.1 hv).1
    omega

end

/-! ## The end of a body -/

/-- A function is what its builder ended with, and the drops. -/
theorem sealed_insertFunctionDrops {b : FunctionBuilder} {f : MirFunction} (hl : f.locals = b.locals)
    (hb : f.blocks = b.blocks) : Sealed b (insertFunctionDrops f) := by
  refine ⟨by rw [insertFunctionDrops_locals, hl], fun i block t hi ht => ?_⟩
  rw [← hb] at hi
  have hne : f.blocks ≠ [] := fun h0 => by simp [h0] at hi
  obtain ⟨ls, hls, h0⟩ := blockDrops_locals f (ownedOnEntry f) i block
  refine ⟨ls, ?_, h0⟩
  rw [insertFunctionDrops_eq hne, List.getElem?_mapIdx, hi, ← hls, ← ht]
  rfl

section
variable {p : MirProgram} {F : MirFunction} {cs : List Caller} {admits : DefId → UInt64 → List Value → Prop}
  {b : FunctionBuilder} {s : State}

/-- The slot a return reads is full. -/
theorem Ready.ret_slot {i : Nat} (h : Ready p F cs admits i .ret s) : ∃ v, s.frame.locals[0]? = some (some v) := by
  obtain ⟨⟨-, owned, t, hterm, hcode, hkept⟩, -⟩ := h.ok
  rw [h.last] at hterm
  cases hterm
  rw [h.rest] at hcode
  exact hkept.2 0 hcode.final.1

/-- From a block that returns the machine runs to its return, with the slot as it is. -/
theorem At.returns (hv : verify p = .ok ()) (h : At p F cs admits b s) (hs : Sealed b F) (ht : b.terminator = some .ret) :
    ∃ s' v, Reaches (step p unlimited) s s' ∧ (∃ i, Ready p F cs admits i .ret s') ∧
      s'.frame.locals[0]? = some (some v) ∧ s.frame.locals[0]? = some (some v) := by
  obtain ⟨blk, hblk, hterm⟩ := Option.bind_eq_some_iff.1 ht
  obtain ⟨s', hr, hready, -, hzero⟩ := h.finish hv hblk (hs.blocks _ blk _ hblk hterm)
  obtain ⟨v, hslot⟩ := hready.ret_slot
  exact ⟨s', v, hr, ⟨_, hready⟩, hslot, by rw [← hzero]; exact hslot⟩

end

theorem sealsBlock_of_value {c : Context} : ∀ (statements : List HirStatement) (ended : Bool) (result : MirType)
    (env env' : Env) (v : Value), evalBlock c statements result env = .ok (some v, env') →
    sealsBlock statements ended = true
  | [], _, _, _, _, _, h => by
    rw [evalBlock] at h
    cases h
  | .let_ _ _ value :: rest, ended, result, _, env', v, h => by
    rw [evalBlock] at h
    obtain ⟨r, -, h⟩ := bind_eq_ok h
    rw [sealsBlock, sealsBlock_of_value rest _ result _ env' v h, Bool.or_true]
  | .return_ _ :: _, _, _, _, _, _, _ => by rw [sealsBlock]
  | [.expression _], _, _, _, _, _, _ => by rw [sealsBlock]
  | .expression e :: next :: rest, ended, result, _, env', v, h => by
    rw [evalBlock] at h
    obtain ⟨r, -, h⟩ := bind_eq_ok h
    rw [sealsBlock, sealsBlock_of_value (next :: rest) _ result _ env' v h, Bool.or_true]

/-! ## Bodies -/

section
variable {p : MirProgram} {F : MirFunction} {cs : List Caller} {admits : DefId → UInt64 → List Value → Prop}
  {c : Context} {fuel : Nat} {site : Site} {b : FunctionBuilder} {env : Env} {s : State}

/-- The end of a body without a value, in a function that returns unit: the return slot is unit, or becomes it. -/
theorem Standing.close_unit (hv : verify p = .ok ()) {ended : Bool} (h : Standing p F cs admits c.toScope b ended env s)
    (hunit : c.result = .unit) (hs : Sealed (closeFunction c.result b) F) :
    ∃ s', Reaches (step p unlimited) s s' ∧ (∃ i, Ready p F cs admits i .ret s') ∧
      s'.frame.locals[0]? = some (some .unit) := by
  have hret : ∃ s', Reaches (step p unlimited) s s' ∧ At p F cs admits (closeFunction c.result b) s' ∧
      (closeFunction c.result b).terminator = some .ret := by
    have hfinal := h.final
    cases ended with
    | true =>
      have hsome : b.terminator.isSome = true := by
        rw [hfinal]
        rfl
      unfold closeFunction
      rw [if_pos hsome]
      exact ⟨s, .refl _ _, h.toAt, hfinal⟩
    | false =>
      have heq : closeFunction c.result b = setResult unitOperand b := by
        unfold closeFunction returnUnit
        rw [if_neg (by rw [hfinal]; simp [endOf]), if_pos hunit]
        rfl
      have hterm : (setResult unitOperand b).terminator = some .ret :=
        terminator_terminate (keeps_assign h.live _ _).live _
      rw [heq] at hs ⊢
      obtain ⟨s1, L', hr1, hat1, -, -⟩ := h.toAt.setResult hv h.live (o := unitOperand) (v := .unit) rfl (hs.built hterm)
      exact ⟨s1, hr1, hat1, hterm⟩
  obtain ⟨s1, hr1, hat1, hterm⟩ := hret
  obtain ⟨s2, v, hr2, ⟨i, hready⟩, hslot, -⟩ := hat1.returns hv hs hterm
  have hresult : F.locals[0]? = some .unit := by
    rw [← hunit]
    exact getElem?_of_extends ((grows_closeFunction h.live c.result).locals.trans hs.locals) h.bound.result
  rw [hready.toInside.unit hresult v hslot] at hslot
  exact ⟨s2, hr1.trans hr2, ⟨i, hready⟩, hslot⟩

/-- The end of a body without a value, in a function that returns something else, is not reached: the slot of its return
is empty. -/
theorem Standing.close_vacant (hv : verify p = .ok ()) {ended : Bool} (h : Standing p F cs admits c.toScope b ended env s)
    (hunit : c.result ≠ .unit) (hs : Sealed (closeFunction c.result b) F)
    (hvac : ∀ w, s.frame.locals[0]? ≠ some (some w)) : False := by
  have hat : At p F cs admits (closeFunction c.result b) s ∧ (closeFunction c.result b).terminator = some .ret := by
    have hfinal := h.final
    unfold closeFunction returnUnit
    cases ended with
    | true =>
      rw [if_pos (by rw [hfinal]; rfl)]
      exact ⟨h.toAt, hfinal⟩
    | false =>
      rw [if_neg (by rw [hfinal]; simp [endOf]), if_neg hunit]
      exact ⟨h.toAt.terminate .ret, terminator_terminate h.live _⟩
  obtain ⟨-, v, -, -, -, hslot⟩ := hat.1.returns hv hs hat.2
  exact hvac v hslot

/-- **A lowered body does what the evaluator says.** -/
theorem body_follows (hset : Setting p admits c fuel site) {f : HirFunction} {vs : List Value}
    (h : Standing p F cs admits c.toScope b false (bindParameters f.parameters vs (fun _ => .unit)) s)
    (hlets : LetsDeclared c.toScope f.body) (hfit : Fit c.toScope admits site (walkStatements f.body))
    (hvac : ∀ w, s.frame.locals[0]? ≠ some (some w)) (hp : placedBlock site f.body true = true)
    (hend : c.result = .unit ∨ site.plain = true ∨ valued f.body = true ∨ leaves f.body = true)
    (hd : (closeFunction c.result (lowerBlock c.ix f.body c.result b)).diagnostics = [])
    (hs : Sealed (closeFunction c.result (lowerBlock c.ix f.body c.result b)) F) :
    Follows (step p unlimited) (Stops p (fuel + 1) (fun _ _ => False)) s (evalBody c f vs)
      (fun v s' => (∃ i, Ready p F cs admits i .ret s') ∧ s'.frame.locals[0]? = some (some v)) := by
  have hgb := lowerBlock_grows c.ix f.body c.result b h.live
  have hgc := grows_closeFunction hgb.live c.result
  obtain ⟨-, hfinal⟩ := lowerBlock_known hset.names f.body c.result b false h.live h.bound h.final hlets hfit.declared
    (hgc.quiet hd)
  have hterm : ∃ t, (closeFunction c.result (lowerBlock c.ix f.body c.result b)).terminator = some t := by
    unfold closeFunction
    split
    · rename_i hsome
      exact Option.isSome_iff_exists.1 hsome
    · unfold returnUnit
      split
      · exact ⟨_, terminator_terminate (keeps_assign hgb.live _ _).live _⟩
      · exact ⟨_, terminator_terminate hgb.live _⟩
  obtain ⟨t, hterm⟩ := hterm
  have hbody := lowerBlock_follows hset f.body c.result b true false _ s h (.inr rfl) hlets hfit (fun _ => hvac) hp
    (hgc.quiet hd) ((hs.built hterm).of_keeps hgc.toKeeps)
  -- an ended block is the function's last
  have hsealed : sealsBlock f.body false = true → Sealed (lowerBlock c.ix f.body c.result b) F ∧
      (lowerBlock c.ix f.body c.result b).terminator = some .ret := by
    intro hseals
    rw [hseals] at hfinal
    unfold closeFunction at hs
    rw [if_pos (by rw [hfinal]; rfl)] at hs
    exact ⟨hs, hfinal⟩
  have hreturns : ∀ v s1, sealsBlock f.body false = true → Reaches (step p unlimited) s s1 →
      At p F cs admits (lowerBlock c.ix f.body c.result b) s1 → Holds (.copy 0) v s1.frame.locals →
      ∃ s', Reaches (step p unlimited) s s' ∧ (∃ i, Ready p F cs admits i .ret s') ∧ s'.frame.locals[0]? = some (some v) := by
    intro v s1 hseals hr1 hat hholds
    obtain ⟨s2, w, hr2, hready, hslot2, hslot1⟩ := hat.returns hset.verified (hsealed hseals).1 (hsealed hseals).2
    rw [hholds w hslot1] at hslot2
    exact ⟨s2, hr1.trans hr2, hready, hslot2⟩
  unfold evalBody
  cases hr : evalBlock c f.body c.result (bindParameters f.parameters vs (fun _ => .unit)) with
  | error e =>
    rw [hr] at hbody
    cases e with
    | returned v =>
      obtain ⟨hseals, -, s1, hr1, hat, hholds⟩ := hbody
      exact hreturns v s1 hseals hr1 hat hholds
    | trapped t => exact hbody
    | stuck => exact hbody
    | outOfFuel => exact hbody
  | ok r =>
    rw [hr] at hbody
    obtain ⟨s1, hr1, hl⟩ := hbody
    obtain ⟨value, env1⟩ := r
    cases value with
    | some v =>
      exact hreturns v s1 (sealsBlock_of_value f.body false _ _ env1 v hr) hr1 hl.standing.toAt (hl.value v rfl)
    | none =>
      by_cases hunit : c.result = .unit
      · simp only [if_pos hunit]
        obtain ⟨s2, hr2, hready⟩ := hl.standing.close_unit hset.verified hunit hs
        exact ⟨s2, hr1.trans hr2, hready⟩
      · exfalso
        rcases hend with hend | hplain | hvalued | hleaves
        · exact hunit hend
        · exact hl.standing.close_vacant hset.verified hunit hs (hl.vacant rfl hplain)
        · exact evalBlock_of_valued f.body _ _ env1 hvalued hr
        · exact evalBlock_of_leaves f.body _ _ _ hleaves hr

end

/-! ## Programs -/

/-- What is asked of a function: its matches are exhaustive and its blocks placed. -/
structure Faithful (hir : HirProgram) (f : HirFunction) : Prop where
  matches_ : ∀ e ∈ walkStatements f.body, Exhaustive hir (functionScope (ProgramIndex.new hir) f) e
  placed : HirFunction.placed (ProgramIndex.new hir) f = true

section
variable {hir : HirProgram} {p : MirProgram} (h : lowerToMir hir = .ok p)
include h

/-- A function found by its identity is the lowered form of the one of the tree. -/
theorem lookup_lowered (id : DefId) : p.lookup id = (HirProgram.lookup hir id).map
    (fun df => insertFunctionDrops (lowerFunction (ProgramIndex.new hir) df.1 df.2).1) := by
  obtain ⟨-, -, rfl⟩ := lowerToMir_ok h
  unfold MirProgram.lookup HirProgram.lookup
  simp only [← List.map_reverse, List.find?_map]
  congr 2
  funext df
  simp only [Function.comp, insertFunctionDrops_id]
  rfl

/-- **Calls are answered**: what the evaluator says of a call with this fuel is what the machine does. -/
theorem answers_evalFunction (hnd : (identities hir).Nodup)
    (hok : ∀ d f, (d, f) ∈ HirProgram.functions hir → Faithful hir f) :
    ∀ fuel, Answers p (Admits hir) fuel (evalFunction hir fuel) := by
  intro fuel
  induction fuel with
  | zero =>
    intro id vs g blk m depth cs hg hlen hblk hstate htyped
    rw [evalFunction]
    rfl
  | succ fuel ih =>
    intro id vs g blk m depth cs hg hlen hblk hstate htyped
    rw [lookup_lowered h id] at hg
    obtain ⟨⟨d, f⟩, hfind, rfl⟩ := Option.map_eq_some_iff.1 hg
    have hf : (d, f) ∈ HirProgram.functions hir := by simpa using List.mem_of_find?_eq_some hfind
    obtain ⟨hv, hquiet, -⟩ := lowerToMir_ok h
    have hlen' : vs.length = f.parameters.length := by
      rw [hlen, insertFunctionDrops_parameterCount]
      rfl
    have hquiet : (lowerBody (ProgramIndex.new hir) d f).2.diagnostics = [] := hquiet d f hf
    have hopen := (lowerBody_grows (ProgramIndex.new hir) d f).quiet hquiet
    have hresult : (openFunction (ProgramIndex.new hir) d f).1 = lowered (ProgramIndex.new hir) f.result := by
      rw [openFunction_eq hopen]
    have hset : Setting p (Admits hir) ⟨functionScope (ProgramIndex.new hir) f, evalFunction hir fuel⟩ fuel
        (HirFunction.site (ProgramIndex.new hir) f) :=
      ⟨hv, functionScope_names hnd hf, fun _ _ _ hl => admits_variant hl, ih, fun hunit => of_decide_eq_true hunit⟩
    have hsealed : Sealed (lowerBody (ProgramIndex.new hir) d f).2
        (insertFunctionDrops (lowerFunction (ProgramIndex.new hir) d f).1) := sealed_insertFunctionDrops rfl rfl
    have hplaced := (hok d f hf).placed
    simp only [HirFunction.placed, Bool.and_eq_true, Bool.or_eq_true] at hplaced
    unfold lowerBody at hquiet hsealed
    simp only [hresult] at hquiet hsealed
    rw [evalFunction, hfind]
    simp only [if_pos hlen']
    refine body_follows hset (standing_open hnd hf hopen hlen' hblk hstate htyped) (functionScope_lets hnd hf)
      (function_fit hnd hf (hok d f hf).matches_) (fun w hw => ?_) hplaced.1 ?_ hquiet hsealed
    · exact absurd (initialLocals_some hw).1 (Nat.lt_irrefl 0)
    · rcases hplaced.2 with ((hunit | hplain) | hvalued) | hleaves
      · exact .inl (hset.unit hunit)
      · exact .inr (.inl hplain)
      · exact .inr (.inr (.inl hvalued))
      · exact .inr (.inr (.inr hleaves))

end

end Lower
end Syllog
