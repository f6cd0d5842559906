import Syllog.LowerBodies
/-!
# LowerMeaning — what lowering preserves

A lowered program and its tree agree on every call with well-typed arguments: the machine returns what the evaluator
returns and traps on arithmetic where the evaluator does.  Without nested blocks this always holds; with them it holds
where they are `placed`, and not in general.
-/
namespace Syllog
namespace Lower

open Mir Hir Runs
open Interp

/-- `Machine::call` under a budget of `fuel` steps; `none` while the call has not come back. -/
def callFunction (fuel : Nat) (p : MirProgram) (limits : InterpreterLimits) (id : DefId) (arguments : List Value) :
    Option (Except Fault Value) :=
  match startCall p limits id arguments with
  | .error e => some (.error e)
  | .ok s    => (run (step p limits) fuel s).map (Except.map Prod.fst)

/-- **The tree and the lowered program agree on a call**, under limits that are never hit. -/
structure Agree (hir : HirProgram) (p : MirProgram) (id : DefId) (arguments : List Value) : Prop where
  returns : ∀ v, (∃ n, callFunction n p unlimited id arguments = some (.ok v)) ↔
    ∃ fuel, evalFunction hir fuel id arguments = .ok v
  traps : ∀ t : Trap, t.arithmetic = true ∧ (∃ n, callFunction n p unlimited id arguments = some (.error (.error (.trap t)))) ↔
    ∃ fuel, evalFunction hir fuel id arguments = .error (.trapped t)

/-- Arguments of the types the parameters have. -/
def WellTyped (hir : HirProgram) (f : HirFunction) (arguments : List Value) : Prop :=
  List.Forall₂ (fun q v => Inhabits hir v (lowered (ProgramIndex.new hir) q.ty)) f.parameters arguments

/-! ## Calls from the outside -/

section
variable {hir : HirProgram} {p : MirProgram} {d : HirDefinition} {f : HirFunction}

/-- A function is found by its identity. -/
theorem lookup_function (hnd : (identities hir).Nodup) (hf : (d, f) ∈ HirProgram.functions hir) :
    HirProgram.lookup hir d.id = some (d, f) := by
  have hmem := mem_functions.1 hf
  cases hfind : HirProgram.lookup hir d.id with
  | none =>
    have := List.find?_eq_none.1 hfind (d, f) (List.mem_reverse.2 hf)
    simp at this
  | some df =>
    obtain ⟨d', f'⟩ := df
    have hf' : (d', f') ∈ HirProgram.functions hir := by simpa using List.mem_of_find?_eq_some hfind
    have hmem' := mem_functions.1 hf'
    have hid : d'.id = d.id := by simpa using List.find?_some hfind
    obtain rfl : d' = d := by
      by_contra hne
      have hshared : d'.id ∈ identitiesOf (ProgramIndex.new hir) d := by
        rw [hid]
        exact List.mem_cons_self
      exact identities_disjoint hnd hmem'.1 hmem.1 hne List.mem_cons_self hshared
    rw [hmem.2] at hmem'
    cases hmem'.2
    rfl

/-- Well-typed arguments are typed slots. -/
theorem initialLocals_inhabits (h : lowerToMir hir = .ok p) (hnd : (identities hir).Nodup)
    (hf : (d, f) ∈ HirProgram.functions hir) {vs : List Value} (hvs : WellTyped hir f vs) :
    TypedLocals (.within (Admits hir)) (insertFunctionDrops (lowerFunction (ProgramIndex.new hir) d f).1)
      (initialLocals (insertFunctionDrops (lowerFunction (ProgramIndex.new hir) d f).1).locals.length vs) := by
  obtain ⟨-, hquiet, -⟩ := lowerToMir_ok h
  have hgrows := lowerBody_grows (ProgramIndex.new hir) d f
  have hopen := hgrows.quiet (hquiet d f hf)
  obtain ⟨hlen, hget⟩ := List.forall₂_iff_get.1 hvs
  obtain ⟨-, hlocals, -⟩ := openFunction_opens (n := 0) hnd hf hopen hlen.symm
  intro l v ty hv hty
  obtain ⟨hpos, hslot⟩ := initialLocals_some hv
  obtain ⟨k, rfl⟩ : ∃ k, l = k + 1 := ⟨l - 1, by omega⟩
  rw [Nat.add_sub_cancel] at hslot
  obtain ⟨hk, rfl⟩ := List.getElem?_eq_some_iff.1 hslot
  have hdecl : (openFunction (ProgramIndex.new hir) d f).2.locals[k + 1]? =
      some (lowered (ProgramIndex.new hir) (f.parameters.get ⟨k, by omega⟩).ty) := by
    rw [hlocals, List.getElem?_cons_succ, List.getElem?_map, List.getElem?_eq_getElem (by omega)]
    rfl
  have hty' := getElem?_of_extends hgrows.locals hdecl
  rw [insertFunctionDrops_locals] at hty
  cases hty'.symm.trans hty
  exact hasType_of_inhabits (hget k (by omega) hk)

/-- The last return of a run. -/
theorem Ready.ends {F : MirFunction} {admits : DefId → UInt64 → List Value → Prop} {i : Nat} {s : State} {v : Value}
    (h : Ready p F [] admits i .ret s) (hslot : s.frame.locals[0]? = some (some v)) :
    ∃ m, step p unlimited s = .ok (.inr (v, m)) := by
  cases ht : tick unlimited s.machine with
  | error e => exact absurd ht (tick_unlimited _ e)
  | ok m =>
    refine ⟨m, ?_⟩
    unfold step
    rw [ht]
    simp only [h.rest, h.last, h.callers, hslot, stepTerminator, bind, Except.bind]

/-- What the machine does where the evaluator has this result. -/
def Outcome (p : MirProgram) (fuel : Nat) (s : State) : Except Stop Value → Prop
  | .ok v                 => ∃ n m, run (step p unlimited) n s = some (.ok (v, m))
  | .error (.returned _)  => False
  | .error (.trapped t)   => t.arithmetic = true ∧ ∃ n, run (step p unlimited) n s = some (.error (.error (.trap t)))
  | .error .stuck         => ∃ n e, run (step p unlimited) n s = some (.error e) ∧ ∀ t, e = .error (.trap t) → t.arithmetic = false
  | .error .outOfFuel     => run (step p unlimited) fuel s = none

theorem outcome_of_follows {F : MirFunction} {admits : DefId → UInt64 → List Value → Prop} {fuel : Nat} {s : State}
    {r : Except Stop Value} (h : Follows (step p unlimited) (Stops p fuel (fun _ _ => False)) s r
      (fun v s' => (∃ i, Ready p F [] admits i .ret s') ∧ s'.frame.locals[0]? = some (some v))) : Outcome p fuel s r := by
  cases r with
  | ok v =>
    obtain ⟨s', hr, ⟨i, hready⟩, hslot⟩ := h
    obtain ⟨m, hm⟩ := hready.ends hslot
    obtain ⟨n, hn⟩ := run_of_reaches (o := .ok (v, m)) hr hm
    exact ⟨n, m, hn⟩
  | error e =>
    cases e with
    | returned v => exact h
    | trapped t =>
      obtain ⟨ht, s', hr, he⟩ := h
      exact ⟨ht, run_of_reaches (o := .error _) hr he⟩
    | stuck =>
      obtain ⟨s', e, hr, he, ht⟩ := h
      obtain ⟨n, hn⟩ := run_of_reaches (o := .error e) hr he
      exact ⟨n, e, hn, ht⟩
    | outOfFuel => exact h

/-- A run that came to an end within the fuel ended as the evaluator did. -/
theorem Outcome.ended {n : Nat} {s : State} {r : Except Stop Value} {o : Except Fault (Value × Machine)}
    (h : Outcome p n s r) (hrun : run (step p unlimited) n s = some o) :
    (∃ v m, r = .ok v ∧ o = .ok (v, m)) ∨ (∃ t, r = .error (.trapped t) ∧ o = .error (.error (.trap t))) ∨
      ∃ e, o = .error e ∧ ∀ t, e = .error (.trap t) → t.arithmetic = false := by
  cases r with
  | ok v =>
    obtain ⟨k, m, hk⟩ := h
    exact .inl ⟨v, m, rfl, run_unique hrun hk⟩
  | error e =>
    cases e with
    | returned v => exact h.elim
    | trapped t =>
      obtain ⟨-, k, hk⟩ := h
      exact .inr (.inl ⟨t, rfl, run_unique hrun hk⟩)
    | stuck =>
      obtain ⟨k, e, hk, he⟩ := h
      exact .inr (.inr ⟨e, run_unique hrun hk, he⟩)
    | outOfFuel =>
      rw [show run (step p unlimited) n s = none from h] at hrun
      cases hrun

/-- An outcome for every fuel settles how a call ends. -/
theorem agree_of_outcomes {id : DefId} {vs : List Value} {s : State} (hstart : startCall p unlimited id vs = .ok s)
    (h : ∀ fuel, Outcome p fuel s (evalFunction hir fuel id vs)) : Agree hir p id vs := by
  have hcall : ∀ n, callFunction n p unlimited id vs = (run (step p unlimited) n s).map (Except.map Prod.fst) := by
    intro n
    unfold callFunction
    rw [hstart]
  refine ⟨fun v => ⟨?_, ?_⟩, fun t => ⟨?_, ?_⟩⟩
  · rintro ⟨n, hn⟩
    rw [hcall] at hn
    obtain ⟨o, hrun, ho⟩ := Option.map_eq_some_iff.1 hn
    rcases (h n).ended hrun with ⟨w, m, hr, rfl⟩ | ⟨t, -, rfl⟩ | ⟨e, rfl, -⟩
    · cases ho
      exact ⟨n, hr⟩
    · cases ho
    · cases ho
  · rintro ⟨fuel, hr⟩
    have hout := h fuel
    rw [hr] at hout
    obtain ⟨n, m, hrun⟩ := hout
    exact ⟨n, by rw [hcall, hrun]; rfl⟩
  · rintro ⟨ht, n, hn⟩
    rw [hcall] at hn
    obtain ⟨o, hrun, ho⟩ := Option.map_eq_some_iff.1 hn
    rcases (h n).ended hrun with ⟨w, m, -, rfl⟩ | ⟨t', hr, rfl⟩ | ⟨e, rfl, hnot⟩
    · cases ho
    · cases ho
      exact ⟨n, hr⟩
    · cases ho
      rw [hnot t rfl] at ht
      cases ht
  · rintro ⟨fuel, hr⟩
    have hout := h fuel
    rw [hr] at hout
    obtain ⟨ht, n, hrun⟩ := hout
    exact ⟨ht, n, by rw [hcall, hrun]; rfl⟩

/-- **A call of a lowered function means what it means in the tree**, where the matches of all functions are exhaustive and
their blocks placed. -/
theorem agree_of_faithful (h : lowerToMir hir = .ok p) (hnd : (identities hir).Nodup)
    (hok : ∀ d f, (d, f) ∈ HirProgram.functions hir → Faithful hir f) (hf : (d, f) ∈ HirProgram.functions hir)
    {vs : List Value} (hvs : WellTyped hir f vs) : Agree hir p d.id vs := by
  obtain ⟨hv, -, -⟩ := lowerToMir_ok h
  have hfind := lookup_lowered h d.id
  rw [lookup_function hnd hf, Option.map_some] at hfind
  have hlen : vs.length = (insertFunctionDrops (lowerFunction (ProgramIndex.new hir) d f).1).parameterCount := by
    rw [← hvs.length_eq]
    unfold insertFunctionDrops
    split <;> rfl
  cases hstart : startCall p unlimited d.id vs with
  | error e =>
    have hharm := startCall_stateOk hv unlimited vs hfind hlen
    rw [hstart] at hharm
    rcases bind_eq_error hstart with he | ⟨fr, -, he⟩
    · have hfalse : e.ownership = false := hharm
      rw [enterCall_unlimited (by decide) he] at hfalse
      cases hfalse
    · cases he
  | ok s =>
    refine agree_of_outcomes hstart (fun fuel => ?_)
    have hstate := startCall_ok_stateOk hv hstart
    obtain ⟨fr, hfr, hs⟩ := bind_eq_ok hstart
    obtain ⟨g, blk, hg, -, hblk, rfl⟩ := enterCall_ok hfr
    rw [hfind] at hg
    cases hg
    cases hs
    exact outcome_of_follows (answers_evalFunction h hnd hok fuel d.id vs _ blk Machine.start 1 [] hfind hlen hblk hstate
      (initialLocals_inhabits h hnd hf hvs))

end

/-! ## Functions without nested blocks -/

theorem seals_of_plain : ∀ (e : TypedExpr), e.hasBlock = false → e.seals false = false
  | .mk (.await operand) ty span, h => by
    rw [hasBlock_mk, HirExprKind.walk, Bool.or_eq_false_iff] at h
    rw [TypedExpr.seals]
    exact seals_of_plain operand h.2
  | .mk (.binary _ left right) ty span, h => by
    simp only [hasBlock_mk, HirExprKind.walk, List.any_append, Bool.or_eq_false_iff] at h
    rw [TypedExpr.seals, seals_of_plain left h.2.1]
    exact seals_of_plain right h.2.2
  | .mk (.block statements) ty span, h => by
    rw [hasBlock_mk, Bool.or_eq_false_iff] at h
    cases h.1
  | .mk (.call _ _) _ _, _ => by rw [TypedExpr.seals]
  | .mk (.match_ _ _) _ _, _ => by rw [TypedExpr.seals]
  | .mk (.borrow _ _) _ _, _ => by rw [TypedExpr.seals]
  | .mk (.literal _) _ _, _ => by rw [TypedExpr.seals]
  | .mk (.reference _) _ _, _ => by rw [TypedExpr.seals]
  | .mk (.array _) _ _, _ => by rw [TypedExpr.seals]
  | .mk (.field _ _) _ _, _ => by rw [TypedExpr.seals]
  | .mk (.unary _ _) _ _, _ => by rw [TypedExpr.seals]

mutual
theorem placed_of_plain (site : Site) : ∀ (e : TypedExpr) (tail used ended : Bool), e.hasBlock = false →
    e.placed site tail used ended = true
  | .mk (.await operand) ty span, tail, used, ended, h => by
    rw [hasBlock_mk, HirExprKind.walk, Bool.or_eq_false_iff] at h
    rw [TypedExpr.placed]
    exact placed_of_plain site operand tail used ended h.2
  | .mk (.binary _ left right) ty span, _, _, ended, h => by
    simp only [hasBlock_mk, HirExprKind.walk, List.any_append, Bool.or_eq_false_iff] at h
    have hright : right.hasBlock = false := h.2.2
    rw [TypedExpr.placed, placed_of_plain site left false true ended h.2.1, placed_of_plain site right false true _ hright,
      hright, Bool.and_false]
    rfl
  | .mk (.call _ arguments) ty span, _, _, ended, h => by
    simp only [hasBlock_mk, HirExprKind.walk, List.any_append, Bool.or_eq_false_iff] at h
    rw [TypedExpr.placed]
    exact placedArguments_of_plain site arguments ended h.2.2
  | .mk (.match_ value arms) ty span, tail, _, ended, h => by
    simp only [hasBlock_mk, HirExprKind.walk, List.any_append, Bool.or_eq_false_iff] at h
    rw [TypedExpr.placed, placed_of_plain site value false true ended h.2.1, placedArms_of_plain site arms tail h.2.2]
    rfl
  | .mk (.block statements) ty span, _, _, _, h => by
    rw [hasBlock_mk, Bool.or_eq_false_iff] at h
    cases h.1
  | .mk (.borrow _ _) _ _, _, _, _, _ => by rw [TypedExpr.placed]
  | .mk (.literal _) _ _, _, _, _, _ => by rw [TypedExpr.placed]
  | .mk (.reference _) _ _, _, _, _, _ => by rw [TypedExpr.placed]
  | .mk (.array _) _ _, _, _, _, _ => by rw [TypedExpr.placed]
  | .mk (.field _ _) _ _, _, _, _, _ => by rw [TypedExpr.placed]
  | .mk (.unary _ _) _ _, _, _, _, _ => by rw [TypedExpr.placed]
theorem placedArguments_of_plain (site : Site) : ∀ (es : List TypedExpr) (ended : Bool),
    (walkAll es).any TypedExpr.isBlock = false → placedArguments site es ended = true
  | [], _, _ => by rw [placedArguments]
  | e :: es, ended, h => by
    rw [walkAll, List.any_append, Bool.or_eq_false_iff] at h
    rw [placedArguments, placed_of_plain site e false true ended h.1, placedArguments_of_plain site es _ h.2,
      ← any_walkAll, h.2, Bool.and_false]
    rfl
theorem placedArms_of_plain (site : Site) : ∀ (arms : List HirMatchArm) (tail : Bool),
    (walkArms arms).any TypedExpr.isBlock = false → placedArms site arms tail = true
  | [], _, _ => by rw [placedArms]
  | .mk _ (some guard) body _ :: arms, tail, h => by
    simp only [walkArms, List.any_append, Bool.or_eq_false_iff] at h
    rw [placedArms, placed_of_plain site body tail true false h.1.2, placedArms_of_plain site arms tail h.2]
    rfl
  | .mk _ none body _ :: arms, tail, h => by
    simp only [walkArms, List.any_append, Bool.or_eq_false_iff] at h
    rw [placedArms, placed_of_plain site body tail true false h.1, placedArms_of_plain site arms tail h.2]
    rfl
end

theorem placedBlock_of_plain {site : Site} (hp : site.plain = true) : ∀ (statements : List HirStatement),
    statementsHaveBlock statements = false → placedBlock site statements true = true
  | [], _ => by rw [placedBlock]
  | .let_ _ _ value :: rest, h => by
    simp only [statementsHaveBlock, walkStatements, List.any_append, Bool.or_eq_false_iff] at h
    rw [placedBlock, placed_of_plain site value false true false h.1, seals_of_plain value h.1,
      placedBlock_of_plain hp rest h.2, Bool.not_false, Bool.or_true]
    rfl
  | .return_ (some value) :: rest, h => by
    simp only [statementsHaveBlock, walkStatements, List.any_append, Bool.or_eq_false_iff] at h
    rw [placedBlock, placed_of_plain site value true true false h.1]
    rfl
  | .return_ none :: rest, h => by
    rw [placedBlock, hp, Bool.or_true]
    rfl
  | [.expression e], h => by
    simp only [statementsHaveBlock, walkStatements, List.any_append, Bool.or_eq_false_iff] at h
    rw [placedBlock]
    exact placed_of_plain site e true true false h.1
  | .expression (.mk kind ty span) :: next :: rest, h => by
    simp only [statementsHaveBlock, walkStatements, List.any_append, Bool.or_eq_false_iff] at h
    have hseals := seals_of_plain (.mk kind ty span) h.1
    have hplaced := placed_of_plain site (.mk kind ty span) false false false h.1
    have hrest := placedBlock_of_plain hp (next :: rest) h.2
    cases kind with
    | block statements =>
      have hblock : (TypedExpr.mk (.block statements) ty span).hasBlock = false := h.1
      rw [hasBlock_mk, Bool.or_eq_false_iff] at hblock
      cases hblock.1
    | _ =>
      rw [placedBlock, hplaced, hseals, hrest]
      · rfl
      · rintro _ _ _ ⟨⟩

theorem placed_of_no_block (ix : ProgramIndex) {f : HirFunction} (h : statementsHaveBlock f.body = false) :
    HirFunction.placed ix f = true := by
  have hplain : (HirFunction.site ix f).plain = true := by
    show (!statementsHaveBlock f.body) = true
    rw [h]
    rfl
  rw [HirFunction.placed, placedBlock_of_plain hplain f.body h, hplain, Bool.or_true]
  rfl

section
variable {hir : HirProgram} {p : MirProgram} {d : HirDefinition} {f : HirFunction}

/-- **Lowering preserves meaning**: in a program without block expressions, with exhaustive matches and with identities of
their own for all declarations and bindings, every function does on well-typed arguments what the tree says. -/
theorem lowering_preserves_meaning (h : lowerToMir hir = .ok p) (hnd : (identities hir).Nodup)
    (hblocks : ∀ d f, (d, f) ∈ HirProgram.functions hir → statementsHaveBlock f.body = false)
    (hmatch : ∀ d f, (d, f) ∈ HirProgram.functions hir → ∀ e ∈ walkStatements f.body,
      Exhaustive hir (functionScope (ProgramIndex.new hir) f) e)
    (hf : (d, f) ∈ HirProgram.functions hir) {vs : List Value} (hvs : WellTyped hir f vs) : Agree hir p d.id vs :=
  agree_of_faithful h hnd (fun d f hdf => ⟨hmatch d f hdf, placed_of_no_block _ (hblocks d f hdf)⟩) hf hvs

end

/-- `enum Choice { First, Second }` and `fn pick(c: Choice, n: U64) -> U64 { match c { First => first, _ => other } }`. -/
def pickProgram (first other : TypedExpr) : HirProgram where
  modules := [⟨0, [
    ⟨⟨0, 1⟩, "Choice", .enum [⟨⟨0, 2⟩, []⟩, ⟨⟨0, 3⟩, []⟩], default⟩,
    ⟨⟨0, 4⟩, "pick", .function ⟨[⟨⟨0, 5⟩, .enum "Choice", default⟩, ⟨⟨0, 6⟩, .primitive (.unsigned "U64"), default⟩],
      .primitive (.unsigned "U64"), [
        .expression (.mk (.match_ (.mk (.reference ⟨0, 5⟩) (.enum "Choice") default) [
          .mk (.variant ⟨0, 2⟩ []) none first default, .mk .wildcard none other default])
          (.primitive (.unsigned "U64")) default)], false, none⟩, default⟩]⟩]
  entry := none

theorem pickProgram_exhaustive (first other : TypedExpr)
    (hfirst : ∀ e ∈ first.walk, ∀ p c, Exhaustive p c e) (hother : ∀ e ∈ other.walk, ∀ p c, Exhaustive p c e) :
    ∀ d f, (d, f) ∈ HirProgram.functions (pickProgram first other) → ∀ e ∈ walkStatements f.body,
      Exhaustive (pickProgram first other) (functionScope (ProgramIndex.new (pickProgram first other)) f) e := by
  intro d f hdf e he
  cases List.mem_singleton.1 hdf
  simp only [walkStatements, TypedExpr.walk, HirExprKind.walk, walkArms, List.append_nil, List.cons_append, List.nil_append,
    List.mem_cons, List.mem_append] at he
  rcases he with rfl | rfl | he | he
  · refine ⟨fun arm harm literal => ?_, ⟨0, 1⟩, rfl, fun v _ => ⟨.mk .wildcard none other default, by simp, rfl⟩⟩
    simp only [List.mem_cons, List.not_mem_nil, or_false] at harm
    rcases harm with rfl | rfl <;> rintro ⟨⟩
  · trivial
  · exact hfirst e he _ _
  · exact hother e he _ _

theorem pickProgram_wellTyped (first other : TypedExpr) : ∀ d f, (d, f) ∈ HirProgram.functions (pickProgram first other) →
    WellTyped (pickProgram first other) f [.aggregate 0 [], .u64 41] := by
  intro d f hdf
  cases List.mem_singleton.1 hdf
  refine .cons ?_ (.cons (.u64 41) .nil)
  exact .variant (i := 0) (d := ⟨⟨0, 1⟩, "Choice", .enum [⟨⟨0, 2⟩, []⟩, ⟨⟨0, 3⟩, []⟩], default⟩) List.mem_cons_self rfl rfl
    (.inl rfl) (fun k v rty ty hv => by simp at hv)

def plainProgram : HirProgram := pickProgram
  (.mk (.binary .add (.mk (.reference ⟨0, 6⟩) (.primitive (.unsigned "U64")) default)
    (.mk (.literal (.integer 1)) .integerLiteral default)) (.primitive (.unsigned "U64")) default)
  (.mk (.literal (.integer 7)) .integerLiteral default)

theorem plainProgram_returns : ∃ p, lowerToMir plainProgram = .ok p ∧
    ∃ n, callFunction n p unlimited ⟨0, 4⟩ [.aggregate 0 [], .u64 41] = some (.ok (.u64 42)) := by
  refine ⟨_, rfl, ?_⟩
  have hagree := lowering_preserves_meaning (show lowerToMir plainProgram = _ from rfl) (by decide)
    (fun d f hdf => by cases List.mem_singleton.1 hdf; rfl) (pickProgram_exhaustive _ _
      (by simp [TypedExpr.walk, HirExprKind.walk, Exhaustive, TypedExpr.kind])
      (by simp [TypedExpr.walk, HirExprKind.walk, Exhaustive, TypedExpr.kind]))
    (List.mem_singleton.2 rfl) (pickProgram_wellTyped _ _ _ _ (List.mem_singleton.2 rfl))
  exact (hagree.returns (.u64 42)).2 ⟨1, rfl⟩

/-! ## Nested blocks -/

/-- The arms are `{ let m: U64 = n + 1; return m; }` and `{ 7 }`. -/
def blocksProgram : HirProgram := pickProgram
  (.mk (.block [
    .let_ ⟨0, 7⟩ (.primitive (.unsigned "U64")) (.mk (.binary .add
      (.mk (.reference ⟨0, 6⟩) (.primitive (.unsigned "U64")) default)
      (.mk (.literal (.integer 1)) .integerLiteral default)) (.primitive (.unsigned "U64")) default),
    .return_ (some (.mk (.reference ⟨0, 7⟩) (.primitive (.unsigned "U64")) default))])
    (.primitive (.unsigned "U64")) default)
  (.mk (.block [.expression (.mk (.literal (.integer 7)) .integerLiteral default)])
    (.primitive (.unsigned "U64")) default)

/-- `fn main() -> U64 { let x: U64 = { 5 }; 7 }`. -/
def nestedProgram : HirProgram where
  modules := [⟨0, [
    ⟨⟨0, 1⟩, "main", .function ⟨[], .primitive (.unsigned "U64"), [
      .let_ ⟨0, 2⟩ (.primitive (.unsigned "U64")) (.mk (.block [
        .expression (.mk (.literal (.integer 5)) .integerLiteral default)]) (.primitive (.unsigned "U64")) default),
      .expression (.mk (.literal (.integer 7)) .integerLiteral default)], false, none⟩, default⟩]⟩]
  entry := some ⟨0, 1⟩

end Lower
end Syllog
