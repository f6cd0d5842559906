import Syllog.LowerCode
/-!
# LowerSteps — the machine along the pieces of lowered code

What the machine does where the builder appended a statement, ended a block or moved on to the next: a fresh local is
written, a value goes to the return slot or to a variable, a switch takes its edge, a call comes back.  `Standing` is the
machine, the builder and the evaluator in front of the same piece; `Stops` says what the machine does where the evaluator
has no value.
-/
namespace Syllog
namespace Lower

open Mir Hir Runs
open Interp hiding Trap

/-! ## Evaluations without a value -/

/-- `R` where the evaluator leaves the function; the same arithmetic failure; another failure; more steps than fuel. -/
def Stops (p : MirProgram) (fuel : Nat) (R : Value → State → Prop) : Stop → State → Prop
  | .returned v, s => R v s
  | .trapped t, s  => t.arithmetic = true ∧
    ∃ s', Reaches (step p unlimited) s s' ∧ step p unlimited s' = .error (.error (.trap t))
  | .stuck, s      => ∃ s' e, Reaches (step p unlimited) s s' ∧ step p unlimited s' = .error e ∧
    ∀ t, e = .error (.trap t) → t.arithmetic = false
  | .outOfFuel, s  => run (step p unlimited) fuel s = none

section
variable {p : MirProgram} {fuel : Nat} {R R' : Value → State → Prop} {s s' : State} {e : Stop}

theorem Stops.mono (h : Stops p fuel R e s) (hR : ∀ v, R v s → R' v s) : Stops p fuel R' e s := by
  cases e with
  | returned v => exact hR v h
  | _ => exact h

theorem stops_forward (hR : ∀ v s s', Reaches (step p unlimited) s s' → R v s' → R v s) :
    Forward (step p unlimited) (Stops p fuel R) := by
  intro e s s' hr h
  cases e with
  | returned v => exact hR v s s' hr h
  | trapped t =>
    obtain ⟨ht, s1, hr1, he⟩ := h
    exact ⟨ht, s1, hr.trans hr1, he⟩
  | stuck =>
    obtain ⟨s1, e, hr1, he⟩ := h
    exact ⟨s1, e, hr.trans hr1, he⟩
  | outOfFuel =>
    show run _ fuel s = none
    cases hrun : run (step p unlimited) fuel s with
    | none => rfl
    | some o =>
      obtain ⟨m, hm, hrun'⟩ := run_after hr hrun
      have hnone : run (step p unlimited) fuel s' = none := h
      rw [run_mono hm hrun'] at hnone
      cases hnone

/-- A step earlier there is one more unit of fuel. -/
theorem stops_step (hs : step p unlimited s = .ok (.inl s')) (hR : ∀ v, ¬ R v s') (h : Stops p fuel R e s') :
    Stops p (fuel + 1) R' e s := by
  cases e with
  | returned v => exact absurd h (hR v)
  | trapped t =>
    obtain ⟨ht, s1, hr1, he⟩ := h
    exact ⟨ht, s1, Reaches.head hs hr1, he⟩
  | stuck =>
    obtain ⟨s1, e, hr1, he⟩ := h
    exact ⟨s1, e, Reaches.head hs hr1, he⟩
  | outOfFuel =>
    show run _ (fuel + 1) s = none
    unfold run
    rw [hs]
    exact h

end

/-! ## Values of operands and rvalues -/

/-- The computation gives `v` from the slots it reads, where none of them is empty. -/
def Computes (value : Rvalue) (v : Value) (L : Locals) : Prop :=
  ∀ m, Yields (rvalue unlimited value m L) (fun e => e.ownership = true) (fun r => r.1 = v ∧ Thins L r.2.2)

section
variable {L : Locals} {o : Operand} {v : Value}

theorem operand_computes (h : Holds o v L) (m : Machine) :
    Yields (operand unlimited o m L) (fun e => e.ownership = true) (fun r => r.1 = v ∧ Thins L r.2.2) := by
  cases hr : operand unlimited o m L with
  | error e => exact operand_unlimited hr
  | ok r => exact ⟨operand_value hr h, operand_thins hr⟩

theorem computes_use (h : Holds o v L) : Computes (.use o) v L := fun m => operand_computes h m

theorem computes_borrow {l : Nat} (h : ∀ w, L[l]? = some (some w) → w = v) (mutable : Bool) :
    Computes (.borrow mutable (.loc l)) (.reference v) L := by
  intro m
  cases hr : readPlace (.loc l) L with
  | error e =>
    simp only [rvalue, hr]
    simp only [readPlace, localValue] at hr
    split at hr
    · cases hr
    · cases hr
      rfl
  | ok w =>
    simp only [rvalue, hr]
    simp only [readPlace, localValue] at hr
    split at hr
    · rename_i w' hw
      cases hr
      exact ⟨by rw [h _ hw], Thins.refl _⟩
    · cases hr

theorem computes_variant (id : DefId) (d : UInt64) (L : Locals) : Computes (.aggregate id d []) (.aggregate d []) L := by
  intro m
  cases hc : chargeAllocation unlimited m (min ((([] : List Value).length) * 16) (2 ^ 64 - 1)) with
  | error e => exact absurd hc (chargeAllocation_unlimited _ _ _)
  | ok m' =>
    simp only [rvalue, operands]
    show Yields (chargeAllocation unlimited m _ >>= _) _ _
    rw [hc]
    exact ⟨rfl, Thins.refl _⟩

/-- A binary operation fails as the operator does. -/
theorem binary_computes {left right : Operand} {a b : Value} (ha : Holds left a L) (hb : Holds right b L)
    (operator : BinaryOp) (m : Machine) : Yields (rvalue unlimited (.binary operator left right) m L)
      (fun e => e.ownership = true ∨ binary operator a b = .error e)
      (fun r => binary operator a b = .ok r.1 ∧ Thins L r.2.2) := by
  refine ((operand_computes ha m).mono (fun _ => .inl) (fun _ h => h)).bind ?_
  rintro ⟨a', m1, L1⟩ ⟨rfl, h1⟩
  refine ((operand_computes (hb.thins h1) m1).mono (fun _ => .inl) (fun _ h => h)).bind ?_
  rintro ⟨b', m2, L2⟩ ⟨rfl, h2⟩
  show Yields (binary operator a' b' >>= _) _ _
  cases hbin : binary operator a' b' with
  | error e => exact .inr rfl
  | ok w => exact ⟨rfl, h1.trans h2⟩

/-- The tag of a value of an enum. -/
theorem discriminant_computes {admits : DefId → UInt64 → List Value → Prop} {F : MirFunction} {id : DefId}
    (h : Holds o v L) (ht : TypedLocals (.within admits) F L) (hd : declaredType F o = some (.aggregate id)) (m : Machine) :
    Yields (rvalue unlimited (.discriminant o) m L) (fun e => e.ownership = true)
      (fun r => (∃ d fields, v = .aggregate d fields ∧ admits id d fields ∧ r.1 = .u64 d) ∧ Thins L r.2.2) := by
  cases hr : operand unlimited o m L with
  | error e =>
    simp only [rvalue, hr]
    exact operand_unlimited hr
  | ok r =>
    obtain ⟨w, m', L'⟩ := r
    have hw := operand_value hr h
    subst hw
    have hty := (operand_typed ht hr).2 _ hd
    obtain ⟨d, fields, rfl⟩ := hty.aggregate_inv
    simp only [rvalue, hr]
    exact ⟨⟨d, fields, rfl, hty.2 admits rfl, rfl⟩, operand_thins hr⟩

theorem holds_set (L : Locals) (l : Nat) (v : Value) : Holds (.copy l) v (L.set l (some v)) := by
  intro w hw
  rw [List.getElem?_set] at hw
  simp only [if_true] at hw
  split at hw
  · cases hw
    rfl
  · cases hw

end

/-! ## Positions -/

section
variable {p : MirProgram} {F : MirFunction} {cs : List Caller} {admits : DefId → UInt64 → List Value → Prop}
  {b b' : FunctionBuilder} {s : State}

theorem At.terminate (h : At p F cs admits b s) (t : Terminator) : At p F cs admits (b.terminate t) s := by
  obtain ⟨blk, last, hblk, hlast, hcode⟩ := h.code
  refine ⟨h.toInside, h.block, { blk with terminator := some t }, last, ?_, hlast, hcode⟩
  show (b.blocks.modify b.current _)[b.current]? = _
  rw [List.getElem?_modify_eq, hblk]
  rfl

theorem built_of_terminate (hlive : Open b) {t : Terminator} (h : Built (b.terminate t) F) : Built b F :=
  h.of_keeps (keeps_modify hlive (fun _ => List.prefix_rfl))

/-- An assignment that computes a value. -/
theorem At.computes (hv : verify p = .ok ()) (h : At p F cs admits b s) {l : Nat} {value : Rvalue}
    (hb : Built (b.assign (.loc l) value) F) (htame : Tame (.within admits) F (.assign (.loc l) value))
    {P : Value → Prop} (hread : ∀ m, Yields (rvalue unlimited value m s.frame.locals) (fun e => e.ownership = true)
      (fun r => P r.1 ∧ Thins s.frame.locals r.2.2)) :
    ∃ s' L' v, P v ∧ Reaches (step p unlimited) s s' ∧ At p F cs admits (b.assign (.loc l) value) s' ∧
      Thins s.frame.locals L' ∧ s'.frame.locals = L'.set l (some v) := by
  obtain ⟨m, m', v, L', s', hr, hreach, hat, hL⟩ := h.assign hv hb htame (fun m e he => by
    have := hread m
    rw [he] at this
    exact this)
  have hyield := hread m
  rw [hr] at hyield
  exact ⟨s', L', v, hyield.1, hreach, hat, hyield.2, hL⟩

/-- An assignment whose computation fails. -/
theorem At.fails (hv : verify p = .ok ()) (h : At p F cs admits b s) {l : Nat} {value : Rvalue}
    (hb : Built (b.assign (.loc l) value) F) {fault : Fault}
    (hread : ∀ m, Yields (rvalue unlimited value m s.frame.locals) (fun e => e.ownership = true ∨ e = fault)
      (fun _ => False)) : step p unlimited s = .error fault := by
  obtain ⟨rest, hrest, -⟩ := h.next hb
  cases hs : step p unlimited s with
  | ok x =>
    obtain ⟨m, m', locals', hst, -⟩ := Interp.step_statement hrest hs
    obtain ⟨r, hr, -⟩ := bind_eq_ok hst
    have := hread m
    rw [hr] at this
    exact this.elim
  | error e =>
    obtain ⟨m, hm⟩ := step_statement_error hrest hs
    have hread := hread m
    rcases bind_eq_error hm with hm | ⟨r, hr, -⟩
    · rw [hm] at hread
      rcases hread with hown | rfl
      · have hharm := step_stateOk hv unlimited h.ok
        rw [hs] at hharm
        rw [show e.ownership = false from hharm] at hown
        cases hown
      · rfl
    · rw [hr] at hread
      exact hread.elim

/-- A value that becomes the function's result. -/
theorem At.setResult (hv : verify p = .ok ()) (h : At p F cs admits b s) (hlive : Open b) {o : Operand} {v : Value}
    (ho : Holds o v s.frame.locals) (hb : Built (setResult o b) F) :
    ∃ s' L', Reaches (step p unlimited) s s' ∧ At p F cs admits (Lower.setResult o b) s' ∧ Thins s.frame.locals L' ∧
      s'.frame.locals = L'.set 0 (some v) := by
  have hlive' : Open (b.assign (.loc 0) (.use o)) := (keeps_assign hlive _ _).live
  have hassign := built_of_terminate hlive' hb
  have htame : Tame (.within admits) F (.assign (.loc 0) (.use o)) := ⟨trivial, fun _ _ _ _ hu => by cases hu⟩
  obtain ⟨s', L', w, hw, hr, hat, hthin, hL⟩ := h.computes hv hassign htame (P := fun w => w = v)
    (fun m => computes_use ho m)
  subst hw
  exact ⟨s', L', hr, hat.terminate .ret, hthin, hL⟩

end

/-! ## Standing in front of a piece -/

section
variable (p : MirProgram) (F : MirFunction) (cs : List Caller) (admits : DefId → UInt64 → List Value → Prop) (c : Scope)

/-- **The machine, the builder and the evaluator in front of the same piece of code.** -/
structure Standing (b : FunctionBuilder) (ended : Bool) (env : Env) (s : State) : Prop extends At p F cs admits b s where
  live : Open b
  bound : Bound c b
  final : b.terminator = endOf ended
  agrees : Agrees b env s.frame.locals

/-- Behind an expression: its value is still to be read from its operand, and below `n` the slots have only faded. -/
structure Lands (n : Nat) (L : Locals) (zero used ended : Bool) (o : Operand) (b : FunctionBuilder) (r : Value × Env)
    (s : State) : Prop where
  standing : Standing p F cs admits c b ended r.2 s
  holds : used = true → Holds o r.1 s.frame.locals
  fades : Fades n zero L s.frame.locals

/-- A `return` in a place whose value is the function's result: the value is there all the same. -/
def Escapes (tail : Bool) (o : Operand) (b : FunctionBuilder) (v : Value) (s : State) : Prop :=
  tail = true ∧ ∃ s', Reaches (step p unlimited) s s' ∧ At p F cs admits b s' ∧ Holds o v s'.frame.locals

end

section
variable {p : MirProgram} {F : MirFunction} {cs : List Caller} {admits : DefId → UInt64 → List Value → Prop} {c : Scope}
  {b : FunctionBuilder} {ended : Bool} {env : Env} {s : State} {fuel : Nat}

theorem escapes_forward (tail : Bool) (o : Operand) (b : FunctionBuilder) (v : Value) (s s' : State)
    (hr : Reaches (step p unlimited) s s') (h : Escapes p F cs admits tail o b v s') : Escapes p F cs admits tail o b v s := by
  obtain ⟨ht, s1, hr1, h1⟩ := h
  exact ⟨ht, s1, hr.trans hr1, h1⟩

/-- A value in a fresh local. -/
theorem Standing.store (hv : verify p = .ok ()) (h : Standing p F cs admits c b ended env s) (ty : MirType) {value : Rvalue}
    (hb : Built ((b.newLocal ty).2.assign (.loc b.locals.length) value) F)
    (htame : Tame (.within admits) F (.assign (.loc b.locals.length) value)) {P : Value → Prop}
    (hread : ∀ m, Yields (rvalue unlimited value m s.frame.locals) (fun e => e.ownership = true)
      (fun r => P r.1 ∧ Thins s.frame.locals r.2.2)) :
    ∃ s' v, P v ∧ Reaches (step p unlimited) s s' ∧
      Standing p F cs admits c ((b.newLocal ty).2.assign (.loc b.locals.length) value) ended env s' ∧
      Holds (.copy b.locals.length) v s'.frame.locals ∧ Fades b.locals.length false s.frame.locals s'.frame.locals := by
  have hat : At p F cs admits (b.newLocal ty).2 s := h.toAt.congr rfl rfl
  obtain ⟨s', L', v, hP, hr, hat', hthin, hL⟩ := hat.computes hv hb htame hread
  have hlt : b.locals.length < ((b.newLocal ty).2.assign (.loc b.locals.length) value).locals.length := by
    show b.locals.length < (b.locals ++ [ty]).length
    simp
  refine ⟨s', v, hP, hr, ⟨hat', (grows_storeFresh h.live ty value).live, h.bound.extend (List.prefix_append _ _) rfl, ?_, ?_⟩,
    ?_, ?_⟩
  · rw [terminator_assign, terminator_newLocal]
    exact h.final
  · rw [hL]
    exact (h.agrees.thins hthin).set ((b.newLocal ty).2.assign (.loc b.locals.length) value) rfl (Nat.le_of_lt hlt) hlt
      (h.bound.free (.inl (Nat.le_refl _))) v
  · rw [hL]
    exact holds_set L' _ v
  · rw [hL]
    exact hthin.fades.set (.inl (Nat.le_refl _)) v

theorem Agrees.bind {b' : FunctionBuilder} {L : Locals} (h : Agrees b env L) {d : DefId} {k : Nat}
    (hb : b'.bindings = (d, k) :: b.bindings) (hl : b.locals.length ≤ b'.locals.length) (hk : k < b'.locals.length)
    (hfree : ∀ d, lookupKey d b.bindings ≠ some k) (v : Value) : Agrees b' (env.set d v) (L.set k (some v)) := by
  have hset := h.set { b' with bindings := b.bindings } rfl hl hk hfree v
  refine ⟨fun d' l w hd hw => ?_, hset.fresh⟩
  rw [hb, lookupKey_cons] at hd
  unfold Env.set
  by_cases heq : d = d'
  · rw [if_pos heq] at hd
    cases hd
    rw [if_pos heq.symm]
    exact (holds_set L k v w hw).symm
  · rw [if_neg heq] at hd
    rw [if_neg (Ne.symm heq)]
    exact hset.bindings d' l w hd hw

/-- A value that becomes a variable. -/
theorem Standing.bindLocal (hv : verify p = .ok ()) (h : Standing p F cs admits c b ended env s) {d : DefId} {ty : MirType}
    {o : Operand} {v : Value} (hd : lookupKey d c.types = some ty) (ho : Holds o v s.frame.locals)
    (hb : Built (bindLocal d ty o b) F) :
    ∃ s', Reaches (step p unlimited) s s' ∧ Standing p F cs admits c (Lower.bindLocal d ty o b) ended (env.set d v) s' ∧
      Fades b.locals.length false s.frame.locals s'.frame.locals := by
  have hat : At p F cs admits (b.newLocal ty).2 s := h.toAt.congr rfl rfl
  have hassign : Built ((b.newLocal ty).2.assign (.loc b.locals.length) (.use o)) F := ⟨hb.locals, hb.blocks, hb.current⟩
  have htame : Tame (.within admits) F (.assign (.loc b.locals.length) (.use o)) :=
    ⟨trivial, fun _ _ _ _ hu => by cases hu⟩
  obtain ⟨s', L', w, hw, hr, hat', hthin, hL⟩ := hat.computes hv hassign htame (P := fun w => w = v)
    (fun m => computes_use ho m)
  subst hw
  have hlt : b.locals.length < (Lower.bindLocal d ty o b).locals.length := by
    show b.locals.length < (b.locals ++ [ty]).length
    simp
  refine ⟨s', hr, ⟨hat'.congr rfl rfl, (grows_bindLocal h.live d ty o).live, bound_bindLocal h.bound hd o, ?_, ?_⟩, ?_⟩
  · unfold Lower.bindLocal
    rw [terminator_bind, terminator_assign, terminator_newLocal]
    exact h.final
  · rw [hL]
    refine (h.agrees.thins hthin).bind ?_ (Nat.le_of_lt hlt) hlt (h.bound.free (.inl (Nat.le_refl _))) w
    rfl
  · rw [hL]
    exact hthin.fades.set (.inl (Nat.le_refl _)) w

/-- What is left of a binary expression. -/
theorem Standing.binary (hv : verify p = .ok ()) (h : Standing p F cs admits c b ended env s) {R : Value → State → Prop}
    {operator : BinaryOperator} {op : BinaryOp} (hop : lowerBinary operator = some op) {left right : Operand}
    {x y : Value} (hx : Holds left x s.frame.locals) (hy : Holds right y s.frame.locals) (ty : MirType) (used : Bool)
    (hb : Built ((b.newLocal ty).2.assign (.loc b.locals.length) (.binary op left right)) F) :
    Follows (step p unlimited) (Stops p fuel R) s (evalBinary operator x y >>= fun v => .ok (v, env))
      (Lands p F cs admits c b.locals.length s.frame.locals false used ended (.move b.locals.length)
        ((b.newLocal ty).2.assign (.loc b.locals.length) (.binary op left right))) := by
  have hat : At p F cs admits (b.newLocal ty).2 s := h.toAt.congr rfl rfl
  have htame : Tame (.within admits) F (.assign (.loc b.locals.length) (.binary op left right)) :=
    ⟨trivial, fun _ _ _ _ hu => by cases hu⟩
  cases hbin : Interp.binary op x y with
  | ok v =>
    have heval : evalBinary operator x y = .ok v := by simp only [evalBinary, hop, hbin]
    rw [heval]
    obtain ⟨s', w, hw, hr, hst, hholds, hfades⟩ := h.store hv ty hb htame (P := fun w => w = v) (fun m => by
      refine (binary_computes hx hy op m).mono (fun e he => ?_) (fun r hr => ?_)
      · rcases he with he | he
        · exact he
        · rw [hbin] at he
          cases he
      · rw [hbin] at hr
        cases hr.1
        exact ⟨rfl, hr.2⟩)
    subst hw
    exact ⟨s', hr, hst, fun _ => hholds, hfades⟩
  | error fault =>
    have hstep : step p unlimited s = .error fault := hat.fails hv hb (fun m => by
      refine (binary_computes hx hy op m).mono (fun e he => ?_) (fun r hr => ?_)
      · rcases he with he | he
        · exact .inl he
        · rw [hbin] at he
          cases he
          exact .inr rfl
      · rw [hbin] at hr
        cases hr.1)
    obtain ⟨t, rfl⟩ : ∃ t, fault = .error (.trap t) := by
      obtain ⟨t, rfl, -⟩ := binary_error hbin
      exact ⟨t, rfl⟩
    by_cases ht : t.arithmetic = true
    · have heval : evalBinary operator x y = .error (.trapped t) := by
        simp only [evalBinary, hop, hbin, ht, if_true]
      rw [heval]
      exact ⟨ht, s, .refl _ _, hstep⟩
    · have heval : evalBinary operator x y = .error .stuck := by
        simp only [evalBinary, hop, hbin, ht]
        rfl
      rw [heval]
      refine ⟨s, _, .refl _ _, hstep, fun t' ht' => ?_⟩
      cases ht'
      simpa using ht

end

/-! ## Switches and calls -/

/-- **What a call does**: the callee's frame runs to a return with the value in its slot. -/
def Answers (p : MirProgram) (admits : DefId → UInt64 → List Value → Prop) (fuel : Nat)
    (call : DefId → List Value → Except Stop Value) : Prop :=
  ∀ (id : DefId) (vs : List Value) (g : MirFunction) (blk : BasicBlock) (m : Machine) (depth : Nat) (cs : List Caller),
    p.lookup id = some g → vs.length = g.parameterCount → g.blocks[0]? = some blk →
    StateOk p ⟨m, ⟨g, initialLocals g.locals.length vs, 0, blk.statements, depth⟩, cs⟩ →
    TypedLocals (.within admits) g (initialLocals g.locals.length vs) →
    Follows (step p unlimited) (Stops p fuel (fun _ _ => False))
      ⟨m, ⟨g, initialLocals g.locals.length vs, 0, blk.statements, depth⟩, cs⟩ (call id vs)
      (fun v s' => (∃ i, Ready p g cs admits i .ret s') ∧ s'.frame.locals[0]? = some (some v))

section
variable {p : MirProgram} {F : MirFunction} {cs : List Caller} {admits : DefId → UInt64 → List Value → Prop}
  {b : FunctionBuilder} {s : State}

/-- The slot a switch reads is full. -/
theorem Ready.switch_slot {i l otherwise : Nat} {targets : List (Nat × Nat)}
    (h : Ready p F cs admits i (.switchInt (.copy l) targets otherwise) s) : ∃ v, s.frame.locals[l]? = some (some v) := by
  obtain ⟨⟨-, owned, t, hterm, hcode, hkept⟩, -⟩ := h.ok
  rw [h.last] at hterm
  cases hterm
  rw [h.rest] at hcode
  exact hkept.2 l hcode.final.1.1

theorem Ready.switch (hv : verify p = .ok ()) {i l otherwise : Nat} {targets : List (Nat × Nat)} {k : UInt64}
    (h : Ready p F cs admits i (.switchInt (.copy l) targets otherwise) s)
    (hl : Holds (.copy l) (.u64 k) s.frame.locals) (hc : b.current = switchTarget k.toNat targets otherwise)
    {t : Option Terminator} (hb : b.blocks[b.current]? = some ⟨[], t⟩) :
    ∃ s', Reaches (step p unlimited) s s' ∧ At p F cs admits b s' ∧ s'.frame.locals = s.frame.locals := by
  obtain ⟨v, hslot⟩ := h.switch_slot
  rw [hl v hslot] at hslot
  obtain ⟨m', last, hlast, hstep⟩ := switch_proceeds hv h.ok h.rest h.last hslot
  rw [h.function, ← hc] at hlast
  rw [← hc] at hstep
  have hin : Inside p F cs admits ⟨m', { s.frame with block := b.current, rest := last.statements }, s.callers⟩ :=
    ⟨step_stateOk_next hv h.ok hstep, h.function, h.callers, h.typed⟩
  exact ⟨_, Reaches.single hstep, hin.enter rfl hb hlast rfl, rfl⟩

/-- **A call comes back** with the value the evaluator's call has, or stops as it does. -/
theorem Ready.call (hv : verify p = .ok ()) {fuel : Nat} {call : DefId → List Value → Except Stop Value}
    (hcall : Answers p admits fuel call) {R : Value → State → Prop} {i l : Nat} {callee : DefId} {args : List Operand}
    {vs : List Value} (h : Ready p F cs admits i (.call callee args (.loc l) b.current) s)
    (hargs : List.Forall₂ (fun o v => Holds o v s.frame.locals) args vs) {t : Option Terminator}
    (hb : b.blocks[b.current]? = some ⟨[], t⟩) :
    Follows (step p unlimited) (Stops p (fuel + 1) R) s (call callee vs)
      (fun v s' => ∃ L', Thins s.frame.locals L' ∧ At p F cs admits b s' ∧ s'.frame.locals = L'.set l (some v)) := by
  obtain ⟨m, m', ws, L', g, blk, hread, hg, hlen, hblk, hstep⟩ := call_proceeds hv h.ok h.rest h.last
  obtain ⟨rfl, hthin⟩ := operands_values hread hargs
  obtain ⟨⟨-, owned, t', hterm, hcode, -⟩, -⟩ := h.ok
  rw [h.last] at hterm
  cases hterm
  rw [h.rest, h.function] at hcode
  obtain ⟨hoks, -, g', hg', -, htys, hdest⟩ := hcode.final
  rw [hg] at hg'
  cases hg'
  obtain ⟨htyped', hvs⟩ := operands_typed h.typed hread
  have htyped := initialLocals_typed htys (operandsOk_declaredType hoks) hvs
  have hok' := step_stateOk_next hv h.ok hstep
  have hbody := hcall callee ws g blk m' _ _ hg hlen hblk hok' htyped
  cases hr : call callee ws with
  | error e =>
    rw [hr] at hbody
    exact stops_step hstep (fun _ => not_false) hbody
  | ok v =>
    rw [hr] at hbody
    obtain ⟨s2, hr2, ⟨j, hready⟩, hslot⟩ := hbody
    obtain ⟨m3, last, hlast, hstep3⟩ := ret_proceeds hv hready.ok hready.rest hready.last hslot hready.callers rfl
    have hlast' : F.blocks[b.current]? = some last := by
      rw [← h.function]
      exact hlast
    refine ⟨_, (Reaches.head hstep hr2).trans (Reaches.single hstep3), L', hthin, ?_, rfl⟩
    refine Inside.enter ⟨step_stateOk_next hv hready.ok hstep3, h.function, h.callers, ?_⟩ rfl hb hlast' rfl
    refine htyped'.set_some (fun ty hty => ?_)
    rw [hdest l rfl] at hty
    cases hty
    have hresult := hready.ok.frame.function.result
    rw [hready.function] at hresult
    exact hready.typed 0 v _ hslot hresult

end

end Lower
end Syllog
