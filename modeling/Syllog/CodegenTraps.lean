import Syllog.CodegenRun
import Syllog.InterpLimits
/-!
# CodegenTraps — where the two back ends part

The compiled code wraps where the interpreter checks: addition, subtraction and multiplication never trap, a switch looks
at bits, a discriminant read is a copy, and two aggregates are equal when their tags are.  `Agreeing` excludes exactly
these of the step a state is about to take.  In a run that keeps to it an interpreter failure is a failed division, which
traps in the compiled code too (`step_failed`), so a return of the compiled program is one of the interpreter
(`runMain_followed`).
-/
namespace Syllog
namespace Codegen

open Mir Interp Runs
open Wasm hiding Trap Frame step

/-- The exact result is in the range of its type. -/
def NoOverflow : BinaryOp → Value → Value → Prop
  | .add, .u64 a, .u64 b      => a.toNat + b.toNat < 2 ^ 64
  | .subtract, .u64 a, .u64 b => b.toNat ≤ a.toNat
  | .multiply, .u64 a, .u64 b => a.toNat * b.toNat < 2 ^ 64
  | .add, .i64 a, .i64 b      => -2 ^ 63 ≤ a.toInt + b.toInt ∧ a.toInt + b.toInt < 2 ^ 63
  | .subtract, .i64 a, .i64 b => -2 ^ 63 ≤ a.toInt - b.toInt ∧ a.toInt - b.toInt < 2 ^ 63
  | .multiply, .i64 a, .i64 b => -2 ^ 63 ≤ a.toInt * b.toInt ∧ a.toInt * b.toInt < 2 ^ 63
  | _, _, _                   => True

/-- Discriminants of declared aggregates; arithmetic and order on declared integers, without overflow; equality of values
that their words tell apart. -/
def RvalueAgrees (limits : InterpreterLimits) (f : MirFunction) (locals : Locals) : Rvalue → Prop
  | .discriminant o             => ∃ id, declaredType f o = some (.aggregate id)
  | .binary operator left right =>
    (operator ∈ [BinaryOp.add, .subtract, .multiply, .divide, .less] →
      declaredType f left = some .i64 ∨ declaredType f left = some .u64) ∧
    ∀ m a m1 locals1 b m2 locals2, operand limits left m locals = .ok (a, m1, locals1) →
      operand limits right m1 locals1 = .ok (b, m2, locals2) →
      NoOverflow operator a b ∧ (operator = .equal → encode a = encode b → a = b)
  | _                           => True

/-- **The next step is one the two back ends agree on.** -/
structure Agreeing (limits : InterpreterLimits) (s : State) : Prop where
  statement : ∀ destination value, s.frame.rest.head? = some (.assign destination value) →
    RvalueAgrees limits s.frame.function s.frame.locals value
  switch : ∀ value targets otherwise, s.frame.rest = [] →
    s.frame.terminator = some (.switchInt value targets otherwise) →
    ∀ m x m' locals', operand limits value m s.frame.locals = .ok (.i64 x, m', locals') → 0 ≤ x.toInt

theorem Agreeing.faithful {limits : InterpreterLimits} {s : State} (h : Agreeing limits s) : FaithfulState limits s := by
  intro destination value hst
  have hv := h.statement destination value hst
  cases value with
  | binary operator left right =>
    cases operator with
    | equal => exact fun m a m1 l1 b m2 l2 ha hb => (hv.2 m a m1 l1 b m2 l2 ha hb).2 rfl
    | _ => trivial
  | _ => trivial

theorem Agreeing.of_statement {limits : InterpreterLimits} {s : State} {destination : Place} {value : Rvalue}
    {rest : List Statement} (hrest : s.frame.rest = .assign destination value :: rest)
    (hv : RvalueAgrees limits s.frame.function s.frame.locals value) : Agreeing limits s := by
  refine ⟨fun destination' value' h => ?_, fun _ _ _ h => ?_⟩
  · rw [hrest] at h; cases h; exact hv
  · rw [hrest] at h; cases h

/-! ## Failures -/

theorem checkedU64_of_range {t : Interp.Trap} {n : Int} (h : 0 ≤ n ∧ n < 2 ^ 64) (e : Fault) :
    checkedU64 t n ≠ .error e := by
  unfold checkedU64
  rw [if_pos h]
  exact fun h => by cases h

theorem checkedI64_of_range {t : Interp.Trap} {n : Int} (h : -2 ^ 63 ≤ n ∧ n < 2 ^ 63) (e : Fault) :
    checkedI64 t n ≠ .error e := by
  unfold checkedI64
  rw [if_pos h]
  exact fun h => by cases h

/-- **Without overflow only a division fails**, on operands of the types the operator takes. -/
theorem binary_error_divide {operator : BinaryOp} {a b : Value} {ty : MirType} {e : Fault} (ha : HasType .shallow a ty)
    (hb : HasType .shallow b ty) (hint : operator ∈ [BinaryOp.add, .subtract, .multiply, .divide, .less] →
      ty = .i64 ∨ ty = .u64) (hbool : operator = .and ∨ operator = .or → ty = .bool) (hno : NoOverflow operator a b)
    (h : binary operator a b = .error e) : operator = .divide := by
  by_cases hop : operator ∈ [BinaryOp.add, .subtract, .multiply, .divide, .less]
  · rcases hint hop with rfl | rfl
    · obtain ⟨x, rfl⟩ := ha.i64_inv
      obtain ⟨y, rfl⟩ := hb.i64_inv
      cases operator with
      | divide => rfl
      | add => exact absurd h (checkedI64_of_range hno e)
      | subtract => exact absurd h (checkedI64_of_range hno e)
      | multiply => exact absurd h (checkedI64_of_range hno e)
      | less => cases h
      | _ => simp at hop
    · obtain ⟨x, rfl⟩ := ha.u64_inv
      obtain ⟨y, rfl⟩ := hb.u64_inv
      cases operator with
      | divide => rfl
      | add =>
        have hlt : x.toNat + y.toNat < 2 ^ 64 := hno
        exact absurd h (checkedU64_of_range (by omega) e)
      | subtract =>
        have hle : y.toNat ≤ x.toNat := hno
        have hlt : x.toNat < 2 ^ 64 := x.toBitVec.isLt
        exact absurd h (checkedU64_of_range (by omega) e)
      | multiply =>
        have hlt : x.toNat * y.toNat < 2 ^ 64 := hno
        have hlt' : (x.toNat : Int) * y.toNat < 2 ^ 64 := by exact_mod_cast hlt
        exact absurd h (checkedU64_of_range ⟨Int.mul_nonneg (Int.natCast_nonneg _) (Int.natCast_nonneg _), hlt'⟩ e)
      | less => cases h
      | _ => simp at hop
  · cases operator with
    | equal => cases h
    | and =>
      obtain ⟨x, rfl⟩ := (hbool (.inl rfl) ▸ ha).bool_inv
      obtain ⟨y, rfl⟩ := (hbool (.inl rfl) ▸ hb).bool_inv
      cases h
    | or =>
      obtain ⟨x, rfl⟩ := (hbool (.inr rfl) ▸ ha).bool_inv
      obtain ⟨y, rfl⟩ := (hbool (.inr rfl) ▸ hb).bool_inv
      cases h
    | _ => simp at hop

section
variable {p : MirProgram} {M : Module} {s : State} {c : Config} {e : Fault}

/-- An rvalue the interpreter fails on, for no missing value, has code that traps. -/
theorem rvalue_fails {f : MirFunction} {m : Machine} {locals : Locals} {words : Nat → Word} {value : Rvalue}
    {owned : Finset Nat} {code : List Instruction} (hok : RvalueOk f owned value) (ht : TypedLocals .deep f locals)
    (hm : LocalsMatch f locals words) (hagree : RvalueAgrees unlimited f locals value)
    (hcode : encodeRvalue f value = .ok code) (he : e.ownership = false)
    (h : rvalue unlimited value m locals = .error e) (stack : List Word) : Fails M code stack words := by
  have hne : ∀ {P : Prop}, e.ownership = true → P := fun h' => by rw [he] at h'; cases h'
  cases value with
  | borrow mutable place =>
    cases place with
    | field base k => cases hcode
    | loc l =>
      rcases bind_eq_error h with h | ⟨v, -, h⟩
      · simp only [readPlace, localValue] at h
        split at h
        · cases h
        · cases h; cases he
      · cases h
  | use o => exact hne (operand_unlimited h)
  | discriminant o =>
    rcases bind_eq_error h with h | ⟨⟨v, m1, l1⟩, ho, h⟩
    · exact hne (operand_unlimited h)
    · obtain ⟨id, hid⟩ := hagree
      obtain ⟨d, fields, rfl⟩ := ((operand_typed ht ho).2 _ hid).aggregate_inv
      cases h
  | aggregate ty d fields =>
    rcases bind_eq_error h with h | ⟨r, -, h⟩
    · exact hne (operands_unlimited h)
    · rcases bind_eq_error h with h | ⟨m1, -, h⟩
      · exact absurd h (chargeAllocation_unlimited _ _ _)
      · cases h
  | binary operator left right =>
    rcases bind_eq_error h with h | ⟨⟨a, m1, l1⟩, ha, h⟩
    · exact hne (operand_unlimited h)
    rcases bind_eq_error h with h | ⟨⟨b, m2, l2⟩, hb, h⟩
    · exact hne (operand_unlimited h)
    rcases bind_eq_error h with h | ⟨v, -, h⟩
    · obtain ⟨-, ty, hl, hr, hbool⟩ := hok
      obtain ⟨ht1, hta⟩ := operand_typed ht ha
      obtain ⟨-, htb⟩ := operand_typed ht1 hb
      have hty : operator ∈ [BinaryOp.add, .subtract, .multiply, .divide, .less] → ty = .i64 ∨ ty = .u64 := by
        intro hop
        rcases hagree.1 hop with h' | h' <;> rw [hl] at h' <;> cases h'
        · exact .inl rfl
        · exact .inr rfl
      have hdiv := binary_error_divide (hta ty hl).shallow (htb ty hr).shallow hty hbool
        (hagree.2 m a m1 l1 b m2 l2 ha hb).1 h
      subst hdiv
      obtain ⟨cl, hcl, hcode⟩ := bind_eq_ok hcode
      obtain ⟨cr, hcr, hcode⟩ := bind_eq_ok hcode
      cases hcode
      obtain ⟨t, ht'⟩ := divide_fails (hta ty hl).shallow (htb ty hr).shallow (hty (by simp)) h
      rw [operandType_eq, hl]
      have hd1 := operand_does (M := M) hm hcl ha stack
      have hd2 := operand_does (M := M) (operand_match hm ha) hcr hb (encode a :: stack)
      exact (hd1.append hd2).fails (Fails.numeric ht')
    · cases h

/-- The operand of a switch is a number where the back ends agree. -/
theorem integerOperand_agrees {m : Machine} {value : Operand} {targets : List (Nat × Nat)} {otherwise : Nat} {ty : MirType}
    (ht : TypedState .deep s) (hagree : Agreeing unlimited s) (hrest : s.frame.rest = [])
    (hterm : s.frame.terminator = some (.switchInt value targets otherwise))
    (hty : declaredType s.frame.function value = some ty) (hint : IntegerLike ty)
    (h : integerOperand unlimited value m s.frame.locals = .error e) : e.ownership = true := by
  rcases bind_eq_error h with h | ⟨⟨v, m1, l1⟩, ho, h⟩
  · exact operand_unlimited h
  · rcases bind_eq_error h with h | ⟨n, -, h⟩
    · have htv := (operand_typed ht.frame ho).2 ty hty
      rcases hint with rfl | rfl | rfl
      · obtain ⟨b, rfl⟩ := htv.bool_inv
        cases h
      · obtain ⟨x, rfl⟩ := htv.i64_inv
        have hx := hagree.switch value targets otherwise hrest hterm m x m1 l1 ho
        simp only [switchValue] at h
        rw [if_neg (by omega)] at h
        cases h
      · obtain ⟨x, rfl⟩ := htv.u64_inv
        cases h
    · cases h

/-- Where the back ends agree a terminator fails for a missing value only. -/
theorem stepTerminator_agrees {m : Machine} {t : Terminator} (hok : StateOk p s) (ht : TypedState .deep s)
    (hagree : Agreeing unlimited s) (hcallers : ∀ caller callers, s.callers = caller :: callers → ∃ l, caller.destination = .loc l)
    (hrest : s.frame.rest = []) (hterm : s.frame.terminator = some t)
    (h : stepTerminator p unlimited m s.frame s.callers t = .error e) : e.ownership = true := by
  obtain ⟨-, owned, t', hterm', hcode, -⟩ := hok.frame
  rw [hterm] at hterm'
  obtain rfl := Option.some.inj hterm'
  rw [hrest] at hcode
  cases t with
  | goto target =>
    rcases bind_eq_error h with h | ⟨fr, -, h⟩
    · exact enterBlock_ownership h
    · cases h
  | switchInt value targets otherwise =>
    obtain ⟨-, ty, hty, hint⟩ := hcode.final
    rcases bind_eq_error h with h | ⟨r, -, h⟩
    · exact integerOperand_agrees ht hagree hrest hterm hty hint h
    · rcases bind_eq_error h with h | ⟨fr, -, h⟩
      · exact enterBlock_ownership h
      · cases h
  | call callee args destination next =>
    rcases bind_eq_error h with h | ⟨r, -, h⟩
    · exact operands_unlimited h
    · rcases bind_eq_error h with h | ⟨fr, -, h⟩
      · exact enterCall_unlimited (Nat.min_le_right _ _) h
      · cases h
  | ret =>
    simp only [stepTerminator] at h
    split at h
    · cases h; rfl
    · cases h; rfl
    · cases hcs : s.callers with
      | nil => rw [hcs] at h; cases h
      | cons caller callers =>
        obtain ⟨l, hl⟩ := hcallers caller callers hcs
        simp only [hcs, hl] at h
        rcases bind_eq_error h with h | ⟨locals, -, h⟩
        · exact assign_loc_ownership h
        · rcases bind_eq_error h with h | ⟨fr, -, h⟩
          · exact enterBlock_ownership h
          · cases h

/-- Compiled code stores results in locals. -/
theorem MatchState.destination (hmatch : MatchState p s c) (caller : Caller) (callers : List Caller)
    (hcs : s.callers = caller :: callers) : ∃ l, caller.destination = .loc l := by
  have hwaiting := hmatch.callers
  rw [hcs] at hwaiting
  obtain ⟨w, ws, ⟨-, arms, d, after, label, words, -, hd, -⟩, -⟩ := List.forall₂_cons_left_iff.1 hwaiting
  cases hdest : caller.destination with
  | loc l => exact ⟨l, rfl⟩
  | field base k =>
    rw [hdest] at hd
    cases hd

/-- **A failure of the interpreter at an agreeing state is one of the compiled code.** -/
theorem step_failed (hv : verify p = .ok ()) (hok : StateOk p s) (ht : TypedState .deep s) (hagree : Agreeing unlimited s)
    (hmatch : MatchState p s c) (h : Interp.step p unlimited s = .error e) :
    ∃ c' e', Reaches (Wasm.step M) c c' ∧ Wasm.step M c' = .error e' := by
  have he : e.ownership = false := by
    have := step_stateOk hv unlimited hok
    rw [h] at this
    exact this
  have hne : ∀ {P : Prop}, e.ownership = true → P := fun h' => by rw [he] at h'; cases h'
  have hdest := hmatch.destination
  obtain ⟨-, owned, t', -, hcode, -⟩ := hok.frame
  obtain ⟨⟨hf, -, arms, body, t, last, after, label, words, harms, hbody, hterm, hlast, hm, hw⟩, -⟩ := hmatch
  rcases bind_eq_error h with h | ⟨m, -, h⟩
  · exact absurd h (tick_unlimited _ _)
  cases hrest : s.frame.rest with
  | cons st rest =>
    rw [hrest] at hcode hbody
    simp only [hrest] at h
    obtain ⟨first, restCode, hfirst, -, rfl⟩ := encodeAll_cons hbody
    rcases bind_eq_error h with h | ⟨r, -, h⟩
    · cases st with
      | assign destination value =>
        obtain ⟨cv, hcv, hfirst⟩ := bind_eq_ok hfirst
        obtain ⟨cd, hcd, hfirst⟩ := bind_eq_ok hfirst
        cases hfirst
        rcases bind_eq_error h with h | ⟨r, -, h⟩
        · have hfails := rvalue_fails (M := M) hcode.statements.1.1 ht.frame hm
            (hagree.statement destination value (by rw [hrest]; rfl)) hcv he h []
          obtain ⟨c', e', hr, he'⟩ := hfails [label, ⟨.loop :: (arms ++ finalCode), 0⟩]
            (cd ++ (restCode ++ (last ++ after))) c.callers
          refine ⟨c', e', ?_, he'⟩
          have hc : c = ⟨c.frame, c.callers⟩ := rfl
          rw [hc, hw]
          simpa using hr
        · rcases bind_eq_error h with h | ⟨l2, -, h⟩
          · cases destination with
            | loc l => exact hne (assign_loc_ownership h)
            | field base k => cases hcd
          · cases h
      | drop place =>
        cases place with
        | field base k => cases hfirst
        | loc l =>
          rcases bind_eq_error h with h | ⟨slot, -, h⟩
          · cases localSlot_error h
            cases he
          · cases slot with
            | none => cases h; cases he
            | some v => cases h
    · cases h
  | nil =>
    simp only [hrest, hterm] at h
    exact hne (stepTerminator_agrees hok ht hagree hdest hrest hterm h)

end

section

attribute [local simp] runMain

/-- **Where the interpreter's run agrees at every state, a word the compiled program returns is the interpreter's
result.** -/
theorem runMain_followed {p : MirProgram} (hv : verify p = .ok ()) {M : Module} (hM : emit p = .ok M) {entry : DefId}
    (hentry : p.entry = some entry) {f : MirFunction} (hf : p.lookup entry = some f) (hparams : f.parameterCount = 0)
    (hret : f.returnType = .unit ∨ f.returnType = .bool ∨ f.returnType = .i64 ∨ f.returnType = .u64)
    (hagree : ∀ s₀ s, startCall p unlimited entry [] = .ok s₀ → Reaches (Interp.step p unlimited) s₀ s →
      Agreeing unlimited s)
    (fuel : Nat) (w : Word) (h : runMain fuel M = some (.ok w)) :
    ∃ fuel' r, execute fuel' p entry unlimited = some (.ok r) ∧ bits r.value = some w := by
  have hem := emit_emitted hM
  have hstart := startCall_stateOk hv unlimited [] hf (by simp [hparams])
  cases h₀ : startCall p unlimited entry [] with
  | error e =>
    rw [h₀] at hstart
    have hfr := (bind_eq_error h₀).resolve_right (fun ⟨_, _, h⟩ => by cases h)
    have hown := enterCall_unlimited (by decide) hfr
    rw [show e.ownership = false from hstart] at hown
    cases hown
  | ok s₀ =>
    rw [h₀] at hstart
    obtain ⟨G, c₀, hG, hreach, hmatch, hbottom⟩ := start_matched hv hem hentry h₀
    rw [hf] at hbottom
    simp only [runMain, hG] at h
    obtain ⟨n, -, hn⟩ := run_after hreach h
    obtain ⟨k, ⟨v, m⟩, hk, rfl, hty⟩ := run_backward (fun s => s.frame.rest.length)
      (R := fun s c => StateOk p s ∧ TypedState .deep s ∧ MatchState p s c ∧ s.bottom = f ∧
        Reaches (Interp.step p unlimited) s₀ s)
      (Q := fun r w => w = encode r.1 ∧ HasType .shallow r.1 f.returnType)
      (fun s c ⟨hok, ht, hm, hb, hr⟩ s' hs => by
        obtain ⟨c', hm', hadv⟩ := step_matched hv hem hok ht (hagree s₀ s h₀ hr).faithful hm hs
        have hok' : StateOk p s' := by
          have := step_stateOk hv unlimited hok
          rw [hs] at this
          exact this
        exact ⟨c', ⟨hok', step_typed id hok ht (matched_tame id (fun hd => by cases hd) hm) hs, hm',
          (step_bottom hs).trans hb, hr.trans (Reaches.single hs)⟩, hadv⟩)
      (fun s c ⟨hok, ht, hm, hb, _⟩ r hs => by
        obtain ⟨v, m⟩ := r
        obtain ⟨c', hr, hc'⟩ := result_matched hm hs
        exact ⟨c', _, hr, hc', rfl, hb ▸ (result_typed hok ht hs).shallow⟩)
      (fun s c ⟨hok, ht, hm, _, hr⟩ e hs => step_failed hv hok ht (hagree s₀ s h₀ hr) hm hs)
      n _ s₀ c₀ (Nat.le_refl _) ⟨hstart, startCall_typed h₀, hmatch, (Option.some.inj hbottom).symm, Reaches.refl _ _⟩ w hn
    exact ⟨k, _, execute_of_run hv h₀ hk, bits_intoRuntime hty hret⟩

end

/-- A switch on a signed constant, then a sum. -/
def sumProgram : MirProgram where
  functions := [
    { id := ⟨0, 0⟩, parameterCount := 0, returnType := .u64, locals := [.u64],
      blocks := [⟨[], some (.switchInt (.const (.i64 1)) [(1, 1)] 0)⟩,
        ⟨[.assign (.loc 0) (.binary .add (.const (.u64 3)) (.const (.u64 4)))], some .ret⟩] }]
  entry := some ⟨0, 0⟩

theorem sumProgram_returns_seven :
    ∃ M, emit sumProgram = .ok M ∧ runMain 40 M = some (.ok 7) ∧
      ∃ fuel r, execute fuel sumProgram ⟨0, 0⟩ unlimited = some (.ok r) ∧ bits r.value = some 7 := by
  refine ⟨_, rfl, rfl, runMain_followed (p := sumProgram) (by decide) rfl rfl rfl rfl (.inr (.inr (.inr rfl))) ?_ 40 7 rfl⟩
  intro s₀ s h₀ hr
  cases h₀
  refine Throughout.of_reaches (n := 3) ?_ hr
  refine ⟨⟨fun _ _ h => ?_, ?_⟩, .of_statement rfl ⟨fun _ => .inr rfl, ?_⟩, ⟨fun _ _ h => ?_, fun _ _ _ _ h => ?_⟩, trivial⟩
  · cases h
  · intro value targets otherwise _ h m x m' locals' ho
    cases h
    cases ho
    decide
  · intro m a m1 l1 b m2 l2 ha hb
    cases ha
    cases hb
    exact ⟨show (3 : UInt64).toNat + (4 : UInt64).toNat < 2 ^ 64 by decide, fun h => by cases h⟩
  · cases h
  · cases h

/-- A sum over the range of its type. -/
def wrapProgram : MirProgram where
  functions := [
    { id := ⟨0, 0⟩, parameterCount := 0, returnType := .u64, locals := [.u64],
      blocks := [⟨[.assign (.loc 0) (.binary .add (.const (.u64 (-1))) (.const (.u64 1)))], some .ret⟩] }]
  entry := some ⟨0, 0⟩

theorem wrapProgram_never_executes :
    verify wrapProgram = .ok () ∧ (∃ M, emit wrapProgram = .ok M ∧ runMain 20 M = some (.ok 0)) ∧
    (∃ f, wrapProgram.lookup ⟨0, 0⟩ = some f ∧ f.parameterCount = 0 ∧ f.returnType = .u64) ∧
    ∀ fuel limits r, execute fuel wrapProgram ⟨0, 0⟩ limits ≠ some (.ok r) := by
  have hv : verify wrapProgram = .ok () := by decide
  refine ⟨hv, ⟨_, rfl, rfl⟩, ⟨_, rfl, rfl, rfl⟩, ?_⟩
  intro fuel limits r h
  obtain ⟨s₀, v, m, h₀, hrun, -⟩ := execute_ok hv h
  obtain ⟨fr, hfr, h₀⟩ := bind_eq_ok h₀
  obtain ⟨g, b, hg, -, hb, rfl⟩ := enterCall_ok hfr
  cases hg
  cases hb
  cases h₀
  cases fuel with
  | zero => cases hrun
  | succ n =>
    unfold run at hrun
    have hadd : ∀ m, Interp.executeStatement limits
        (.assign (.loc 0) (.binary .add (.const (.u64 (-1))) (.const (.u64 1)))) m [none] =
        .error (.error (.trap .u64Add)) := by
      intro m
      have hover : checkedU64 .u64Add (((-1 : UInt64).toNat : Int) + (1 : UInt64).toNat) = trap .u64Add :=
        if_neg (by decide)
      simp only [executeStatement, rvalue, operand, constant, binary, bind, Except.bind, hover]
      rfl
    cases ht : tick limits Machine.start with
    | error e =>
      simp only [Interp.step, ht] at hrun
      exact absurd hrun (by simp [bind, Except.bind])
    | ok m' =>
      simp only [Interp.step, ht] at hrun
      exact absurd hrun (by simp [bind, Except.bind, initialLocals, hadd])

end Codegen
end Syllog
