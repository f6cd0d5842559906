import Syllog.InterpOwn
/-!
# InterpBounds — what limits do to an execution

A limit can only stop an execution: raised, it changes no outcome that it did not cause.  Below the values at which the
counters saturate, limits also bound every execution: the statements and terminators it executes, the calls that are active
at once, and the bytes it has accounted for.
-/
namespace Syllog
namespace Interp

open Mir Runs

/-! ## Raised limits -/

/-- An execution stopped by a limit. -/
def Fault.isLimit : Fault → Bool
  | .error (.instructionLimitExceeded _) => true
  | .error (.callDepthLimitExceeded _)   => true
  | .error (.allocationLimitExceeded _)  => true
  | _                                    => false

/-- Every limit of the first is at most that of the second. -/
structure InterpreterLimits.AtMost (limits limits' : InterpreterLimits) : Prop where
  instructions : limits.maxInstructions ≤ limits'.maxInstructions
  depth : limits.maxCallDepth ≤ limits'.maxCallDepth
  bytes : limits.maxAllocatedBytes ≤ limits'.maxAllocatedBytes

/-- The second outcome is the first, unless a limit stopped that. -/
abbrev AgreesUnlessStopped {α : Type} (x y : Except Fault α) : Prop := Agrees (fun e : Fault => e.isLimit = true) x y

/-- A check against a limit agrees with the check against a higher one. -/
theorem agrees_check {α : Type} {limit limit' n : Nat} (hle : limit ≤ limit') {e e' : Fault} (he : e.isLimit = true)
    (x : Except Fault α) :
    AgreesUnlessStopped (if limit < n then .error e else x) (if limit' < n then .error e' else x) := by
  intro hne
  by_cases hn : limit < n
  · exact absurd he (hne e (if_pos hn))
  · rw [if_neg hn, if_neg (by omega)]

section
variable {limits limits' : InterpreterLimits} (hle : limits.AtMost limits')
include hle

theorem tick_agrees (m : Machine) : AgreesUnlessStopped (tick limits m) (tick limits' m) := agrees_check hle.instructions rfl _

theorem chargeAllocation_agrees (m : Machine) (bytes : Nat) :
    AgreesUnlessStopped (chargeAllocation limits m bytes) (chargeAllocation limits' m bytes) := agrees_check hle.bytes rfl _

theorem constant_agrees (c : Constant) (m : Machine) : AgreesUnlessStopped (constant limits c m) (constant limits' c m) := by
  cases c with
  | string s => exact (chargeAllocation_agrees hle m _).bind fun _ => .refl _
  | unit => exact .refl _
  | bool b => exact .refl _
  | i64 v => exact .refl _
  | u64 v => exact .refl _

theorem operand_agrees (o : Operand) (m : Machine) (locals : Locals) :
    AgreesUnlessStopped (operand limits o m locals) (operand limits' o m locals) := by
  cases o with
  | const c => exact (constant_agrees hle c m).bind fun _ => .refl _
  | copy l => exact .refl _
  | move l => exact .refl _

theorem operands_agree : ∀ (os : List Operand) (m : Machine) (locals : Locals),
    AgreesUnlessStopped (operands limits os m locals) (operands limits' os m locals)
  | [], _, _ => .refl _
  | o :: os, m, locals =>
    (operand_agrees hle o m locals).bind fun r => (operands_agree os r.2.1 r.2.2).bind fun _ => .refl _

theorem rvalue_agrees (value : Rvalue) (m : Machine) (locals : Locals) :
    AgreesUnlessStopped (rvalue limits value m locals) (rvalue limits' value m locals) := by
  cases value with
  | borrow mutable place => exact .refl _
  | use o => exact operand_agrees hle o m locals
  | discriminant o => exact (operand_agrees hle o m locals).bind fun _ => .refl _
  | aggregate ty d fields =>
    exact (operands_agree hle fields m locals).bind fun r => (chargeAllocation_agrees hle _ _).bind fun _ => .refl _
  | binary operator left right =>
    exact (operand_agrees hle left m locals).bind fun r => (operand_agrees hle right r.2.1 r.2.2).bind fun _ => .refl _

theorem executeStatement_agrees (statement : Statement) (m : Machine) (locals : Locals) :
    AgreesUnlessStopped (executeStatement limits statement m locals) (executeStatement limits' statement m locals) := by
  cases statement with
  | assign destination value => exact (rvalue_agrees hle value m locals).bind fun _ => .refl _
  | drop place => exact .refl _

theorem enterCall_agrees (p : MirProgram) (id : DefId) (arguments : List Value) (depth : Nat) :
    AgreesUnlessStopped (enterCall p limits id arguments depth) (enterCall p limits' id arguments depth) :=
  agrees_check hle.depth rfl _

theorem stepTerminator_agrees (p : MirProgram) (m : Machine) (fr : Frame) (callers : List Caller) (t : Terminator) :
    AgreesUnlessStopped (stepTerminator p limits m fr callers t) (stepTerminator p limits' m fr callers t) := by
  cases t with
  | ret => exact .refl _
  | goto target => exact .refl _
  | switchInt value targets otherwise =>
    have hvalue : AgreesUnlessStopped (integerOperand limits value m fr.locals) (integerOperand limits' value m fr.locals) :=
      (operand_agrees hle value m fr.locals).bind fun _ => .refl _
    exact hvalue.bind fun _ => .refl _
  | call callee args destination next =>
    exact (operands_agree hle args m fr.locals).bind fun r => (enterCall_agrees hle p callee r.1 _).bind fun _ => .refl _

theorem step_agrees (p : MirProgram) (s : State) : AgreesUnlessStopped (step p limits s) (step p limits' s) := by
  refine (tick_agrees hle s.machine).bind fun m => ?_
  cases s.frame.rest with
  | cons statement rest => exact (executeStatement_agrees hle statement m s.frame.locals).bind fun _ => .refl _
  | nil => cases s.frame.terminator with
    | some t => exact stepTerminator_agrees hle p m s.frame s.callers t
    | none => exact .refl _

/-- **Raising limits changes no outcome**: not a result, and no error that is not a limit's. -/
theorem execute_raised {p : MirProgram} {entry : DefId} {fuel : Nat} {r : Except Fault ExecutionResult}
    (h : execute fuel p entry limits = some r) (hr : ∀ e, r = .error e → e.isLimit = false) :
    execute fuel p entry limits' = some r := by
  unfold execute at h ⊢
  cases hverify : verify p with
  | error errors => simpa [hverify] using h
  | ok _ =>
    simp only [hverify] at h ⊢
    have hstart : AgreesUnlessStopped (startCall p limits entry []) (startCall p limits' entry []) :=
      (enterCall_agrees hle p entry [] 1).bind fun _ => .refl _
    cases hs : startCall p limits entry [] with
    | error e =>
      simp only [hs, Option.some.injEq] at h
      have hkeep := hstart fun e' he' => by
        cases hs.symm.trans he'
        simp [hr e h.symm]
      rw [hkeep, hs]
      simp only [h]
    | ok s =>
      simp only [hs] at h
      rw [hstart (fun e he => by rw [hs] at he; cases he), hs]
      obtain ⟨o, ho, rfl⟩ := Option.map_eq_some_iff.mp h
      refine Option.map_eq_some_iff.mpr ⟨o, run_agrees (step_agrees hle p) ho (fun e he => ?_), rfl⟩
      simp [hr e (by rw [he]; rfl)]

end

/-- Six steps, one call and one byte are enough for the program; more change nothing. -/
theorem dropProgram_raised : execute 9 dropProgram ⟨0, 0⟩ ⟨7, 3, 8⟩ = some (.ok ⟨.u64 7, [], 1⟩) :=
  @execute_raised ⟨6, 2, 1⟩ ⟨7, 3, 8⟩ ⟨by decide, by decide, by decide⟩ dropProgram ⟨0, 0⟩ 9 _ rfl (fun e he => by cases he)

/-! ## Bounded executions -/

/-- What a piece of code leaves of the counters: no tick, and no total above the limit. -/
structure Accounts (limits : InterpreterLimits) (m m' : Machine) : Prop where
  instructions : m'.instructions = m.instructions
  allocated : m.allocatedBytes ≤ limits.maxAllocatedBytes → m'.allocatedBytes ≤ limits.maxAllocatedBytes

theorem Accounts.refl (limits : InterpreterLimits) (m : Machine) : Accounts limits m m := ⟨rfl, id⟩

theorem Accounts.trans {limits : InterpreterLimits} {m m' m'' : Machine} (h : Accounts limits m m')
    (h' : Accounts limits m' m'') : Accounts limits m m'' :=
  ⟨h'.instructions.trans h.instructions, fun hm => h'.allocated (h.allocated hm)⟩

section
variable {limits : InterpreterLimits} {m m' : Machine} {locals locals' : Locals}

theorem tick_ok (h : tick limits m = .ok m') :
    m'.instructions = saturatingAdd 64 m.instructions 1 ∧ m'.instructions ≤ limits.maxInstructions ∧
      m'.allocatedBytes = m.allocatedBytes := by
  unfold tick at h
  simp only at h
  split_ifs at h with hlimit
  cases h
  exact ⟨rfl, Nat.not_lt.mp hlimit, rfl⟩

theorem chargeAllocation_accounts {bytes : Nat} (h : chargeAllocation limits m bytes = .ok m') : Accounts limits m m' := by
  unfold chargeAllocation at h
  simp only at h
  split_ifs at h with hlimit
  cases h
  exact ⟨rfl, fun _ => Nat.not_lt.mp hlimit⟩

theorem constant_accounts {c : Constant} {v : Value} (h : constant limits c m = .ok (v, m')) : Accounts limits m m' := by
  cases c with
  | string s =>
    obtain ⟨m₁, hm₁, h⟩ := bind_eq_ok h
    cases h
    exact chargeAllocation_accounts hm₁
  | unit => cases h; exact .refl _ _
  | bool b => cases h; exact .refl _ _
  | i64 n => cases h; exact .refl _ _
  | u64 n => cases h; exact .refl _ _

theorem operand_accounts {o : Operand} {v : Value} (h : operand limits o m locals = .ok (v, m', locals')) :
    Accounts limits m m' := by
  cases o with
  | const c =>
    obtain ⟨r, hr, h⟩ := bind_eq_ok h
    cases h
    exact constant_accounts hr
  | copy l =>
    obtain ⟨v, -, h⟩ := bind_eq_ok h
    cases h
    exact .refl _ _
  | move l =>
    obtain ⟨slot, -, h⟩ := bind_eq_ok h
    cases slot with
    | none => cases h
    | some v => cases h; exact .refl _ _

theorem operands_account : ∀ {os : List Operand} {vs : List Value} {m m' : Machine} {locals locals' : Locals},
    operands limits os m locals = .ok (vs, m', locals') → Accounts limits m m'
  | [], _, _, _, _, _, h => by cases h; exact .refl _ _
  | o :: os, _, _, _, _, _, h => by
    obtain ⟨⟨v, m₁, locals₁⟩, h₁, h⟩ := bind_eq_ok h
    obtain ⟨⟨vs, m₂, locals₂⟩, h₂, h⟩ := bind_eq_ok h
    cases h
    exact (operand_accounts h₁).trans (operands_account h₂)

theorem rvalue_accounts {value : Rvalue} {v : Value} (h : rvalue limits value m locals = .ok (v, m', locals')) :
    Accounts limits m m' := by
  cases value with
  | borrow mutable place =>
    obtain ⟨v, -, h⟩ := bind_eq_ok h
    cases h
    exact .refl _ _
  | use o => exact operand_accounts h
  | discriminant o =>
    obtain ⟨⟨v, m₁, locals₁⟩, h₁, h⟩ := bind_eq_ok h
    cases v with
    | aggregate d fields => cases h; exact operand_accounts h₁
    | _ => cases h
  | aggregate ty d fields =>
    obtain ⟨⟨vs, m₁, locals₁⟩, h₁, h⟩ := bind_eq_ok h
    obtain ⟨m₂, h₂, h⟩ := bind_eq_ok h
    cases h
    exact (operands_account h₁).trans (chargeAllocation_accounts h₂)
  | binary operator left right =>
    obtain ⟨⟨a, m₁, locals₁⟩, h₁, h⟩ := bind_eq_ok h
    obtain ⟨⟨b, m₂, locals₂⟩, h₂, h⟩ := bind_eq_ok h
    obtain ⟨v, -, h⟩ := bind_eq_ok h
    cases h
    exact (operand_accounts h₁).trans (operand_accounts h₂)

theorem executeStatement_accounts {statement : Statement} (h : executeStatement limits statement m locals = .ok (m', locals')) :
    Accounts limits m m' := by
  cases statement with
  | assign destination value =>
    obtain ⟨⟨v, m₁, locals₁⟩, h₁, h⟩ := bind_eq_ok h
    obtain ⟨locals₂, -, h⟩ := bind_eq_ok h
    cases h
    exact rvalue_accounts h₁
  | drop place =>
    cases place with
    | loc l =>
      obtain ⟨slot, -, h⟩ := bind_eq_ok h
      cases slot with
      | none => cases h
      | some v => cases h; exact ⟨rfl, id⟩
    | field base k =>
      obtain ⟨locals₁, -, h⟩ := bind_eq_ok h
      cases h
      exact ⟨rfl, id⟩

theorem enterCall_depth {p : MirProgram} {id : DefId} {arguments : List Value} {depth : Nat} {fr : Frame}
    (h : enterCall p limits id arguments depth = .ok fr) : depth ≤ limits.maxCallDepth ∧ fr.depth = depth := by
  by_cases hdepth : limits.maxCallDepth < depth
  · unfold enterCall at h
    rw [if_pos hdepth] at h
    cases h
  · obtain ⟨f, b, -, -, -, rfl⟩ := enterCall_ok h
    exact ⟨Nat.not_lt.mp hdepth, rfl⟩

end

/-- A frame's depth is the number of frames up to it, and so is that of every frame that waits. -/
def Depths (fr : Frame) : List Caller → Prop
  | []      => fr.depth = 1
  | c :: cs => fr.depth = cs.length + 2 ∧ Depths c.frame cs

theorem Depths.depth {fr : Frame} {callers : List Caller} (h : Depths fr callers) : fr.depth = callers.length + 1 := by
  cases callers with
  | nil => exact h
  | cons c cs => exact h.1

theorem Depths.cons {fr : Frame} {c : Caller} {callers : List Caller} (hdepth : fr.depth = callers.length + 1 + 1)
    (h : Depths c.frame callers) : Depths fr (c :: callers) := ⟨hdepth, h⟩

theorem Depths.of_depth {fr fr' : Frame} {callers : List Caller} (h : Depths fr callers) (heq : fr'.depth = fr.depth) :
    Depths fr' callers := by
  cases callers with
  | nil => exact heq.trans h
  | cons c cs => exact ⟨heq.trans h.1, h.2⟩

/-- A state after `n` statements and terminators. -/
structure Bounded (limits : InterpreterLimits) (n : Nat) (s : State) : Prop where
  ticks : s.machine.instructions = n
  executed : n ≤ limits.maxInstructions
  active : s.callers.length + 1 ≤ limits.maxCallDepth
  allocated : s.machine.allocatedBytes ≤ limits.maxAllocatedBytes
  depths : Depths s.frame s.callers

section
variable {limits : InterpreterLimits} {p : MirProgram}

/-- Below saturation a tick that passes counts one more. -/
theorem tick_counts (hi : limits.maxInstructions < 2 ^ 64 - 1) {m m' : Machine} (h : tick limits m = .ok m') :
    m'.instructions = m.instructions + 1 ∧ m.instructions + 1 ≤ limits.maxInstructions := by
  obtain ⟨heq, hle, -⟩ := tick_ok h
  have hmin : m'.instructions = min (m.instructions + 1) (2 ^ 64 - 1) := heq
  omega

theorem saturatingAdd_below {depth limit : Nat} (hlimit : limit < 2 ^ 32 - 1) (h : saturatingAdd 32 depth 1 ≤ limit) :
    saturatingAdd 32 depth 1 = depth + 1 := by
  unfold saturatingAdd at h ⊢
  omega

theorem step_call_depth {s s' : State} {callee : DefId} {args : List Operand} {destination : Place} {next : Nat}
    (hrest : s.frame.rest = []) (hlast : s.frame.terminator = some (.call callee args destination next))
    (h : step p limits s = .ok (.inl s')) : saturatingAdd 32 s.frame.depth 1 ≤ limits.maxCallDepth := by
  obtain ⟨m, -, h⟩ := bind_eq_ok h
  simp only [hrest, hlast] at h
  obtain ⟨r, -, h⟩ := bind_eq_ok h
  obtain ⟨fr, hfr, -⟩ := bind_eq_ok h
  exact (enterCall_depth hfr).1

/-- The counters after a step: the tick, then what the code accounts for. -/
theorem Bounded.after_tick (hi : limits.maxInstructions < 2 ^ 64 - 1) {n : Nat} {s : State} (h : Bounded limits n s)
    {m m' : Machine} (hm : tick limits s.machine = .ok m) (haccounts : Accounts limits m m') :
    m'.instructions = n + 1 ∧ n + 1 ≤ limits.maxInstructions ∧ m'.allocatedBytes ≤ limits.maxAllocatedBytes := by
  obtain ⟨hcount, hle⟩ := tick_counts hi hm
  obtain ⟨-, -, hbytes⟩ := tick_ok hm
  refine ⟨by rw [haccounts.instructions, hcount, h.ticks], by rw [← h.ticks]; exact hle, haccounts.allocated ?_⟩
  rw [hbytes]
  exact h.allocated

theorem Bounded.step (hi : limits.maxInstructions < 2 ^ 64 - 1) (hd : limits.maxCallDepth < 2 ^ 32 - 1) {n : Nat} {s s' : State}
    (h : Bounded limits n s) (hs : step p limits s = .ok (.inl s')) : Bounded limits (n + 1) s' := by
  cases step_moves hs with
  | statement ticked code run =>
    obtain ⟨hticks, hle, hbytes⟩ := h.after_tick hi ticked (executeStatement_accounts run)
    exact ⟨hticks, hle, h.active, hbytes, h.depths.of_depth rfl⟩
  | goto ticked code last block =>
    obtain ⟨hticks, hle, hbytes⟩ := h.after_tick hi ticked (.refl _ _)
    exact ⟨hticks, hle, h.active, hbytes, h.depths.of_depth rfl⟩
  | switchInt ticked code last run block =>
    obtain ⟨r, hr, run⟩ := bind_eq_ok run
    obtain ⟨k, -, run⟩ := bind_eq_ok run
    cases run
    obtain ⟨hticks, hle, hbytes⟩ := h.after_tick hi ticked (operand_accounts hr)
    exact ⟨hticks, hle, h.active, hbytes, h.depths.of_depth rfl⟩
  | call ticked code last run function count block =>
    obtain ⟨hticks, hle, hbytes⟩ := h.after_tick hi ticked (operands_account run)
    have hdepth := step_call_depth code last hs
    have hnext : saturatingAdd 32 s.frame.depth 1 = s.callers.length + 1 + 1 := by
      rw [saturatingAdd_below hd hdepth, h.depths.depth]
    refine ⟨hticks, hle, ?_, hbytes, .cons hnext (h.depths.of_depth rfl)⟩
    rw [hnext] at hdepth
    exact hdepth
  | ret ticked code last value waiting run block =>
    obtain ⟨hticks, hle, hbytes⟩ := h.after_tick hi ticked (.refl _ _)
    have hdepths := h.depths
    have hactive := h.active
    rw [waiting] at hdepths hactive
    exact ⟨hticks, hle, (Nat.le_succ _).trans hactive, hbytes, hdepths.2.of_depth rfl⟩

/-- What a step leaves of the tick it began with. -/
theorem step_ticks {s s' : State} (hs : Interp.step p limits s = .ok (.inl s')) :
    ∃ m, tick limits s.machine = .ok m ∧ s'.machine.instructions = m.instructions := by
  cases step_moves hs with
  | statement ticked code run => exact ⟨_, ticked, (executeStatement_accounts run).instructions⟩
  | goto ticked code last block => exact ⟨_, ticked, rfl⟩
  | switchInt ticked code last run block =>
    obtain ⟨r, hr, run⟩ := bind_eq_ok run
    obtain ⟨k, -, run⟩ := bind_eq_ok run
    cases run
    exact ⟨_, ticked, (operand_accounts hr).instructions⟩
  | call ticked code last run function count block => exact ⟨_, ticked, (operands_account run).instructions⟩
  | ret ticked code last value waiting run block => exact ⟨_, ticked, rfl⟩

theorem Bounded.after (hi : limits.maxInstructions < 2 ^ 64 - 1) (hd : limits.maxCallDepth < 2 ^ 32 - 1) :
    ∀ {k n : Nat} {s s' : State}, Bounded limits n s → after (Interp.step p limits) k s = some s' → Bounded limits (n + k) s'
  | 0, n, s, s', h, hafter => by
    cases hafter
    exact h
  | k + 1, n, s, s', h, hafter => by
    unfold Runs.after at hafter
    split at hafter
    · rename_i t ht
      have := (h.step hi hd ht).after hi hd hafter
      rwa [Nat.add_assoc, Nat.add_comm 1 k] at this
    · cases hafter

theorem startCall_bounded {entry : DefId} {s : State} (h : startCall p limits entry [] = .ok s) : Bounded limits 0 s := by
  obtain ⟨fr, hfr, h⟩ := bind_eq_ok h
  cases h
  obtain ⟨hdepth, heq⟩ := enterCall_depth hfr
  exact ⟨rfl, Nat.zero_le _, hdepth, Nat.zero_le _, heq⟩

/-- **A bounded execution comes to an end**, within its instructions, its calls and its bytes. -/
theorem execute_bounded (hi : limits.maxInstructions < 2 ^ 64 - 1) (hd : limits.maxCallDepth < 2 ^ 32 - 1) (p : MirProgram)
    (entry : DefId) :
    (∃ r, execute (limits.maxInstructions + 1) p entry limits = some r) ∧
      ∀ s₀ n s, startCall p limits entry [] = .ok s₀ → Runs.after (Interp.step p limits) n s₀ = some s →
        n ≤ limits.maxInstructions ∧ (∀ m, tick limits s.machine = .ok m → n + 1 ≤ limits.maxInstructions) ∧
          s.callers.length + 1 ≤ limits.maxCallDepth ∧ s.machine.allocatedBytes ≤ limits.maxAllocatedBytes := by
  constructor
  · unfold execute
    cases verify p with
    | error errors => exact ⟨_, rfl⟩
    | ok _ =>
      cases hs : startCall p limits entry [] with
      | error e => exact ⟨_, rfl⟩
      | ok s =>
        have hless : ∀ a b, Interp.step p limits a = .ok (.inl b) →
            limits.maxInstructions - b.machine.instructions < limits.maxInstructions - a.machine.instructions := by
          intro a b hab
          obtain ⟨m, hm, hinstructions⟩ := step_ticks hab
          obtain ⟨hcount, hle⟩ := tick_counts hi hm
          omega
        obtain ⟨o, ho⟩ := run_total (fun s : State => limits.maxInstructions - s.machine.instructions) hless s
        have hstart := (startCall_bounded hs).ticks
        rw [hstart, Nat.sub_zero] at ho
        exact ⟨_, by simp only [ho]; rfl⟩
  · intro s₀ n s h₀ hafter
    have hb := (startCall_bounded h₀).after hi hd hafter
    rw [Nat.zero_add] at hb
    refine ⟨hb.executed, fun m hm => ?_, hb.active, hb.allocated⟩
    rw [← hb.ticks]
    exact (tick_counts hi hm).2

end

/-- A function that calls itself without end. -/
def recursiveProgram : MirProgram where
  functions := [
    { id := ⟨0, 0⟩, parameterCount := 0, returnType := .unit, locals := [.unit],
      blocks := [⟨[], some (.call ⟨0, 0⟩ [] (.loc 0) 1)⟩, ⟨[], some .ret⟩] }]
  entry := some ⟨0, 0⟩

/-- It ends at its call depth. -/
theorem recursiveProgram_ends : (∃ r, execute 9 recursiveProgram ⟨0, 0⟩ ⟨8, 4, 0⟩ = some r) ∧
    execute 9 recursiveProgram ⟨0, 0⟩ ⟨8, 4, 0⟩ = some (.error (.error (.callDepthLimitExceeded 4))) :=
  ⟨(@execute_bounded ⟨8, 4, 0⟩ (by decide) (by decide) recursiveProgram ⟨0, 0⟩).1, rfl⟩

end Interp
end Syllog
