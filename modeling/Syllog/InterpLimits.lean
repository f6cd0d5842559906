import Syllog.InterpOwn
/-!
# InterpLimits — executions without limits

Limits the saturating counters never exceed.  Under them an execution fails only where the program does: what an operand
or a call can fail with is a missing value, and the verifier has excluded those.
-/
namespace Syllog
namespace Interp

open Mir Runs

/-- The counters saturate at these. -/
def unlimited : InterpreterLimits := ⟨2 ^ 64 - 1, 2 ^ 32 - 1, 2 ^ 64 - 1⟩

theorem tick_unlimited (m : Machine) (e : Fault) : tick unlimited m ≠ .error e := by
  have hle : ¬ unlimited.maxInstructions < saturatingAdd 64 m.instructions 1 := Nat.not_lt.2 (Nat.min_le_right _ _)
  unfold tick
  simp only [if_neg hle]
  exact fun h => by cases h

theorem chargeAllocation_unlimited (m : Machine) (bytes : Nat) (e : Fault) :
    chargeAllocation unlimited m bytes ≠ .error e := by
  have hle : ¬ unlimited.maxAllocatedBytes < saturatingAdd 64 m.allocatedBytes bytes :=
    Nat.not_lt.2 (Nat.min_le_right _ _)
  unfold chargeAllocation
  simp only [if_neg hle]
  exact fun h => by cases h

theorem operand_unlimited {o : Operand} {m : Machine} {locals : Locals} {e : Fault}
    (h : operand unlimited o m locals = .error e) : e.ownership = true := by
  cases o with
  | const c =>
    rcases bind_eq_error h with h | ⟨r, -, h⟩
    · cases c with
      | string s =>
        rcases bind_eq_error h with h | ⟨r, -, h⟩
        · exact absurd h (chargeAllocation_unlimited _ _ _)
        · cases h
      | _ => cases h
    · cases h
  | copy l =>
    rcases bind_eq_error h with h | ⟨r, -, h⟩
    · cases localValue_error h
      rfl
    · cases h
  | move l =>
    rcases bind_eq_error h with h | ⟨slot, -, h⟩
    · cases localSlot_error h
      rfl
    · cases slot with
      | none => cases h; rfl
      | some v => cases h

theorem operands_unlimited : ∀ {os : List Operand} {m : Machine} {locals : Locals} {e : Fault},
    operands unlimited os m locals = .error e → e.ownership = true
  | [], _, _, _, h => by cases h
  | o :: os, _, _, _, h => by
    rcases bind_eq_error h with h | ⟨r, -, h⟩
    · exact operand_unlimited h
    · rcases bind_eq_error h with h | ⟨r', -, h⟩
      · exact operands_unlimited h
      · cases h

theorem enterBlock_ownership {fr : Frame} {target : Nat} {e : Fault} (h : enterBlock fr target = .error e) :
    e.ownership = true := by
  unfold enterBlock at h
  split at h
  · cases h
  · cases h; rfl

theorem enterCall_unlimited {p : MirProgram} {id : DefId} {arguments : List Value} {depth : Nat} {e : Fault}
    (hdepth : depth ≤ unlimited.maxCallDepth) (h : enterCall p unlimited id arguments depth = .error e) :
    e.ownership = true := by
  unfold enterCall at h
  rw [if_neg (Nat.not_lt.2 hdepth)] at h
  split at h
  · cases h; rfl
  · split at h
    · cases h; rfl
    · split at h
      · cases h; rfl
      · exact enterBlock_ownership h

theorem assign_loc_ownership {l : Nat} {v : Value} {locals : Locals} {e : Fault}
    (h : assign (.loc l) v locals = .error e) : e.ownership = true := by
  rcases bind_eq_error h with h | ⟨slot, -, h⟩
  · cases localSlot_error h
    rfl
  · cases h

/-! ## Steps that cannot fail -/

section
variable {p : MirProgram} {s : State}

/-- A verified program's step succeeds where only a missing value could stop it. -/
theorem step_succeeds (hv : verify p = .ok ()) (hok : StateOk p s)
    (h : ∀ e, step p unlimited s = .error e → e.ownership = true) : ∃ x, step p unlimited s = .ok x := by
  cases hs : step p unlimited s with
  | ok x => exact ⟨x, rfl⟩
  | error e =>
    have hharm := step_stateOk hv unlimited hok
    rw [hs] at hharm
    have hown := h e hs
    rw [show e.ownership = false from hharm] at hown
    cases hown

theorem step_stateOk_next (hv : verify p = .ok ()) (hok : StateOk p s) {s' : State}
    (hs : step p unlimited s = .ok (.inl s')) : StateOk p s' := by
  have := step_stateOk hv unlimited hok
  rw [hs] at this
  exact this

theorem step_statement_error {st : Statement} {rest : List Statement} {e : Fault} (hrest : s.frame.rest = st :: rest)
    (h : step p unlimited s = .error e) : ∃ m, executeStatement unlimited st m s.frame.locals = .error e := by
  rcases bind_eq_error h with h | ⟨m, -, h⟩
  · exact absurd h (tick_unlimited _ _)
  · simp only [hrest] at h
    rcases bind_eq_error h with h | ⟨r, -, h⟩
    · exact ⟨m, h⟩
    · cases h

theorem step_statement {st : Statement} {rest : List Statement} {x : State ⊕ (Value × Machine)}
    (hrest : s.frame.rest = st :: rest) (h : step p unlimited s = .ok x) : ∃ m m' locals,
      executeStatement unlimited st m s.frame.locals = .ok (m', locals) ∧
      x = .inl ⟨m', { s.frame with locals := locals, rest := rest }, s.callers⟩ := by
  obtain ⟨m, -, h⟩ := bind_eq_ok h
  simp only [hrest] at h
  obtain ⟨r, hr, h⟩ := bind_eq_ok h
  cases h
  exact ⟨m, r.1, r.2, hr, rfl⟩

/-- An assignment of a value that only a missing one could stop. -/
theorem assign_proceeds (hv : verify p = .ok ()) (hok : StateOk p s) {l : Nat} {value : Rvalue} {rest : List Statement}
    (hrest : s.frame.rest = .assign (.loc l) value :: rest)
    (herr : ∀ m e, rvalue unlimited value m s.frame.locals = .error e → e.ownership = true) :
    ∃ m m' v locals, rvalue unlimited value m s.frame.locals = .ok (v, m', locals) ∧
      step p unlimited s = .ok (.inl ⟨m', { s.frame with locals := locals.set l (some v), rest := rest }, s.callers⟩) := by
  obtain ⟨x, hx⟩ := step_succeeds hv hok (fun e he => by
    obtain ⟨m, hm⟩ := step_statement_error hrest he
    rcases bind_eq_error hm with hm | ⟨r, -, hm⟩
    · exact herr m e hm
    · rcases bind_eq_error hm with hm | ⟨r', -, hm⟩
      · exact assign_loc_ownership hm
      · cases hm)
  obtain ⟨m, m', locals', hst, rfl⟩ := step_statement hrest hx
  obtain ⟨⟨v, m1, locals⟩, hr, hst⟩ := bind_eq_ok hst
  obtain ⟨locals1, ha, hst⟩ := bind_eq_ok hst
  obtain ⟨slot, -, ha⟩ := bind_eq_ok ha
  cases ha
  cases hst
  exact ⟨m, m', v, locals, hr, hx⟩

theorem drop_proceeds (hv : verify p = .ok ()) (hok : StateOk p s) {l : Nat} {rest : List Statement}
    (hrest : s.frame.rest = .drop (.loc l) :: rest) :
    ∃ m', step p unlimited s =
      .ok (.inl ⟨m', { s.frame with locals := s.frame.locals.set l none, rest := rest }, s.callers⟩) := by
  have hslot : ∀ {m e}, executeStatement unlimited (.drop (.loc l)) m s.frame.locals = .error e → e.ownership = true := by
    intro m e h
    rcases bind_eq_error h with h | ⟨slot, -, h⟩
    · cases localSlot_error h
      rfl
    · cases slot with
      | none => cases h; rfl
      | some v => cases h
  obtain ⟨x, hx⟩ := step_succeeds hv hok (fun e he => by
    obtain ⟨m, hm⟩ := step_statement_error hrest he
    exact hslot hm)
  obtain ⟨m, m', locals', hst, rfl⟩ := step_statement hrest hx
  obtain ⟨slot, -, hst⟩ := bind_eq_ok hst
  cases slot with
  | none => cases hst
  | some v =>
    cases hst
    exact ⟨_, hx⟩

theorem step_terminator_error {t : Terminator} {e : Fault} (hrest : s.frame.rest = [])
    (ht : s.frame.terminator = some t) (h : step p unlimited s = .error e) :
    ∃ m, stepTerminator p unlimited m s.frame s.callers t = .error e := by
  rcases bind_eq_error h with h | ⟨m, -, h⟩
  · exact absurd h (tick_unlimited _ _)
  · simp only [hrest, ht] at h
    exact ⟨m, h⟩

theorem step_terminator {t : Terminator} {x : State ⊕ (Value × Machine)} (hrest : s.frame.rest = [])
    (ht : s.frame.terminator = some t) (h : step p unlimited s = .ok x) :
    ∃ m, stepTerminator p unlimited m s.frame s.callers t = .ok x := by
  obtain ⟨m, -, h⟩ := bind_eq_ok h
  simp only [hrest, ht] at h
  exact ⟨m, h⟩

theorem goto_proceeds (hv : verify p = .ok ()) (hok : StateOk p s) {target : Nat} (hrest : s.frame.rest = [])
    (ht : s.frame.terminator = some (.goto target)) :
    ∃ m' b, s.frame.function.blocks[target]? = some b ∧
      step p unlimited s = .ok (.inl ⟨m', { s.frame with block := target, rest := b.statements }, s.callers⟩) := by
  obtain ⟨x, hx⟩ := step_succeeds hv hok (fun e he => by
    obtain ⟨m, hm⟩ := step_terminator_error hrest ht he
    rcases bind_eq_error hm with hm | ⟨fr, -, hm⟩
    · exact enterBlock_ownership hm
    · cases hm)
  obtain ⟨m, hm⟩ := step_terminator hrest ht hx
  obtain ⟨fr, hfr, hm⟩ := bind_eq_ok hm
  obtain ⟨b, hb, rfl⟩ := enterBlock_ok hfr
  cases hm
  exact ⟨m, b, hb, hx⟩

/-- A switch on a word. -/
theorem switch_proceeds (hv : verify p = .ok ()) (hok : StateOk p s) {l : Nat} {targets : List (Nat × Nat)}
    {otherwise : Nat} {k : UInt64} (hrest : s.frame.rest = [])
    (ht : s.frame.terminator = some (.switchInt (.copy l) targets otherwise)) (hl : s.frame.locals[l]? = some (some (.u64 k))) :
    ∃ m' b, s.frame.function.blocks[switchTarget k.toNat targets otherwise]? = some b ∧
      step p unlimited s = .ok (.inl ⟨m',
        { s.frame with block := switchTarget k.toNat targets otherwise, rest := b.statements }, s.callers⟩) := by
  have hread : ∀ m, integerOperand unlimited (.copy l) m s.frame.locals = .ok (k.toNat, m, s.frame.locals) := by
    intro m
    simp only [integerOperand, operand, localValue, hl]
    rfl
  obtain ⟨x, hx⟩ := step_succeeds hv hok (fun e he => by
    obtain ⟨m, hm⟩ := step_terminator_error hrest ht he
    rcases bind_eq_error hm with hm | ⟨r, hr, hm⟩
    · rw [hread] at hm
      cases hm
    · rcases bind_eq_error hm with hm | ⟨fr, -, hm⟩
      · exact enterBlock_ownership hm
      · cases hm)
  obtain ⟨m, hm⟩ := step_terminator hrest ht hx
  obtain ⟨r, hr, hm⟩ := bind_eq_ok hm
  rw [hread] at hr
  cases hr
  obtain ⟨fr, hfr, hm⟩ := bind_eq_ok hm
  obtain ⟨b, hb, rfl⟩ := enterBlock_ok hfr
  cases hm
  exact ⟨m, b, hb, hx⟩

theorem call_proceeds (hv : verify p = .ok ()) (hok : StateOk p s) {callee : DefId} {args : List Operand} {l next : Nat}
    (hrest : s.frame.rest = []) (ht : s.frame.terminator = some (.call callee args (.loc l) next)) :
    ∃ m m' vs locals g b, operands unlimited args m s.frame.locals = .ok (vs, m', locals) ∧
      p.lookup callee = some g ∧ vs.length = g.parameterCount ∧ g.blocks[0]? = some b ∧
      step p unlimited s = .ok (.inl ⟨m',
        ⟨g, initialLocals g.locals.length vs, 0, b.statements, saturatingAdd 32 s.frame.depth 1⟩,
        ⟨{ s.frame with locals := locals }, .loc l, next⟩ :: s.callers⟩) := by
  obtain ⟨x, hx⟩ := step_succeeds hv hok (fun e he => by
    obtain ⟨m, hm⟩ := step_terminator_error hrest ht he
    rcases bind_eq_error hm with hm | ⟨r, -, hm⟩
    · exact operands_unlimited hm
    · rcases bind_eq_error hm with hm | ⟨fr, -, hm⟩
      · exact enterCall_unlimited (Nat.min_le_right _ _) hm
      · cases hm)
  obtain ⟨m, hm⟩ := step_terminator hrest ht hx
  obtain ⟨⟨vs, m', locals⟩, hr, hm⟩ := bind_eq_ok hm
  obtain ⟨fr, hfr, hm⟩ := bind_eq_ok hm
  obtain ⟨g, b, hg, hlen, hb, rfl⟩ := enterCall_ok hfr
  cases hm
  exact ⟨m, m', vs, locals, g, b, hr, hg, hlen, hb, hx⟩

/-- A return to a frame that waits at a local. -/
theorem ret_proceeds (hv : verify p = .ok ()) (hok : StateOk p s) {c : Caller} {callers : List Caller} {l : Nat} {v : Value}
    (hrest : s.frame.rest = []) (ht : s.frame.terminator = some .ret) (hvalue : s.frame.locals[0]? = some (some v))
    (hc : s.callers = c :: callers) (hd : c.destination = .loc l) :
    ∃ m' b, c.frame.function.blocks[c.next]? = some b ∧ step p unlimited s = .ok (.inl ⟨m',
      { c.frame with locals := c.frame.locals.set l (some v), block := c.next, rest := b.statements }, callers⟩) := by
  obtain ⟨x, hx⟩ := step_succeeds hv hok (fun e he => by
    obtain ⟨m, hm⟩ := step_terminator_error hrest ht he
    simp only [stepTerminator, hvalue, hc, hd] at hm
    rcases bind_eq_error hm with hm | ⟨r, -, hm⟩
    · exact assign_loc_ownership hm
    · rcases bind_eq_error hm with hm | ⟨fr, -, hm⟩
      · exact enterBlock_ownership hm
      · cases hm)
  obtain ⟨m, hm⟩ := step_terminator hrest ht hx
  simp only [stepTerminator, hvalue, hc, hd] at hm
  obtain ⟨locals, ha, hm⟩ := bind_eq_ok hm
  obtain ⟨slot, -, ha⟩ := bind_eq_ok ha
  cases ha
  obtain ⟨fr, hfr, hm⟩ := bind_eq_ok hm
  obtain ⟨b, hb, rfl⟩ := enterBlock_ok hfr
  cases hm
  exact ⟨m, b, hb, hx⟩

end

end Interp
end Syllog
