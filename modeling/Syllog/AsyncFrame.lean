import Syllog.AsyncAdequacy
import Syllog.Codegen
import Syllog.WasmI32
/-!
# AsyncFrame — async state machines as WebAssembly step functions

The async part of `syllog-codegen-wasm`.  Every verified machine becomes one exported function: from a state and a signal it
returns the next state, by one `if` for each state of the table.  A host that calls it again and again, and answers a
suspension with a wake or a cancellation and a resumption with a panic or nothing, walks the machine as the task runner does.
-/
namespace Syllog
namespace AsyncFrame

open Runs Async Codegen WasmI32

/-! ## The encoder -/

/-- `i32::try_from` on a state number. -/
def asyncI32 (state : UInt32) : Except CodegenError I32 :=
  if state.toNat < 2 ^ 31 then .ok state.toBitVec else .error (.unsupportedOperation "async state exceeds i32 ABI")

def encodeAsyncTransition (current : UInt32) (transition : AsyncTransition) :
    Except CodegenError (List Instruction) :=
  match transition with
  | .start next => do
    let next ← asyncI32 next
    .ok [.i32Const next]
  | .suspend _ resume cancel => do
    let cancel ← asyncI32 cancel
    let resume ← asyncI32 resume
    let current ← asyncI32 current
    .ok [.localGet 1, .i32Const 2, .i32Eq,
      .ifResult, .i32Const cancel,
      .else_, .localGet 1, .i32Const 1, .i32Eq,
        .ifResult, .i32Const resume,
        .else_, .i32Const current,
        .end_,
      .end_]
  | .resume next panic => do
    let panic ← asyncI32 panic
    let next ← asyncI32 next
    .ok [.localGet 1, .i32Const 3, .i32Eq,
      .ifResult, .i32Const panic,
      .else_, .i32Const next,
      .end_]
  | .complete | .cancel _ => do
    let current ← asyncI32 current
    .ok [.i32Const current]

def encodeAsyncState (state : AsyncState) : Except CodegenError (List Instruction) := do
  let id ← asyncI32 state.id
  let code ← encodeAsyncTransition state.id state.transition
  .ok ([.localGet 0, .i32Const id, .i32Eq, .ifEmpty] ++ code ++ [.ret, .end_])

def encodeAsyncFrame (frame : AsyncStateMachine) : Except CodegenError (List Instruction) := do
  let states ← frame.states.mapM encodeAsyncState
  .ok (states.flatten ++ [.i32Const (-1), .end_])

/-! ## What the code of a state returns -/

/-- The next state the code of a transition computes from the signal. -/
def nextState (current : UInt32) (signal : I32) : AsyncTransition → I32
  | .start next              => next.toBitVec
  | .suspend _ resume cancel =>
    if signal = 2 then cancel.toBitVec else if signal = 1 then resume.toBitVec else current.toBitVec
  | .resume next panic       => if signal = 3 then panic.toBitVec else next.toBitVec
  | .complete                => current.toBitVec
  | .cancel _                => current.toBitVec

theorem asyncI32_ok {state : UInt32} {v : I32} (h : asyncI32 state = .ok v) : v = state.toBitVec ∧ state.toNat < 2 ^ 31 := by
  unfold asyncI32 at h
  split at h
  · rename_i hlt
    cases h
    exact ⟨rfl, hlt⟩
  · cases h

theorem plain_const (v : I32) : Balanced [.i32Const v] := Balanced.ofPlain (by simp [Instruction.plain])

/-- **The code of a transition closes its labels and leaves the next state on the stack.** -/
theorem transition_does {current : UInt32} {t : AsyncTransition} {code : List Instruction}
    (h : encodeAsyncTransition current t = .ok code) (x signal : I32) :
    Balanced code ∧ Does code [x, signal] [] [nextState current signal t] := by
  have hsignal : ([x, signal] : List I32)[1]? = some signal := rfl
  cases t with
  | start next =>
    obtain ⟨v, hv, h⟩ := bind_eq_ok h
    cases h
    rw [(asyncI32_ok hv).1]
    exact ⟨plain_const _, Does.const _⟩
  | suspend i resume cancel =>
    obtain ⟨vc, hvc, h⟩ := bind_eq_ok h
    obtain ⟨vr, hvr, h⟩ := bind_eq_ok h
    obtain ⟨vs, hvs, h⟩ := bind_eq_ok h
    cases h
    rw [(asyncI32_ok hvc).1, (asyncI32_ok hvr).1, (asyncI32_ok hvs).1]
    have htest : ∀ k : I32, Balanced [.localGet 1, .i32Const k, .i32Eq] :=
      fun k => Balanced.ofPlain (by simp [Instruction.plain])
    have hinnerBalanced := (plain_const resume.toBitVec).ifResult (plain_const current.toBitVec)
    have hinner := @Does.ifResult [x, signal] [] _ _ (signal = 1) _ _ _ (plain_const resume.toBitVec)
      (plain_const current.toBitVec) (fun _ => Does.const _) (fun _ => Does.const _)
    have helse := (htest 1).append hinnerBalanced
    have hdoes := (Does.test hsignal 1).append hinner
    have houter := @Does.ifResult [x, signal] [] _ _ (signal = 2) _ _ _ (plain_const cancel.toBitVec)
      helse (fun _ => Does.const _) (fun _ => hdoes)
    exact ⟨(htest 2).append ((plain_const cancel.toBitVec).ifResult helse), (Does.test hsignal 2).append houter⟩
  | resume next panic =>
    obtain ⟨vp, hvp, h⟩ := bind_eq_ok h
    obtain ⟨vn, hvn, h⟩ := bind_eq_ok h
    cases h
    rw [(asyncI32_ok hvp).1, (asyncI32_ok hvn).1]
    have htest : Balanced [.localGet 1, .i32Const 3, .i32Eq] := Balanced.ofPlain (by simp [Instruction.plain])
    have hselect := @Does.ifResult [x, signal] [] _ _ (signal = 3) _ _ _ (plain_const panic.toBitVec)
      (plain_const next.toBitVec) (fun _ => Does.const _) (fun _ => Does.const _)
    exact ⟨htest.append ((plain_const panic.toBitVec).ifResult (plain_const next.toBitVec)),
      (Does.test hsignal 3).append hselect⟩
  | complete =>
    obtain ⟨v, hv, h⟩ := bind_eq_ok h
    cases h
    rw [(asyncI32_ok hv).1]
    exact ⟨plain_const _, Does.const _⟩
  | cancel locals =>
    obtain ⟨v, hv, h⟩ := bind_eq_ok h
    cases h
    rw [(asyncI32_ok hv).1]
    exact ⟨plain_const _, Does.const _⟩

/-- The code of a state: its number, and the code of its transition. -/
theorem encodeAsyncState_ok {state : AsyncState} {code : List Instruction} (h : encodeAsyncState state = .ok code) :
    state.id.toNat < 2 ^ 31 ∧ ∃ c, encodeAsyncTransition state.id state.transition = .ok c ∧
      code = [.localGet 0, .i32Const state.id.toBitVec, .i32Eq] ++ ([.ifEmpty] ++ (c ++ [.ret]) ++ [.end_]) := by
  obtain ⟨id, hid, h⟩ := bind_eq_ok h
  obtain ⟨c, hc, h⟩ := bind_eq_ok h
  cases h
  obtain ⟨rfl, hlt⟩ := asyncI32_ok hid
  exact ⟨hlt, c, hc, by simp⟩

/-- A state that is not asked for is passed over. -/
theorem state_skips {state : AsyncState} {code : List Instruction} (h : encodeAsyncState state = .ok code) {x : I32}
    (hx : state.id.toBitVec ≠ x) (signal : I32) : Does code [x, signal] [] [] := by
  obtain ⟨-, c, hc, rfl⟩ := encodeAsyncState_ok h
  have hbalanced : Balanced (c ++ [.ret]) :=
    (transition_does hc x signal).1.append (Balanced.ofPlain (by simp [Instruction.plain]))
  have htest := @Does.test [x, signal] [] 0 _ rfl state.id.toBitVec
  rw [if_neg (fun heq => hx heq.symm)] at htest
  exact htest.append (Does.skip hbalanced)

/-- The state that is asked for returns its next state. -/
theorem state_returns {state : AsyncState} {code : List Instruction} (h : encodeAsyncState state = .ok code) (signal : I32)
    (rest : List Instruction) : ∃ c, Reaches step ⟨code ++ rest, 0, [], [state.id.toBitVec, signal]⟩ c ∧
      step c = .ok (.inr (nextState state.id signal state.transition)) := by
  obtain ⟨-, c, hc, rfl⟩ := encodeAsyncState_ok h
  have htest := @Does.test [state.id.toBitVec, signal] [] 0 _ rfl state.id.toBitVec
  rw [if_pos rfl] at htest
  have henter := htest 0 (([.ifEmpty] ++ (c ++ [.ret]) ++ [.end_]) ++ rest)
  have hcode := @reaches_if_taken _ _ _ (.ret :: .end_ :: rest) 0 _
    (transition_does hc state.id.toBitVec signal).2
  refine ⟨⟨.ret :: .end_ :: rest, 1, [nextState state.id signal state.transition], [state.id.toBitVec, signal]⟩,
    ?_, rfl⟩
  refine henter.trans ?_
  simpa using hcode

/-- The first state of the table with this number, and its next state; −1 without one. -/
def lookupNext (states : List AsyncState) (x signal : I32) : I32 :=
  match states.find? (fun s => s.id.toBitVec = x) with
  | some s => nextState s.id signal s.transition
  | none   => -1

/-- **The chain of `if`s looks the state up in the table.** -/
theorem chain_returns (x signal : I32) : ∀ {states : List AsyncState} {codes : List (List Instruction)},
    List.Forall₂ (fun s code => encodeAsyncState s = .ok code) states codes →
      ∃ c, Reaches step ⟨codes.flatten ++ [.i32Const (-1), .end_], 0, [], [x, signal]⟩ c ∧
        step c = .ok (.inr (lookupNext states x signal))
  | [], _, .nil => ⟨_, Reaches.single rfl, rfl⟩
  | s :: states, code :: codes, .cons hs hrest => by
    rw [List.flatten_cons, List.append_assoc]
    by_cases hx : s.id.toBitVec = x
    · subst hx
      have hlookup : lookupNext (s :: states) s.id.toBitVec signal = nextState s.id signal s.transition := by
        simp [lookupNext]
      rw [hlookup]
      exact state_returns hs signal _
    · obtain ⟨c, hreach, hstep⟩ := chain_returns x signal hrest
      have hlookup : lookupNext (s :: states) x signal = lookupNext states x signal := by
        simp [lookupNext, hx]
      rw [hlookup]
      exact ⟨c, (state_skips hs hx signal 0 _).trans hreach, hstep⟩

/-- **A call of the step function of a frame.** -/
theorem call_encodeAsyncFrame {m : AsyncStateMachine} {body : List Instruction} (h : encodeAsyncFrame m = .ok body)
    (x signal : I32) : call body [x, signal] = some (.ok (lookupNext m.states x signal)) := by
  obtain ⟨codes, hcodes, h⟩ := bind_eq_ok h
  cases h
  obtain ⟨c, hreach, hstep⟩ := chain_returns x signal (mapM_eq_ok hcodes)
  exact call_of_reaches hreach hstep

/-! ## Verified tables -/

theorem verified_stateId {m : AsyncStateMachine} (h : verifyAsyncMachine m = .ok ()) {i : Nat} {s : AsyncState}
    (hs : m.states[i]? = some s) : s.id = stateId i := by
  have he := verified_errors h
  simp only [verificationErrors, List.append_eq_nil_iff] at he
  by_cases hc : contiguous m.states = true
  · simp only [contiguous, Bool.and_eq_true, List.all_eq_true] at hc
    have hmem : (s, i) ∈ m.states.zipIdx := by rw [List.mem_zipIdx_iff_getElem?]; exact hs
    exact eq_of_beq (hc.2 (s, i) hmem)
  · simp [hc] at he

/-- In a verified table that was encoded, a state's number is its place. -/
theorem verified_id {m : AsyncStateMachine} {body : List Instruction} (hv : verifyAsyncMachine m = .ok ())
    (he : encodeAsyncFrame m = .ok body) {i : Nat} {s : AsyncState} (hs : m.states[i]? = some s) : s.id.toNat = i := by
  obtain ⟨codes, hcodes, -⟩ := bind_eq_ok he
  obtain ⟨code, hcode⟩ := exists_of_mapM_eq_ok hcodes (List.mem_of_getElem? hs)
  have hlt : s.id.toNat < 2 ^ 31 := (encodeAsyncState_ok hcode).1
  have hid : s.id = stateId i := verified_stateId hv hs
  rw [hid] at hlt ⊢
  unfold stateId at hlt ⊢
  split
  · rename_i hi
    exact UInt32.toNat_ofNat_of_lt hi
  · rename_i hi
    rw [if_neg hi] at hlt
    exact absurd hlt (by decide)

/-- **At a state of the machine, the step function takes the state's own transition.** -/
theorem call_at_state {m : AsyncStateMachine} {body : List Instruction} (hv : verifyAsyncMachine m = .ok ())
    (he : encodeAsyncFrame m = .ok body) {state : AsyncStateId} {t : AsyncTransition}
    (ht : m.transition state = some t) (signal : I32) :
    call body [state.toBitVec, signal] = some (.ok (nextState state signal t)) := by
  obtain ⟨s, hs, rfl⟩ := Option.map_eq_some_iff.1 ht
  rw [call_encodeAsyncFrame he]
  have hid : s.id = state := UInt32.toNat_inj.1 (verified_id hv he hs)
  have hfound : ∃ s', m.states.find? (fun s => decide (s.id.toBitVec = state.toBitVec)) = some s' :=
    Option.isSome_iff_exists.1 (List.find?_isSome.2 ⟨s, List.mem_of_getElem? hs, by simp [hid]⟩)
  obtain ⟨s', hs'⟩ := hfound
  have hs'id : s'.id = state := by
    have := List.find?_some hs'
    exact UInt32.toBitVec_inj.1 (of_decide_eq_true this)
  obtain ⟨j, hj⟩ := List.mem_iff_getElem?.1 (List.mem_of_find?_eq_some hs')
  have hplace : j = state.toNat := by rw [← verified_id hv he hj, hs'id]
  have hsame : s' = s := by
    rw [hplace, hs] at hj
    exact (Option.some.inj hj).symm
  simp only [lookupNext, hs', hsame, hid]

/-! ## A host that steers the step function -/

/-- What a host keeps between two calls. -/
structure Host where
  state : I32
  lastAwait : Option UInt32
deriving DecidableEq, Repr

/-- The signal for a state: 2 cancels a suspension, 1 wakes it, 3 panics after a resumption. -/
def signalAt (control : TaskControl) (lastAwait : Option UInt32) : AsyncTransition → I32
  | .suspend awaitIndex _ _ => if control = .cancelAt awaitIndex then 2 else 1
  | .resume _ _             => if lastAwait.map .panicAt = some control then 3 else 0
  | _                       => 0

/-- A wake is remembered until the next one. -/
def remember (control : TaskControl) (lastAwait : Option UInt32) : AsyncTransition → Option UInt32
  | .suspend awaitIndex _ _ => if control = .cancelAt awaitIndex then lastAwait else some awaitIndex
  | _                       => lastAwait

/-- One call of the step function. -/
def Host.turn (m : AsyncStateMachine) (body : List Instruction) (control : TaskControl) (h : Host) : Option Host :=
  match m.transition ⟨h.state⟩ with
  | none   => none
  | some t => match call body [h.state, signalAt control h.lastAwait t] with
    | some (.ok state) => some ⟨state, remember control h.lastAwait t⟩
    | _                => none

/-- The host after `n` calls. -/
def Host.drive (m : AsyncStateMachine) (body : List Instruction) (control : TaskControl) : Nat → Host → Option Host
  | 0, h     => some h
  | n + 1, h => (h.turn m body control).bind (Host.drive m body control n)

/-- The host stands where the runner stands. -/
def Abreast (r : Runner) (h : Host) : Prop := h = ⟨r.state.toBitVec, r.lastAwait⟩

/-- **A turn of the runner is one call of the step function.** -/
theorem turn_abreast {m : AsyncStateMachine} {body : List Instruction} (hv : verifyAsyncMachine m = .ok ())
    (he : encodeAsyncFrame m = .ok body) {r r' : Runner} (hm : r.machine = m) (hturn : r.turn = .ok (.inl r')) {h : Host}
    (hh : Abreast r h) : ∃ h', h.turn m body r.control = some h' ∧ Abreast r' h' ∧ r'.machine = m ∧
      r'.control = r.control := by
  subst hh
  cases ht : m.transition r.state with
  | none => simp [Runner.turn, Runner.advance, hm, ht] at hturn
  | some t =>
    have hcall := call_at_state hv he ht (signalAt r.control r.lastAwait t)
    have hhost : (⟨r.state.toBitVec, r.lastAwait⟩ : Host).turn m body r.control =
        some ⟨nextState r.state (signalAt r.control r.lastAwait t) t, remember r.control r.lastAwait t⟩ := by
      simp only [Host.turn, ht, hcall]
    refine ⟨_, hhost, ?_⟩
    have ht' : r.machine.transition r.state = some t := by rw [hm]; exact ht
    cases t with
    | start next =>
      rw [Runner.turn_of_start ht'] at hturn
      cases hturn
      exact ⟨rfl, hm, rfl⟩
    | suspend i resume cancel =>
      by_cases hc : r.control = .cancelAt i
      · rw [Runner.turn_of_cancelAt ht' hc] at hturn
        cases hturn
        refine ⟨?_, hm, rfl⟩
        simp only [Abreast, nextState, signalAt, remember, if_pos hc, if_true, Runner.push]
      · rw [Runner.turn_of_suspend ht' hc] at hturn
        cases hturn
        refine ⟨?_, hm, rfl⟩
        simp [Abreast, nextState, signalAt, remember, if_neg hc, Runner.wake]
    | resume next panic =>
      cases hl : r.lastAwait with
      | none =>
        rw [Runner.turn_of_lost ht' hl] at hturn
        cases hturn
      | some i =>
        by_cases hc : r.control = .panicAt i
        · rw [Runner.turn_of_panicAt ht' hl hc] at hturn
          cases hturn
          refine ⟨?_, hm, rfl⟩
          simp [Abreast, nextState, signalAt, remember, hl, hc, Runner.push]
        · rw [Runner.turn_of_resume ht' hl hc] at hturn
          cases hturn
          refine ⟨?_, hm, rfl⟩
          have hs : signalAt r.control (some i) (.resume next panic) = 0 := if_neg (fun heq => hc (Option.some.inj heq).symm)
          simp [Abreast, nextState, hs, remember, hl, Runner.push]
    | complete =>
      rw [Runner.turn_of_complete ht'] at hturn
      cases hturn
    | cancel locals =>
      rw [Runner.turn_of_cancel ht'] at hturn
      split at hturn <;> cases hturn

/-- **The host keeps abreast of the runner for as long as it runs.** -/
theorem drive_abreast {m : AsyncStateMachine} {body : List Instruction} (hv : verifyAsyncMachine m = .ok ())
    (he : encodeAsyncFrame m = .ok body) : ∀ {n : Nat} {r r' : Runner} {h : Host}, r.machine = m → Abreast r h →
      after Runner.turn n r = some r' → ∃ h', h.drive m body r.control n = some h' ∧ Abreast r' h'
  | 0, r, r', h, _, hh, hr => by
    cases hr
    exact ⟨h, rfl, hh⟩
  | n + 1, r, r', h, hm, hh, hr => by
    unfold after at hr
    split at hr
    · rename_i r1 hturn
      obtain ⟨h1, hh1, hab, hm1, hc1⟩ := turn_abreast hv he hm hturn hh
      obtain ⟨h', hdrive, hab'⟩ := drive_abreast hv he hm1 hab hr
      refine ⟨h', ?_, hab'⟩
      rw [hc1] at hdrive
      simp only [Host.drive, hh1, Option.bind_some, hdrive]
    · cases hr

/-- Where a machine stands until it is woken, or for good. -/
def AsyncTransition.stays : AsyncTransition → Bool
  | .suspend .. | .complete | .cancel _ => true
  | .start _ | .resume .. => false

/-- **The emitted step function simulates the task runner**, rests at suspensions and terminal states when it gets no
signal, and answers −1 to every number that is no state. -/
theorem encodeAsyncFrame_simulates {m : AsyncStateMachine} {body : List Instruction}
    (hv : verifyAsyncMachine m = .ok ()) (he : encodeAsyncFrame m = .ok body) :
    (∀ parent control r n r', Runner.new m parent control = .ok r → after Runner.turn n r = some r' →
      ∃ h, Host.drive m body control n ⟨0, none⟩ = some h ∧ h.state = r'.state.toBitVec) ∧
    (∀ s ∈ m.states, AsyncTransition.stays s.transition = true →
      call body [s.id.toBitVec, 0] = some (.ok s.id.toBitVec)) ∧
    (∀ x signal : I32, (∀ s ∈ m.states, x ≠ s.id.toBitVec) → call body [x, signal] = some (.ok (-1))) := by
  refine ⟨?_, ?_, ?_⟩
  · intro parent control r n r' hnew hafter
    unfold Runner.new at hnew
    rw [hv] at hnew
    cases hnew
    obtain ⟨h, hdrive, hab⟩ := drive_abreast (r := Runner.init m parent control) (h := ⟨0, none⟩) hv he rfl rfl hafter
    exact ⟨h, hdrive, by rw [hab]⟩
  · intro s hs hstays
    obtain ⟨i, hi⟩ := List.mem_iff_getElem?.1 hs
    have hplace := verified_id hv he hi
    have ht : m.transition s.id = some s.transition := by simp [AsyncStateMachine.transition, hplace, hi]
    rw [call_at_state hv he ht]
    cases hst : s.transition <;> simp_all [AsyncTransition.stays, nextState]
  · intro x signal hx
    rw [call_encodeAsyncFrame he]
    have hnone : m.states.find? (fun s => decide (s.id.toBitVec = x)) = none := by
      rw [List.find?_eq_none]
      intro s hs heq
      exact hx s hs (of_decide_eq_true heq).symm
    simp only [lookupNext, hnone]

/-- The frame of a function with one await point, steered into a panic after it. -/
theorem fetchFrame_simulates : ∃ body, encodeAsyncFrame (buildMachine ⟨0, 1⟩ 1 [⟨0, 2⟩]) = .ok body ∧
    (∃ h, Host.drive (buildMachine ⟨0, 1⟩ 1 [⟨0, 2⟩]) body (.panicAt 0) 3 ⟨0, none⟩ = some h ∧ h.state = 4) ∧
    call body [1, 0] = some (.ok 1) ∧ call body [9, 1] = some (.ok (-1)) := by
  have hv : verifyAsyncMachine (buildMachine ⟨0, 1⟩ 1 [⟨0, 2⟩]) = .ok () := rfl
  obtain ⟨body, he⟩ : ∃ body, encodeAsyncFrame (buildMachine ⟨0, 1⟩ 1 [⟨0, 2⟩]) = .ok body := ⟨_, rfl⟩
  obtain ⟨hruns, hstays, hunknown⟩ := encodeAsyncFrame_simulates hv he
  refine ⟨body, he, ?_, ?_, ?_⟩
  · exact hruns 7 (.panicAt 0) _ 3 _ rfl rfl
  · exact hstays ⟨1, .suspend 0 2 4⟩ (by decide) rfl
  · exact hunknown 9 1 (by decide)

end AsyncFrame
end Syllog
