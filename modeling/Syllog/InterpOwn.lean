import Syllog.Interp
import Syllog.VerifySpec
/-!
# InterpOwn — verified programs never meet an empty slot

The invariant of a run: the running frame stands at code the judgement of `VerifySpec` accepts from a set of owned
locals, and every owned local's slot holds a value; every waiting caller will again once its destination is written.
A step keeps it (`step_stateOk`) and, from such a state, fails only on a limit, an arithmetic trap or a dynamic type
(`execute_no_ownership_fault`).
-/
namespace Syllog
namespace Interp

open Mir Runs

/-- Every owned local holds a value. -/
def Full (owned : Finset Nat) (locals : Locals) : Prop := ∀ l ∈ owned, ∃ v, locals[l]? = some (some v)

theorem Full.mono {s t : Finset Nat} {locals : Locals} (h : Full t locals) (hst : s ⊆ t) : Full s locals :=
  fun l hl => h l (hst hl)

theorem Full.erase {owned : Finset Nat} {locals : Locals} (h : Full owned locals) (l : Nat) :
    Full (owned.erase l) (locals.set l none) := by
  intro k hk
  obtain ⟨hne, hmem⟩ := Finset.mem_erase.1 hk
  rw [List.getElem?_set_ne (Ne.symm hne)]
  exact h k hmem

theorem Full.insert {owned : Finset Nat} {locals : Locals} (h : Full owned locals) {l : Nat} (hl : l < locals.length)
    (v : Value) : Full (insert l owned) (locals.set l (some v)) := by
  intro k hk
  by_cases hkl : l = k
  · subst hkl; exact ⟨v, List.getElem?_set_self hl⟩
  · rw [List.getElem?_set_ne hkl]
    exact h k ((Finset.mem_insert.1 hk).resolve_left (Ne.symm hkl))

/-- Failures the verifier rules out: an empty or missing slot, a missing block, terminator or callee, a wrong argument
count, a host panic. -/
def Fault.ownership : Fault → Bool
  | .panic _                => true
  | .error (.missingEntry _) => true
  | .error (.trap t)         => t ∈ [Trap.argumentCount, .blockAbsent, .returnEmpty, .localEmpty, .movedEmpty,
    .dropEmpty, .localOutOfRange]
  | .error _                 => false

/-- Overflow and failed division. -/
def Trap.arithmetic : Trap → Bool
  | .u64Add | .u64Subtract | .u64Multiply | .u64Divide | .i64Add | .i64Subtract | .i64Multiply | .i64Divide => true
  | _ => false

abbrev Harmless (e : Fault) : Prop := e.ownership = false

/-! ## Operands and places -/

theorem tick_yields (limits : InterpreterLimits) (m : Machine) : Yields (tick limits m) Harmless (fun _ => True) := by
  unfold tick
  simp only
  split
  · rfl
  · trivial

theorem chargeAllocation_yields (limits : InterpreterLimits) (m : Machine) (bytes : Nat) :
    Yields (chargeAllocation limits m bytes) Harmless (fun _ => True) := by
  unfold chargeAllocation
  simp only
  split
  · rfl
  · trivial

theorem constant_yields (limits : InterpreterLimits) (c : Constant) (m : Machine) :
    Yields (constant limits c m) Harmless (fun _ => True) := by
  cases c with
  | string s => exact (chargeAllocation_yields limits m _).bind (fun _ _ => trivial)
  | _ => trivial

/-- The slots after a step: as many as before, and full on `owned`. -/
def Kept (size : Nat) (owned : Finset Nat) (locals : Locals) : Prop := locals.length = size ∧ Full owned locals

theorem operand_yields {f : MirFunction} {owned : Finset Nat} {o : Operand} {locals : Locals}
    (limits : InterpreterLimits) (m : Machine) (ho : OperandOk f owned o) (hk : Kept f.locals.length owned locals) :
    Yields (operand limits o m locals) Harmless
      (fun r => Kept f.locals.length (consumeOperand o owned) r.2.2) := by
  cases o with
  | const c => exact (constant_yields limits c m).bind (fun _ _ => hk)
  | copy l =>
    obtain ⟨v, hv⟩ := hk.2 l ho.1
    simp only [operand, localValue, hv]
    exact hk
  | move l =>
    obtain ⟨v, hv⟩ := hk.2 l ho.1
    simp only [operand, localSlot, hv]
    exact ⟨by rw [List.length_set]; exact hk.1, hk.2.erase l⟩

theorem operands_yields {f : MirFunction} (limits : InterpreterLimits) : ∀ {os : List Operand} {owned : Finset Nat}
    {locals : Locals} (m : Machine), OperandsOk f owned os → Kept f.locals.length owned locals →
    Yields (operands limits os m locals) Harmless
      (fun r => r.1.length = os.length ∧ Kept f.locals.length (consumeOperands os owned) r.2.2)
  | [], _, _, _, _, hk => ⟨rfl, hk⟩
  | o :: os, owned, locals, m, ho, hk => by
    refine (operand_yields limits m ho.1 hk).bind (fun r hr => ?_)
    obtain ⟨v, m', locals'⟩ := r
    refine (operands_yields limits m' ho.2 hr).bind (fun r' hr' => ?_)
    obtain ⟨vs, m'', locals''⟩ := r'
    exact ⟨by simpa using hr'.1, hr'.2⟩

theorem checkedU64_error {t : Trap} {n : Int} {e : Fault} (h : checkedU64 t n = .error e) : e = .error (.trap t) := by
  unfold checkedU64 at h
  split at h
  · cases h
  · cases h; rfl

theorem checkedI64_error {t : Trap} {n : Int} {e : Fault} (h : checkedI64 t n = .error e) : e = .error (.trap t) := by
  unfold checkedI64 at h
  split at h
  · cases h
  · cases h; rfl

/-- **A binary operation fails with its own arithmetic trap, or on its operand types.** -/
theorem binary_error {operator : BinaryOp} {a b : Value} {e : Fault} (h : binary operator a b = .error e) :
    ∃ t, e = .error (.trap t) ∧ (t.arithmetic = true ∨ t = .binaryTypes) := by
  unfold binary at h
  split at h
  · exact ⟨_, checkedU64_error h, .inl rfl⟩
  · exact ⟨_, checkedU64_error h, .inl rfl⟩
  · exact ⟨_, checkedU64_error h, .inl rfl⟩
  · split at h
    · cases h; exact ⟨_, rfl, .inl rfl⟩
    · cases h
  · exact ⟨_, checkedI64_error h, .inl rfl⟩
  · exact ⟨_, checkedI64_error h, .inl rfl⟩
  · exact ⟨_, checkedI64_error h, .inl rfl⟩
  · split at h
    · cases h; exact ⟨_, rfl, .inl rfl⟩
    · exact ⟨_, checkedI64_error h, .inl rfl⟩
  · cases h
  · cases h
  · cases h
  · cases h
  · cases h
  · cases h; exact ⟨_, rfl, .inr rfl⟩

theorem harmless_of_arithmetic {t : Trap} (h : t.arithmetic = true ∨ t = .binaryTypes) :
    Harmless (.error (.trap t)) := by
  cases t <;> simp_all [Harmless, Fault.ownership, Trap.arithmetic]

theorem binary_yields (operator : BinaryOp) (a b : Value) :
    Yields (binary operator a b) Harmless (fun _ => True) := by
  cases h : binary operator a b with
  | ok v => trivial
  | error e =>
    obtain ⟨t, rfl, ht⟩ := binary_error h
    exact harmless_of_arithmetic ht

theorem readPlace_yields {owned : Finset Nat} {place : Place} {locals : Locals} (hp : placeLocal place ∈ owned)
    (hf : Full owned locals) : Yields (readPlace place locals) Harmless (fun _ => True) := by
  obtain ⟨v, hv⟩ := hf _ hp
  cases place with
  | loc l =>
    simp only [placeLocal] at hv
    simp only [readPlace, localValue, hv]
    trivial
  | field base k =>
    simp only [placeLocal] at hv
    simp only [readPlace, localValue, hv]
    cases v with
    | aggregate d fields =>
      dsimp only [bind, Except.bind]
      cases fields[k]? with
      | none => rfl
      | some w => trivial
    | _ => rfl

theorem rvalue_yields {f : MirFunction} {owned : Finset Nat} {value : Rvalue} {locals : Locals}
    (limits : InterpreterLimits) (m : Machine) (hv : RvalueOk f owned value) (hk : Kept f.locals.length owned locals) :
    Yields (rvalue limits value m locals) Harmless
      (fun r => Kept f.locals.length (consumeRvalue value owned) r.2.2) := by
  cases value with
  | borrow mutable place => exact (readPlace_yields hv.1 hk.2).bind (fun _ _ => hk)
  | use o => exact operand_yields limits m hv hk
  | discriminant o =>
    refine (operand_yields limits m hv hk).bind (fun r hr => ?_)
    obtain ⟨v, m', locals'⟩ := r
    cases v with
    | aggregate d fields => exact hr
    | _ => rfl
  | aggregate ty d fields =>
    refine (operands_yields limits m hv hk).bind (fun r hr => ?_)
    exact (chargeAllocation_yields limits _ _).bind (fun _ _ => hr.2)
  | binary operator left right =>
    refine (operand_yields limits m hv.1.1 hk).bind (fun r hr => ?_)
    refine (operand_yields limits _ hv.1.2.1 hr).bind (fun r' hr' => ?_)
    exact (binary_yields operator r.1 r'.1).bind (fun _ _ => hr')

theorem setField_yields {size : Nat} {owned : Finset Nat} {base k : Nat} {locals : Locals} (v : Value)
    (hb : base < size) (hk : Kept size owned locals) :
    Yields (setField base k v locals) Harmless (fun r => Kept size owned r) := by
  have hlt : base < locals.length := hk.1 ▸ hb
  simp only [setField, localSlot, List.getElem?_eq_getElem hlt]
  cases hs : locals[base] with
  | none => rfl
  | some w =>
    cases w with
    | aggregate d fields =>
      simp only [bind, Except.bind]
      split
      · refine ⟨by rw [List.length_set]; exact hk.1, ?_⟩
        exact (hk.2.insert hlt _).mono (Finset.subset_insert _ _)
      · rfl
    | _ => rfl

theorem assign_yields {size : Nat} {owned : Finset Nat} {place : Place} {locals : Locals} (v : Value)
    (hp : placeLocal place < size) (hk : Kept size owned locals) :
    Yields (assign place v locals) Harmless (fun r => Kept size (insertPlace place owned) r) := by
  cases place with
  | loc l =>
    have hlt : l < locals.length := hk.1 ▸ hp
    simp only [assign, localSlot, List.getElem?_eq_getElem hlt]
    exact ⟨by rw [List.length_set]; exact hk.1, hk.2.insert hlt v⟩
  | field base k => exact setField_yields v hp hk

theorem dropPlace_yields {size : Nat} {owned : Finset Nat} {place : Place} {locals : Locals} (m : Machine)
    (hp : placeLocal place ∈ owned) (hlt : placeLocal place < size) (hk : Kept size owned locals) :
    Yields (dropPlace place m locals) Harmless (fun r => Kept size (owned.erase (placeLocal place)) r.2) := by
  cases place with
  | loc l =>
    obtain ⟨v, hv⟩ := hk.2 l hp
    simp only [dropPlace, localSlot, hv]
    exact ⟨by rw [List.length_set]; exact hk.1, hk.2.erase l⟩
  | field base k =>
    refine (setField_yields .unit hlt hk).bind (fun r hr => ?_)
    exact ⟨hr.1, hr.2.mono (Finset.erase_subset _ _)⟩

theorem executeStatement_yields {f : MirFunction} {owned : Finset Nat} {s : Statement} {locals : Locals}
    (limits : InterpreterLimits) (m : Machine) (hs : StatementOk f owned s) (hk : Kept f.locals.length owned locals) :
    Yields (executeStatement limits s m locals) Harmless
      (fun r => Kept f.locals.length (transferStatement owned s) r.2) := by
  cases s with
  | assign destination value =>
    refine (rvalue_yields limits m hs.1 hk).bind (fun r hr => ?_)
    exact (assign_yields r.1 hs.2.1 hr).bind (fun _ h => h)
  | drop place => exact dropPlace_yields m hs.1 hs.2 hk

theorem switchValue_yields (v : Value) : Yields (switchValue v) Harmless (fun _ => True) := by
  cases v with
  | i64 n =>
    simp only [switchValue]
    split
    · rfl
    · trivial
  | bool b => trivial
  | u64 n => trivial
  | _ => rfl

theorem switchTarget_mem (n : Nat) (value : Operand) (targets : List (Nat × Nat)) (otherwise : Nat) :
    switchTarget n targets otherwise ∈ successors (.switchInt value targets otherwise) := by
  simp only [switchTarget, successors, List.mem_append, List.mem_map, List.mem_singleton]
  generalize hfind : targets.findSome? _ = found
  cases found with
  | none => exact .inr rfl
  | some target =>
    obtain ⟨⟨candidate, target'⟩, hmem, heq⟩ := List.exists_of_findSome?_eq_some hfind
    simp only at heq
    split at heq
    · cases heq; exact .inl ⟨_, hmem, rfl⟩
    · cases heq

/-! ## Frames -/

structure FrameOk (p : MirProgram) (fr : Frame) : Prop where
  function : FunctionOk p fr.function
  code : ∃ owned t, fr.terminator = some t ∧ CodeOk p fr.function owned fr.rest t ∧
    Kept fr.function.locals.length owned fr.locals

structure CallerOk (p : MirProgram) (c : Caller) : Prop where
  function : FunctionOk p c.frame.function
  destination : placeLocal c.destination < c.frame.function.locals.length
  next : ∃ owned entry, (ownedOnEntry c.frame.function)[c.next]? = some (some entry) ∧
    entry ⊆ insertPlace c.destination owned ∧ c.next < c.frame.function.blocks.length ∧
    Kept c.frame.function.locals.length owned c.frame.locals

structure StateOk (p : MirProgram) (s : State) : Prop where
  frame : FrameOk p s.frame
  callers : ∀ c ∈ s.callers, CallerOk p c

theorem enterBlock_yields {p : MirProgram} (fr : Frame) {target : Nat} {entry : Finset Nat}
    (hf : FunctionOk p fr.function) (hlt : target < fr.function.blocks.length)
    (he : (ownedOnEntry fr.function)[target]? = some (some entry))
    (hk : Kept fr.function.locals.length entry fr.locals) :
    Yields (enterBlock fr target) Harmless (FrameOk p) := by
  have hb : fr.function.blocks[target]? = some fr.function.blocks[target] := List.getElem?_eq_getElem hlt
  obtain ⟨t, ht, hcode⟩ := hf.block target _ entry hb he
  simp only [enterBlock, hb]
  refine ⟨hf, entry, t, ?_, hcode, hk⟩
  simp only [Frame.terminator, hb, Option.bind_some, ht]

theorem initialLocals_getElem? (size : Nat) (arguments : List Value) {l : Nat} (h : l < size) :
    (initialLocals size arguments)[l]? = some (if l = 0 then none else arguments[l - 1]?) := by
  simp [initialLocals, h]

theorem initialLocals_full {f : MirFunction} {arguments : List Value} (hlen : arguments.length = f.parameterCount)
    (hp : f.parameterCount < f.locals.length) : Full (parameters f) (initialLocals f.locals.length arguments) := by
  intro l hl
  simp only [parameters, Finset.mem_image, Finset.mem_range] at hl
  obtain ⟨k, hk, rfl⟩ := hl
  have hka : k < arguments.length := by omega
  refine ⟨arguments[k], ?_⟩
  rw [initialLocals_getElem? _ _ (by omega)]
  simp [hka]

theorem enterCall_yields {p : MirProgram} (hv : verify p = .ok ()) (limits : InterpreterLimits) {id : DefId}
    {arguments : List Value} (depth : Nat) {f : MirFunction} (hid : p.lookup id = some f)
    (hlen : arguments.length = f.parameterCount) :
    Yields (enterCall p limits id arguments depth) Harmless (fun fr => FrameOk p fr ∧ fr.function = f) := by
  have hf := verify_functionOk hv (MirProgram.lookup_mem hid)
  unfold enterCall
  split
  · rfl
  · simp only [hid, hlen, ne_eq, not_true_eq_false, if_false]
    have hp := hf.params
    rw [if_neg (by omega)]
    obtain ⟨entry, he, hsub⟩ := ownedOnEntry_zero f hf.blocks
    have hk : Kept f.locals.length entry (initialLocals f.locals.length arguments) :=
      ⟨by simp [initialLocals], (initialLocals_full hlen hp).mono hsub⟩
    have hy := enterBlock_yields ⟨f, initialLocals f.locals.length arguments, 0, [], depth⟩ hf hf.blocks he hk
    obtain ⟨b, hb⟩ : ∃ b, f.blocks[0]? = some b := ⟨_, List.getElem?_eq_getElem hf.blocks⟩
    simp only [enterBlock, hb] at hy ⊢
    exact ⟨hy, rfl⟩

/-- **A terminator of a frame in order leads to a state in order**, or fails harmlessly. -/
theorem stepTerminator_yields {p : MirProgram} (hv : verify p = .ok ()) (limits : InterpreterLimits) (m : Machine)
    {fr : Frame} {callers : List Caller} {t : Terminator} {owned : Finset Nat} (hf : FunctionOk p fr.function)
    (hk : Kept fr.function.locals.length owned fr.locals) (ht : TerminatorOk p fr.function owned t)
    (hflow : FlowsTo fr.function t owned) (hc : ∀ c ∈ callers, CallerOk p c) :
    Yields (stepTerminator p limits m fr callers t) Harmless
      (fun x => match x with | .inl s' => StateOk p s' | .inr _ => True) := by
  cases t with
  | ret =>
    obtain ⟨v, hv0⟩ := hk.2 0 ht.1
    simp only [stepTerminator, hv0]
    cases callers with
    | nil => trivial
    | cons c callers =>
      have hcok := hc c List.mem_cons_self
      obtain ⟨co, entry, he, hsub, hlt, hck⟩ := hcok.next
      refine (assign_yields v hcok.destination hck).bind (fun locals hl => ?_)
      refine (enterBlock_yields { c.frame with locals := locals } hcok.function hlt he
        ⟨hl.1, hl.2.mono hsub⟩).bind (fun fr' hfr => ?_)
      exact ⟨hfr, fun c' hc' => hc c' (List.mem_cons_of_mem _ hc')⟩
  | goto target =>
    obtain ⟨hlt, entry, he, hsub⟩ := hflow target (by simp [successors])
    exact (enterBlock_yields fr hf hlt he ⟨hk.1, hk.2.mono hsub⟩).bind (fun fr' hfr => ⟨hfr, hc⟩)
  | switchInt value targets otherwise =>
    have hi : Yields (integerOperand limits value m fr.locals) Harmless
        (fun r => Kept fr.function.locals.length (consumeOperand value owned) r.2.2) :=
      (operand_yields limits m ht.1 hk).bind (fun r hr => (switchValue_yields r.1).bind (fun _ _ => hr))
    refine hi.bind (fun r hr => ?_)
    obtain ⟨hlt, entry, he, hsub⟩ := hflow _ (switchTarget_mem r.1 value targets otherwise)
    refine (enterBlock_yields { fr with locals := r.2.2 } hf hlt he ⟨hr.1, hr.2.mono hsub⟩).bind
      (fun fr' hfr => ⟨hfr, hc⟩)
  | call callee args destination next =>
    obtain ⟨hargs, hdest, g, hg, hcount, -, -⟩ := ht
    refine (operands_yields limits m hargs hk).bind (fun r hr => ?_)
    refine (enterCall_yields hv limits _ hg (hr.1.trans hcount)).bind (fun fr' hfr => ?_)
    refine ⟨hfr.1, fun c hmem => ?_⟩
    rcases List.mem_cons.1 hmem with rfl | hmem
    · obtain ⟨hlt, entry, he, hsub⟩ := hflow next (by simp [successors])
      exact ⟨hf, hdest, consumeOperands args owned, entry, he, hsub, hlt, hr.2⟩
    · exact hc c hmem

/-- **One step keeps the invariant, and fails only harmlessly.** -/
theorem step_stateOk {p : MirProgram} (hv : verify p = .ok ()) (limits : InterpreterLimits) {s : State}
    (h : StateOk p s) : Yields (step p limits s) Harmless
      (fun x => match x with | .inl s' => StateOk p s' | .inr _ => True) := by
  obtain ⟨⟨hf, owned, t, ht, hcode, hk⟩, hc⟩ := h
  refine (tick_yields limits s.machine).bind (fun m _ => ?_)
  cases hr : s.frame.rest with
  | nil =>
    rw [hr] at hcode
    simp only [ht]
    exact stepTerminator_yields hv limits m hf hk hcode.final hcode.flows hc
  | cons x rest =>
    rw [hr] at hcode
    refine (executeStatement_yields limits m hcode.statements.1 hk).bind (fun r hr' => ?_)
    exact ⟨⟨hf, transferStatement owned x, t, ht, ⟨hcode.statements.2, hcode.final, hcode.flows⟩, hr'⟩, hc⟩

theorem startCall_stateOk {p : MirProgram} (hv : verify p = .ok ()) (limits : InterpreterLimits) {id : DefId}
    (arguments : List Value) {f : MirFunction} (hid : p.lookup id = some f)
    (hlen : arguments.length = f.parameterCount) :
    Yields (startCall p limits id arguments) Harmless (StateOk p) :=
  (enterCall_yields hv limits 1 hid hlen).bind (fun _ hfr => ⟨hfr.1, fun _ hc => by cases hc⟩)

theorem reaches_stateOk {p : MirProgram} (hv : verify p = .ok ()) {limits : InterpreterLimits} {s s' : State}
    (hr : Reaches (step p limits) s s') (h : StateOk p s) : StateOk p s' := by
  refine hr.invariant (fun a b ha hab => ?_) h
  have := step_stateOk hv limits ha
  rw [hab] at this
  exact this

/-- An execution that fails does so at its start, or in a state it reaches. -/
theorem execute_error {p : MirProgram} (hv : verify p = .ok ()) {fuel : Nat} {entry : DefId} {limits : InterpreterLimits}
    {e : Fault} (h : execute fuel p entry limits = some (.error e)) :
    (∃ s₀ s, startCall p limits entry [] = .ok s₀ ∧ Reaches (step p limits) s₀ s ∧ step p limits s = .error e) ∨
    startCall p limits entry [] = .error e := by
  unfold execute at h
  simp only [hv] at h
  cases h₀ : startCall p limits entry [] with
  | error e' =>
    simp only [h₀, Option.some.injEq, Except.error.injEq] at h
    exact .inr (by rw [h])
  | ok s₀ =>
    simp only [h₀, Option.map_eq_some_iff] at h
    obtain ⟨o, ho, hoe⟩ := h
    obtain ⟨s, hr, hs⟩ := run_eq_some _ _ _ ho
    cases o with
    | ok r => cases hoe
    | error e' =>
      cases hoe
      exact .inl ⟨s₀, s, rfl, hr, hs⟩

/-- **Executing a verified program never meets an empty slot, a missing local, block, terminator or callee, or a wrong
argument count**, in any state of any run. -/
theorem execute_no_ownership_fault {p : MirProgram} (hv : verify p = .ok ()) (entry : DefId) {f : MirFunction}
    (hentry : p.lookup entry = some f) (hparams : f.parameterCount = 0) (limits : InterpreterLimits) :
    (∀ fuel e, execute fuel p entry limits = some (.error e) → e.ownership = false) ∧
    ∀ s₀ s e, startCall p limits entry [] = .ok s₀ → Reaches (step p limits) s₀ s → step p limits s = .error e →
      e.ownership = false := by
  have hstart := startCall_stateOk hv limits [] hentry (by simp [hparams])
  have hsteps : ∀ s₀ s e, startCall p limits entry [] = .ok s₀ → Reaches (step p limits) s₀ s →
      step p limits s = .error e → e.ownership = false := by
    intro s₀ s e h₀ hr he
    rw [h₀] at hstart
    have := step_stateOk hv limits (reaches_stateOk hv hr hstart)
    rw [he] at this
    exact this
  refine ⟨fun fuel e he => ?_, hsteps⟩
  rcases execute_error hv he with ⟨s₀, s, h₀, hr, hs⟩ | h₀
  · exact hsteps s₀ s e h₀ hr hs
  · rw [h₀] at hstart
    exact hstart

/-- `main` calls a function that makes a string, drops it and returns a number. -/
def dropProgram : MirProgram where
  functions := [
    { id := ⟨0, 0⟩, parameterCount := 0, returnType := .u64, locals := [.u64, .string],
      blocks := [⟨[], some (.call ⟨0, 1⟩ [] (.loc 1) 1)⟩,
        ⟨[.drop (.loc 1), .assign (.loc 0) (.use (.const (.u64 7)))], some .ret⟩] },
    { id := ⟨0, 1⟩, parameterCount := 0, returnType := .string, locals := [.string],
      blocks := [⟨[.assign (.loc 0) (.use (.const (.string "s")))], some .ret⟩] }]
  entry := some ⟨0, 0⟩

theorem execute_dropProgram_stops_at_the_limit :
    execute 9 dropProgram ⟨0, 0⟩ ⟨3, 8, 8⟩ = some (.error (.error (.instructionLimitExceeded 3))) ∧
    (Fault.error (.instructionLimitExceeded 3)).ownership = false :=
  ⟨rfl, (execute_no_ownership_fault (p := dropProgram) (by decide) ⟨0, 0⟩ rfl rfl ⟨3, 8, 8⟩).1 9 _ rfl⟩

end Interp
end Syllog
