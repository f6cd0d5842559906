import Syllog.InterpTypes
/-!
# InterpTraps — the dynamic type checks of a run

What the verifier does not look at: the fields of aggregates, the operand types of arithmetic and of discriminant reads,
the type of a borrowed field.  `WellUsed` says these of the step a state is about to take; a run that keeps to it traps
on arithmetic and negative switch values only.
-/
namespace Syllog
namespace Interp

open Mir Runs

/-- Failures of a dynamic type check. -/
def Fault.typing : Fault → Bool
  | .error (.trap t) => t ∈ [Trap.discriminantOfNonAggregate, .binaryTypes, .switchNotInteger, .fieldBaseEmpty,
    .fieldBaseNotAggregate, .fieldOutOfRange]
  | _                => false

/-- A field place whose base holds an aggregate that has the field. -/
def FieldReady (locals : Locals) : Place → Prop
  | .loc _        => True
  | .field base k => ∃ d fields, locals[base]? = some (some (.aggregate d fields)) ∧ k < fields.length

/-- Arithmetic and order on declared integers, discriminants of declared aggregates, borrows of fields that are there. -/
def RvalueWellUsed (f : MirFunction) (locals : Locals) : Rvalue → Prop
  | .borrow _ place         => FieldReady locals place
  | .discriminant o         => ∃ id, declaredType f o = some (.aggregate id)
  | .binary operator left _ => operator ∈ [BinaryOp.add, .subtract, .multiply, .divide, .less] →
    declaredType f left = some .i64 ∨ declaredType f left = some .u64
  | .use _                  => True
  | .aggregate _ _ _        => True

/-- A field that is written is there, and the value written does not move its base away. -/
def StatementWellUsed (f : MirFunction) (locals : Locals) : Statement → Prop
  | .assign destination value => RvalueWellUsed f locals value ∧ FieldReady locals destination ∧
    (∀ base k, destination = .field base k → base ∈ consumeRvalue value {base})
  | .drop place               => FieldReady locals place

/-- **What the verifier leaves unchecked about the next step.** -/
structure WellUsed (s : State) : Prop where
  statement : ∀ st ∈ s.frame.rest.head?, StatementWellUsed s.frame.function s.frame.locals st
  tame : TameState .shallow s
  ret : s.frame.rest = [] → s.frame.terminator = some .ret →
    ∀ c ∈ s.callers.head?, FieldReady c.frame.locals c.destination

theorem WellUsed.of_statement {s : State} {st : Statement} {rest : List Statement} (hrest : s.frame.rest = st :: rest)
    (hst : StatementWellUsed s.frame.function s.frame.locals st) (htame : Tame .shallow s.frame.function st) :
    WellUsed s := by
  refine ⟨fun st' h => ?_, fun st' h => ?_, fun h => ?_⟩
  · rw [hrest] at h; cases h; exact hst
  · rw [hrest] at h; cases h; exact htame
  · rw [hrest] at h; cases h

theorem operand_error_typing {limits : InterpreterLimits} {o : Operand} {m : Machine} {locals : Locals} {e : Fault}
    (h : operand limits o m locals = .error e) : e.typing = false := by
  cases o with
  | const c =>
    rcases bind_eq_error h with h | ⟨r, -, h⟩
    · cases c with
      | string s =>
        rcases bind_eq_error h with h | ⟨r, -, h⟩
        · cases chargeAllocation_error h
          rfl
        · cases h
      | _ => cases h
    · cases h
  | copy l =>
    rcases bind_eq_error h with h | ⟨r, -, h⟩
    · cases localValue_error h
      rfl
    · cases h
  | move l =>
    rcases bind_eq_error h with h | ⟨slot, -, h⟩
    · cases localSlot_error h
      rfl
    · cases slot with
      | none => cases h; rfl
      | some v => cases h

theorem operands_error_typing {limits : InterpreterLimits} : ∀ {os : List Operand} {m : Machine} {locals : Locals}
    {e : Fault}, operands limits os m locals = .error e → e.typing = false
  | [], _, _, _, h => by cases h
  | o :: os, _, _, _, h => by
    rcases bind_eq_error h with h | ⟨r, -, h⟩
    · exact operand_error_typing h
    · rcases bind_eq_error h with h | ⟨r', -, h⟩
      · exact operands_error_typing h
      · cases h

/-- A local an operand list does not consume is left as it is. -/
theorem operand_frame {limits : InterpreterLimits} {o : Operand} {m m' : Machine} {locals locals' : Locals} {v : Value}
    {s : Finset Nat} {l : Nat} (hl : l ∈ consumeOperand o s) (h : operand limits o m locals = .ok (v, m', locals')) :
    locals'[l]? = locals[l]? ∧ l ∈ s := by
  cases o with
  | const c =>
    obtain ⟨r, -, hr⟩ := bind_eq_ok h
    cases hr
    exact ⟨rfl, hl⟩
  | copy k =>
    obtain ⟨r, -, hr⟩ := bind_eq_ok h
    cases hr
    exact ⟨rfl, hl⟩
  | move k =>
    obtain ⟨slot, -, hr⟩ := bind_eq_ok h
    obtain ⟨hne, hmem⟩ := Finset.mem_erase.1 hl
    cases slot with
    | none => cases hr
    | some w =>
      cases hr
      exact ⟨List.getElem?_set_ne (Ne.symm hne), hmem⟩

theorem operands_frame {limits : InterpreterLimits} : ∀ {os : List Operand} {m m' : Machine} {locals locals' : Locals}
    {vs : List Value} {s : Finset Nat} {l : Nat}, l ∈ consumeOperands os s →
    operands limits os m locals = .ok (vs, m', locals') → locals'[l]? = locals[l]?
  | [], _, _, _, _, _, _, _, _, h => by cases h; rfl
  | o :: os, _, _, _, _, _, s, l, hl, h => by
    obtain ⟨r, ho, h⟩ := bind_eq_ok h
    obtain ⟨r', hos, h⟩ := bind_eq_ok h
    cases h
    have hl' : l ∈ consumeOperands os (consumeOperand o s) := hl
    rw [operands_frame hl' hos]
    exact (operand_frame (consumeOperands_subset os _ hl') ho).1

theorem rvalue_frame {limits : InterpreterLimits} {value : Rvalue} {m m' : Machine} {locals locals' : Locals} {v : Value}
    {s : Finset Nat} {l : Nat} (hl : l ∈ consumeRvalue value s) (h : rvalue limits value m locals = .ok (v, m', locals')) :
    locals'[l]? = locals[l]? := by
  cases value with
  | borrow mutable place =>
    obtain ⟨w, -, h⟩ := bind_eq_ok h
    cases h
    rfl
  | use o => exact (operand_frame hl h).1
  | discriminant o =>
    obtain ⟨r, ho, h⟩ := bind_eq_ok h
    obtain ⟨w, m1, l1⟩ := r
    have hfr := (operand_frame hl ho).1
    cases w with
    | aggregate d fields => cases h; exact hfr
    | _ => cases h
  | aggregate ty d fields =>
    obtain ⟨r, hos, h⟩ := bind_eq_ok h
    obtain ⟨m1, -, h⟩ := bind_eq_ok h
    cases h
    exact operands_frame hl hos
  | binary operator left right =>
    obtain ⟨r, ha, h⟩ := bind_eq_ok h
    obtain ⟨r', hb, h⟩ := bind_eq_ok h
    obtain ⟨w, -, h⟩ := bind_eq_ok h
    cases h
    obtain ⟨h2, hmem⟩ := operand_frame hl hb
    rw [h2]
    exact (operand_frame hmem ha).1

theorem checkedI64_ne_binaryTypes {t : Trap} {n : Int} (ht : t ≠ .binaryTypes) : checkedI64 t n ≠ trap .binaryTypes := by
  intro h
  cases checkedI64_error h
  exact ht rfl

theorem checkedU64_ne_binaryTypes {t : Trap} {n : Int} (ht : t ≠ .binaryTypes) : checkedU64 t n ≠ trap .binaryTypes := by
  intro h
  cases checkedU64_error h
  exact ht rfl

theorem binary_i64_ne_binaryTypes {operator : BinaryOp} (x y : Int64)
    (hop : operator ∈ [BinaryOp.add, .subtract, .multiply, .divide, .less]) :
    binary operator (.i64 x) (.i64 y) ≠ trap .binaryTypes := by
  simp only [List.mem_cons, List.not_mem_nil, or_false] at hop
  rcases hop with rfl | rfl | rfl | rfl | rfl
  · exact checkedI64_ne_binaryTypes (by decide)
  · exact checkedI64_ne_binaryTypes (by decide)
  · exact checkedI64_ne_binaryTypes (by decide)
  · simp only [binary]
    split
    · exact fun h => by cases h
    · exact checkedI64_ne_binaryTypes (by decide)
  · exact fun h => by cases h

theorem binary_u64_ne_binaryTypes {operator : BinaryOp} (x y : UInt64)
    (hop : operator ∈ [BinaryOp.add, .subtract, .multiply, .divide, .less]) :
    binary operator (.u64 x) (.u64 y) ≠ trap .binaryTypes := by
  simp only [List.mem_cons, List.not_mem_nil, or_false] at hop
  rcases hop with rfl | rfl | rfl | rfl | rfl
  · exact checkedU64_ne_binaryTypes (by decide)
  · exact checkedU64_ne_binaryTypes (by decide)
  · exact checkedU64_ne_binaryTypes (by decide)
  · simp only [binary]
    split <;> exact fun h => by cases h
  · exact fun h => by cases h

/-- **A binary operation whose operands have the declared type it asks for does not fail on types.** -/
theorem binary_error_typing {operator : BinaryOp} {a b : Value} {ty : MirType} {e : Fault} (ha : HasType .shallow a ty)
    (hb : HasType .shallow b ty) (hint : operator ∈ [BinaryOp.add, .subtract, .multiply, .divide, .less] →
      ty = .i64 ∨ ty = .u64) (hbool : operator = .and ∨ operator = .or → ty = .bool)
    (h : binary operator a b = .error e) : e.typing = false := by
  obtain ⟨t, rfl, ht | rfl⟩ := binary_error h
  · cases t <;> simp_all [Fault.typing, Trap.arithmetic]
  · exfalso
    by_cases hop : operator ∈ [BinaryOp.add, .subtract, .multiply, .divide, .less]
    · rcases hint hop with rfl | rfl
      · obtain ⟨x, rfl⟩ := ha.i64_inv
        obtain ⟨y, rfl⟩ := hb.i64_inv
        exact binary_i64_ne_binaryTypes x y hop h
      · obtain ⟨x, rfl⟩ := ha.u64_inv
        obtain ⟨y, rfl⟩ := hb.u64_inv
        exact binary_u64_ne_binaryTypes x y hop h
    · cases operator with
      | equal => cases h
      | and =>
        obtain ⟨x, rfl⟩ := (hbool (.inl rfl) ▸ ha).bool_inv
        obtain ⟨y, rfl⟩ := (hbool (.inl rfl) ▸ hb).bool_inv
        cases h
      | or =>
        obtain ⟨x, rfl⟩ := (hbool (.inr rfl) ▸ ha).bool_inv
        obtain ⟨y, rfl⟩ := (hbool (.inr rfl) ▸ hb).bool_inv
        cases h
      | _ => simp at hop

theorem readPlace_error_typing {place : Place} {locals : Locals} {e : Fault} (hp : FieldReady locals place)
    (h : readPlace place locals = .error e) : e.typing = false := by
  cases place with
  | loc l =>
    simp only [readPlace, localValue] at h
    split at h
    · cases h
    · cases h; rfl
  | field base k =>
    obtain ⟨d, fields, hb, hk⟩ := hp
    simp [readPlace, localValue, hb, bind, Except.bind, hk] at h

theorem setField_error_typing {base k : Nat} {v : Value} {locals : Locals} {e : Fault}
    (hp : FieldReady locals (.field base k)) (h : setField base k v locals = .error e) : e.typing = false := by
  obtain ⟨d, fields, hb, hk⟩ := hp
  simp [setField, localSlot, hb, bind, Except.bind, hk] at h

theorem assign_error_typing {place : Place} {v : Value} {locals : Locals} {e : Fault} (hp : FieldReady locals place)
    (h : assign place v locals = .error e) : e.typing = false := by
  cases place with
  | loc l =>
    rcases bind_eq_error h with h | ⟨slot, -, h⟩
    · cases localSlot_error h
      rfl
    · cases h
  | field base k => exact setField_error_typing hp h

theorem rvalue_error_typing {f : MirFunction} {limits : InterpreterLimits} {value : Rvalue} {m : Machine}
    {locals : Locals} {e : Fault} {owned : Finset Nat} (ht : TypedLocals .shallow f locals) (hok : RvalueOk f owned value)
    (hw : RvalueWellUsed f locals value) (h : rvalue limits value m locals = .error e) : e.typing = false := by
  cases value with
  | borrow mutable place =>
    rcases bind_eq_error h with h | ⟨v, -, h⟩
    · exact readPlace_error_typing hw h
    · cases h
  | use o => exact operand_error_typing h
  | discriminant o =>
    rcases bind_eq_error h with h | ⟨⟨v, m', locals'⟩, ho, h⟩
    · exact operand_error_typing h
    · obtain ⟨id, hid⟩ := hw
      obtain ⟨d, fields, rfl⟩ := ((operand_typed ht ho).2 _ hid).aggregate_inv
      cases h
  | aggregate ty d fields =>
    rcases bind_eq_error h with h | ⟨r, -, h⟩
    · exact operands_error_typing h
    · rcases bind_eq_error h with h | ⟨m', -, h⟩
      · cases chargeAllocation_error h
        rfl
      · cases h
  | binary operator left right =>
    rcases bind_eq_error h with h | ⟨⟨a, m1, l1⟩, ha, h⟩
    · exact operand_error_typing h
    · rcases bind_eq_error h with h | ⟨⟨b, m2, l2⟩, hb, h⟩
      · exact operand_error_typing h
      · rcases bind_eq_error h with h | ⟨v, -, h⟩
        · obtain ⟨-, ty, hl, hr, hbool⟩ := hok
          obtain ⟨ht1, hta⟩ := operand_typed ht ha
          obtain ⟨-, htb⟩ := operand_typed ht1 hb
          refine binary_error_typing (hta ty hl) (htb ty hr) (fun hop => ?_) hbool h
          rcases hw hop with h' | h'
          · rw [hl] at h'; cases h'; exact .inl rfl
          · rw [hl] at h'; cases h'; exact .inr rfl
        · cases h

theorem executeStatement_error_typing {f : MirFunction} {limits : InterpreterLimits} {st : Statement} {m : Machine}
    {locals : Locals} {e : Fault} {owned : Finset Nat} (ht : TypedLocals .shallow f locals) (hok : StatementOk f owned st)
    (hw : StatementWellUsed f locals st) (h : executeStatement limits st m locals = .error e) : e.typing = false := by
  cases st with
  | assign destination value =>
    obtain ⟨hv, hd, hkeep⟩ := hw
    rcases bind_eq_error h with h | ⟨⟨v, m', locals'⟩, hr, h⟩
    · exact rvalue_error_typing ht hok.1 hv h
    · rcases bind_eq_error h with h | ⟨locals'', -, h⟩
      · refine assign_error_typing ?_ h
        cases destination with
        | loc l => trivial
        | field base k =>
          obtain ⟨d, fields, hb, hk⟩ := hd
          exact ⟨d, fields, (rvalue_frame (hkeep base k rfl) hr).trans hb, hk⟩
      · cases h
  | drop place =>
    cases place with
    | loc l =>
      rcases bind_eq_error h with h | ⟨slot, -, h⟩
      · cases localSlot_error h
        rfl
      · cases slot with
        | none => cases h; rfl
        | some v => cases h
    | field base k =>
      rcases bind_eq_error h with h | ⟨locals', -, h⟩
      · exact setField_error_typing hw h
      · cases h

theorem enterBlock_error_typing {fr : Frame} {target : Nat} {e : Fault} (h : enterBlock fr target = .error e) :
    e.typing = false := by
  unfold enterBlock at h
  split at h
  · cases h
  · cases h; rfl

theorem enterCall_error_typing {p : MirProgram} {limits : InterpreterLimits} {id : DefId} {arguments : List Value}
    {depth : Nat} {e : Fault} (h : enterCall p limits id arguments depth = .error e) : e.typing = false := by
  unfold enterCall at h
  split at h
  · cases h; rfl
  · split at h
    · cases h; rfl
    · split at h
      · cases h; rfl
      · split at h
        · cases h; rfl
        · exact enterBlock_error_typing h

theorem switchValue_error_typing {v : Value} {ty : MirType} {e : Fault} (hv : HasType .shallow v ty) (hty : IntegerLike ty)
    (h : switchValue v = .error e) : e.typing = false := by
  rcases hty with rfl | rfl | rfl
  · obtain ⟨b, rfl⟩ := hv.bool_inv
    cases h
  · obtain ⟨n, rfl⟩ := hv.i64_inv
    simp only [switchValue] at h
    split at h
    · cases h; rfl
    · cases h
  · obtain ⟨n, rfl⟩ := hv.u64_inv
    cases h

/-- **A well-used step of a typed state does not fail on a dynamic type check.** -/
theorem step_error_typing {p : MirProgram} {limits : InterpreterLimits} {s : State} {e : Fault} (hok : StateOk p s)
    (ht : TypedState .shallow s) (hw : WellUsed s) (h : step p limits s = .error e) : e.typing = false := by
  obtain ⟨⟨hf, owned, t, hterm, hcode, hk⟩, hc⟩ := hok
  rcases bind_eq_error h with h | ⟨m, -, h⟩
  · unfold tick at h
    simp only at h
    split at h
    · cases h; rfl
    · cases h
  · cases hrest : s.frame.rest with
    | cons st rest =>
      rw [hrest] at hcode
      simp only [hrest] at h
      rcases bind_eq_error h with h | ⟨r, -, h⟩
      · exact executeStatement_error_typing ht.frame hcode.statements.1 (hw.statement st (by rw [hrest]; rfl)) h
      · cases h
    | nil =>
      rw [hrest] at hcode
      simp only [hrest, hterm] at h
      cases t with
      | goto target =>
        rcases bind_eq_error h with h | ⟨fr, -, h⟩
        · exact enterBlock_error_typing h
        · cases h
      | switchInt value targets otherwise =>
        obtain ⟨-, ty, hty, hint⟩ := hcode.final
        rcases bind_eq_error h with h | ⟨r, -, h⟩
        · rcases bind_eq_error h with h | ⟨⟨v, m', locals'⟩, ho, h⟩
          · exact operand_error_typing h
          · rcases bind_eq_error h with h | ⟨n, -, h⟩
            · exact switchValue_error_typing ((operand_typed ht.frame ho).2 ty hty) hint h
            · cases h
        · rcases bind_eq_error h with h | ⟨fr, -, h⟩
          · exact enterBlock_error_typing h
          · cases h
      | call callee args destination next =>
        rcases bind_eq_error h with h | ⟨r, -, h⟩
        · exact operands_error_typing h
        · rcases bind_eq_error h with h | ⟨fr, -, h⟩
          · exact enterCall_error_typing h
          · cases h
      | ret =>
        simp only [stepTerminator] at h
        split at h
        · cases h; rfl
        · cases h; rfl
        · cases hcs : s.callers with
          | nil => rw [hcs] at h; cases h
          | cons c callers =>
            rw [hcs] at h
            rcases bind_eq_error h with h | ⟨locals, -, h⟩
            · exact assign_error_typing (hw.ret hrest hterm c (by rw [hcs]; rfl)) h
            · rcases bind_eq_error h with h | ⟨fr, -, h⟩
              · exact enterBlock_error_typing h
              · cases h

theorem trap_of_not_ownership_not_typing {t : Trap} (h : (Fault.error (.trap t)).ownership = false)
    (h' : (Fault.error (.trap t)).typing = false) : t.arithmetic = true ∨ t = .negativeSwitch := by
  cases t <;> simp_all [Fault.ownership, Fault.typing, Trap.arithmetic]

/-- **In a run of a verified program whose states are all well used, a trap is an arithmetic one or a negative
switch value.** -/
theorem execute_wellUsed_no_type_trap {p : MirProgram} (hv : verify p = .ok ()) (entry : DefId) {f : MirFunction}
    (hentry : p.lookup entry = some f) (hparams : f.parameterCount = 0) (limits : InterpreterLimits)
    (hused : ∀ s₀ s, startCall p limits entry [] = .ok s₀ → Reaches (step p limits) s₀ s → WellUsed s) :
    (∀ fuel t, execute fuel p entry limits = some (.error (.error (.trap t))) →
      t.arithmetic = true ∨ t = .negativeSwitch) ∧
    ∀ s₀ s t, startCall p limits entry [] = .ok s₀ → Reaches (step p limits) s₀ s →
      step p limits s = .error (.error (.trap t)) → t.arithmetic = true ∨ t = .negativeSwitch := by
  have hstart := startCall_stateOk hv limits [] hentry (by simp [hparams])
  have htyped : ∀ s₀ s, startCall p limits entry [] = .ok s₀ → Reaches (step p limits) s₀ s →
      StateOk p s ∧ TypedState .shallow s := by
    intro s₀ s h₀ hr
    rw [h₀] at hstart
    have hinv : Reaches (step p limits) s₀ s ∧ TypedState .shallow s := by
      refine hr.invariant (P := fun s => Reaches (step p limits) s₀ s ∧ TypedState .shallow s) ?_
        ⟨Reaches.refl _ _, startCall_typed h₀⟩
      intro a b ⟨hra, hta⟩ hab
      exact ⟨hra.trans (Reaches.single hab),
        step_typed id (reaches_stateOk hv hra hstart) hta (hused s₀ a h₀ hra).tame hab⟩
    exact ⟨reaches_stateOk hv hr hstart, hinv.2⟩
  have hsteps : ∀ s₀ s t, startCall p limits entry [] = .ok s₀ → Reaches (step p limits) s₀ s →
      step p limits s = .error (.error (.trap t)) → t.arithmetic = true ∨ t = .negativeSwitch := by
    intro s₀ s t h₀ hr he
    obtain ⟨hok, ht⟩ := htyped s₀ s h₀ hr
    refine trap_of_not_ownership_not_typing ?_ (step_error_typing hok ht (hused s₀ s h₀ hr) he)
    have := step_stateOk hv limits hok
    rw [he] at this
    exact this
  refine ⟨fun fuel t he => ?_, hsteps⟩
  obtain ⟨s₀, s, h₀, hr, hs⟩ | hs := execute_error hv he
  · exact hsteps s₀ s t h₀ hr hs
  · rw [hs] at hstart
    have hfr := (bind_eq_error hs).resolve_right (fun ⟨_, _, h⟩ => by cases h)
    exact trap_of_not_ownership_not_typing hstart (enterCall_error_typing hfr)

/-- `main` makes an aggregate, rewrites its field, reads its tag and overflows. -/
def fieldProgram : MirProgram where
  functions := [
    { id := ⟨0, 0⟩, parameterCount := 0, returnType := .u64, locals := [.u64, .aggregate ⟨0, 1⟩, .u64],
      blocks := [⟨[.assign (.loc 1) (.aggregate ⟨0, 1⟩ 3 [.const (.bool true)]),
        .assign (.field 1 0) (.use (.const (.u64 5))), .assign (.loc 2) (.discriminant (.move 1)),
        .assign (.loc 0) (.binary .subtract (.copy 2) (.const (.u64 4)))], some .ret⟩] }]
  entry := some ⟨0, 0⟩

theorem execute_fieldProgram_overflows :
    execute 9 fieldProgram ⟨0, 0⟩ ⟨9, 9, 99⟩ = some (.error (.error (.trap .u64Subtract))) ∧
    Trap.u64Subtract.arithmetic = true := by
  refine ⟨rfl, (((execute_wellUsed_no_type_trap (p := fieldProgram) (by decide) ⟨0, 0⟩ rfl rfl ⟨9, 9, 99⟩ ?_).1 9 _
    rfl).resolve_right (by decide))⟩
  intro s₀ s h₀ hr
  cases h₀
  refine Throughout.of_reaches (n := 4) ?_ hr
  refine ⟨.of_statement rfl ?_ ?_, .of_statement rfl ?_ ?_, .of_statement rfl ?_ ?_, .of_statement rfl ?_ ?_, trivial⟩
  · exact ⟨trivial, trivial, by simp⟩
  · exact ⟨by simp [FlatRvalue], by simp⟩
  · exact ⟨trivial, ⟨3, _, rfl, by decide⟩, by simp [consumeRvalue, consumeOperand]⟩
  · exact ⟨trivial, by simp⟩
  · exact ⟨⟨_, rfl⟩, trivial, by simp⟩
  · exact ⟨trivial, by simp⟩
  · exact ⟨fun _ => .inr rfl, trivial, by simp⟩
  · exact ⟨trivial, by simp⟩

/-- The discriminant of a Boolean: accepted, and a trap when it is executed. -/
def booleanDiscriminantProgram : MirProgram where
  functions := [
    { id := ⟨0, 0⟩, parameterCount := 0, returnType := .u64, locals := [.u64],
      blocks := [⟨[.assign (.loc 0) (.discriminant (.const (.bool true)))], some .ret⟩] }]
  entry := some ⟨0, 0⟩

theorem execute_booleanDiscriminant_traps :
    verify booleanDiscriminantProgram = .ok () ∧
    ∃ f, booleanDiscriminantProgram.lookup ⟨0, 0⟩ = some f ∧ f.parameterCount = 0 ∧
      execute 3 booleanDiscriminantProgram ⟨0, 0⟩ ⟨9, 9, 9⟩ =
        some (.error (.error (.trap .discriminantOfNonAggregate))) :=
  ⟨by decide, _, rfl, rfl, rfl⟩

end Interp
end Syllog
