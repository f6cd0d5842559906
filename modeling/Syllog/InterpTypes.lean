import Syllog.InterpOwn
/-!
# InterpTypes — what the declared types say about the slots

`HasType depth` relates values and declared types.  At `shallow` it compares outermost constructors, which is all the
interpreter's dynamic checks look at; at `deep` references are typed inside, at `flat` aggregates carry no fields either,
which is what a program without fields keeps, and at `within ok` they are among the given ones, which is what a program
without field writes keeps.  A step keeps every live slot at its declared type (`step_typed`), provided a borrow of a
field goes to a local declared a reference: the verifier gives such a borrow no type and lets it go anywhere.
-/
namespace Syllog
namespace Interp

open Mir Runs

inductive Depth where
  | shallow | deep | flat
  | within (ok : DefId → UInt64 → List Value → Prop)

/-- A field write may break the type of its aggregate. -/
def Depth.rigid : Depth → Prop
  | .within _ => True
  | _         => False

def HasType (depth : Depth) : Value → MirType → Prop
  | .reference v, .reference _ ty    => depth ≠ .shallow → HasType depth v ty
  | .unit, .unit                     => True
  | .bool _, .bool                   => True
  | .i64 _, .i64                     => True
  | .u64 _, .u64                     => True
  | .string _, .string               => True
  | .aggregate d fields, .aggregate id => (depth = .flat → fields = []) ∧ ∀ ok, depth = .within ok → ok id d fields
  | _, _                             => False

def TypedLocals (depth : Depth) (f : MirFunction) (locals : Locals) : Prop :=
  ∀ (l : Nat) (v : Value) (ty : MirType), locals[l]? = some (some v) → f.locals[l]? = some ty → HasType depth v ty

section
attribute [local simp] HasType

theorem HasType.bool_inv {depth : Depth} {v : Value} (h : HasType depth v .bool) : ∃ b, v = .bool b := by
  cases v <;> simp_all [HasType]

theorem HasType.u64_inv {depth : Depth} {v : Value} (h : HasType depth v .u64) : ∃ n, v = .u64 n := by
  cases v <;> simp_all [HasType]

theorem HasType.i64_inv {depth : Depth} {v : Value} (h : HasType depth v .i64) : ∃ n, v = .i64 n := by
  cases v <;> simp_all [HasType]

theorem HasType.aggregate_inv {depth : Depth} {v : Value} {id : DefId} (h : HasType depth v (.aggregate id)) :
    ∃ d fields, v = .aggregate d fields := by
  cases v <;> simp_all [HasType]

theorem HasType.of_u64 {depth : Depth} {n : UInt64} {ty : MirType} (h : HasType depth (.u64 n) ty) : ty = .u64 := by
  cases ty <;> simp_all [HasType]

theorem HasType.of_i64 {depth : Depth} {n : Int64} {ty : MirType} (h : HasType depth (.i64 n) ty) : ty = .i64 := by
  cases ty <;> simp_all [HasType]

end

theorem HasType.shallow {depth : Depth} {v : Value} {ty : MirType} (h : HasType depth v ty) : HasType .shallow v ty := by
  cases v <;> cases ty <;> simp_all [HasType]

/-- A field write keeps an aggregate's type. -/
theorem HasType.set_field {depth : Depth} (hd : ¬ depth.rigid) {d : UInt64} {fields : List Value} {ty : MirType} (k : Nat)
    (w : Value) (h : HasType depth (.aggregate d fields) ty) : HasType depth (.aggregate d (fields.set k w)) ty := by
  cases ty with
  | aggregate id =>
    refine ⟨fun hflat => ?_, fun ok hok => absurd (hok ▸ trivial) hd⟩
    rw [h.1 hflat]
    rfl
  | _ => exact h

theorem TypedLocals.set_none {depth : Depth} {f : MirFunction} {locals : Locals} (h : TypedLocals depth f locals) (l : Nat) :
    TypedLocals depth f (locals.set l none) := by
  intro k v ty hk hty
  by_cases hlk : l = k
  · subst hlk
    rw [List.getElem?_set] at hk
    simp only [if_true] at hk
    split at hk <;> cases hk
  · rw [List.getElem?_set_ne hlk] at hk
    exact h k v ty hk hty

theorem TypedLocals.set_some {depth : Depth} {f : MirFunction} {locals : Locals} (h : TypedLocals depth f locals) {l : Nat}
    {v : Value} (hv : ∀ ty, f.locals[l]? = some ty → HasType depth v ty) :
    TypedLocals depth f (locals.set l (some v)) := by
  intro k w ty hk hty
  by_cases hlk : l = k
  · subst hlk
    rw [List.getElem?_set] at hk
    simp only [if_true] at hk
    split at hk
    · cases hk; exact hv ty hty
    · cases hk
  · rw [List.getElem?_set_ne hlk] at hk
    exact h k w ty hk hty

/-! ## Operands and rvalues -/

theorem constant_typed {depth : Depth} {limits : InterpreterLimits} {c : Constant} {m m' : Machine} {v : Value}
    (h : constant limits c m = .ok (v, m')) : HasType depth v c.ty := by
  cases c with
  | string s =>
    obtain ⟨m'', -, hr⟩ := bind_eq_ok h
    cases hr
    trivial
  | _ => cases h; trivial

theorem operand_typed {depth : Depth} {f : MirFunction} {limits : InterpreterLimits} {o : Operand} {m m' : Machine}
    {locals locals' : Locals} {v : Value} (ht : TypedLocals depth f locals)
    (h : operand limits o m locals = .ok (v, m', locals')) :
    TypedLocals depth f locals' ∧ ∀ ty, declaredType f o = some ty → HasType depth v ty := by
  cases o with
  | const c =>
    obtain ⟨r, hc, hr⟩ := bind_eq_ok h
    cases hr
    refine ⟨ht, fun ty hty => ?_⟩
    cases hty
    exact constant_typed hc
  | copy l =>
    obtain ⟨w, hw, hr⟩ := bind_eq_ok h
    cases hr
    exact ⟨ht, fun ty hty => ht l _ ty (localValue_ok hw) hty⟩
  | move l =>
    obtain ⟨slot, hs, hr⟩ := bind_eq_ok h
    cases slot with
    | none => cases hr
    | some w =>
      cases hr
      exact ⟨ht.set_none l, fun ty hty => ht l _ ty (localSlot_ok hs) hty⟩

theorem operands_typed {depth : Depth} {f : MirFunction} {limits : InterpreterLimits} : ∀ {os : List Operand}
    {m m' : Machine} {locals locals' : Locals} {vs : List Value}, TypedLocals depth f locals →
    operands limits os m locals = .ok (vs, m', locals') →
    TypedLocals depth f locals' ∧ List.Forall₂ (fun o v => ∀ ty, declaredType f o = some ty → HasType depth v ty) os vs
  | [], _, _, _, _, _, ht, h => by
    cases h
    exact ⟨ht, .nil⟩
  | o :: os, m, _, locals, _, _, ht, h => by
    obtain ⟨r, ho, hr⟩ := bind_eq_ok h
    obtain ⟨r', hos, hr'⟩ := bind_eq_ok hr
    cases hr'
    obtain ⟨ht1, hv⟩ := operand_typed ht ho
    obtain ⟨ht2, hvs⟩ := operands_typed ht1 hos
    exact ⟨ht2, .cons hv hvs⟩

theorem checkedU64_ok {t : Trap} {n : Int} {v : Value} (h : checkedU64 t n = .ok v) :
    0 ≤ n ∧ n < 2 ^ 64 ∧ v = .u64 (UInt64.ofNat n.toNat) := by
  unfold checkedU64 at h
  split at h
  · rename_i hn
    cases h
    exact ⟨hn.1, hn.2, rfl⟩
  · cases h

theorem checkedI64_ok {t : Trap} {n : Int} {v : Value} (h : checkedI64 t n = .ok v) :
    -2 ^ 63 ≤ n ∧ n < 2 ^ 63 ∧ v = .i64 (Int64.ofInt n) := by
  unfold checkedI64 at h
  split at h
  · rename_i hn
    cases h
    exact ⟨hn.1, hn.2, rfl⟩
  · cases h

/-- **A comparison or connective gives a Boolean, arithmetic a value of its left operand's type.** -/
theorem binary_typed {depth : Depth} {f : MirFunction} {operator : BinaryOp} {left right : Operand} {a b v : Value}
    (ha : ∀ ty, declaredType f left = some ty → HasType depth a ty) (h : binary operator a b = .ok v) :
    ∀ ty, rvalueType f (.binary operator left right) = some ty → HasType depth v ty := by
  intro ty hty
  unfold binary at h
  split at h <;> simp only [rvalueType] at hty
  · rw [(ha ty hty).of_u64, (checkedU64_ok h).2.2]; trivial
  · rw [(ha ty hty).of_u64, (checkedU64_ok h).2.2]; trivial
  · rw [(ha ty hty).of_u64, (checkedU64_ok h).2.2]; trivial
  · split at h
    · cases h
    · cases h; rw [(ha ty hty).of_u64]; trivial
  · rw [(ha ty hty).of_i64, (checkedI64_ok h).2.2]; trivial
  · rw [(ha ty hty).of_i64, (checkedI64_ok h).2.2]; trivial
  · rw [(ha ty hty).of_i64, (checkedI64_ok h).2.2]; trivial
  · split at h
    · cases h
    · rw [(ha ty hty).of_i64, (checkedI64_ok h).2.2]; trivial
  · cases h; cases hty; trivial
  · cases h; cases hty; trivial
  · cases h; cases hty; trivial
  · cases h; cases hty; trivial
  · cases h; cases hty; trivial
  · cases h

/-- Rvalues whose parts stay typed to the given depth. -/
def FlatRvalue (depth : Depth) : Rvalue → Prop
  | .aggregate id d fields   =>
    (depth = .flat → fields = []) ∧ ∀ ok, depth = .within ok → fields = [] ∧ ok id d []
  | .borrow _ (.field _ _)   => depth = .shallow
  | _                        => True

theorem rvalue_typed {depth : Depth} {f : MirFunction} {limits : InterpreterLimits} {value : Rvalue} {m m' : Machine}
    {locals locals' : Locals} {v : Value} (ht : TypedLocals depth f locals) (hflat : FlatRvalue depth value)
    (h : rvalue limits value m locals = .ok (v, m', locals')) :
    TypedLocals depth f locals' ∧ ∀ ty, rvalueType f value = some ty → HasType depth v ty := by
  cases value with
  | borrow mutable place =>
    obtain ⟨w, hw, hr⟩ := bind_eq_ok h
    cases hr
    refine ⟨ht, fun ty hty => ?_⟩
    cases place with
    | field base k => cases hty
    | loc l =>
      obtain ⟨inner, hi, rfl⟩ := Option.map_eq_some_iff.1 hty
      intro _
      simp only [readPlace, localValue] at hw
      split at hw
      · rename_i w' hl
        cases hw
        exact ht l _ inner hl hi
      · cases hw
  | use o => exact operand_typed ht h
  | discriminant o =>
    obtain ⟨r, ho, hr⟩ := bind_eq_ok h
    obtain ⟨w, m1, l1⟩ := r
    refine (by
      cases w with
      | aggregate d fields =>
        cases hr
        exact ⟨(operand_typed ht ho).1, fun ty hty => by cases hty; trivial⟩
      | _ => cases hr)
  | aggregate ty d fields =>
    obtain ⟨r, hos, hr⟩ := bind_eq_ok h
    obtain ⟨m1, -, hr'⟩ := bind_eq_ok hr
    cases hr'
    obtain ⟨ht1, hvs⟩ := operands_typed ht hos
    refine ⟨ht1, fun ty hty => ?_⟩
    cases hty
    refine ⟨fun hd => ?_, fun ok hd => ?_⟩
    · have hnil : fields = [] := hflat.1 hd
      subst hnil
      cases hos
      rfl
    · obtain ⟨hnil, hok⟩ := hflat.2 ok hd
      subst hnil
      cases hos
      exact hok
  | binary operator left right =>
    obtain ⟨r, hl, hr⟩ := bind_eq_ok h
    obtain ⟨r', hr1, hr2⟩ := bind_eq_ok hr
    obtain ⟨w, hb, hr3⟩ := bind_eq_ok hr2
    cases hr3
    obtain ⟨ht1, hv1⟩ := operand_typed ht hl
    obtain ⟨ht2, -⟩ := operand_typed ht1 hr1
    exact ⟨ht2, binary_typed hv1 hb⟩

/-! ## Statements -/

theorem setField_typed {depth : Depth} (hd : ¬ depth.rigid) {f : MirFunction} {base k : Nat} {v : Value} {locals locals' : Locals}
    (ht : TypedLocals depth f locals) (h : setField base k v locals = .ok locals') : TypedLocals depth f locals' := by
  obtain ⟨slot, hs, hr⟩ := bind_eq_ok h
  split at hr
  · cases hr
  · split at hr
    · cases hr
      exact ht.set_some (fun ty hty => (ht base _ ty (localSlot_ok hs) hty).set_field hd k v)
    · cases hr
  · cases hr

theorem assign_typed {depth : Depth} {f : MirFunction} {place : Place} {v : Value} {locals locals' : Locals}
    (hd : ∀ base k, place = .field base k → ¬ depth.rigid) (ht : TypedLocals depth f locals)
    (hv : ∀ l ty, place = .loc l → f.locals[l]? = some ty → HasType depth v ty)
    (h : assign place v locals = .ok locals') : TypedLocals depth f locals' := by
  cases place with
  | loc l =>
    obtain ⟨slot, -, hr⟩ := bind_eq_ok h
    cases hr
    exact ht.set_some (fun ty hty => hv l ty rfl hty)
  | field base k => exact setField_typed (hd base k rfl) ht h

/-- The place a statement writes or drops. -/
def Statement.place : Statement → Place
  | .assign destination _ => destination
  | .drop place           => place

/-- A statement whose result the declared types account for: a fieldless one when fields are tracked, and a borrow of a
field only into a local declared a reference. -/
def Tame (depth : Depth) (f : MirFunction) : Statement → Prop
  | .assign destination value => FlatRvalue depth value ∧
    ∀ mutable base k l, value = .borrow mutable (.field base k) → destination = .loc l →
      ∃ mutable' inner, f.locals[l]? = some (.reference mutable' inner)
  | .drop _                   => True

theorem executeStatement_typed {depth : Depth} {f : MirFunction} {limits : InterpreterLimits} {st : Statement}
    {m m' : Machine} {locals locals' : Locals} {owned : Finset Nat}
    (hd : ∀ base k, Statement.place st = .field base k → ¬ depth.rigid) (ht : TypedLocals depth f locals)
    (hok : StatementOk f owned st) (htame : Tame depth f st)
    (h : executeStatement limits st m locals = .ok (m', locals')) : TypedLocals depth f locals' := by
  cases st with
  | assign destination value =>
    obtain ⟨r, hr, h⟩ := bind_eq_ok h
    obtain ⟨locals'', ha, h⟩ := bind_eq_ok h
    cases h
    obtain ⟨ht', hv⟩ := rvalue_typed ht htame.1 hr
    refine assign_typed hd ht' (fun l ty hd hty => ?_) ha
    cases hrt : rvalueType f value with
    | some ty' =>
      have hl := (hok.2.2 l hd).1 ty' hrt
      rw [hty] at hl
      cases hl
      exact hv ty hrt
    | none =>
      -- only a borrow of a field has no type, or an operand that is out of range
      cases value with
      | borrow mutable place =>
        cases place with
        | loc l' =>
          simp only [rvalueType, Option.map_eq_none_iff] at hrt
          exact absurd hok.1.2 (Nat.not_lt.2 (List.getElem?_eq_none_iff.1 hrt))
        | field base k =>
          obtain ⟨mutable', inner, hl⟩ := htame.2 mutable base k l rfl hd
          rw [hty] at hl
          cases hl
          obtain ⟨w, -, hw⟩ := bind_eq_ok hr
          cases hw
          exact fun hdeep => absurd htame.1 hdeep
      | use o =>
        cases o with
        | const c => cases hrt
        | copy l' => exact absurd hok.1.2.1 (Nat.not_lt.2 (List.getElem?_eq_none_iff.1 hrt))
        | move l' => exact absurd hok.1.2 (Nat.not_lt.2 (List.getElem?_eq_none_iff.1 hrt))
      | binary operator left right =>
        obtain ⟨-, ty', hl, -⟩ := hok.1
        cases operator <;> simp [rvalueType, hl] at hrt
      | aggregate id d fields => cases hrt
      | discriminant o => cases hrt
  | drop place =>
    cases place with
    | loc l =>
      obtain ⟨slot, hs, hr⟩ := bind_eq_ok h
      cases slot with
      | none => cases hr
      | some v =>
        cases hr
        exact ht.set_none l
    | field base k =>
      obtain ⟨locals'', hs, hr⟩ := bind_eq_ok h
      cases hr
      exact setField_typed (hd base k rfl) ht hs

/-! ## Whole states -/

/-- Every waiting frame is typed, and its destination has the type its callee returns. -/
def TypedCallers (depth : Depth) : MirType → List Caller → Prop
  | _, []              => True
  | ret, c :: callers  => TypedLocals depth c.frame.function c.frame.locals ∧
    (∀ l, c.destination = .loc l → c.frame.function.locals[l]? = some ret) ∧
    TypedCallers depth c.frame.function.returnType callers

structure TypedState (depth : Depth) (s : State) : Prop where
  frame : TypedLocals depth s.frame.function s.frame.locals
  callers : TypedCallers depth s.frame.function.returnType s.callers

theorem initialLocals_typed {depth : Depth} {f g : MirFunction} {args : List Operand} {vs : List Value}
    (hty : ArgumentsTyped f g 0 args) (hsome : ∀ o ∈ args, ∃ ty, declaredType f o = some ty)
    (hvs : List.Forall₂ (fun o v => ∀ ty, declaredType f o = some ty → HasType depth v ty) args vs) :
    TypedLocals depth g (initialLocals g.locals.length vs) := by
  -- the argument at distance `i` from `k` has the type of local `k + i + 1`
  have key : ∀ (k : Nat) (args : List Operand) (vs : List Value), ArgumentsTyped f g k args →
      (∀ o ∈ args, ∃ ty, declaredType f o = some ty) →
      List.Forall₂ (fun o v => ∀ ty, declaredType f o = some ty → HasType depth v ty) args vs →
      ∀ (i : Nat) (v : Value) (ty : MirType), vs[i]? = some v → g.locals[k + i + 1]? = some ty → HasType depth v ty := by
    intro k args vs hty hsome hvs
    induction hvs generalizing k with
    | nil => intro i v ty hv; simp at hv
    | @cons o w args vs ho hrest ih =>
      intro i v ty hv hl
      cases i with
      | zero =>
        simp only [List.getElem?_cons_zero, Option.some.injEq] at hv
        subst hv
        obtain ⟨ty', hty'⟩ := hsome o List.mem_cons_self
        have := hty.1 ty' ty hty' hl
        exact this ▸ ho ty' hty'
      | succ i =>
        rw [List.getElem?_cons_succ] at hv
        exact ih (k + 1) hty.2 (fun o' ho' => hsome o' (List.mem_cons_of_mem _ ho')) i v ty hv
          (by rw [← hl]; congr 1; omega)
  intro l v ty hv hl
  have hlt : l < g.locals.length := (List.getElem?_eq_some_iff.1 hl).1
  rw [initialLocals_getElem? _ _ hlt, Option.some.injEq] at hv
  by_cases h0 : l = 0
  · rw [if_pos h0] at hv; cases hv
  · rw [if_neg h0] at hv
    refine key 0 args vs hty hsome hvs (l - 1) v ty hv ?_
    rw [← hl]
    congr 1
    omega

theorem operandsOk_declaredType {f : MirFunction} : ∀ {os : List Operand} {owned : Finset Nat}, OperandsOk f owned os →
    ∀ o ∈ os, ∃ ty, declaredType f o = some ty
  | [], _, _, _, ho => by cases ho
  | o :: os, owned, h, o', ho' => by
    rcases List.mem_cons.1 ho' with rfl | ho'
    · cases o' with
      | const c => exact ⟨_, rfl⟩
      | copy l => exact ⟨_, List.getElem?_eq_getElem h.1.2.1⟩
      | move l => exact ⟨_, List.getElem?_eq_getElem h.1.2⟩
    · exact operandsOk_declaredType h.2 o' ho'

theorem switch_typed {depth : Depth} {f : MirFunction} {limits : InterpreterLimits} {o : Operand} {m m' : Machine}
    {locals locals' : Locals} {n : Nat} (ht : TypedLocals depth f locals)
    (h : integerOperand limits o m locals = .ok (n, m', locals')) : TypedLocals depth f locals' := by
  obtain ⟨r, ho, h⟩ := bind_eq_ok h
  obtain ⟨n', -, h⟩ := bind_eq_ok h
  cases h
  exact (operand_typed ht ho).1

/-- The statement a state is about to execute is tame. -/
def TameState (depth : Depth) (s : State) : Prop := ∀ st ∈ s.frame.rest.head?, Tame depth s.frame.function st

/-- **A step keeps every live slot at its declared type**, in the running frame and in those that wait. -/
theorem step_typed {depth : Depth} (hd : ¬ depth.rigid) {p : MirProgram} {limits : InterpreterLimits} {s s' : State} (hok : StateOk p s)
    (ht : TypedState depth s) (htame : TameState depth s) (h : step p limits s = .ok (.inl s')) :
    TypedState depth s' := by
  obtain ⟨⟨hf, owned, t, hterm, hcode, hk⟩, hc⟩ := hok
  cases step_moves h with
  | statement _ code run =>
    rw [code] at hcode
    exact ⟨executeStatement_typed (fun _ _ _ => hd) ht.frame hcode.statements.1 (htame _ (by rw [code]; rfl)) run, ht.callers⟩
  | goto => exact ⟨ht.frame, ht.callers⟩
  | switchInt _ _ _ run => exact ⟨switch_typed ht.frame run, ht.callers⟩
  | call _ code last run function =>
    rw [hterm] at last
    cases last
    rw [code] at hcode
    obtain ⟨hargs, -, g', hg', -, hty, hdest⟩ := hcode.final
    rw [function] at hg'
    cases hg'
    obtain ⟨ht', hvs⟩ := operands_typed ht.frame run
    exact ⟨initialLocals_typed hty (operandsOk_declaredType hargs) hvs, ht', hdest, ht.callers⟩
  | ret _ _ _ value waiting run =>
    have hcallers := ht.callers
    rw [waiting] at hcallers
    refine ⟨assign_typed (fun _ _ _ => hd) hcallers.1 (fun l ty hd hty => ?_) run, hcallers.2.2⟩
    have hl := hcallers.2.1 l hd
    rw [hty] at hl
    cases hl
    exact ht.frame 0 _ _ value hf.result

theorem startCall_typed {depth : Depth} {p : MirProgram} {limits : InterpreterLimits} {entry : DefId} {s : State}
    (h : startCall p limits entry [] = .ok s) : TypedState depth s := by
  obtain ⟨fr, hfr, h⟩ := bind_eq_ok h
  obtain ⟨f, b, -, -, -, rfl⟩ := enterCall_ok hfr
  cases h
  refine ⟨fun l v ty hv hl => ?_, trivial⟩
  have hlt : l < f.locals.length := (List.getElem?_eq_some_iff.1 hl).1
  rw [initialLocals_getElem? _ _ hlt] at hv
  simp at hv

/-! ## Results -/

/-- The function whose return ends the run. -/
def State.bottom (s : State) : MirFunction :=
  match s.callers.getLast? with
  | some c => c.frame.function
  | none   => s.frame.function

theorem step_bottom {p : MirProgram} {limits : InterpreterLimits} {s s' : State} (h : step p limits s = .ok (.inl s')) :
    s'.bottom = s.bottom := by
  cases step_moves h with
  | statement => rfl
  | goto => rfl
  | switchInt => rfl
  | call =>
    cases hc : s.callers with
    | nil => simp [State.bottom, hc]
    | cons c callers => simp [State.bottom, hc, List.getLast?_cons]
  | @ret m v c callers locals b _ _ _ _ waiting =>
    cases callers with
    | nil => simp [State.bottom, waiting]
    | cons c' callers => simp [State.bottom, waiting, List.getLast?_cons]

theorem result_typed {depth : Depth} {p : MirProgram} {limits : InterpreterLimits} {s : State} {v : Value} {m : Machine}
    (hok : StateOk p s) (ht : TypedState depth s) (h : step p limits s = .ok (.inr (v, m))) :
    HasType depth v s.bottom.returnType := by
  obtain ⟨-, -, -, hnil, value⟩ := step_result h
  have hb : s.bottom = s.frame.function := by
    unfold State.bottom
    rw [hnil]
    rfl
  rw [hb]
  exact ht.frame 0 v _ value hok.frame.function.result

theorem execute_ok {p : MirProgram} (hv : verify p = .ok ()) {fuel : Nat} {entry : DefId} {limits : InterpreterLimits}
    {r : ExecutionResult} (h : execute fuel p entry limits = some (.ok r)) :
    ∃ s₀ v m, startCall p limits entry [] = .ok s₀ ∧ run (step p limits) fuel s₀ = some (.ok (v, m)) ∧
      r = ⟨v.intoRuntime, m.stdout, m.dropsExecuted⟩ := by
  unfold execute at h
  simp only [hv] at h
  cases h₀ : startCall p limits entry [] with
  | error e => simp [h₀] at h
  | ok s₀ =>
    simp only [h₀, Option.map_eq_some_iff] at h
    obtain ⟨o, ho, hoe⟩ := h
    cases o with
    | error e => cases hoe
    | ok x =>
      obtain ⟨v, m⟩ := x
      cases hoe
      exact ⟨s₀, v, m, rfl, ho, rfl⟩

theorem execute_of_run {p : MirProgram} (hv : verify p = .ok ()) {fuel : Nat} {entry : DefId}
    {limits : InterpreterLimits} {s₀ : State} {v : Value} {m : Machine} (h₀ : startCall p limits entry [] = .ok s₀)
    (h : run (step p limits) fuel s₀ = some (.ok (v, m))) :
    execute fuel p entry limits = some (.ok ⟨v.intoRuntime, m.stdout, m.dropsExecuted⟩) := by
  unfold execute
  simp only [hv, h₀, h]
  rfl

end Interp
end Syllog
