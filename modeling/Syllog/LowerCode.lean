import Syllog.Follows
import Syllog.InterpLimits
import Syllog.InterpTypes
import Syllog.LowerStatic
/-!
# LowerCode — lowered code under the machine

The function the lowering is about to return is fixed as `F`.  `Built b F`: the builder's ended blocks are in `F`, and its
current block starts one of `F`'s.  `At b s`: the machine stands where the builder does.  Slots are compared with the
evaluator's variables as far as they are full (`Agrees`, `Holds`): what is read is full, by verification, and what was
moved is not read again.
-/
namespace Syllog
namespace Lower

open Mir Hir Runs
open Interp hiding Trap

/-! ## The code of the final function -/

/-- Block `i` has these statements and this terminator, and drops of other locals than the return slot in between. -/
def Installed (F : MirFunction) (i : Nat) (statements : List Statement) (t : Terminator) : Prop :=
  ∃ ds : List Nat, F.blocks[i]? = some ⟨statements ++ ds.map (fun l => .drop (.loc l)), some t⟩ ∧ 0 ∉ ds

/-- Every ended block of the builder is in the function. -/
structure Sealed (b : FunctionBuilder) (F : MirFunction) : Prop where
  locals : b.locals <+: F.locals
  blocks : ∀ i block t, b.blocks[i]? = some block → block.terminator = some t → Installed F i block.statements t

/-- **The builder on its way to the function**: the current block may still grow. -/
structure Built (b : FunctionBuilder) (F : MirFunction) : Prop where
  locals : b.locals <+: F.locals
  blocks : ∀ i block t, i ≠ b.current → b.blocks[i]? = some block → block.terminator = some t →
    Installed F i block.statements t
  current : ∃ block last, b.blocks[b.current]? = some block ∧ F.blocks[b.current]? = some last ∧
    block.statements <+: last.statements

section
variable {b b' : FunctionBuilder} {F : MirFunction}

theorem Installed.block {i : Nat} {statements : List Statement} {t : Terminator} (h : Installed F i statements t) :
    ∃ last, F.blocks[i]? = some last ∧ statements <+: last.statements := by
  obtain ⟨ds, hb, -⟩ := h
  exact ⟨_, hb, List.prefix_append _ _⟩

/-- What was built on the way to a builder is built. -/
theorem Built.of_keeps (h : Built b' F) (hk : Keeps b b') : Built b F := by
  obtain ⟨block, block', hb, hb', hpre, hmoved⟩ := hk.filled
  have hlt : b.current < b.blocks.length := (List.getElem?_eq_some_iff.1 hb).1
  refine ⟨hk.locals.trans h.locals, fun i blk t hi hblk ht => ?_, ?_⟩
  · have hilt : i < b.blocks.length := (List.getElem?_eq_some_iff.1 hblk).1
    refine h.blocks i blk t ?_ ?_ ht
    · rcases hmoved with hm | ⟨hm, -⟩ <;> omega
    · rw [hk.others i hilt hi]
      exact hblk
  · rcases hmoved with hm | ⟨hm, hsome⟩
    · obtain ⟨blk, last, hblk, hlast, hpre'⟩ := h.current
      rw [hm] at hblk hlast
      rw [hb'] at hblk
      cases hblk
      exact ⟨block, last, hb, hlast, hpre.trans hpre'⟩
    · obtain ⟨t, ht⟩ := Option.isSome_iff_exists.1 hsome
      obtain ⟨last, hlast, hpre'⟩ := (h.blocks b.current block' t (by omega) hb' ht).block
      exact ⟨block, last, hb, hlast, hpre.trans hpre'⟩

theorem Sealed.built (h : Sealed b F) {t : Terminator} (ht : b.terminator = some t) : Built b F := by
  obtain ⟨block, hb, hblock⟩ := Option.bind_eq_some_iff.1 ht
  obtain ⟨last, hlast, hpre⟩ := (h.blocks _ block t hb hblock).block
  exact ⟨h.locals, fun i blk t _ => h.blocks i blk t, block, last, hb, hlast, hpre⟩

/-- Leaving an ended block for one that is not. -/
theorem Built.of_enter {k : Nat} (h : Built (b.enter k) F) (hk : (b.enter k).terminator = none) : Sealed b F := by
  refine ⟨h.locals, fun i block t hb ht => h.blocks i block t ?_ hb ht⟩
  intro (hi : i = k)
  subst hi
  have hsome : (b.enter i).terminator = some t := by
    unfold FunctionBuilder.terminator
    show b.blocks[i]?.bind _ = _
    rw [hb]
    exact ht
  rw [hk] at hsome
  cases hsome

/-- Arms fill blocks that were not ended. -/
theorem Sealed.of_fills {result join block count : Nat} (h : Sealed b' F) (hf : Fills result join block count b b')
    (hfresh : ∀ i, block ≤ i → i < block + count → b.blocks[i]? = some ⟨[], none⟩) : Sealed b F := by
  refine ⟨hf.locals.trans h.locals, fun i blk t hb ht => h.blocks i blk t ?_ ht⟩
  have hlt : i < b.blocks.length := (List.getElem?_eq_some_iff.1 hb).1
  by_cases hi : block ≤ i ∧ i < block + count
  · rw [hfresh i hi.1 hi.2] at hb
    cases hb
    cases ht
  · rw [hf.others i hlt hi]
    exact hb

end

/-! ## Slots -/

/-- Slots are only emptied. -/
def Thins (L L' : Locals) : Prop := ∀ (l : Nat) (w : Value), L'[l]? = some (some w) → L[l]? = some (some w)

/-- Below `n` slots are only emptied, the return slot apart where `zero` says so. -/
def Fades (n : Nat) (zero : Bool) (L L' : Locals) : Prop :=
  ∀ (l : Nat) (w : Value), l < n → (l = 0 → zero = false) → L'[l]? = some (some w) → L[l]? = some (some w)

/-- An operand that still has to be read. -/
def Holds (o : Operand) (v : Value) (L : Locals) : Prop :=
  match o with
  | .const constant => v = constantValue constant
  | .copy l         => ∀ w, L[l]? = some (some w) → w = v
  | .move l         => ∀ w, L[l]? = some (some w) → w = v

/-- The slots agree with the evaluator's variables. -/
structure Agrees (b : FunctionBuilder) (env : Env) (L : Locals) : Prop where
  bindings : ∀ d l w, lookupKey d b.bindings = some l → L[l]? = some (some w) → env d = w
  fresh : ∀ l w, L[l]? = some (some w) → l < b.locals.length

section
variable {L L' L'' : Locals} {n m : Nat} {y z : Bool} {o : Operand} {v : Value}

theorem Thins.refl (L : Locals) : Thins L L := fun _ _ h => h

theorem Thins.trans (h : Thins L L') (h' : Thins L' L'') : Thins L L'' := fun l w hl => h l w (h' l w hl)

theorem thins_set_none (L : Locals) (l : Nat) : Thins L (L.set l none) := by
  intro k w hk
  by_cases hlk : l = k
  · subst hlk
    rw [List.getElem?_set] at hk
    simp only [if_true] at hk
    split at hk <;> cases hk
  · rwa [List.getElem?_set_ne hlk] at hk

theorem Thins.fades (h : Thins L L') : Fades n z L L' := fun l w _ _ hl => h l w hl

theorem Fades.trans (h : Fades n y L L') (h' : Fades m z L' L'') (hle : n ≤ m) : Fades n (y || z) L L'' := by
  intro l w hl hz hw
  have hboth : l = 0 → y = false ∧ z = false := fun h0 => by simpa using hz h0
  exact h l w hl (fun h0 => (hboth h0).1) (h' l w (by omega) (fun h0 => (hboth h0).2) hw)

theorem Fades.mono (h : Fades m y L L') (hle : n ≤ m) (hz : y = true → z = true) : Fades n z L L' := by
  intro l w hl h0 hw
  refine h l w (by omega) (fun hl0 => ?_) hw
  cases y with
  | false => rfl
  | true =>
    have := h0 hl0
    rw [hz rfl] at this
    cases this

/-- A write above `n`, or to the return slot. -/
theorem Fades.set (h : Fades n z L L') {k : Nat} (hk : n ≤ k ∨ (k = 0 ∧ z = true)) (v : Value) :
    Fades n z L (L'.set k (some v)) := by
  intro l w hl h0 hw
  by_cases hkl : k = l
  · subst hkl
    rcases hk with hk | ⟨rfl, hz⟩
    · omega
    · rw [h0 rfl] at hz
      cases hz
  · rw [List.getElem?_set_ne hkl] at hw
    exact h l w hl h0 hw

theorem Holds.thins (h : Holds o v L) (ht : Thins L L') : Holds o v L' := by
  cases o with
  | const constant => exact h
  | copy l => exact fun w hw => h w (ht l w hw)
  | move l => exact fun w hw => h w (ht l w hw)

/-- A pending operand outlives what is evaluated after it. -/
theorem Holds.fades {c : Scope} {e : TypedExpr} {expected : Option MirType} {b : FunctionBuilder} (h : Holds o v L)
    (hr : Reads c e expected o b) (hf : Fades b.locals.length z L L') (hz : e.viaResult = true → z = false) :
    Holds o v L' := by
  have hlt : ∀ {l}, b.locals[l]? = some (typeOf c e expected) → l < b.locals.length :=
    fun hl => (List.getElem?_eq_some_iff.1 hl).1
  cases o with
  | const constant => exact h
  | copy l => exact fun w hw => h w (hf l w (hlt hr.ty) (fun h0 => hz (hr.result (.inl (by rw [h0])))) hw)
  | move l => exact fun w hw => h w (hf l w (hlt hr.ty) (fun h0 => hz (hr.result (.inr (by rw [h0])))) hw)

theorem Agrees.thins {b : FunctionBuilder} {env : Env} (h : Agrees b env L) (ht : Thins L L') : Agrees b env L' :=
  ⟨fun d l w hd hw => h.bindings d l w hd (ht l w hw), fun l w hw => h.fresh l w (ht l w hw)⟩

/-- Bindings of locals that are not written yet do no harm. -/
theorem Agrees.extend {b b' : FunctionBuilder} {env : Env} (h : Agrees b env L) {new : List (DefId × Nat)}
    (hb : b'.bindings = new ++ b.bindings) (hnew : ∀ entry ∈ new, b.locals.length ≤ entry.2)
    (hle : b.locals.length ≤ b'.locals.length) : Agrees b' env L := by
  refine ⟨fun d l w hd hw => ?_, fun l w hw => Nat.lt_of_lt_of_le (h.fresh l w hw) hle⟩
  rw [hb] at hd
  rcases lookupKey_append hd with hmem | hd
  · have hlow := h.fresh l w hw
    have hhigh := hnew _ hmem
    exact absurd hlow (Nat.not_lt.2 hhigh)
  · exact h.bindings d l w hd hw

/-- A write to a local without a binding. -/
theorem Agrees.set {b : FunctionBuilder} {env : Env} (h : Agrees b env L) (b' : FunctionBuilder) (hb : b'.bindings = b.bindings)
    (hl : b.locals.length ≤ b'.locals.length) {k : Nat} (hk : k < b'.locals.length)
    (hfree : ∀ d, lookupKey d b.bindings ≠ some k) (v : Value) : Agrees b' env (L.set k (some v)) := by
  refine ⟨fun d l w hd hw => ?_, fun l w hw => ?_⟩
  · rw [hb] at hd
    have hkl : k ≠ l := fun hkl => hfree d (hkl ▸ hd)
    rw [List.getElem?_set_ne hkl] at hw
    exact h.bindings d l w hd hw
  · by_cases hkl : k = l
    · exact hkl ▸ hk
    · rw [List.getElem?_set_ne hkl] at hw
      exact Nat.lt_of_lt_of_le (h.fresh l w hw) hl

/-- No variable is in the return slot or in a local that is still to come. -/
theorem Bound.free {c : Scope} {b : FunctionBuilder} (h : Bound c b) {k : Nat} (hk : b.locals.length ≤ k ∨ k = 0)
    (d : DefId) : lookupKey d b.bindings ≠ some k := by
  intro hd
  obtain ⟨hpos, ty, hty, -⟩ := h.bindings d k hd
  have hlt := (List.getElem?_eq_some_iff.1 hty).1
  omega

end

/-! ## Reads -/

section
variable {limits : InterpreterLimits} {m m' : Machine} {L L' : Locals}

theorem operand_thins {o : Operand} {v : Value} (h : operand limits o m L = .ok (v, m', L')) : Thins L L' := by
  cases o with
  | const constant =>
    obtain ⟨r, -, h⟩ := bind_eq_ok h
    cases h
    exact Thins.refl _
  | copy l =>
    obtain ⟨r, -, h⟩ := bind_eq_ok h
    cases h
    exact Thins.refl _
  | move l =>
    obtain ⟨slot, -, h⟩ := bind_eq_ok h
    cases slot with
    | none => cases h
    | some w =>
      cases h
      exact thins_set_none _ _

theorem operand_value {o : Operand} {v w : Value} (h : operand limits o m L = .ok (w, m', L')) (hv : Holds o v L) :
    w = v := by
  cases o with
  | const constant =>
    obtain ⟨r, hr, h⟩ := bind_eq_ok h
    cases h
    rw [show v = constantValue constant from hv]
    cases constant with
    | string text =>
      obtain ⟨m1, -, hr⟩ := bind_eq_ok hr
      cases hr
      rfl
    | _ => cases hr; rfl
  | copy l =>
    obtain ⟨r, hr, h⟩ := bind_eq_ok h
    cases h
    exact hv _ (localValue_ok hr)
  | move l =>
    obtain ⟨slot, hs, h⟩ := bind_eq_ok h
    cases slot with
    | none => cases h
    | some w' =>
      cases h
      exact hv _ (localSlot_ok hs)

end

theorem operands_values {limits : InterpreterLimits} : ∀ {os : List Operand} {vs ws : List Value} {m m' : Machine}
    {L L' : Locals}, operands limits os m L = .ok (ws, m', L') → List.Forall₂ (fun o v => Holds o v L) os vs →
    ws = vs ∧ Thins L L'
  | [], _, _, _, _, _, _, h, hv => by
    cases hv
    cases h
    exact ⟨rfl, Thins.refl _⟩
  | o :: os, _, _, _, _, L, _, h, hv => by
    cases hv with
    | cons hv hvs =>
      obtain ⟨⟨w, m1, L1⟩, ho, h⟩ := bind_eq_ok h
      obtain ⟨⟨ws, m2, L2⟩, hos, h⟩ := bind_eq_ok h
      cases h
      have hthin := operand_thins ho
      obtain ⟨rfl, hthin'⟩ := operands_values hos (hvs.imp (fun _ _ hh => hh.thins hthin))
      rw [operand_value ho hv]
      exact ⟨rfl, hthin.trans hthin'⟩

/-! ## Positions -/

section
variable (p : MirProgram) (F : MirFunction) (cs : List Caller) (admits : DefId → UInt64 → List Value → Prop)

/-- The machine executes `F`, for the callers `cs`, with slots of the declared types. -/
structure Inside (s : State) : Prop where
  ok : StateOk p s
  function : s.frame.function = F
  callers : s.callers = cs
  typed : TypedLocals (.within admits) F s.frame.locals

/-- **The machine stands where the builder does**: what the current block has is executed, what it gets is to come. -/
structure At (b : FunctionBuilder) (s : State) : Prop extends Inside p F cs admits s where
  block : s.frame.block = b.current
  code : ∃ blk last, b.blocks[b.current]? = some blk ∧ F.blocks[b.current]? = some last ∧
    last.statements = blk.statements ++ s.frame.rest

/-- The machine stands at the end of a block. -/
structure Ready (i : Nat) (t : Terminator) (s : State) : Prop extends Inside p F cs admits s where
  block : s.frame.block = i
  rest : s.frame.rest = []
  last : s.frame.terminator = some t

end

section
variable {p : MirProgram} {F : MirFunction} {cs : List Caller} {admits : DefId → UInt64 → List Value → Prop}
  {b b' : FunctionBuilder} {s s' : State}

theorem At.congr (h : At p F cs admits b s) (hb : b'.blocks = b.blocks) (hc : b'.current = b.current) :
    At p F cs admits b' s := by
  refine ⟨h.toInside, by rw [hc]; exact h.block, ?_⟩
  rw [hb, hc]
  exact h.code

theorem Inside.step_statement (hv : verify p = .ok ()) (h : Inside p F cs admits s) {st : Statement}
    {rest : List Statement} (hrest : s.frame.rest = st :: rest) (hplace : ∀ base k, Statement.place st ≠ .field base k)
    (htame : Tame (.within admits) F st) (hs : step p unlimited s = .ok (.inl s')) : Inside p F cs admits s' := by
  have hok' := step_stateOk_next hv h.ok hs
  obtain ⟨m, m', locals, hexec, hx⟩ := Interp.step_statement hrest hs
  cases hx
  obtain ⟨⟨-, owned, t, -, hcode, -⟩, -⟩ := h.ok
  rw [hrest, h.function] at hcode
  refine ⟨hok', h.function, h.callers, ?_⟩
  exact executeStatement_typed (fun base k hp => absurd hp (hplace base k)) h.typed hcode.statements.1 htame hexec

/-- An assignment the builder appended is the next statement. -/
theorem At.next (h : At p F cs admits b s) {l : Nat} {value : Rvalue} (hb : Built (b.assign (.loc l) value) F) :
    ∃ rest, s.frame.rest = .assign (.loc l) value :: rest ∧ ∀ s', Inside p F cs admits s' →
      s'.frame.block = s.frame.block → s'.frame.rest = rest → At p F cs admits (b.assign (.loc l) value) s' := by
  obtain ⟨blk, last, hblk, hlast, hcode⟩ := h.code
  obtain ⟨blk', last', hblk', hlast', rest, hrest⟩ := hb.current
  have hcur : (b.assign (.loc l) value).blocks[b.current]? =
      some { blk with statements := blk.statements ++ [.assign (.loc l) value] } := by
    show (b.blocks.modify b.current _)[b.current]? = _
    rw [List.getElem?_modify_eq, hblk]
    rfl
  have hc : (b.assign (.loc l) value).current = b.current := rfl
  rw [hc] at hblk' hlast'
  rw [hcur] at hblk'
  cases hblk'
  rw [hlast] at hlast'
  cases hlast'
  refine ⟨rest, ?_, fun s' hin hblock hs' => ⟨hin, hblock.trans h.block, _, last, hcur, hlast, ?_⟩⟩
  · rw [hcode, List.append_assoc] at hrest
    exact (List.append_cancel_left hrest).symm
  · rw [hs']
    exact hrest.symm

/-- **It is executed**, where only a missing value could stop it. -/
theorem At.assign (hv : verify p = .ok ()) (h : At p F cs admits b s) {l : Nat} {value : Rvalue}
    (hb : Built (b.assign (.loc l) value) F) (htame : Tame (.within admits) F (.assign (.loc l) value))
    (herr : ∀ m e, rvalue unlimited value m s.frame.locals = .error e → e.ownership = true) :
    ∃ m m' v L' s', rvalue unlimited value m s.frame.locals = .ok (v, m', L') ∧ Reaches (step p unlimited) s s' ∧
      At p F cs admits (b.assign (.loc l) value) s' ∧ s'.frame.locals = L'.set l (some v) := by
  obtain ⟨rest, hrest, hat⟩ := h.next hb
  obtain ⟨m, m', v, L', hr, hstep⟩ := assign_proceeds hv h.ok hrest herr
  refine ⟨m, m', v, L', _, hr, Reaches.single hstep, hat _ ?_ rfl rfl, rfl⟩
  exact h.toInside.step_statement hv hrest (fun _ _ hp => by cases hp) htame hstep

theorem drops_run (hv : verify p = .ok ()) : ∀ (ds : List Nat) (s : State), Inside p F cs admits s →
    s.frame.rest = ds.map (fun l => .drop (.loc l)) → 0 ∉ ds →
    ∃ s', Reaches (step p unlimited) s s' ∧ Inside p F cs admits s' ∧ s'.frame.rest = [] ∧
      s'.frame.block = s.frame.block ∧ Thins s.frame.locals s'.frame.locals ∧
      s'.frame.locals[0]? = s.frame.locals[0]?
  | [], s, h, hrest, _ => ⟨s, .refl _ _, h, hrest, rfl, Thins.refl _, rfl⟩
  | l :: ds, s, h, hrest, h0 => by
    rw [List.map_cons] at hrest
    obtain ⟨m', hstep⟩ := drop_proceeds hv h.ok hrest
    have hin := h.step_statement hv hrest (fun _ _ hp => by cases hp) trivial hstep
    obtain ⟨s', hr, hin', hrest', hblock, hthin, hzero⟩ := drops_run hv ds _ hin rfl
      (fun hmem => h0 (List.mem_cons_of_mem _ hmem))
    refine ⟨s', Reaches.head hstep hr, hin', hrest', hblock, (thins_set_none _ l).trans hthin, hzero.trans ?_⟩
    exact List.getElem?_set_ne (fun hl => h0 (by rw [hl]; exact List.mem_cons_self))

/-- The machine runs to the end of a block that is ended. -/
theorem At.finish (hv : verify p = .ok ()) (h : At p F cs admits b s) {blk : BasicBlock} {t : Terminator}
    (hblk : b.blocks[b.current]? = some blk) (hi : Installed F b.current blk.statements t) :
    ∃ s', Reaches (step p unlimited) s s' ∧ Ready p F cs admits b.current t s' ∧
      Thins s.frame.locals s'.frame.locals ∧ s'.frame.locals[0]? = s.frame.locals[0]? := by
  obtain ⟨ds, hF, h0⟩ := hi
  obtain ⟨blk', last, hblk', hlast, hcode⟩ := h.code
  rw [hblk] at hblk'
  cases hblk'
  rw [hF] at hlast
  cases hlast
  have hrest : s.frame.rest = ds.map (fun l => .drop (.loc l)) := (List.append_cancel_left hcode).symm
  obtain ⟨s', hr, hin, hnil, hblock, hthin, hzero⟩ := drops_run hv ds s h.toInside hrest h0
  refine ⟨s', hr, ⟨hin, hblock.trans h.block, hnil, ?_⟩, hthin, hzero⟩
  unfold Frame.terminator
  rw [hin.function, hblock, h.block, hF]
  rfl

/-- The start of a block the builder has not filled yet. -/
theorem Inside.enter (h : Inside p F cs admits s) {t : Option Terminator} {last : BasicBlock}
    (hblock : s.frame.block = b.current) (hb : b.blocks[b.current]? = some ⟨[], t⟩)
    (hF : F.blocks[b.current]? = some last) (hrest : s.frame.rest = last.statements) : At p F cs admits b s :=
  ⟨h, hblock, ⟨[], t⟩, last, hb, hF, by rw [hrest]; rfl⟩

/-- A jump to a block the builder has not filled yet. -/
theorem Ready.goto (hv : verify p = .ok ()) {i : Nat} (h : Ready p F cs admits i (.goto b.current) s)
    {t : Option Terminator} (hb : b.blocks[b.current]? = some ⟨[], t⟩) :
    ∃ s', Reaches (step p unlimited) s s' ∧ At p F cs admits b s' ∧ s'.frame.locals = s.frame.locals := by
  obtain ⟨m', last, hlast, hstep⟩ := goto_proceeds hv h.ok h.rest h.last
  rw [h.function] at hlast
  have hin : Inside p F cs admits ⟨m', { s.frame with block := b.current, rest := last.statements }, s.callers⟩ :=
    ⟨step_stateOk_next hv h.ok hstep, h.function, h.callers, h.typed⟩
  exact ⟨_, Reaches.single hstep, hin.enter rfl hb hlast rfl, rfl⟩

end

end Lower
end Syllog
