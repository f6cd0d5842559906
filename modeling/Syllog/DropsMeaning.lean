import Syllog.DropsVerify
import Syllog.InterpBounds
import Syllog.InterpLimits
/-!
# DropsMeaning — drops change no result

A run of a verified program and the run of the program with its drops, side by side: the two frames stand at the same
place, and agree on the slots that are owned there.  A verified program reads nothing else, and a drop empties a slot
nothing reads any more, so both runs return one value or meet one trap (`insertDrops_same_result`).
-/
namespace Syllog
namespace Interp

open Mir Lower Runs

/-! ## Slots that agree -/

/-- Two tables of slots that are full, and the same, on the owned locals. -/
structure Shared (size : Nat) (owned : Finset Nat) (locals locals' : Locals) : Prop where
  left : locals.length = size
  right : locals'.length = size
  value : ∀ l ∈ owned, ∃ v, locals[l]? = some (some v) ∧ locals'[l]? = some (some v)

section
variable {size l : Nat} {owned : Finset Nat} {locals locals' : Locals} (h : Shared size owned locals locals')
include h

theorem Shared.mono {less : Finset Nat} (hsub : less ⊆ owned) : Shared size less locals locals' :=
  ⟨h.left, h.right, fun l hl => h.value l (hsub hl)⟩

theorem Shared.erase (l : Nat) : Shared size (owned.erase l) (locals.set l none) (locals'.set l none) := by
  refine ⟨by rw [List.length_set, h.left], by rw [List.length_set, h.right], fun k hk => ?_⟩
  obtain ⟨hne, hmem⟩ := Finset.mem_erase.mp hk
  rw [List.getElem?_set_ne hne.symm, List.getElem?_set_ne hne.symm]
  exact h.value k hmem

theorem Shared.erase_right (l : Nat) : Shared size (owned.erase l) locals (locals'.set l none) := by
  refine ⟨h.left, by rw [List.length_set, h.right], fun k hk => ?_⟩
  obtain ⟨hne, hmem⟩ := Finset.mem_erase.mp hk
  rw [List.getElem?_set_ne hne.symm]
  exact h.value k hmem

theorem Shared.insert (hl : l < size) (v : Value) : Shared size (insert l owned) (locals.set l (some v)) (locals'.set l (some v)) := by
  refine ⟨by rw [List.length_set, h.left], by rw [List.length_set, h.right], fun k hk => ?_⟩
  by_cases hkl : l = k
  · subst hkl
    exact ⟨v, List.getElem?_set_self (h.left ▸ hl), List.getElem?_set_self (h.right ▸ hl)⟩
  · rw [List.getElem?_set_ne hkl, List.getElem?_set_ne hkl]
    exact h.value k ((Finset.mem_insert.mp hk).resolve_left (Ne.symm hkl))

end

/-! ## Statements -/

/-- Stopped by a limit. -/
abbrev Stopped (e : Fault) : Prop := e.isLimit = true

/-- Related by `R`, or failing alike, unless a limit stopped one of the two. -/
abbrev Twins {α β : Type} (R : α → β → Prop) (x : Except Fault α) (y : Except Fault β) : Prop := Alike Stopped R x y

theorem twins_of_eq {α : Type} {R : α → α → Prop} (hR : ∀ a, R a a) (x : Except Fault α) : Twins R x x := by
  cases x with
  | ok a => exact .ok (hR a)
  | error e => exact .error e

/-- Two checks against limits. -/
theorem twins_check {α β : Type} {R : α → β → Prop} {limit limit' n n' : Nat} {e e' : Fault} (he : Stopped e) (he' : Stopped e')
    {a : α} {b : β} (hab : R a b) : Twins R (if limit < n then .error e else .ok a) (if limit' < n' then .error e' else .ok b) := by
  split_ifs
  · exact .left he _
  · exact .left he _
  · exact .right he' _
  · exact .ok hab

section
variable {limits limits' : InterpreterLimits} {f : MirFunction} {owned : Finset Nat} {locals locals' : Locals}
  (m m' : Machine)

theorem tick_twins : Twins (fun _ _ => True) (tick limits m) (tick limits' m') := twins_check rfl rfl trivial

theorem chargeAllocation_twins (bytes : Nat) :
    Twins (fun _ _ => True) (chargeAllocation limits m bytes) (chargeAllocation limits' m' bytes) := twins_check rfl rfl trivial

theorem constant_twins (c : Constant) :
    Twins (fun r r' => r.1 = r'.1) (constant limits c m) (constant limits' c m') := by
  cases c with
  | unit => exact .ok rfl
  | bool b => exact .ok rfl
  | i64 v => exact .ok rfl
  | u64 v => exact .ok rfl
  | string s => exact (chargeAllocation_twins m m' s.utf8ByteSize).bind fun _ _ _ => .ok rfl

/-- What is read is the same, and what is left is shared. -/
abbrev Reads {α : Type} (size : Nat) (owned : Finset Nat) (r r' : α × Machine × Locals) : Prop :=
  r.1 = r'.1 ∧ Shared size owned r.2.2 r'.2.2

theorem operand_twins {o : Operand} (ho : OperandOk f owned o) (h : Shared f.locals.length owned locals locals') :
    Twins (Reads f.locals.length (consumeOperand o owned)) (operand limits o m locals) (operand limits' o m' locals') := by
  cases o with
  | const c => exact (constant_twins m m' c).bind fun r r' hr => .ok ⟨hr, h⟩
  | copy l =>
    obtain ⟨v, hv, hv'⟩ := h.value l ho.1
    simp only [operand, localValue, hv, hv']
    exact .ok ⟨rfl, h⟩
  | move l =>
    obtain ⟨v, hv, hv'⟩ := h.value l ho.1
    simp only [operand, localSlot, hv, hv']
    exact .ok ⟨rfl, h.erase l⟩

theorem operands_twins : ∀ {os : List Operand} {owned : Finset Nat} {locals locals' : Locals} (m m' : Machine),
    OperandsOk f owned os → Shared f.locals.length owned locals locals' →
    Twins (Reads f.locals.length (consumeOperands os owned)) (operands limits os m locals) (operands limits' os m' locals')
  | [], _, _, _, _, _, _, h => .ok ⟨rfl, h⟩
  | o :: os, _, _, _, m, m', ho, h => by
    refine (operand_twins m m' ho.1 h).bind fun r r' hr => ?_
    refine (operands_twins r.2.1 r'.2.1 ho.2 hr.2).bind fun vs vs' hvs => ?_
    exact .ok ⟨by rw [hr.1, hvs.1], hvs.2⟩

theorem integerOperand_twins {o : Operand} (ho : OperandOk f owned o) (h : Shared f.locals.length owned locals locals') :
    Twins (Reads f.locals.length (consumeOperand o owned)) (integerOperand limits o m locals)
      (integerOperand limits' o m' locals') := by
  refine (operand_twins m m' ho h).bind ?_
  rintro ⟨v, n, ls⟩ ⟨v', n', ls'⟩ ⟨hv, hs⟩
  cases hv
  exact (twins_of_eq (R := Eq) (fun _ => rfl) (switchValue v)).bind fun k k' hk => .ok ⟨hk, hs⟩

theorem readPlace_twins {place : Place} (hp : placeLocal place ∈ owned) (h : Shared f.locals.length owned locals locals') :
    readPlace place locals = readPlace place locals' := by
  obtain ⟨v, hv, hv'⟩ := h.value _ hp
  cases place with
  | loc l =>
    simp only [placeLocal] at hv hv'
    simp only [readPlace, localValue, hv, hv']
  | field base k =>
    simp only [placeLocal] at hv hv'
    simp only [readPlace, localValue, hv, hv']

theorem rvalue_twins {value : Rvalue} (hv : RvalueOk f owned value) (h : Shared f.locals.length owned locals locals') :
    Twins (Reads f.locals.length (consumeRvalue value owned)) (rvalue limits value m locals) (rvalue limits' value m' locals') := by
  cases value with
  | borrow mutable place =>
    simp only [rvalue, readPlace_twins hv.1 h]
    exact (twins_of_eq (R := Eq) (fun _ => rfl) _).bind fun v v' hvv => .ok ⟨by rw [hvv], h⟩
  | use o => exact operand_twins m m' hv h
  | discriminant o =>
    refine (operand_twins m m' hv h).bind ?_
    rintro ⟨v, n, ls⟩ ⟨v', n', ls'⟩ ⟨hvv, hs⟩
    cases hvv
    cases v with
    | aggregate d fields => exact .ok ⟨rfl, hs⟩
    | _ => exact .error _
  | aggregate ty d fields =>
    refine (operands_twins m m' hv h).bind ?_
    rintro ⟨vs, n, ls⟩ ⟨vs', n', ls'⟩ ⟨hvs, hs⟩
    cases hvs
    exact (chargeAllocation_twins n n' _).bind fun _ _ _ => .ok ⟨rfl, hs⟩
  | binary operator left right =>
    refine (operand_twins m m' hv.1.1 h).bind fun r r' hr => ?_
    refine (operand_twins r.2.1 r'.2.1 hv.1.2.1 hr.2).bind fun q q' hq => ?_
    show Twins _ (binary operator r.1 q.1 >>= _) (binary operator r'.1 q'.1 >>= _)
    rw [hr.1, hq.1]
    exact (twins_of_eq (R := Eq) (fun _ => rfl) _).bind fun v v' hvv => .ok ⟨hvv, hq.2⟩

end

/-! ## Whole destinations -/

/-- The destination is a whole local. -/
def Place.isLocal : Place → Bool
  | .loc _     => true
  | .field _ _ => false

def Statement.writesLocal : Statement → Bool
  | .assign destination _ => Place.isLocal destination
  | .drop _               => true

def Terminator.writesLocal : Terminator → Bool
  | .call _ _ destination _ => Place.isLocal destination
  | _                       => true

/-- Every assignment and every call of the program writes a whole local. -/
def MirProgram.WritesLocals (p : MirProgram) : Prop :=
  ∀ f ∈ p.functions, ∀ b ∈ f.blocks, (∀ s ∈ b.statements, Statement.writesLocal s = true) ∧
    b.terminator.all Terminator.writesLocal = true

instance (p : MirProgram) : Decidable (MirProgram.WritesLocals p) :=
  inferInstanceAs (Decidable (∀ f ∈ p.functions, ∀ b ∈ f.blocks, (∀ s ∈ b.statements, Statement.writesLocal s = true) ∧
    b.terminator.all Terminator.writesLocal = true))

section
variable {limits limits' : InterpreterLimits} {f : MirFunction} {owned : Finset Nat} {locals locals' : Locals}

theorem assign_twins {place : Place} (hwhole : Place.isLocal place = true) (hlt : placeLocal place < f.locals.length) (v : Value)
    (h : Shared f.locals.length owned locals locals') :
    Twins (Shared f.locals.length (insertPlace place owned)) (assign place v locals) (assign place v locals') := by
  cases place with
  | field base k => cases hwhole
  | loc l =>
    have hl : l < f.locals.length := hlt
    simp only [assign, localSlot, List.getElem?_eq_getElem (h.left.symm ▸ hl), List.getElem?_eq_getElem (h.right.symm ▸ hl)]
    exact .ok (h.insert hl v)

theorem dropPlace_twins (m m' : Machine) {place : Place} (hp : placeLocal place ∈ owned)
    (h : Shared f.locals.length owned locals locals') :
    Twins (fun r r' => Shared f.locals.length (owned.erase (placeLocal place)) r.2 r'.2) (dropPlace place m locals)
      (dropPlace place m' locals') := by
  obtain ⟨v, hv, hv'⟩ := h.value _ hp
  cases place with
  | loc l =>
    simp only [placeLocal] at hv hv'
    simp only [dropPlace, localSlot, hv, hv']
    exact .ok (h.erase l)
  | field base k =>
    simp only [placeLocal] at hv hv'
    have hset : ∀ w : Value, Shared f.locals.length (owned.erase base) (locals.set base (some w)) (locals'.set base (some w)) := by
      refine fun w => ⟨by rw [List.length_set, h.left], by rw [List.length_set, h.right], fun k hk => ?_⟩
      obtain ⟨hne, hmem⟩ := Finset.mem_erase.mp hk
      rw [List.getElem?_set_ne hne.symm, List.getElem?_set_ne hne.symm]
      exact h.value k hmem
    cases v with
    | aggregate d fields =>
      simp only [dropPlace, setField, localSlot, hv, hv', bind, Except.bind]
      by_cases hk : k < fields.length
      · rw [if_pos hk, if_pos hk]
        exact .ok (hset _)
      · rw [if_neg hk, if_neg hk]
        exact .error _
    | _ =>
      simp only [dropPlace, setField, localSlot, hv, hv']
      exact .error _

theorem executeStatement_twins (m m' : Machine) {s : Statement} (hs : StatementOk f owned s)
    (hwhole : Statement.writesLocal s = true) (h : Shared f.locals.length owned locals locals') :
    Twins (fun r r' => Shared f.locals.length (transferStatement owned s) r.2 r'.2) (executeStatement limits s m locals)
      (executeStatement limits' s m' locals') := by
  cases s with
  | drop place => exact dropPlace_twins m m' hs.1 h
  | assign destination value =>
    refine (rvalue_twins m m' hs.1 h).bind ?_
    rintro ⟨v, n, ls⟩ ⟨v', n', ls'⟩ ⟨hv, hsh⟩
    cases hv
    exact (assign_twins hwhole hs.2.1 v hsh).bind fun _ _ hset => .ok hset

end

/-! ## Frames -/

/-- **A frame and one with drops at the same place**, which still has the block's drops ahead. -/
structure FrameTwins (p : MirProgram) (fr fr' : Frame) : Prop where
  mem : fr.function ∈ p.functions
  function : fr'.function = insertFunctionDrops fr.function
  block : fr'.block = fr.block
  code : ∃ b before entry, fr.function.blocks[fr.block]? = some b ∧
    (ownedOnEntry fr.function)[fr.block]? = some (some entry) ∧ b.statements = before ++ fr.rest ∧
    fr'.rest = fr.rest ++ blockDrops fr.function (ownedOnEntry fr.function) fr.block b ∧
    Shared fr.function.locals.length (before.foldl transferStatement entry) fr.locals fr'.locals

/-- Two callers that wait for the same result. -/
structure CallerTwins (p : MirProgram) (c c' : Caller) : Prop where
  mem : c.frame.function ∈ p.functions
  function : c'.frame.function = insertFunctionDrops c.frame.function
  destination : c'.destination = c.destination
  next : c'.next = c.next
  whole : Place.isLocal c.destination = true
  slot : placeLocal c.destination < c.frame.function.locals.length
  entered : c.next < c.frame.function.blocks.length
  locals : ∃ owned entry, (ownedOnEntry c.frame.function)[c.next]? = some (some entry) ∧
    entry ⊆ insertPlace c.destination owned ∧ Shared c.frame.function.locals.length owned c.frame.locals c'.frame.locals

structure StateTwins (p : MirProgram) (s s' : State) : Prop where
  frame : FrameTwins p s.frame s'.frame
  callers : List.Forall₂ (CallerTwins p) s.callers s'.callers

theorem enterBlock_twins {p : MirProgram} (fr fr' : Frame) {target : Nat} {entry : Finset Nat} (hmem : fr.function ∈ p.functions)
    (hfunction : fr'.function = insertFunctionDrops fr.function) (hlt : target < fr.function.blocks.length)
    (he : (ownedOnEntry fr.function)[target]? = some (some entry))
    (h : Shared fr.function.locals.length entry fr.locals fr'.locals) :
    Twins (FrameTwins p) (enterBlock fr target) (enterBlock fr' target) := by
  have hb : fr.function.blocks[target]? = some fr.function.blocks[target] := List.getElem?_eq_getElem hlt
  simp only [enterBlock, hfunction, insertFunctionDrops_getElem?, hb, Option.map_some]
  exact .ok ⟨hmem, rfl, rfl, _, [], entry, hb, he, rfl, rfl, h⟩

section
variable {p : MirProgram} (hv : verify p = .ok ()) {limits limits' : InterpreterLimits}
include hv

theorem enterCall_twins (id : DefId) (arguments : List Value) (depth depth' : Nat) :
    Twins (FrameTwins p) (enterCall p limits id arguments depth) (enterCall (insertDrops p) limits' id arguments depth') := by
  unfold enterCall
  by_cases hd : limits.maxCallDepth < depth
  · rw [if_pos hd]
    exact .left (E := Stopped) rfl _
  by_cases hd' : limits'.maxCallDepth < depth'
  · rw [if_pos hd']
    exact .right (E := Stopped) rfl _
  rw [if_neg hd, if_neg hd', lookup_insertDrops]
  cases hf : p.lookup id with
  | none => exact .error _
  | some f =>
    have hmem := MirProgram.lookup_mem hf
    have hok := verify_functionOk hv hmem
    simp only [Option.map_some, insertFunctionDrops_parameterCount, insertFunctionDrops_locals]
    by_cases hlen : arguments.length = f.parameterCount
    · have hparams := hok.params
      have hfits : ¬ (arguments ≠ [] ∧ f.locals.length ≤ arguments.length) := by omega
      simp only [hlen, ne_eq, not_true_eq_false, if_false]
      rw [← hlen, if_neg hfits, if_neg hfits]
      obtain ⟨entry, he, hsub⟩ := ownedOnEntry_zero f hok.blocks
      refine enterBlock_twins ⟨f, _, 0, [], depth⟩ _ hmem rfl hok.blocks he
        ⟨by simp [initialLocals], by simp [initialLocals], fun l hl => ?_⟩
      obtain ⟨v, hvalue⟩ := initialLocals_full hlen hparams l (hsub hl)
      exact ⟨v, hvalue, hvalue⟩
    · simp only [hlen, ne_eq, not_false_eq_true, if_true]
      exact .error _

end

/-! ## The drops of a block run -/

/-- **A run of drops of owned locals goes through**, or is stopped by a limit. -/
theorem drops_run (p : MirProgram) (limits : InterpreterLimits) {size : Nat} {locals : Locals} :
    ∀ {ls : List Nat} {S : Finset Nat} {s : State}, s.frame.rest = ls.map (fun l => Statement.drop (.loc l)) → ls.Nodup →
      (∀ l ∈ ls, l ∈ S) → Shared size S locals s.frame.locals →
      ∃ t, Reaches (step p limits) s t ∧ ((∃ e, Stopped e ∧ step p limits t = .error e) ∨ ∃ m locals',
        t = ⟨m, { s.frame with locals := locals', rest := [] }, s.callers⟩ ∧
        Shared size ((ls.map fun l => Statement.drop (.loc l)).foldl transferStatement S) locals locals')
  | [], S, s, hrest, _, _, h => by
    refine ⟨s, Reaches.refl _ s, .inr ⟨s.machine, s.frame.locals, ?_, h⟩⟩
    obtain ⟨m, ⟨fn, ls, b, rest, d⟩, cs⟩ := s
    cases hrest
    rfl
  | l :: ls, S, s, hrest, hnodup, hmem, h => by
    rw [List.nodup_cons] at hnodup
    cases hm : tick limits s.machine with
    | error e =>
      refine ⟨s, Reaches.refl _ s, .inl ⟨e, ?_, ?_⟩⟩
      · simp only [tick] at hm
        split at hm
        · cases hm
          rfl
        · cases hm
      · unfold step
        rw [hm]
        rfl
    | ok m =>
      obtain ⟨v, -, hl⟩ := h.value l (hmem l List.mem_cons_self)
      let t : State := ⟨{ m with dropsExecuted := saturatingAdd 64 m.dropsExecuted 1 },
        { s.frame with locals := s.frame.locals.set l none, rest := ls.map fun l => Statement.drop (.loc l) }, s.callers⟩
      have hstep : step p limits s = .ok (.inl t) := by
        unfold step
        simp only [hm, hrest, List.map_cons, executeStatement, dropPlace, localSlot, hl, bind, Except.bind]
        rfl
      have hrest' : ∀ k ∈ ls, k ∈ S.erase l := fun k hk =>
        Finset.mem_erase.mpr ⟨fun h => hnodup.1 (h ▸ hk), hmem k (List.mem_cons_of_mem _ hk)⟩
      obtain ⟨u, hreach, hu⟩ := drops_run p limits (s := t) rfl hnodup.2 hrest' (h.erase_right l)
      exact ⟨u, Reaches.head hstep hreach, hu⟩

/-! ## Steps -/

/-- The next states are twins, or the results are the same value. -/
abbrev NextTwins (p : MirProgram) : State ⊕ (Value × Machine) → State ⊕ (Value × Machine) → Prop :=
  Sum.LiftRel (StateTwins p) (fun r r' => r.1 = r'.1)

/-- A caller that gets its result goes on beside its twin. -/
theorem resume_twins {p : MirProgram} (m m' : Machine) {c c' : Caller} {callers callers' : List Caller} (hc : CallerTwins p c c')
    (hcallers : List.Forall₂ (CallerTwins p) callers callers') (v : Value) :
    Twins (NextTwins p)
      (assign c.destination v c.frame.locals >>= fun locals => enterBlock { c.frame with locals := locals } c.next >>= fun frame =>
        .ok (.inl ⟨m, frame, callers⟩))
      (assign c'.destination v c'.frame.locals >>= fun locals => enterBlock { c'.frame with locals := locals } c'.next >>= fun frame =>
        .ok (.inl ⟨m', frame, callers'⟩)) := by
  obtain ⟨owned, entry, he, hsub, hs⟩ := hc.locals
  rw [hc.destination, hc.next]
  refine (assign_twins hc.whole hc.slot v hs).bind fun ls ls' hset => ?_
  refine (enterBlock_twins { c.frame with locals := ls } { c'.frame with locals := ls' } hc.mem hc.function
    hc.entered he (hset.mono hsub)).bind fun fr fr' hfr => ?_
  exact .ok (.inl ⟨hfr, hcallers⟩)

section
variable {p : MirProgram} (hv : verify p = .ok ()) (hwhole : MirProgram.WritesLocals p) {limits limits' : InterpreterLimits}
include hv hwhole

/-- **A terminator takes twins to twins**, once the drops of the block have run. -/
theorem stepTerminator_twins (m m' : Machine) (fr fr' : Frame) {callers callers' : List Caller} {b : BasicBlock} {t : Terminator}
    {entry : Finset Nat} {ls : List Nat} (hmem : fr.function ∈ p.functions)
    (hfunction : fr'.function = insertFunctionDrops fr.function) (hb : fr.function.blocks[fr.block]? = some b)
    (he : (ownedOnEntry fr.function)[fr.block]? = some (some entry)) (ht : b.terminator = some t)
    (hdrops : Drops fr.function fr.block b entry ls)
    (h : Shared fr.function.locals.length ((ls.map fun l => Statement.drop (.loc l)).foldl transferStatement
      (b.statements.foldl transferStatement entry)) fr.locals fr'.locals)
    (hcallers : List.Forall₂ (CallerTwins p) callers callers') :
    Twins (NextTwins p) (stepTerminator p limits m fr callers t) (stepTerminator (insertDrops p) limits' m' fr' callers' t) := by
  have hok := verify_functionOk hv hmem
  obtain ⟨t', ht', hcode⟩ := hok.block fr.block b entry hb he
  cases ht.symm.trans ht'
  have hfinal := hcode.final
  have hterminator := (hwhole _ hmem b (List.mem_of_getElem? hb)).2
  rw [ht, Option.all_some] at hterminator
  cases t with
  | ret =>
    have hout : 0 ∉ ls := fun hl => ((hdrops.mem 0).mp hl).2.1 rfl
    obtain ⟨v, hv, hv'⟩ := h.value 0 (mem_foldl_drops.mpr ⟨hfinal.1, hout⟩)
    simp only [stepTerminator, hv, hv']
    cases hcallers with
    | nil => exact .ok (.inr rfl)
    | cons hc hrest => exact resume_twins m m' hc hrest v
  | goto target =>
    obtain ⟨hlt, next, hnext, hsub⟩ := hcode.flows target (by simp [successors])
    have hsucc : target ∈ b.successors := by simp [BasicBlock.successors, ht, successors]
    have hkept := h.mono fun l hl => mem_foldl_drops.mpr ⟨hsub hl, fun hdrop => hdrops.not_mem_target hsucc hnext hdrop hl⟩
    exact (enterBlock_twins fr fr' hmem hfunction hlt hnext hkept).bind fun fr fr' hfr => .ok (.inl ⟨hfr, hcallers⟩)
  | switchInt value targets otherwise =>
    rw [hdrops.eq_nil ht (fun h => by cases h) fun _ h => by cases h] at h
    refine (integerOperand_twins m m' hfinal.1 h).bind ?_
    rintro ⟨k, n, locals⟩ ⟨k', n', locals'⟩ ⟨hk, hs⟩
    cases hk
    obtain ⟨hlt, next, hnext, hsub⟩ := hcode.flows _ (switchTarget_mem k value targets otherwise)
    refine (enterBlock_twins { fr with locals := locals } { fr' with locals := locals' } hmem hfunction hlt hnext
      (hs.mono hsub)).bind fun fr fr' hfr => ?_
    exact .ok (.inl ⟨hfr, hcallers⟩)
  | call callee args destination next =>
    rw [hdrops.eq_nil ht (fun h => by cases h) fun _ h => by cases h] at h
    obtain ⟨hargs, hslot, -⟩ := hfinal
    obtain ⟨hlt, entry', hentry, hsub⟩ := hcode.flows next (by simp [successors])
    refine (operands_twins m m' hargs h).bind ?_
    rintro ⟨vs, n, locals⟩ ⟨vs', n', locals'⟩ ⟨hvs, hs⟩
    cases hvs
    refine (enterCall_twins hv callee vs _ _).bind fun callee callee' hcallee => ?_
    exact .ok (.inl ⟨hcallee, .cons ⟨hmem, hfunction, rfl, rfl, hterminator, hslot, hlt, _, entry', hentry, hsub, hs⟩ hcallers⟩)

/-- **A step of the program is matched with the drops in place**: by the same step, or by the drops of the block and then the
terminator. -/
theorem step_twins (limits limits' : InterpreterLimits) {s s' : State} (h : StateTwins p s s') : ∃ t', Reaches (step (insertDrops p) limits') s' t' ∧
    Twins (NextTwins p) (step p limits s) (step (insertDrops p) limits' t') := by
  obtain ⟨hmem, hfunction, hblock, b, before, entry, hb, he, hcode, hrest', hs⟩ := h.frame
  obtain ⟨t, ht, hok⟩ := (verify_functionOk hv hmem).block _ b entry hb he
  cases hrest : s.frame.rest with
  | cons st rest =>
    rw [hrest] at hcode hrest'
    refine ⟨s', Reaches.refl _ s', ?_⟩
    have hstatements := hok.statements
    rw [hcode] at hstatements
    have hwrites := (hwhole _ hmem b (List.mem_of_getElem? hb)).1 st (by rw [hcode]; simp)
    simp only [step, hrest, hrest', List.cons_append]
    refine (tick_twins s.machine s'.machine).bind fun m m' _ => ?_
    refine (executeStatement_twins m m' (statementsOk_append hstatements).1 hwrites hs).bind fun r r' hr => ?_
    refine .ok (.inl ⟨⟨hmem, hfunction, hblock, b, before ++ [st], entry, hb, he, by simp [hcode], rfl, ?_⟩, h.callers⟩)
    rw [List.foldl_append]
    exact hr
  | nil =>
    rw [hrest, List.append_nil] at hcode
    rw [hrest, List.nil_append] at hrest'
    obtain ⟨ls, hdrops⟩ := exists_drops (b := b) he
    rw [hdrops.eq] at hrest'
    rw [← hcode] at hs
    obtain ⟨t', hreach, ⟨e, hstop, herror⟩ | ⟨n, locals', rfl, hshared⟩⟩ :=
      drops_run (insertDrops p) limits' hrest' hdrops.nodup (fun l hl => hdrops.owned hl) hs
    · refine ⟨t', hreach, ?_⟩
      rw [herror]
      exact .right hstop _
    refine ⟨_, hreach, ?_⟩
    have hlast : s.frame.function.blocks[s.frame.block]?.bind (·.terminator) = some t := by rw [hb, Option.bind_some, ht]
    have hlast' : s'.frame.function.blocks[s'.frame.block]?.bind (·.terminator) = some t := by
      rw [hfunction, hblock, insertFunctionDrops_getElem?, hb]
      exact ht
    simp only [step, hrest, hlast, Frame.terminator, hlast']
    refine (tick_twins s.machine n).bind fun m m' _ => ?_
    exact stepTerminator_twins hv hwhole m m' s.frame { s'.frame with locals := locals', rest := [] } hmem hfunction hb he ht hdrops
      hshared h.callers

end

/-! ## Calls -/

/-- A call of a function from outside, under a budget of `fuel` steps: its value, or what stopped it. -/
def callFunction (fuel : Nat) (p : MirProgram) (limits : InterpreterLimits) (id : DefId) (arguments : List Value) :
    Option (Except Fault Value) :=
  match startCall p limits id arguments with
  | .error e => some (.error e)
  | .ok s    => (run (step p limits) fuel s).map (Except.map Prod.fst)

/-- No limit stops the call. -/
def WithinLimits (p : MirProgram) (limits : InterpreterLimits) (id : DefId) (arguments : List Value) : Prop :=
  ∀ fuel e, callFunction fuel p limits id arguments = some (.error e) → e.isLimit = false

section
variable {p : MirProgram} {limits : InterpreterLimits} {id : DefId} {arguments : List Value}

theorem callFunction_of_error {e : Fault} (h : startCall p limits id arguments = .error e) (fuel : Nat) :
    callFunction fuel p limits id arguments = some (.error e) := by
  unfold callFunction
  rw [h]

theorem callFunction_of_ok {s : State} (h : startCall p limits id arguments = .ok s) (fuel : Nat) :
    callFunction fuel p limits id arguments = (run (step p limits) fuel s).map (Except.map Prod.fst) := by
  unfold callFunction
  rw [h]

theorem WithinLimits.unstopped {s : State} (h : WithinLimits p limits id arguments) (hs : startCall p limits id arguments = .ok s) :
    Unstopped (step p limits) Stopped s := by
  intro n e hrun hstop
  have hcall : callFunction n p limits id arguments = some (.error e) := by
    rw [callFunction_of_ok hs, hrun]
    rfl
  rw [Stopped, h n e hcall] at hstop
  cases hstop

end

/-- Outcomes that are alike show the same, unless a limit stopped one. -/
theorem map_eq_of_alike {o o' : Except Fault (Value × Machine)} (h : Twins (fun r r' => r.1 = r'.1) o o')
    (ho : ∀ e, o = .error e → ¬ Stopped e) (ho' : ∀ e, o' = .error e → ¬ Stopped e) : o.map Prod.fst = o'.map Prod.fst := by
  cases h with
  | left hstop _ => exact absurd hstop (ho _ rfl)
  | right hstop _ => exact absurd hstop (ho' _ rfl)
  | error e => rfl
  | ok hvalue => exact congrArg Except.ok hvalue

/-- **The drops change no result**: where no limit stops either call, one returns or traps exactly as the other does. -/
theorem insertDrops_same_result {p : MirProgram} (hv : verify p = .ok ()) (hwhole : MirProgram.WritesLocals p)
    {limits limits' : InterpreterLimits} {id : DefId} {arguments : List Value} (hin : WithinLimits p limits id arguments)
    (hin' : WithinLimits (insertDrops p) limits' id arguments) (r : Except Fault Value) :
    (∃ fuel, callFunction fuel p limits id arguments = some r) ↔
      ∃ fuel, callFunction fuel (insertDrops p) limits' id arguments = some r := by
  have hstart : Twins (StateTwins p) (startCall p limits id arguments) (startCall (insertDrops p) limits' id arguments) :=
    (enterCall_twins hv id arguments 1 1).bind fun fr fr' hfr => .ok ⟨hfr, .nil⟩
  generalize hx : startCall p limits id arguments = x at hstart
  generalize hy : startCall (insertDrops p) limits' id arguments = y at hstart
  cases hstart with
  | left hstop _ =>
    rw [Stopped, hin 0 _ (callFunction_of_error hx 0)] at hstop
    cases hstop
  | right hstop _ =>
    rw [Stopped, hin' 0 _ (callFunction_of_error hy 0)] at hstop
    cases hstop
  | error e => simp only [callFunction_of_error hx, callFunction_of_error hy]
  | @ok s s' hs =>
    have hfree := hin.unstopped hx
    have hfree' := hin'.unstopped hy
    have hmatch := fun a b (h : StateTwins p a b) => step_twins hv hwhole limits limits' h
    simp only [callFunction_of_ok hx, callFunction_of_ok hy]
    constructor
    · rintro ⟨fuel, h⟩
      obtain ⟨o, hrun, rfl⟩ := Option.map_eq_some_iff.mp h
      obtain ⟨n, o', hrun', ho⟩ := run_alike hmatch hs hfree hfree' hrun
      refine ⟨n, ?_⟩
      rw [hrun', Option.map_some, map_eq_of_alike ho (fun e he => hfree fuel e (he ▸ hrun)) fun e he => hfree' n e (he ▸ hrun')]
    · rintro ⟨fuel, h⟩
      obtain ⟨o', hrun', rfl⟩ := Option.map_eq_some_iff.mp h
      obtain ⟨o, hrun, ho⟩ := run_alike_back hmatch (Nat.le_refl fuel) hs hfree hfree' hrun'
      refine ⟨fuel, ?_⟩
      rw [hrun, Option.map_some, map_eq_of_alike ho (fun e he => hfree fuel e (he ▸ hrun)) fun e he => hfree' fuel e (he ▸ hrun')]

/-- **Drop insertion keeps a verified program verified and every call of it what it was.** -/
theorem insertDrops_preserves {p : MirProgram} (hv : verify p = .ok ()) (hwhole : MirProgram.WritesLocals p) :
    verify (insertDrops p) = .ok () ∧ ∀ (id : DefId) (arguments : List Value) (limits limits' : InterpreterLimits),
      WithinLimits p limits id arguments → WithinLimits (insertDrops p) limits' id arguments → ∀ r : Except Fault Value,
        (∃ fuel, callFunction fuel p limits id arguments = some r) ↔
          ∃ fuel, callFunction fuel (insertDrops p) limits' id arguments = some r :=
  ⟨verify_insertDrops hv, fun _ _ _ _ hin hin' r => insertDrops_same_result hv hwhole hin hin' r⟩

/-- A call that returns was not stopped. -/
theorem withinLimits_of_value {p : MirProgram} {limits : InterpreterLimits} {id : DefId} {arguments : List Value} {n : Nat}
    {v : Value} (h : callFunction n p limits id arguments = some (.ok v)) : WithinLimits p limits id arguments := by
  intro fuel e he
  cases hs : startCall p limits id arguments with
  | error e' =>
    rw [callFunction_of_error hs] at h
    cases h
  | ok s =>
    rw [callFunction_of_ok hs] at h he
    obtain ⟨o, hrun, hvalue⟩ := Option.map_eq_some_iff.mp h
    obtain ⟨o', hrun', herror⟩ := Option.map_eq_some_iff.mp he
    rw [run_unique hrun hrun', herror] at hvalue
    cases hvalue

/-- A function that makes a string, jumps, and returns a number. -/
def leakProgram : MirProgram where
  functions := [
    { id := ⟨0, 0⟩, parameterCount := 1, returnType := .u64, locals := [.u64, .string, .string],
      blocks := [⟨[.assign (.loc 2) (.use (.const (.string "s")))], some (.goto 1)⟩,
        ⟨[.assign (.loc 0) (.use (.const (.u64 7)))], some .ret⟩] }]
  entry := none

theorem leakProgram_drops : insertDrops leakProgram ≠ leakProgram ∧ verify (insertDrops leakProgram) = .ok () ∧
    ∃ fuel, callFunction fuel (insertDrops leakProgram) unlimited ⟨0, 0⟩ [.string "a"] = some (.ok (.u64 7)) := by
  have hwithin : WithinLimits leakProgram unlimited ⟨0, 0⟩ [.string "a"] := withinLimits_of_value (n := 9) (v := .u64 7) rfl
  have hwithin' : WithinLimits (insertDrops leakProgram) unlimited ⟨0, 0⟩ [.string "a"] :=
    withinLimits_of_value (n := 9) (v := .u64 7) (by decide +kernel)
  obtain ⟨hverified, hsame⟩ := insertDrops_preserves (p := leakProgram) (by decide) (by decide)
  exact ⟨by decide +kernel, hverified, (hsame _ _ _ _ hwithin hwithin' _).mp ⟨9, rfl⟩⟩

end Interp
end Syllog
