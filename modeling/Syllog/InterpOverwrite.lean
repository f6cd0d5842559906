import Syllog.InterpOwn
import Syllog.VerifyPaths
/-!
# InterpOverwrite — writes to slots that still hold an owned value

The verifier's overwrite check reads the locals owned on every path, and only at assignments.  `Settled` is what is
missing: paths to an assignment agree on its local, no path reaches a call that still owns its destination, and no field
is dropped by itself.  In a run of settled functions the slots that hold an owned value are those the path taken owns
(`HeldIn`), so no write finds one.
-/
namespace Syllog
namespace Interp

open Mir Runs

/-- The next step writes the whole local `l`, of a non-Copy type, while its slot holds a value: an assignment after its
operands are read, a call after its arguments are, a return into the waiting caller's destination. -/
inductive OverwritesAt (limits : InterpreterLimits) (s : State) (l : Nat) : Prop
  | assign {value : Rvalue} {rest : List Statement} {m m' : Machine} {v w : Value} {locals : Locals}
      (code : s.frame.rest = .assign (.loc l) value :: rest) (affine : localIsAffine s.frame.function l = true)
      (run : rvalue limits value m s.frame.locals = .ok (v, m', locals)) (held : locals[l]? = some (some w))
  | call {callee : DefId} {args : List Operand} {next : Nat} {m m' : Machine} {vs : List Value} {w : Value}
      {locals : Locals} (code : s.frame.rest = [])
      (last : s.frame.terminator = some (.call callee args (.loc l) next))
      (affine : localIsAffine s.frame.function l = true)
      (run : operands limits args m s.frame.locals = .ok (vs, m', locals)) (held : locals[l]? = some (some w))
  | ret {c : Caller} {callers : List Caller} {w : Value} (code : s.frame.rest = [])
      (last : s.frame.terminator = some .ret) (waiting : s.callers = c :: callers) (destination : c.destination = .loc l)
      (affine : localIsAffine c.frame.function l = true) (held : c.frame.locals[l]? = some (some w))

/-- **The next step writes a whole local of a non-Copy type whose slot holds a value.** -/
def Overwrites (limits : InterpreterLimits) (s : State) : Prop := ∃ l, OverwritesAt limits s l

/-- **What the overwrite check does not look at.** -/
structure Settled (f : MirFunction) : Prop where
  assign : ∀ (i : Nat) (b : BasicBlock) (l : Nat) (value : Rvalue), f.blocks[i]? = some b →
    .assign (.loc l) value ∈ b.statements → localIsAffine f l = true →
    ∀ S S', PathOwns f i S → PathOwns f i S' → l ∈ S → l ∈ S'
  call : ∀ (i : Nat) (b : BasicBlock) (callee : DefId) (args : List Operand) (l next : Nat), f.blocks[i]? = some b →
    b.terminator = some (.call callee args (.loc l) next) → localIsAffine f l = true →
    ∀ S, PathOwns f i S → l ∉ consumeOperands args (b.statements.foldl transferStatement S)
  fields : ∀ (i : Nat) (b : BasicBlock) (S : Finset Nat), f.blocks[i]? = some b → PathOwns f i S →
    ∀ base k, .drop (.field base k) ∉ b.statements

/-! ## Slots that hold an owned value -/

/-- The non-Copy locals whose slots hold a value are among `S`. -/
def HeldIn (f : MirFunction) (S : Finset Nat) (locals : Locals) : Prop :=
  ∀ (l : Nat) (v : Value), localIsAffine f l = true → locals[l]? = some (some v) → l ∈ S

section
variable {f : MirFunction} {limits : InterpreterLimits} {S : Finset Nat} {locals locals' : Locals} {m m' : Machine}

theorem HeldIn.erase (h : HeldIn f S locals) (l : Nat) : HeldIn f (S.erase l) (locals.set l none) := by
  intro k v ha hk
  by_cases hlk : l = k
  · subst hlk
    rw [List.getElem?_set] at hk
    simp only [if_true] at hk
    split at hk <;> cases hk
  · rw [List.getElem?_set_ne hlk] at hk
    exact Finset.mem_erase.2 ⟨Ne.symm hlk, h k v ha hk⟩

theorem HeldIn.insert (h : HeldIn f S locals) (l : Nat) (v : Value) :
    HeldIn f (insert l S) (locals.set l (some v)) := by
  intro k w ha hk
  by_cases hlk : l = k
  · subst hlk
    exact Finset.mem_insert_self l S
  · rw [List.getElem?_set_ne hlk] at hk
    exact Finset.mem_insert_of_mem (h k w ha hk)

theorem operand_held {o : Operand} {v : Value} (h : HeldIn f S locals)
    (hr : operand limits o m locals = .ok (v, m', locals')) : HeldIn f (consumeOperand o S) locals' := by
  cases o with
  | const c =>
    obtain ⟨r, -, hr⟩ := bind_eq_ok hr
    cases hr
    exact h
  | copy l =>
    obtain ⟨r, -, hr⟩ := bind_eq_ok hr
    cases hr
    exact h
  | move l =>
    obtain ⟨slot, -, hr⟩ := bind_eq_ok hr
    cases slot with
    | none => cases hr
    | some w =>
      cases hr
      exact h.erase l

end

theorem operands_held {f : MirFunction} {limits : InterpreterLimits} : ∀ {os : List Operand} {S : Finset Nat}
    {locals locals' : Locals} {m m' : Machine} {vs : List Value}, HeldIn f S locals →
    operands limits os m locals = .ok (vs, m', locals') → HeldIn f (consumeOperands os S) locals'
  | [], _, _, _, _, _, _, h, hr => by
    cases hr
    exact h
  | o :: os, S, _, _, _, _, _, h, hr => by
    obtain ⟨r, ho, hr⟩ := bind_eq_ok hr
    obtain ⟨r', hos, hr⟩ := bind_eq_ok hr
    cases hr
    show HeldIn f (consumeOperands os (consumeOperand o S)) _
    exact operands_held (operand_held h ho) hos

section
variable {f : MirFunction} {limits : InterpreterLimits} {S : Finset Nat} {locals locals' : Locals} {m m' : Machine}

theorem rvalue_held {value : Rvalue} {v : Value} (h : HeldIn f S locals)
    (hr : rvalue limits value m locals = .ok (v, m', locals')) : HeldIn f (consumeRvalue value S) locals' := by
  cases value with
  | borrow mutable place =>
    obtain ⟨w, -, hr⟩ := bind_eq_ok hr
    cases hr
    exact h
  | use o => exact operand_held h hr
  | discriminant o =>
    obtain ⟨⟨w, m1, l1⟩, ho, hr⟩ := bind_eq_ok hr
    have h1 := operand_held h ho
    cases w with
    | aggregate d fields => cases hr; exact h1
    | _ => cases hr
  | aggregate ty d fields =>
    obtain ⟨r, hos, hr⟩ := bind_eq_ok hr
    obtain ⟨m1, -, hr⟩ := bind_eq_ok hr
    cases hr
    exact operands_held h hos
  | binary operator left right =>
    obtain ⟨r, ha, hr⟩ := bind_eq_ok hr
    obtain ⟨r', hb, hr⟩ := bind_eq_ok hr
    obtain ⟨w, -, hr⟩ := bind_eq_ok hr
    cases hr
    exact operand_held (operand_held h ha) hb

theorem setField_held {base k : Nat} {v : Value} (h : HeldIn f S locals) (hr : setField base k v locals = .ok locals') :
    HeldIn f S locals' := by
  obtain ⟨slot, hs, hr⟩ := bind_eq_ok hr
  split at hr
  · cases hr
  · split at hr
    · cases hr
      intro l w ha hk
      rcases Finset.mem_insert.1 ((h.insert base _) l w ha hk) with rfl | hmem
      · exact h _ _ ha (localSlot_ok hs)
      · exact hmem
    · cases hr
  · cases hr

theorem assign_held {place : Place} {v : Value} (h : HeldIn f S locals) (hr : assign place v locals = .ok locals') :
    HeldIn f (insertPlace place S) locals' := by
  cases place with
  | loc l =>
    obtain ⟨slot, -, hr⟩ := bind_eq_ok hr
    cases hr
    exact h.insert l v
  | field base k => exact setField_held h hr

theorem executeStatement_held {st : Statement} (hst : ∀ base k, st ≠ .drop (.field base k)) (h : HeldIn f S locals)
    (hr : executeStatement limits st m locals = .ok (m', locals')) : HeldIn f (transferStatement S st) locals' := by
  cases st with
  | assign destination value =>
    obtain ⟨r, hv, hr⟩ := bind_eq_ok hr
    obtain ⟨l1, ha, hr⟩ := bind_eq_ok hr
    cases hr
    exact assign_held (rvalue_held h hv) ha
  | drop place =>
    cases place with
    | field base k => exact absurd rfl (hst base k)
    | loc l =>
      obtain ⟨slot, -, hr⟩ := bind_eq_ok hr
      cases slot with
      | none => cases hr
      | some v =>
        cases hr
        exact h.erase l

end

/-! ## Runs -/

/-- The path a frame has taken to its block owns, after the statements executed so far, every value the frame holds. -/
structure HeldFrame (p : MirProgram) (fr : Frame) : Prop where
  function : fr.function ∈ p.functions
  path : ∃ b before S, fr.function.blocks[fr.block]? = some b ∧ b.statements = before ++ fr.rest ∧
    PathOwns fr.function fr.block S ∧ HeldIn fr.function (before.foldl transferStatement S) fr.locals

/-- A waiting frame: at the call of its block, the arguments consumed. -/
structure HeldCaller (p : MirProgram) (c : Caller) : Prop where
  function : c.frame.function ∈ p.functions
  path : ∃ b callee args S, c.frame.function.blocks[c.frame.block]? = some b ∧
    b.terminator = some (.call callee args c.destination c.next) ∧ PathOwns c.frame.function c.frame.block S ∧
    HeldIn c.frame.function (consumeOperands args (b.statements.foldl transferStatement S)) c.frame.locals

structure HeldState (p : MirProgram) (s : State) : Prop where
  frame : HeldFrame p s.frame
  callers : ∀ c ∈ s.callers, HeldCaller p c

theorem Frame.terminator_eq {fr : Frame} {b : BasicBlock} {t : Terminator} (hb : fr.function.blocks[fr.block]? = some b)
    (ht : fr.terminator = some t) : b.terminator = some t := by
  unfold Frame.terminator at ht
  rw [hb] at ht
  exact ht

/-- Entering a block along an edge, with slots the path's transfer accounts for. -/
theorem heldFrame_enter {p : MirProgram} {fr : Frame} {b b' : BasicBlock} {target : Nat} {S : Finset Nat}
    {locals : Locals} (hf : fr.function ∈ p.functions) (hb : fr.function.blocks[fr.block]? = some b)
    (hs : target ∈ b.successors) (hb' : fr.function.blocks[target]? = some b') (hpath : PathOwns fr.function fr.block S)
    (hheld : HeldIn fr.function (transferBlock b S) locals) :
    HeldFrame p { fr with locals := locals, block := target, rest := b'.statements } := by
  have hlt : target < fr.function.blocks.length := (List.getElem?_eq_some_iff.1 hb').1
  exact ⟨hf, b', [], transferBlock b S, hb', rfl, hpath.next hb hs hlt, hheld⟩

/-- A call starts with the parameters' slots as the only ones that hold a value. -/
theorem heldFrame_start {p : MirProgram} {g : MirFunction} {b : BasicBlock} {vs : List Value} (depth : Nat)
    (hg : g ∈ p.functions) (hb : g.blocks[0]? = some b) (hlen : vs.length = g.parameterCount) :
    HeldFrame p ⟨g, initialLocals g.locals.length vs, 0, b.statements, depth⟩ := by
  refine ⟨hg, b, [], parameters g, hb, rfl, .entry g, fun l v ha hl => ?_⟩
  have hlt : l < g.locals.length := by
    unfold localIsAffine at ha
    split at ha
    · rename_i hty
      exact (List.getElem?_eq_some_iff.1 hty).1
    · cases ha
  rw [initialLocals_getElem? _ _ hlt, Option.some.injEq] at hl
  by_cases h0 : l = 0
  · rw [if_pos h0] at hl; cases hl
  · rw [if_neg h0] at hl
    have hlt' : l - 1 < vs.length := (List.getElem?_eq_some_iff.1 hl).1
    simp only [List.foldl_nil, parameters, Finset.mem_image, Finset.mem_range]
    exact ⟨l - 1, by omega, by omega⟩

/-- **A step keeps the account**, where no field is dropped by itself. -/
theorem step_held {p : MirProgram} {limits : InterpreterLimits} {s s' : State}
    (hfields : ∀ f ∈ p.functions, ∀ i b S, f.blocks[i]? = some b → PathOwns f i S →
      ∀ base k, .drop (.field base k) ∉ b.statements)
    (h : HeldState p s) (hs : step p limits s = .ok (.inl s')) : HeldState p s' := by
  obtain ⟨⟨hf, b, before, S, hb, hcode, hpath, hheld⟩, hcallers⟩ := h
  cases step_moves hs with
  | @statement m m' st rest locals _ code run =>
    rw [code] at hcode
    have hst : ∀ base k, st ≠ .drop (.field base k) := by
      rintro base k rfl
      exact hfields _ hf _ b S hb hpath base k (by rw [hcode]; simp)
    refine ⟨⟨hf, b, before ++ [st], S, hb, by simpa using hcode, hpath, ?_⟩, hcallers⟩
    rw [List.foldl_append]
    exact executeStatement_held hst hheld run
  | goto _ code last block =>
    rw [code, List.append_nil] at hcode
    have hlast := Frame.terminator_eq hb last
    refine ⟨heldFrame_enter hf hb (by simp [BasicBlock.successors, hlast, successors]) block hpath ?_, hcallers⟩
    rw [transferBlock, hlast, hcode]
    exact hheld
  | switchInt _ code last run block =>
    rw [code, List.append_nil] at hcode
    have hlast := Frame.terminator_eq hb last
    refine ⟨heldFrame_enter hf hb ?_ block hpath ?_, hcallers⟩
    · simp only [BasicBlock.successors, hlast]
      exact switchTarget_mem _ _ _ _
    · rw [transferBlock, hlast, hcode]
      obtain ⟨r, ho, run⟩ := bind_eq_ok run
      obtain ⟨n, -, run⟩ := bind_eq_ok run
      cases run
      exact operand_held hheld ho
  | call _ code last run function count block =>
    rw [code, List.append_nil] at hcode
    have hlast := Frame.terminator_eq hb last
    refine ⟨heldFrame_start _ (MirProgram.lookup_mem function) block count, fun c hc => ?_⟩
    rcases List.mem_cons.1 hc with rfl | hc
    · refine ⟨hf, b, _, _, S, hb, hlast, hpath, ?_⟩
      rw [hcode]
      exact operands_held hheld run
    · exact hcallers c hc
  | ret _ code last value waiting run block =>
    rw [waiting] at hcallers
    obtain ⟨hcf, cb, callee, args, CS, hcb, hct, hcpath, hcheld⟩ := hcallers _ List.mem_cons_self
    refine ⟨heldFrame_enter hcf hcb (by simp [BasicBlock.successors, hct, successors]) block hcpath ?_,
      fun c hc => hcallers c (List.mem_cons_of_mem _ hc)⟩
    rw [transferBlock, hct]
    exact assign_held hcheld run

theorem startCall_held {p : MirProgram} {limits : InterpreterLimits} {id : DefId} {arguments : List Value} {s : State}
    (h : startCall p limits id arguments = .ok s) : HeldState p s := by
  obtain ⟨fr, hfr, h⟩ := bind_eq_ok h
  obtain ⟨g, b, hg, hlen, hb, rfl⟩ := enterCall_ok hfr
  cases h
  exact ⟨heldFrame_start 1 (MirProgram.lookup_mem hg) hb hlen, fun c hc => by cases hc⟩

theorem statementsOk_append {f : MirFunction} : ∀ {before after : List Statement} {owned : Finset Nat},
    StatementsOk f owned (before ++ after) → StatementsOk f (before.foldl transferStatement owned) after
  | [], _, _, h => h
  | st :: before, after, owned, h => by
    rw [List.foldl_cons]
    exact statementsOk_append h.2

theorem localIsAffine_lt {f : MirFunction} {l : Nat} (h : localIsAffine f l = true) : l < f.locals.length := by
  unfold localIsAffine at h
  split at h
  · rename_i hty
    exact (List.getElem?_eq_some_iff.1 hty).1
  · cases h

/-- One local is not overwritten where the account holds and the paths agree on it. -/
theorem heldState_not_overwritesAt {p : MirProgram} (hv : verify p = .ok ()) {limits : InterpreterLimits} {s : State}
    (h : HeldState p s) {l : Nat}
    (hassign : ∀ f ∈ p.functions, ∀ i b value, f.blocks[i]? = some b → .assign (.loc l) value ∈ b.statements →
      localIsAffine f l = true → ∀ S S', PathOwns f i S → PathOwns f i S' → l ∈ S → l ∈ S')
    (hcall : ∀ f ∈ p.functions, ∀ i b callee args next, f.blocks[i]? = some b →
      b.terminator = some (.call callee args (.loc l) next) → localIsAffine f l = true →
      ∀ S, PathOwns f i S → l ∉ consumeOperands args (b.statements.foldl transferStatement S)) :
    ¬ OverwritesAt limits s l := by
  obtain ⟨⟨hf, b, before, S, hb, hcode, hpath, hheld⟩, hcallers⟩ := h
  intro hover
  cases hover with
  | @assign value rest m m' v w locals code affine run held =>
    rw [code] at hcode
    have hwrite : Statement.assign (.loc l) value ∈ b.statements := by rw [hcode]; simp
    have hfun := verify_functionOk hv hf
    obtain ⟨owned, ho⟩ := hpath.ownedOnEntry hfun.blocks
    -- the path taken is as good as any other here, so what it owns the verifier's state owns
    have hown : l ∈ S → l ∈ owned := fun hl => ownedOnEntry_of_paths (localIsAffine_lt affine) ho
      (fun S' hS' => hassign _ hf _ b value hb hwrite affine S S' hpath hS' hl)
    have hmem : l ∈ consumeRvalue value (before.foldl transferStatement S) := rvalue_held hheld run l w affine held
    obtain ⟨t, -, hok⟩ := hfun.block _ b owned hb ho
    have hst := hok.statements
    rw [hcode] at hst
    have hfree := ((statementsOk_append hst).1.2.2 l rfl).2
      (mem_consumeRvalue value (mem_foldl_transferStatement before hown) hmem)
    rw [affine] at hfree
    cases hfree
  | @call callee args next m m' vs w locals code last affine run held =>
    rw [code, List.append_nil] at hcode
    refine hcall _ hf _ b callee args next hb (Frame.terminator_eq hb last) affine S hpath ?_
    rw [hcode]
    exact operands_held hheld run l w affine held
  | @ret c callers w code last waiting destination affine held =>
    obtain ⟨hcf, cb, callee, args, CS, hcb, hct, hcpath, hcheld⟩ := hcallers c (by rw [waiting]; simp)
    rw [destination] at hct
    exact hcall _ hcf _ cb callee args c.next hcb hct affine CS hcpath (hcheld l w affine held)

/-- **Verified and settled programs overwrite no owned value**, in any state of any run. -/
theorem settled_never_overwrites {p : MirProgram} (hv : verify p = .ok ()) (hsettled : ∀ f ∈ p.functions, Settled f)
    (limits : InterpreterLimits) (id : DefId) (arguments : List Value) {s₀ s : State}
    (h₀ : startCall p limits id arguments = .ok s₀) (hr : Reaches (step p limits) s₀ s) : ¬ Overwrites limits s := by
  have hheld : HeldState p s := hr.invariant
    (fun a b ha hab => step_held (fun f hf => (hsettled f hf).fields) ha hab) (startCall_held h₀)
  rintro ⟨l, hover⟩
  refine heldState_not_overwritesAt hv hheld (fun f hf i b value => ?_) (fun f hf i b callee args next => ?_) hover
  · exact (hsettled f hf).assign i b l value
  · exact (hsettled f hf).call i b callee args l next

/-- Both arms of a switch fill one string, which is dropped and filled again after they join. -/
def joinFunction : MirFunction where
  id := ⟨0, 0⟩
  parameterCount := 0
  returnType := .u64
  locals := [.u64, .string]
  blocks := [⟨[], some (.switchInt (.const (.bool true)) [(0, 1)] 2)⟩,
    ⟨[.assign (.loc 1) (.use (.const (.string "a")))], some (.goto 3)⟩,
    ⟨[.assign (.loc 1) (.use (.const (.string "b")))], some (.goto 3)⟩,
    ⟨[.drop (.loc 1), .assign (.loc 1) (.use (.const (.string "c"))), .drop (.loc 1),
      .assign (.loc 0) (.use (.const (.u64 7)))], some .ret⟩]

theorem joinFunction_paths {i : Nat} {S : Finset Nat} (h : PathOwns joinFunction i S) :
    S = if i = 3 then {1} else ∅ := by
  induction h with
  | zero => decide
  | @edge i s S _ hi hs ht ih =>
    have hlen : i < 4 := hi
    rcases (by omega : i = 0 ∨ i = 1 ∨ i = 2 ∨ i = 3) with rfl | rfl | rfl | rfl <;> rw [ih]
    · have hs' : s ∈ [1, 2] := hs
      simp only [List.mem_cons, List.not_mem_nil, or_false] at hs'
      rcases hs' with rfl | rfl <;> decide
    · rw [List.mem_singleton.1 hs]; decide
    · rw [List.mem_singleton.1 hs]; decide
    · cases hs

theorem joinFunction_settled : Settled joinFunction := by
  refine ⟨fun i b l value _ _ _ S S' hS hS' hl => ?_, fun i b callee args l next hb hcall => ?_, fun i b S hb _ base k => ?_⟩
  · rw [joinFunction_paths hS']
    rwa [joinFunction_paths hS] at hl
  · have hmem := List.mem_of_getElem? hb
    simp only [joinFunction, List.mem_cons, List.not_mem_nil, or_false] at hmem
    rcases hmem with rfl | rfl | rfl | rfl <;> cases hcall
  · have hmem := List.mem_of_getElem? hb
    simp only [joinFunction, List.mem_cons, List.not_mem_nil, or_false] at hmem
    rcases hmem with rfl | rfl | rfl | rfl <;> simp

theorem joinFunction_fills_twice :
    ∃ s₀ s rest, startCall ⟨[joinFunction], none⟩ ⟨9, 9, 9⟩ ⟨0, 0⟩ [] = .ok s₀ ∧
      Reaches (step ⟨[joinFunction], none⟩ ⟨9, 9, 9⟩) s₀ s ∧
      s.frame.rest = .assign (.loc 1) (.use (.const (.string "c"))) :: rest ∧ ¬ Overwrites ⟨9, 9, 9⟩ s := by
  refine ⟨_, _, _, rfl,
    Reaches.head rfl (Reaches.head rfl (Reaches.head rfl (Reaches.head rfl (Reaches.refl _ _)))), rfl, ?_⟩
  exact settled_never_overwrites (p := ⟨[joinFunction], none⟩) (by decide) (by simpa using joinFunction_settled)
    ⟨9, 9, 9⟩ ⟨0, 0⟩ [] rfl
    (Reaches.head rfl (Reaches.head rfl (Reaches.head rfl (Reaches.head rfl (Reaches.refl _ _)))))

/-- Two calls in a row write one string local. -/
def refillProgram : MirProgram where
  functions := [
    { id := ⟨0, 0⟩, parameterCount := 0, returnType := .u64, locals := [.u64, .string],
      blocks := [⟨[], some (.call ⟨0, 1⟩ [] (.loc 1) 1)⟩, ⟨[], some (.call ⟨0, 1⟩ [] (.loc 1) 2)⟩,
        ⟨[.drop (.loc 1), .assign (.loc 0) (.use (.const (.u64 7)))], some .ret⟩] },
    { id := ⟨0, 1⟩, parameterCount := 0, returnType := .string, locals := [.string],
      blocks := [⟨[.assign (.loc 0) (.use (.const (.string "s")))], some .ret⟩] }]
  entry := some ⟨0, 0⟩

theorem refillProgram_overwrites :
    verify refillProgram = .ok () ∧ ∃ s₀ s, startCall refillProgram ⟨9, 9, 9⟩ ⟨0, 0⟩ [] = .ok s₀ ∧
      Reaches (step refillProgram ⟨9, 9, 9⟩) s₀ s ∧ Overwrites ⟨9, 9, 9⟩ s := by
  refine ⟨by decide, _, _, rfl, Reaches.head rfl (Reaches.head rfl (Reaches.head rfl (Reaches.refl _ _))), ?_⟩
  exact ⟨1, .call (m := Machine.start) rfl rfl rfl rfl rfl⟩

end Interp
end Syllog
