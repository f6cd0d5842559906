import Syllog.CodegenSim
/-!
# CodegenRun — whole runs of the compiled program

`MatchState` relates an interpreter state to a Wasm configuration.  One step keeps it (`step_matched`, one case for a
statement and one for each terminator) and the last return gives the word of the interpreter's value, so the compiled
program returns what the interpreter returns (`execute_followed`).
-/
namespace Syllog
namespace Codegen

open Mir Interp Runs
open Wasm hiding Trap Frame step

/-! ## What `emit` gives -/

theorem encodeFunction_eq {p : MirProgram} {f : MirFunction} {g : Function} (h : encodeFunction p f = .ok g) :
    f.locals.length < 2 ^ 32 ∧ ∃ arms, encodeBlocks p f f.locals.length 0 f.blocks = .ok arms ∧
      g = { parameters := f.parameterCount, locals := min (f.locals.length - f.parameterCount + 1) (2 ^ 32 - 1),
            body := [.i64Const 0, .localSet f.locals.length, .loop] ++ arms ++
              [.unreachable, .end_, .i64Const 0, .end_] } := by
  unfold encodeFunction at h
  split at h
  · rename_i hlt
    obtain ⟨arms, harms, h⟩ := bind_eq_ok h
    cases h
    exact ⟨hlt, arms, harms, rfl⟩
  · cases h

theorem encodeFunctions_getElem? {p : MirProgram} : ∀ {fs : List MirFunction} {gs : List Function} {k : Nat}
    {f : MirFunction}, encodeFunctions p fs = .ok gs → fs[k]? = some f →
    ∃ g, gs[k]? = some g ∧ encodeFunction p f = .ok g
  | [], _, _, _, _, hk => by simp at hk
  | f' :: fs, _, k, f, h, hk => by
    obtain ⟨g, hg, h⟩ := bind_eq_ok h
    obtain ⟨gs, hgs, h⟩ := bind_eq_ok h
    cases h
    cases k with
    | zero =>
      cases hk
      exact ⟨g, rfl, hg⟩
    | succ k =>
      rw [List.getElem?_cons_succ] at hk ⊢
      exact encodeFunctions_getElem? hgs hk

theorem encodeFunctions_length {p : MirProgram} : ∀ {fs : List MirFunction} {gs : List Function},
    encodeFunctions p fs = .ok gs → gs.length = fs.length
  | [], _, h => by
    cases h
    rfl
  | f :: fs, _, h => by
    obtain ⟨g, hg, h⟩ := bind_eq_ok h
    obtain ⟨gs, hgs, h⟩ := bind_eq_ok h
    cases h
    simp [encodeFunctions_length hgs]

theorem lookup_eq_find (p : MirProgram) (id : DefId) :
    p.lookup id = (p.functions.zipIdx.reverse.find? (fun (f, _) => f.id = id)).map Prod.fst := by
  have hmap : p.functions.reverse = p.functions.zipIdx.reverse.map Prod.fst := by
    rw [List.map_reverse, List.zipIdx_map_fst]
  unfold MirProgram.lookup
  rw [hmap, List.find?_map]
  rfl

/-- The index the back end calls is the function the interpreter looks up. -/
theorem functionIndex_lookup {p : MirProgram} {id : DefId} {k : Nat} (h : functionIndex p id = some k) :
    ∃ f, p.functions[k]? = some f ∧ p.lookup id = some f := by
  unfold functionIndex at h
  obtain ⟨⟨f, k'⟩, hfind, rfl⟩ := Option.map_eq_some_iff.1 h
  have hmem := List.mem_of_find?_eq_some hfind
  rw [List.mem_reverse, List.mem_iff_getElem?] at hmem
  obtain ⟨i, hi⟩ := hmem
  rw [List.getElem?_zipIdx] at hi
  obtain ⟨f', hf', heq⟩ := Option.map_eq_some_iff.1 hi
  simp only [Nat.zero_add, Prod.mk.injEq] at heq
  obtain ⟨rfl, rfl⟩ := heq
  refine ⟨f', hf', ?_⟩
  rw [lookup_eq_find, hfind]
  rfl

theorem forM_ok {α : Type} {g : α → Except Failure Unit} : ∀ {l : List α}, l.forM g = .ok () → ∀ a ∈ l, g a = .ok ()
  | [], _, _, ha => by cases ha
  | b :: l, h, a, ha => by
    obtain ⟨u, hb, h⟩ := bind_eq_ok (show (g b >>= fun _ => l.forM g) = .ok () from h)
    rcases List.mem_cons.1 ha with rfl | ha
    · exact hb
    · exact forM_ok h a ha

/-- What is used of a module the back end returned. -/
structure Emitted (p : MirProgram) (M : Module) : Prop where
  functions : ∀ (k : Nat) (f : MirFunction), p.functions[k]? = some f →
    ∃ g, M.functions[k]? = some g ∧ encodeFunction p f = .ok g
  count : M.functions.length = p.functions.length
  types : ∀ f ∈ p.functions, ∀ ty ∈ f.locals, supportedAbiType ty = .ok ()
  main : ∃ entry, p.entry = some entry ∧ functionIndex p entry = some M.main

theorem emit_emitted {p : MirProgram} {M : Module} (h : emit p = .ok M) : Emitted p M := by
  unfold emit at h
  split at h
  · cases h
  · split at h
    · cases h
    · rename_i entry hentry
      split at h
      · cases h
      · obtain ⟨u, hsig, h⟩ := bind_eq_ok h
        split at h
        · cases h
        · split at h
          · cases h
          · rename_i main hmain
            obtain ⟨functions, hfs, h⟩ := bind_eq_ok h
            cases h
            exact ⟨fun k f hk => encodeFunctions_getElem? hfs hk, encodeFunctions_length hfs,
              fun f hf ty hty => forM_ok (forM_ok hsig f hf) ty hty, entry, hentry, hmain⟩

/-! ## Matching frames -/

def finalCode : List Instruction := [.unreachable, .end_, .i64Const 0, .end_]

structure MatchFrame (p : MirProgram) (fr : Interp.Frame) (w : Wasm.Frame) : Prop where
  function : fr.function ∈ p.functions
  inside : ∃ b ∈ fr.function.blocks, fr.rest ⊆ b.statements
  code : ∃ arms body t last after label words,
    encodeBlocks p fr.function fr.function.locals.length 0 fr.function.blocks = .ok arms ∧
    encodeAll (encodeStatement fr.function) fr.rest = .ok body ∧ fr.terminator = some t ∧
    encodeTerminator p fr.function fr.function.locals.length t = .ok last ∧ LocalsMatch fr.function fr.locals words ∧
    w = ⟨body ++ (last ++ after), [label, ⟨.loop :: (arms ++ finalCode), 0⟩], [], words⟩

/-- A frame that will store its callee's result and go on at the next block. -/
structure MatchCaller (p : MirProgram) (c : Caller) (w : Wasm.Frame) : Prop where
  function : c.frame.function ∈ p.functions
  code : ∃ arms d after label words,
    encodeBlocks p c.frame.function c.frame.function.locals.length 0 c.frame.function.blocks = .ok arms ∧
    encodeSetPlace c.frame.function c.destination = .ok d ∧ LocalsMatch c.frame.function c.frame.locals words ∧
    w = ⟨d ++ (encodeContinue c.frame.function.locals.length c.next 1 ++ after),
      [label, ⟨.loop :: (arms ++ finalCode), 0⟩], [], words⟩

structure MatchState (p : MirProgram) (s : State) (c : Config) : Prop where
  frame : MatchFrame p s.frame c.frame
  callers : List.Forall₂ (MatchCaller p) s.callers c.callers

section
variable {p : MirProgram} {M : Module} {f : MirFunction} {arms : List Instruction} {locals : Locals} {b : BasicBlock}
  {target : Nat} {words : Nat → Word}

/-- **The loop enters the block its counter names.** -/
theorem loop_enters (hf : f ∈ p.functions) (harms : encodeBlocks p f f.locals.length 0 f.blocks = .ok arms)
    (hb : f.blocks[target]? = some b) (hm : LocalsMatch f locals words)
    (hpc : words f.locals.length = BitVec.ofNat 64 target) (depth : Nat) (callers : List Wasm.Frame) :
    ∃ w, Advances (Wasm.step M) ⟨⟨.loop :: (arms ++ finalCode), [], [], words⟩, callers⟩ ⟨w, callers⟩ ∧
      MatchFrame p ⟨f, locals, target, b.statements, depth⟩ w := by
  obtain ⟨code, after, label, hcode, hreach⟩ := dispatch_arms (M := M) finalCode harms hb
    (show words f.locals.length = BitVec.ofNat 64 (0 + target) by rw [hpc, Nat.zero_add])
  obtain ⟨body, t, last, hbody, ht, hlast, rfl⟩ := encodeBlock_eq hcode
  refine ⟨_, ⟨_, rfl, hreach⟩, hf, ⟨b, List.mem_of_getElem? hb, List.Subset.refl _⟩, ?_⟩
  refine ⟨arms, body, t, last, after, label, words, harms, hbody, ?_, hlast, hm, by rw [List.append_assoc]; rfl⟩
  simp only [Frame.terminator, hb, Option.bind_some, ht]

/-- A continue sets the counter and branches to the loop. -/
theorem continue_enters (hf : f ∈ p.functions) (hok : FunctionOk p f)
    (harms : encodeBlocks p f f.locals.length 0 f.blocks = .ok arms) (hb : f.blocks[target]? = some b)
    (hm : LocalsMatch f locals words) (hlen : locals.length = f.locals.length) (labels : List Label) {d : Nat}
    (hlabels : labels.drop d = [⟨.loop :: (arms ++ finalCode), 0⟩]) (after : List Instruction) (depth : Nat)
    (callers : List Wasm.Frame) :
    ∃ w, Advances (Wasm.step M)
        ⟨⟨encodeContinue f.locals.length target d ++ after, labels, [], words⟩, callers⟩ ⟨w, callers⟩ ∧
      MatchFrame p ⟨f, locals, target, b.statements, depth⟩ w := by
  obtain ⟨w, hadv, hmatch⟩ := loop_enters (M := M) hf harms hb
    (hm.set_pc hok.params hlen (BitVec.ofNat 64 target)) (setLocal_self _ _ _) depth callers
  refine ⟨w, ?_, hmatch⟩
  have hset : Does M [.i64Const (BitVec.ofNat 64 target), .localSet f.locals.length] [] words []
      (setLocal words f.locals.length (BitVec.ofNat 64 target)) := (Does.const _).append (Does.set _ _)
  refine (Reaches.advances (hset labels (.br d :: after) callers) ?_).trans hadv.reaches
  simp only [Wasm.step, stepInstruction, hlabels]
  rfl

/-- **A switch branches to the first edge whose value is the operand's, else to the default.** -/
theorem switch_enters (hf : f ∈ p.functions) (hok : FunctionOk p f)
    (harms : encodeBlocks p f f.locals.length 0 f.blocks = .ok arms) (hm : LocalsMatch f locals words)
    (hlen : locals.length = f.locals.length) {value : Operand} {word : Word} {n : Nat}
    (hdoes : ∀ code, encodeOperand f value = .ok code → Does M code [] words [word] words)
    (hword : word = BitVec.ofNat 64 n) (hn : n < 2 ^ 64) (otherwise : Nat) (label : Label) (after : List Instruction)
    (depth : Nat) (callers : List Wasm.Frame) : ∀ {targets : List (Nat × Nat)} {edges : List Instruction},
    encodeAll (encodeTarget f f.locals.length value) targets = .ok edges →
    f.blocks[switchTarget n targets otherwise]? = some b →
    ∃ w, Advances (Wasm.step M)
        ⟨⟨edges ++ (encodeContinue f.locals.length otherwise 1 ++ after),
          [label, ⟨.loop :: (arms ++ finalCode), 0⟩], [], words⟩, callers⟩ ⟨w, callers⟩ ∧
      MatchFrame p ⟨f, locals, switchTarget n targets otherwise, b.statements, depth⟩ w
  | [], edges, hedges, hb => by
    cases hedges
    exact continue_enters hf hok harms hb hm hlen _ rfl after depth callers
  | (candidate, block) :: targets, edges, hedges, hb => by
    obtain ⟨first, hfirst, hedges⟩ := bind_eq_ok hedges
    obtain ⟨rest, hrest, hedges⟩ := bind_eq_ok hedges
    cases hedges
    obtain ⟨cv, hcv, hlt, rfl⟩ := encodeTarget_eq hfirst
    rw [switchTarget_cons] at hb ⊢
    have htest : Does M (cv ++ [.i64Const (BitVec.ofNat 64 candidate), .i64 .eq]) [] words
        [truth (word = BitVec.ofNat 64 candidate)] words :=
      (hdoes cv hcv).append ((Does.const (BitVec.ofNat 64 candidate)).append (Does.numeric rfl))
    let tail := rest ++ (encodeContinue f.locals.length otherwise 1 ++ after)
    have hstart : Reaches (Wasm.step M) _ ⟨⟨.ifEmpty :: (encodeContinue f.locals.length block 2 ++ .end_ :: tail),
        [label, ⟨.loop :: (arms ++ finalCode), 0⟩], [truth (word = BitVec.ofNat 64 candidate)], words⟩, callers⟩ :=
      htest _ _ callers
    by_cases hc : candidate = n
    · rw [if_pos hc] at hb ⊢
      have hone : truth (word = BitVec.ofNat 64 candidate) ≠ 0 := by rw [hword, hc]; simp [truth]
      obtain ⟨w, hadv, hmatch⟩ := continue_enters (M := M) hf hok harms hb hm hlen
        [⟨skipToEnd 0 (encodeContinue f.locals.length block 2 ++ .end_ :: tail), 0⟩, label,
          ⟨.loop :: (arms ++ finalCode), 0⟩] (d := 2) rfl (.end_ :: tail) depth callers
      refine ⟨w, ?_, hmatch⟩
      have hadv' := (hstart.advances (step_if_taken M _ _ _ _ _ hone)).trans hadv.reaches
      simpa [tail] using hadv'
    · rw [if_neg hc] at hb ⊢
      have hne : word ≠ BitVec.ofNat 64 candidate := by
        rw [hword]
        intro e
        have := congrArg BitVec.toNat e
        simp only [BitVec.toNat_ofNat] at this
        omega
      have hzero : truth (word = BitVec.ofNat 64 candidate) = 0 := by simp [truth, hne]
      rw [hzero] at hstart
      obtain ⟨w, hadv, hmatch⟩ := switch_enters hf hok harms hm hlen hdoes hword hn otherwise label after depth callers
        hrest hb
      refine ⟨w, ?_, hmatch⟩
      have hadv' := (hstart.advances (step_if_skipped M (encodeContinue_balanced _ _ _) _ _ _ _ _)).trans hadv.reaches
      simpa [tail] using hadv'

end

/-! ## Steps -/

/-- The statement a state is about to execute compares words only where it compares values. -/
def FaithfulState (limits : InterpreterLimits) (s : State) : Prop :=
  ∀ destination value, s.frame.rest.head? = some (.assign destination value) →
    EqualityFaithful limits s.frame.locals value

section
variable {p : MirProgram} {M : Module} {limits : InterpreterLimits} {depth : Depth} {s s' : State} {c : Config}

theorem encodeAll_cons {α : Type} {encode : α → Emit} {a : α} {as : List α} {code : List Instruction}
    (h : encodeAll encode (a :: as) = .ok code) :
    ∃ first rest, encode a = .ok first ∧ encodeAll encode as = .ok rest ∧ code = first ++ rest := by
  obtain ⟨first, hfirst, h⟩ := bind_eq_ok h
  obtain ⟨rest, hrest, h⟩ := bind_eq_ok h
  cases h
  exact ⟨first, rest, hfirst, hrest, rfl⟩

/-- **A statement**: an assignment runs its code, a drop none. -/
theorem statement_matched {m m' : Machine} {st : Statement} {rest : List Statement} {locals : Locals}
    (hok : StateOk p s) (ht : TypedState depth s) (hfaithful : FaithfulState limits s) (hmatch : MatchState p s c)
    (code : s.frame.rest = st :: rest) (run : executeStatement limits st m s.frame.locals = .ok (m', locals)) :
    ∃ c', MatchState p ⟨m', { s.frame with locals := locals, rest := rest }, s.callers⟩ c' ∧
      (Advances (Wasm.step M) c c' ∨ (c' = c ∧ rest.length < s.frame.rest.length)) := by
  obtain ⟨⟨hf, ⟨b, hb, hsub⟩, arms, body, t, last, after, label, words, harms, hbody, hterm, hlast, hm, hw⟩, hcs⟩ := hmatch
  obtain ⟨-, owned, t', -, hcode, -⟩ := hok.frame
  rw [code] at hcode hbody hsub
  obtain ⟨first, restCode, hfirst, hrest, rfl⟩ := encodeAll_cons hbody
  have hinside : ∃ b ∈ s.frame.function.blocks, rest ⊆ b.statements :=
    ⟨b, hb, fun x hx => hsub (List.mem_cons_of_mem _ hx)⟩
  cases st with
  | assign destination value =>
    obtain ⟨cv, hcv, hfirst⟩ := bind_eq_ok hfirst
    obtain ⟨cd, hcd, hfirst⟩ := bind_eq_ok hfirst
    cases hfirst
    obtain ⟨⟨v, m1, l1⟩, hv, run⟩ := bind_eq_ok run
    obtain ⟨l2, hl2, run⟩ := bind_eq_ok run
    cases run
    cases destination with
    | field base k => cases hcd
    | loc l =>
      cases hcd
      obtain ⟨slot, -, hl2⟩ := bind_eq_ok hl2
      cases hl2
      obtain ⟨hd, hm1⟩ := rvalue_does (M := M) hcode.statements.1.1 ht.frame hm
        (hfaithful _ _ (by rw [code]; rfl)) hcv hv []
      refine ⟨⟨⟨restCode ++ (last ++ after), _, [], _⟩, c.callers⟩, ⟨⟨hf, hinside, arms, restCode, t, last, after, label, _,
        harms, hrest, hterm, hlast, hm1.set_some l v, rfl⟩, hcs⟩, .inl ?_⟩
      have hreach := hd [label, ⟨.loop :: (arms ++ finalCode), 0⟩]
        (.localSet (wasmLocal s.frame.function l) :: (restCode ++ (last ++ after))) c.callers
      have hadv := hreach.advances rfl
      have hc : c = ⟨c.frame, c.callers⟩ := rfl
      rw [hc, hw]
      simpa using hadv
  | drop place =>
    cases place with
    | field base k => cases hfirst
    | loc l =>
      cases hfirst
      obtain ⟨slot, -, run⟩ := bind_eq_ok run
      cases slot with
      | none => cases run
      | some v =>
        cases run
        refine ⟨c, ⟨⟨hf, hinside, arms, restCode, t, last, after, label, words, harms, hrest, hterm, hlast,
          hm.set_none l, hw⟩, hcs⟩, .inr ⟨rfl, ?_⟩⟩
        rw [code]
        exact Nat.lt_succ_self _

theorem initialLocals_match {g : MirFunction} {vs : List Value} (hlen : vs.length = g.parameterCount) :
    LocalsMatch g (initialLocals g.locals.length vs) (fun i => ((vs.map encode)[i]?).getD 0) := by
  intro l v hl
  have hlt : l < g.locals.length := by
    have := (List.getElem?_eq_some_iff.1 hl).1
    simpa [initialLocals] using this
  rw [initialLocals_getElem? _ _ hlt, Option.some.injEq] at hl
  by_cases h0 : l = 0
  · rw [if_pos h0] at hl; cases hl
  · rw [if_neg h0] at hl
    have hle : l ≤ g.parameterCount := by
      have := (List.getElem?_eq_some_iff.1 hl).1
      omega
    have hwl : wasmLocal g l = l - 1 := by
      unfold wasmLocal
      rw [if_neg h0, if_pos hle]
    rw [hwl]
    simp [hl]

/-- **A call** pushes the words of the arguments and enters the callee's first block. -/
theorem call_matched {m m' : Machine} {callee : DefId} {args : List Operand} {destination : Place} {next : Nat}
    {vs : List Value} {locals : Locals} {g : MirFunction} {b : BasicBlock} (hM : Emitted p M) (hg : FunctionOk p g)
    (hmatch : MatchState p s c) (code : s.frame.rest = [])
    (last : s.frame.terminator = some (.call callee args destination next))
    (run : operands limits args m s.frame.locals = .ok (vs, m', locals)) (function : p.lookup callee = some g)
    (count : vs.length = g.parameterCount) (block : g.blocks[0]? = some b) (d : Nat) :
    ∃ c', MatchState p ⟨m', ⟨g, initialLocals g.locals.length vs, 0, b.statements, d⟩,
        ⟨{ s.frame with locals := locals }, destination, next⟩ :: s.callers⟩ c' ∧ Advances (Wasm.step M) c c' := by
  obtain ⟨⟨hf, -, arms, body, t, lastCode, after, label, words, harms, hbody, hterm, hlast, hm, hw⟩, hcs⟩ := hmatch
  rw [code] at hbody
  cases hbody
  rw [last] at hterm
  cases hterm
  obtain ⟨arguments, hargs, hlast⟩ := bind_eq_ok hlast
  split at hlast
  · cases hlast
  rename_i index hindex
  obtain ⟨cd, hcd, hlast⟩ := bind_eq_ok hlast
  cases hlast
  obtain ⟨g', hg', hlookup⟩ := functionIndex_lookup hindex
  rw [function] at hlookup
  cases hlookup
  obtain ⟨G, hG, hencode⟩ := hM.functions index g hg'
  obtain ⟨-, garms, hgarms, rfl⟩ := encodeFunction_eq hencode
  have hgmem : g ∈ p.functions := MirProgram.lookup_mem function
  have hglen : (initialLocals g.locals.length vs).length = g.locals.length := by simp [initialLocals]
  let waiting : Wasm.Frame := ⟨cd ++ (encodeContinue s.frame.function.locals.length next 1 ++ after),
    [label, ⟨.loop :: (arms ++ finalCode), 0⟩], [], words⟩
  obtain ⟨w, hadv, hmatch'⟩ := loop_enters (M := M) hgmem hgarms block
    ((initialLocals_match count).set_pc hg.params hglen 0) (setLocal_self _ _ _) d (waiting :: c.callers)
  refine ⟨⟨w, waiting :: c.callers⟩, ⟨hmatch', .cons ⟨hf, arms, cd, after, label, words, harms, hcd,
    operands_match hm run, rfl⟩ hcs⟩, ?_⟩
  have hpush := operands_does (M := M) [] hm hargs run [label, ⟨.loop :: (arms ++ finalCode), 0⟩]
    (.call index :: (cd ++ (encodeContinue s.frame.function.locals.length next 1 ++ after))) c.callers
  have hplen : ((vs.map encode).reverse ++ []).length = g.parameterCount := by simpa using count
  have hcall : Wasm.step M ⟨⟨.call index :: (cd ++ (encodeContinue s.frame.function.locals.length next 1 ++ after)),
      [label, ⟨.loop :: (arms ++ finalCode), 0⟩], (vs.map encode).reverse ++ [], words⟩, c.callers⟩ =
      .ok (.inl ⟨⟨.i64Const 0 :: .localSet g.locals.length :: .loop :: (garms ++ finalCode), [], [],
        fun i => ((vs.map encode)[i]?).getD 0⟩, waiting :: c.callers⟩) := by
    simp only [Wasm.step, stepInstruction, hG]
    rw [if_neg (by omega), List.take_of_length_le (by omega), List.drop_of_length_le (by omega)]
    simp [Frame.enter, finalCode, waiting]
  have hset : Does M [.i64Const 0, .localSet g.locals.length] [] (fun i => ((vs.map encode)[i]?).getD 0) []
      (setLocal (fun i => ((vs.map encode)[i]?).getD 0) g.locals.length 0) := (Does.const _).append (Does.set _ _)
  have hc : c = ⟨c.frame, c.callers⟩ := rfl
  rw [hc, hw]
  have hfirst := (hpush.advances hcall).trans (hset [] (.loop :: (garms ++ finalCode)) (waiting :: c.callers))
  simpa using hfirst.trans hadv.reaches

/-- **A return** hands the word of the return slot to the waiting frame, which stores it and goes on. -/
theorem ret_matched {m : Machine} {v : Value} {caller : Caller} {callers : List Caller} {locals : Locals} {b : BasicBlock}
    (hcaller : FunctionOk p caller.frame.function) (hlen : locals.length = caller.frame.function.locals.length)
    (hmatch : MatchState p s c) (code : s.frame.rest = []) (last : s.frame.terminator = some .ret)
    (value : s.frame.locals[0]? = some (some v)) (waiting : s.callers = caller :: callers)
    (run : assign caller.destination v caller.frame.locals = .ok locals)
    (block : caller.frame.function.blocks[caller.next]? = some b) :
    ∃ c', MatchState p ⟨m, { caller.frame with locals := locals, block := caller.next, rest := b.statements }, callers⟩ c' ∧
      Advances (Wasm.step M) c c' := by
  obtain ⟨⟨-, -, arms, body, t, lastCode, after, label, words, -, hbody, hterm, hlast, hm, hw⟩, hcs⟩ := hmatch
  rw [code] at hbody
  cases hbody
  rw [last] at hterm
  cases hterm
  cases hlast
  rw [waiting] at hcs
  obtain ⟨w, ws, ⟨hcf, carms, cd, cafter, clabel, cwords, hcarms, hcd, hcm, rfl⟩, hcs, hcallers⟩ :=
    List.forall₂_cons_left_iff.1 hcs
  cases hdest : caller.destination with
  | field base k => rw [hdest] at hcd; cases hcd
  | loc l =>
    rw [hdest] at hcd run
    cases hcd
    obtain ⟨slot, -, run⟩ := bind_eq_ok run
    cases run
    obtain ⟨w, hadv, hmatch'⟩ := continue_enters (M := M) hcf hcaller hcarms block (hcm.set_some l v) hlen
      [clabel, ⟨.loop :: (carms ++ finalCode), 0⟩] (d := 1) rfl cafter caller.frame.depth ws
    refine ⟨⟨w, ws⟩, ⟨hmatch', hcs⟩, ?_⟩
    have hc : c = ⟨c.frame, c.callers⟩ := rfl
    rw [hc, hw, hcallers]
    have hget : Does M [.localGet (wasmLocal s.frame.function 0)] [] words [encode v] words := by
      rw [← hm 0 v value]
      exact Does.get _
    let waiting : Wasm.Frame := ⟨.localSet (wasmLocal caller.frame.function l) ::
      (encodeContinue caller.frame.function.locals.length caller.next 1 ++ cafter),
      [clabel, ⟨.loop :: (carms ++ finalCode), 0⟩], [], cwords⟩
    have hgive := (hget [label, ⟨.loop :: (arms ++ finalCode), 0⟩] (.ret :: after) (waiting :: ws)).advances rfl
    exact (hgive.trans (Reaches.single rfl)).trans hadv.reaches

/-- **Every step of the interpreter is matched.** -/
theorem step_matched (hv : verify p = .ok ()) (hM : Emitted p M) (hok : StateOk p s) (ht : TypedState depth s)
    (hfaithful : FaithfulState limits s) (hmatch : MatchState p s c) (h : Interp.step p limits s = .ok (.inl s')) :
    ∃ c', MatchState p s' c' ∧
      (Advances (Wasm.step M) c c' ∨ (c' = c ∧ s'.frame.rest.length < s.frame.rest.length)) := by
  have hok' : StateOk p s' := by
    have := step_stateOk hv limits hok
    rw [h] at this
    exact this
  have hlen' : s'.frame.locals.length = s'.frame.function.locals.length := by
    obtain ⟨-, owned, t, -, -, hk⟩ := hok'.frame
    exact hk.1
  have hfun := hok.frame.function
  cases step_moves h with
  | statement _ code run => exact statement_matched hok ht hfaithful hmatch code run
  | @goto m target b _ code last block =>
    obtain ⟨⟨hf, -, arms, body, t, lastCode, after, label, words, harms, hbody, hterm, hlast, hm, hw⟩, hcs⟩ := hmatch
    rw [code] at hbody
    cases hbody
    rw [last] at hterm
    cases hterm
    cases hlast
    obtain ⟨w, hadv, hmatch'⟩ := continue_enters (M := M) hf hfun harms block hm hlen'
      [label, ⟨.loop :: (arms ++ finalCode), 0⟩] (d := 1) rfl after s.frame.depth c.callers
    refine ⟨⟨w, c.callers⟩, ⟨hmatch', hcs⟩, .inl ?_⟩
    have hc : c = ⟨c.frame, c.callers⟩ := rfl
    rw [hc, hw]
    exact hadv
  | @switchInt m m' value targets otherwise n locals b _ code last run block =>
    obtain ⟨⟨hf, -, arms, body, t, lastCode, after, label, words, harms, hbody, hterm, hlast, hm, hw⟩, hcs⟩ := hmatch
    rw [code] at hbody
    cases hbody
    rw [last] at hterm
    cases hterm
    obtain ⟨edges, hedges, hlast⟩ := bind_eq_ok hlast
    cases hlast
    obtain ⟨⟨v, m1, l1⟩, ho, run⟩ := bind_eq_ok run
    obtain ⟨n', hn, run⟩ := bind_eq_ok run
    cases run
    obtain ⟨hword, hlt⟩ := switchValue_encode hn
    obtain ⟨w, hadv, hmatch'⟩ := switch_enters (M := M) hf hfun harms (operand_match hm ho) hlen'
      (fun _ hcv => operand_does hm hcv ho []) hword hlt otherwise label after s.frame.depth c.callers hedges block
    refine ⟨⟨w, c.callers⟩, ⟨hmatch', hcs⟩, .inl ?_⟩
    have hc : c = ⟨c.frame, c.callers⟩ := rfl
    rw [hc, hw]
    simpa using hadv
  | call _ code last run function count block =>
    have hg := verify_functionOk hv (MirProgram.lookup_mem function)
    obtain ⟨c', hmatch', hadv⟩ := call_matched hM hg hmatch code last run function count block _
    exact ⟨c', hmatch', .inl hadv⟩
  | ret _ code last value waiting run block =>
    have hcaller := (hok.callers _ (by rw [waiting]; exact List.mem_cons_self)).function
    obtain ⟨c', hmatch', hadv⟩ := ret_matched (M := M) hcaller hlen' hmatch code last value waiting run block
    exact ⟨c', hmatch', .inl hadv⟩

theorem result_matched {v : Value} {m : Machine} (hmatch : MatchState p s c)
    (h : Interp.step p limits s = .ok (.inr (v, m))) :
    ∃ c', Reaches (Wasm.step M) c c' ∧ Wasm.step M c' = .ok (.inr (encode v)) := by
  obtain ⟨-, code, last, hnil, value⟩ := step_result h
  obtain ⟨⟨-, -, arms, body, t, lastCode, after, label, words, -, hbody, hterm, hlast, hm, hw⟩, hcs⟩ := hmatch
  rw [code] at hbody
  cases hbody
  rw [last] at hterm
  cases hterm
  cases hlast
  rw [hnil] at hcs
  have hcallers := List.forall₂_nil_left_iff.1 hcs
  have hc : c = ⟨c.frame, c.callers⟩ := rfl
  rw [hc, hw, hcallers]
  have hget : Does M [.localGet (wasmLocal s.frame.function 0)] [] words [encode v] words := by
    rw [← hm 0 v value]
    exact Does.get _
  exact ⟨_, hget [label, ⟨.loop :: (arms ++ finalCode), 0⟩] (.ret :: after) [], rfl⟩

end

/-! ## Forward -/

/-- A fresh frame of the exported function comes to its first block. -/
theorem start_matched {p : MirProgram} {M : Module} (hv : verify p = .ok ()) (hM : Emitted p M) {entry : DefId}
    (hentry : p.entry = some entry) {limits : InterpreterLimits} {s₀ : State}
    (h₀ : startCall p limits entry [] = .ok s₀) :
    ∃ G c, M.functions[M.main]? = some G ∧ Reaches (Wasm.step M) ⟨Frame.enter G [], []⟩ c ∧ MatchState p s₀ c ∧
      p.lookup entry = some s₀.bottom := by
  obtain ⟨fr, hfr, h₀⟩ := bind_eq_ok h₀
  obtain ⟨g, b, hg, hlen, hb, rfl⟩ := enterCall_ok hfr
  cases h₀
  obtain ⟨entry', hentry', hindex⟩ := hM.main
  rw [hentry] at hentry'
  cases hentry'
  obtain ⟨g', hg', hlookup⟩ := functionIndex_lookup hindex
  rw [hg] at hlookup
  cases hlookup
  obtain ⟨G, hG, hencode⟩ := hM.functions _ g hg'
  obtain ⟨-, garms, hgarms, rfl⟩ := encodeFunction_eq hencode
  have hgmem : g ∈ p.functions := MirProgram.lookup_mem hg
  have hglen : (initialLocals g.locals.length []).length = g.locals.length := by simp [initialLocals]
  obtain ⟨w, hadv, hmatch⟩ := loop_enters (M := M) hgmem hgarms hb
    ((initialLocals_match hlen).set_pc (verify_functionOk hv hgmem).params hglen 0) (setLocal_self _ _ _) 1 []
  refine ⟨_, ⟨w, []⟩, hG, ?_, ⟨hmatch, .nil⟩, hg⟩
  have hset : Does M [.i64Const 0, .localSet g.locals.length] [] (fun i => ((([] : List Value).map encode)[i]?).getD 0) []
      (setLocal (fun i => ((([] : List Value).map encode)[i]?).getD 0) g.locals.length 0) :=
    (Does.const _).append (Does.set _ _)
  have hreach := (hset [] (.loop :: (garms ++ finalCode)) []).trans hadv.reaches
  simpa [Frame.enter, finalCode] using hreach

/-- Aggregates without fields. -/
def Fieldless (p : MirProgram) : Prop :=
  ∀ f ∈ p.functions, ∀ b ∈ f.blocks, ∀ destination ty d fields,
    .assign destination (.aggregate ty d fields) ∈ b.statements → fields = []

section
variable {p : MirProgram} {M : Module} {limits : InterpreterLimits} {s : State} {c : Config}

/-- A matched frame's next statement has code, so it names no field. -/
theorem matched_statement (hmatch : MatchState p s c) {st : Statement} (hst : st ∈ s.frame.rest.head?) :
    (∃ code, encodeStatement s.frame.function st = .ok code) ∧ ∃ b ∈ s.frame.function.blocks, st ∈ b.statements := by
  obtain ⟨⟨hf, ⟨b, hb, hsub⟩, arms, body, t, last, after, label, words, harms, hbody, -⟩, -⟩ := hmatch
  cases hrest : s.frame.rest with
  | nil => rw [hrest] at hst; cases hst
  | cons st' rest =>
    rw [hrest] at hst hbody hsub
    cases hst
    obtain ⟨first, restCode, hfirst, -, -⟩ := encodeAll_cons hbody
    exact ⟨⟨first, hfirst⟩, b, hb, hsub List.mem_cons_self⟩

theorem matched_tame {depth : Depth} (hrigid : ¬ depth.rigid) (hdepth : depth = .flat → Fieldless p)
    (hmatch : MatchState p s c) : TameState depth s := by
  intro st hst
  obtain ⟨⟨code, hcode⟩, b, hb, hmem⟩ := matched_statement hmatch hst
  cases st with
  | drop place => trivial
  | assign destination value =>
    obtain ⟨cv, hcv, -⟩ := bind_eq_ok hcode
    refine ⟨?_, ?_⟩
    · cases value with
      | borrow mutable place =>
        cases place with
        | loc l => trivial
        | field base k => cases hcv
      | aggregate ty d fields =>
        exact ⟨fun hd => hdepth hd _ hmatch.frame.function b hb _ _ _ _ hmem, fun _ hd => absurd (hd ▸ trivial) hrigid⟩
      | _ => trivial
    · rintro mutable base k l rfl
      cases hcv

theorem declaredType_supported (hM : Emitted p M) {f : MirFunction} (hf : f ∈ p.functions) {o : Operand} {ty : MirType}
    {code : List Instruction} (ho : declaredType f o = some ty) (hcode : encodeOperand f o = .ok code) :
    supportedAbiType ty = .ok () := by
  cases o with
  | const k => cases k <;> cases ho <;> cases hcode <;> rfl
  | copy l => exact hM.types f hf ty (List.mem_of_getElem? ho)
  | move l => exact hM.types f hf ty (List.mem_of_getElem? ho)

theorem flat_faithful (hM : Emitted p M) (hok : StateOk p s) (ht : TypedState .flat s) (hmatch : MatchState p s c) :
    FaithfulState limits s := by
  intro destination value hst
  obtain ⟨⟨code, hcode⟩, -⟩ := matched_statement hmatch hst
  obtain ⟨cv, hcv, -⟩ := bind_eq_ok hcode
  obtain ⟨-, owned, t, -, hok', -⟩ := hok.frame
  cases hrest : s.frame.rest with
  | nil => rw [hrest] at hst; cases hst
  | cons st rest =>
    rw [hrest] at hst hok'
    cases hst
    have hval := hok'.statements.1.1
    cases value with
    | binary operator left right =>
      cases operator with
      | equal =>
        intro m a m1 l1 b m2 l2 ha hb heq
        obtain ⟨cl, hcl, -⟩ := bind_eq_ok hcv
        obtain ⟨-, ty, hl, hr, -⟩ := hval
        obtain ⟨ht1, hta⟩ := operand_typed ht.frame ha
        obtain ⟨-, htb⟩ := operand_typed ht1 hb
        have hsup := declaredType_supported hM hmatch.frame.function hl hcl
        exact encode_injective hsup (hta ty hl) (htb ty hr) heq
      | _ => trivial
    | _ => trivial

end

/-- **The compiled program returns the word of what the interpreter returns.** -/
theorem execute_followed {p : MirProgram} (hv : verify p = .ok ()) {M : Module} (hM : emit p = .ok M)
    (hfieldless : Fieldless p) {entry : DefId} (hentry : p.entry = some entry) {f : MirFunction}
    (hf : p.lookup entry = some f) (hparams : f.parameterCount = 0)
    (hret : f.returnType = .unit ∨ f.returnType = .bool ∨ f.returnType = .i64 ∨ f.returnType = .u64)
    (limits : InterpreterLimits) (fuel : Nat) (r : ExecutionResult)
    (h : execute fuel p entry limits = some (.ok r)) :
    ∃ fuel' w, runMain fuel' M = some (.ok w) ∧ bits r.value = some w := by
  have hem := emit_emitted hM
  obtain ⟨s₀, v, m, h₀, hrun, rfl⟩ := execute_ok hv h
  obtain ⟨G, c₀, hG, hreach, hmatch, hbottom⟩ := start_matched hv hem hentry h₀
  have hok : StateOk p s₀ := by
    have := startCall_stateOk hv limits [] hf (by simp [hparams])
    rw [h₀] at this
    exact this
  rw [hf] at hbottom
  -- related: in order, typed without fields, matched, and started from the entry
  obtain ⟨n, w, hn, hq⟩ := run_forward (R := fun s c => StateOk p s ∧ TypedState .flat s ∧ MatchState p s c ∧ s.bottom = f)
    (Q := fun r w => w = encode r.1 ∧ HasType .shallow r.1 f.returnType)
    (fun s c ⟨hok, ht, hm, hb⟩ s' hs => by
      obtain ⟨c', hm', hadv⟩ := step_matched hv hem hok ht (flat_faithful hem hok ht hm) hm hs
      have hok' : StateOk p s' := by
        have := step_stateOk hv limits hok
        rw [hs] at this
        exact this
      refine ⟨c', ?_, hok', step_typed id hok ht (matched_tame id (fun _ => hfieldless) hm) hs, hm',
        (step_bottom hs).trans hb⟩
      rcases hadv with hadv | ⟨rfl, -⟩
      · exact hadv.reaches
      · exact Reaches.refl _ _)
    (fun s c ⟨hok, ht, hm, hb⟩ r hs => by
      obtain ⟨v, m⟩ := r
      obtain ⟨c', hr, hc'⟩ := result_matched hm hs
      exact ⟨c', _, hr, hc', rfl, hb ▸ (result_typed hok ht hs).shallow⟩)
    ⟨hok, startCall_typed h₀, hmatch, (Option.some.inj hbottom).symm⟩ hrun
  obtain ⟨rfl, hty⟩ := hq
  obtain ⟨c', hc', he⟩ := run_eq_some _ _ _ hn
  obtain ⟨k, hk⟩ := run_of_reaches (hreach.trans hc') he
  refine ⟨k, encode v, ?_, bits_intoRuntime hty hret⟩
  simp only [runMain, hG]
  exact hk

/-- `main` makes a tag, reads it and subtracts it from what `seven` returns, unless the tag is zero. -/
def tagProgram : MirProgram where
  functions := [
    { id := ⟨0, 0⟩, parameterCount := 0, returnType := .u64, locals := [.u64, .aggregate ⟨0, 2⟩, .u64, .u64],
      blocks := [⟨[.assign (.loc 1) (.aggregate ⟨0, 2⟩ 3 []), .assign (.loc 2) (.discriminant (.move 1))],
          some (.switchInt (.copy 2) [(0, 2)] 1)⟩,
        ⟨[], some (.call ⟨0, 1⟩ [.copy 2] (.loc 3) 3)⟩,
        ⟨[.assign (.loc 3) (.use (.const (.u64 0)))], some (.goto 3)⟩,
        ⟨[.assign (.loc 0) (.binary .subtract (.copy 3) (.copy 2))], some .ret⟩] },
    { id := ⟨0, 1⟩, parameterCount := 1, returnType := .u64, locals := [.u64, .u64],
      blocks := [⟨[.assign (.loc 0) (.binary .add (.copy 1) (.const (.u64 4)))], some .ret⟩] }]
  entry := some ⟨0, 0⟩

theorem tagProgram_returns_four :
    ∃ M, emit tagProgram = .ok M ∧ ∃ fuel w, runMain fuel M = some (.ok w) ∧ some (4 : Word) = some w := by
  obtain ⟨M, hM⟩ : ∃ M, emit tagProgram = .ok M := ⟨_, rfl⟩
  exact ⟨M, hM, execute_followed (p := tagProgram) (by decide) hM (by simp [Fieldless, tagProgram]) rfl rfl rfl
    (.inr (.inr (.inr rfl))) ⟨99, 9, 99⟩ 20 ⟨.u64 4, [], 0⟩ rfl⟩

end Codegen
end Syllog
