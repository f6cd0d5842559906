import Syllog.Runs
/-!
# WasmI32 — leaf functions over 32-bit words

Function bodies that compare and select 32-bit words, in the flat form a binary holds them: an `if` opens a label, with or
without a result, `else` and `end` divide and close it.  There are no loops and no branches, so every step leaves a shorter
body and a call always comes to an end.
-/
namespace Syllog
namespace WasmI32

open Runs

abbrev I32 := BitVec 32

inductive Instruction where
  | i32Const (value : I32)
  | localGet (index : Nat)
  | i32Eq
  | ifEmpty
  | ifResult
  | else_
  | ret
  | end_
deriving DecidableEq, Repr

/-- `invalid` is what a validated body never runs into. -/
inductive Trap where
  | invalid
deriving DecidableEq, Repr

structure Config where
  code : List Instruction
  labels : Nat
  stack : List I32
  locals : List I32
deriving DecidableEq, Repr

/-! ## Execution -/

/-- Code from the `end` that closes the innermost open label on, `depth` more being open. -/
def skipToEnd : Nat → List Instruction → List Instruction
  | _, []                => []
  | d, .ifEmpty :: code  => skipToEnd (d + 1) code
  | d, .ifResult :: code => skipToEnd (d + 1) code
  | 0, .end_ :: code     => .end_ :: code
  | d + 1, .end_ :: code => skipToEnd d code
  | d, _ :: code         => skipToEnd d code

/-- Code after the `else` of the innermost open label; from its `end` on, where it has none. -/
def skipToElse : Nat → List Instruction → List Instruction
  | _, []                => []
  | d, .ifEmpty :: code  => skipToElse (d + 1) code
  | d, .ifResult :: code => skipToElse (d + 1) code
  | 0, .else_ :: code    => code
  | 0, .end_ :: code     => .end_ :: code
  | d + 1, .end_ :: code => skipToElse d code
  | d, _ :: code         => skipToElse d code

def giveBack : List I32 → Except Trap (Config ⊕ I32)
  | v :: _ => .ok (.inr v)
  | []     => .error .invalid

/-- An `if` on the word on top of the stack. -/
def select (c : Config) (code : List Instruction) : Except Trap (Config ⊕ I32) :=
  match c.stack with
  | v :: stack =>
    .ok (.inl { c with code := if v = 0 then skipToElse 0 code else code, labels := c.labels + 1, stack := stack })
  | []         => .error .invalid

def step (c : Config) : Except Trap (Config ⊕ I32) :=
  match c.code with
  | []                   => .error .invalid
  | .i32Const v :: code  => .ok (.inl { c with code := code, stack := v :: c.stack })
  | .localGet i :: code  => match c.locals[i]? with
    | some v => .ok (.inl { c with code := code, stack := v :: c.stack })
    | none   => .error .invalid
  | .i32Eq :: code       => match c.stack with
    | b :: a :: stack => .ok (.inl { c with code := code, stack := (if a = b then 1 else 0) :: stack })
    | _               => .error .invalid
  | .ifEmpty :: code     => select c code
  | .ifResult :: code    => select c code
  -- The first branch of an `if` is done: its other branch is passed over.
  | .else_ :: code       => .ok (.inl { c with code := skipToEnd 0 code })
  | .ret :: _            => giveBack c.stack
  | .end_ :: code        => match c.labels with
    | labels + 1 => .ok (.inl { c with code := code, labels := labels })
    | 0          => giveBack c.stack

/-- A call of a function with this body: every step uses up code. -/
def call (body : List Instruction) (arguments : List I32) : Option (Except Trap I32) :=
  run step (body.length + 1) ⟨body, 0, [], arguments⟩

/-! ## Calls come to an end -/

theorem skipToEnd_length : ∀ (d : Nat) (code : List Instruction), (skipToEnd d code).length ≤ code.length
  | _, [] => by simp [skipToEnd]
  | d, i :: code => by
    have h1 := skipToEnd_length d code
    have h2 := skipToEnd_length (d + 1) code
    have h3 := skipToEnd_length (d - 1) code
    cases i <;> cases d <;> simp only [skipToEnd, List.length_cons, Nat.add_sub_cancel] at * <;> omega

theorem skipToElse_length : ∀ (d : Nat) (code : List Instruction), (skipToElse d code).length ≤ code.length
  | _, [] => by simp [skipToElse]
  | d, i :: code => by
    have h1 := skipToElse_length d code
    have h2 := skipToElse_length (d + 1) code
    have h3 := skipToElse_length (d - 1) code
    cases i <;> cases d <;> simp only [skipToElse, List.length_cons, Nat.add_sub_cancel] at * <;> omega

theorem select_shrinks {c c' : Config} {code : List Instruction} (h : select c code = .ok (.inl c')) :
    c'.code.length ≤ code.length := by
  unfold select at h
  split at h
  · cases h
    by_cases hv : (‹I32› : I32) = 0
    · simp only [if_pos hv]
      exact skipToElse_length 0 code
    · simp only [if_neg hv, Nat.le_refl]
  · cases h

theorem giveBack_stops {stack : List I32} {c : Config} : giveBack stack ≠ .ok (.inl c) := by
  cases stack <;> simp [giveBack]

/-- **Every step leaves a shorter body.** -/
theorem step_shrinks {c c' : Config} (h : step c = .ok (.inl c')) : c'.code.length < c.code.length := by
  unfold step at h
  split at h
  · cases h
  · rename_i hc
    cases h
    simp [hc]
  · rename_i hc
    split at h
    · cases h
      simp [hc]
    · cases h
  · rename_i hc
    split at h
    · cases h
      simp [hc]
    · cases h
  · rename_i code hc
    have := select_shrinks h
    simp only [hc, List.length_cons]
    omega
  · rename_i code hc
    have := select_shrinks h
    simp only [hc, List.length_cons]
    omega
  · rename_i code hc
    cases h
    have := skipToEnd_length 0 code
    simp only [hc, List.length_cons]
    omega
  · exact (giveBack_stops h).elim
  · rename_i hc
    split at h
    · cases h
      simp [hc]
    · exact (giveBack_stops h).elim

/-- **A call ends as its steps do.** -/
theorem call_of_reaches {body : List Instruction} {arguments : List I32} {c : Config} {v : I32}
    (h : Reaches step ⟨body, 0, [], arguments⟩ c) (hc : step c = .ok (.inr v)) :
    call body arguments = some (.ok v) := by
  obtain ⟨o, ho⟩ := run_total (fun c : Config => c.code.length) (fun _ _ => step_shrinks) (⟨body, 0, [], arguments⟩ : Config)
  obtain ⟨n, hn⟩ := run_of_reaches (o := .ok v) h hc
  rw [run_unique hn ho]
  exact ho

/-! ## Code that runs through -/

/-- Code that takes one stack to another, whatever surrounds it. -/
def Does (code : List Instruction) (locals stack stack' : List I32) : Prop :=
  ∀ labels rest, Reaches step ⟨code ++ rest, labels, stack, locals⟩ ⟨rest, labels, stack', locals⟩

section
variable {locals stack stack' stack'' : List I32}

theorem Does.append {c c' : List Instruction} (h : Does c locals stack stack') (h' : Does c' locals stack' stack'') :
    Does (c ++ c') locals stack stack'' := by
  intro labels rest
  rw [List.append_assoc]
  exact (h labels (c' ++ rest)).trans (h' labels rest)

theorem Does.const (v : I32) : Does [.i32Const v] locals stack (v :: stack) := fun _ _ => Reaches.single rfl

theorem Does.get {i : Nat} {v : I32} (h : locals[i]? = some v) : Does [.localGet i] locals stack (v :: stack) := by
  intro labels rest
  refine Reaches.single ?_
  simp only [step, List.cons_append, List.nil_append, h]

/-- A local compared with a constant. -/
theorem Does.test {i : Nat} {v : I32} (h : locals[i]? = some v) (k : I32) :
    Does [.localGet i, .i32Const k, .i32Eq] locals stack ((if v = k then 1 else 0) :: stack) := by
  have heq : Does [.i32Eq] locals (k :: v :: stack) ((if v = k then 1 else 0) :: stack) :=
    fun _ _ => Reaches.single rfl
  exact (Does.get h).append ((Does.const k).append heq)

end

/-! ## Labels -/

/-- Code whose labels are all closed in it: looking for an `else` or an `end` passes over it. -/
def Balanced (code : List Instruction) : Prop :=
  ∀ d rest, skipToEnd d (code ++ rest) = skipToEnd d rest ∧ skipToElse d (code ++ rest) = skipToElse d rest

theorem Balanced.append {c c' : List Instruction} (h : Balanced c) (h' : Balanced c') : Balanced (c ++ c') := by
  intro d rest
  rw [List.append_assoc]
  exact ⟨(h d _).1.trans (h' d rest).1, (h d _).2.trans (h' d rest).2⟩

/-- An instruction that opens, divides and closes no label. -/
def Instruction.plain : Instruction → Bool
  | .ifEmpty | .ifResult | .else_ | .end_ => false
  | _                                     => true

theorem Balanced.nil : Balanced [] := fun _ _ => ⟨rfl, rfl⟩

theorem Balanced.ofPlain : ∀ {code : List Instruction}, (∀ i ∈ code, i.plain = true) → Balanced code
  | [], _ => Balanced.nil
  | i :: code, h => by
    have hi : Balanced [i] := by
      intro d rest
      have := h i List.mem_cons_self
      cases i <;> cases d <;> first | exact ⟨rfl, rfl⟩ | cases this
    exact hi.append (Balanced.ofPlain (fun j hj => h j (List.mem_cons_of_mem _ hj)))

theorem Balanced.ifEmpty {code : List Instruction} (h : Balanced code) : Balanced ([.ifEmpty] ++ code ++ [.end_]) := by
  intro d rest
  have h1 := (h (d + 1) (.end_ :: rest)).1
  have h2 := (h (d + 1) (.end_ :: rest)).2
  simp only [List.append_assoc, List.cons_append, List.nil_append, skipToEnd, skipToElse, h1, h2, and_self]

theorem Balanced.ifResult {c c' : List Instruction} (h : Balanced c) (h' : Balanced c') :
    Balanced ([.ifResult] ++ c ++ [.else_] ++ c' ++ [.end_]) := by
  intro d rest
  have h1 := (h (d + 1) (.else_ :: (c' ++ .end_ :: rest))).1
  have h2 := (h (d + 1) (.else_ :: (c' ++ .end_ :: rest))).2
  have h3 := (h' (d + 1) (.end_ :: rest)).1
  have h4 := (h' (d + 1) (.end_ :: rest)).2
  simp only [List.append_assoc, List.cons_append, List.nil_append, skipToEnd, skipToElse, h1, h2, h3, h4, and_self]

/-! ## Selection -/

section
variable {locals stack : List I32}

/-- **An `if` with a result runs the branch its word selects.** -/
theorem Does.ifResult {c c' : List Instruction} {p : Prop} [Decidable p] {v v' : I32} (hc : Balanced c)
    (hc' : Balanced c') (h : p → Does c locals stack (v :: stack)) (h' : ¬ p → Does c' locals stack (v' :: stack)) :
    Does ([.ifResult] ++ c ++ [.else_] ++ c' ++ [.end_]) locals ((if p then 1 else 0) :: stack)
      ((if p then v else v') :: stack) := by
  intro labels rest
  simp only [List.append_assoc, List.cons_append, List.nil_append]
  by_cases hp : p
  · rw [if_pos hp, if_pos hp]
    have henter : step ⟨.ifResult :: (c ++ .else_ :: (c' ++ .end_ :: rest)), labels, 1 :: stack, locals⟩ =
        .ok (.inl ⟨c ++ .else_ :: (c' ++ .end_ :: rest), labels + 1, stack, locals⟩) := by
      simp [step, select]
    have hskip : skipToEnd 0 (c' ++ .end_ :: rest) = .end_ :: rest := by
      rw [(hc' 0 _).1]
      rfl
    have helse : step ⟨.else_ :: (c' ++ .end_ :: rest), labels + 1, v :: stack, locals⟩ =
        .ok (.inl ⟨.end_ :: rest, labels + 1, v :: stack, locals⟩) := by
      simp only [step, hskip]
    exact Reaches.head henter ((h hp _ _).trans (Reaches.head helse (Reaches.single rfl)))
  · rw [if_neg hp, if_neg hp]
    have hskip : skipToElse 0 (c ++ .else_ :: (c' ++ .end_ :: rest)) = c' ++ .end_ :: rest := by
      rw [(hc 0 _).2]
      rfl
    have henter : step ⟨.ifResult :: (c ++ .else_ :: (c' ++ .end_ :: rest)), labels, 0 :: stack, locals⟩ =
        .ok (.inl ⟨c' ++ .end_ :: rest, labels + 1, stack, locals⟩) := by
      simp [step, select, hskip]
    exact Reaches.head henter ((h' hp _ _).trans (Reaches.single rfl))

/-- An `if` without a result whose word is zero is passed over. -/
theorem Does.skip {c : List Instruction} (hc : Balanced c) :
    Does ([.ifEmpty] ++ c ++ [.end_]) locals (0 :: stack) stack := by
  intro labels rest
  simp only [List.append_assoc, List.cons_append, List.nil_append]
  have hskip : skipToElse 0 (c ++ .end_ :: rest) = .end_ :: rest := by
    rw [(hc 0 _).2]
    rfl
  have henter : step ⟨.ifEmpty :: (c ++ .end_ :: rest), labels, 0 :: stack, locals⟩ =
      .ok (.inl ⟨.end_ :: rest, labels + 1, stack, locals⟩) := by
    simp [step, select, hskip]
  exact Reaches.head henter (Reaches.single rfl)

/-- An `if` without a result whose word is not zero runs its code. -/
theorem reaches_if_taken {c rest : List Instruction} {labels : Nat} {stack' : List I32}
    (h : Does c locals stack stack') :
    Reaches step ⟨.ifEmpty :: (c ++ rest), labels, 1 :: stack, locals⟩ ⟨rest, labels + 1, stack', locals⟩ := by
  refine Reaches.head (b := ⟨c ++ rest, labels + 1, stack, locals⟩) ?_ (h _ _)
  simp [step, select]

end

end WasmI32
end Syllog
