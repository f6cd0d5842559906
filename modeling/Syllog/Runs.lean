import Mathlib.Logic.Relation
import Mathlib.Data.List.Forall2
import Mathlib.Order.Fin.Basic
import Mathlib.Data.Fintype.Order
/-!
# Runs — deterministic machines that step, finish or fail

A machine is one function: a state steps to a state, finishes with a result, or fails.  `run` iterates it under a step
budget, `Reaches` is any number of steps.  `Yields r E Q` says that a result that is there satisfies `Q` and a failure
is one of `E`; it composes along the steps of a computation.
-/
namespace Syllog
namespace Runs

def Yields {ε α : Type} (r : Except ε α) (E : ε → Prop) (Q : α → Prop) : Prop :=
  match r with
  | .ok a    => Q a
  | .error e => E e

theorem Yields.bind {ε α β : Type} {r : Except ε α} {g : α → Except ε β} {E : ε → Prop} {P : α → Prop} {Q : β → Prop}
    (h : Yields r E P) (hg : ∀ a, P a → Yields (g a) E Q) : Yields (r >>= g) E Q := by
  cases r with
  | ok a => exact hg a h
  | error e => exact h

theorem Yields.mono {ε α : Type} {r : Except ε α} {E F : ε → Prop} {P Q : α → Prop} (h : Yields r E P)
    (hE : ∀ e, E e → F e) (hQ : ∀ a, P a → Q a) : Yields r F Q := by
  cases r with
  | ok a => exact hQ a h
  | error e => exact hE e h

/-- A computation that ended well went through its first part. -/
theorem bind_eq_ok {ε α β : Type} {r : Except ε α} {g : α → Except ε β} {b : β} (h : (r >>= g) = .ok b) :
    ∃ a, r = .ok a ∧ g a = .ok b := by
  cases r with
  | ok a => exact ⟨a, rfl, h⟩
  | error e => cases h

/-- A computation that failed did so in its first part, or after it. -/
theorem bind_eq_error {ε α β : Type} {r : Except ε α} {g : α → Except ε β} {e : ε} (h : (r >>= g) = .error e) :
    r = .error e ∨ ∃ a, r = .ok a ∧ g a = .error e := by
  cases r with
  | ok a => exact .inr ⟨a, rfl, h⟩
  | error e' => cases h; exact .inl rfl

/-- A traversal that ended well went well at every element. -/
theorem mapM_eq_ok {ε α β : Type} {g : α → Except ε β} : ∀ {as : List α} {bs : List β}, as.mapM g = .ok bs →
    List.Forall₂ (fun a b => g a = .ok b) as bs
  | [], bs, h => by
    cases h
    exact .nil
  | a :: as, bs, h => by
    rw [List.mapM_cons] at h
    obtain ⟨b, hb, h⟩ := bind_eq_ok h
    obtain ⟨bs', hbs, h⟩ := bind_eq_ok h
    cases h
    exact .cons hb (mapM_eq_ok hbs)

theorem exists_of_mapM_eq_ok {ε α β : Type} {g : α → Except ε β} {as : List α} {bs : List β} (h : as.mapM g = .ok bs) {a : α}
    (ha : a ∈ as) : ∃ b, g a = .ok b := by
  have hall := mapM_eq_ok h
  clear h
  induction hall with
  | nil => cases ha
  | cons hb _ ih =>
    cases ha with
    | head => exact ⟨_, hb⟩
    | tail _ ha => exact ih ha

/-- `a` steps to `b`. -/
def Next {σ ρ ε : Type} (step : σ → Except ε (σ ⊕ ρ)) (a b : σ) : Prop := step a = .ok (.inl b)

/-- `b` is reached from `a` in any number of steps. -/
def Reaches {σ ρ ε : Type} (step : σ → Except ε (σ ⊕ ρ)) : σ → σ → Prop := Relation.ReflTransGen (Next step)

/-- The outcome of at most `n` steps; `none` when the budget ends first. -/
def run {σ ρ ε : Type} (step : σ → Except ε (σ ⊕ ρ)) : Nat → σ → Option (Except ε ρ)
  | 0, _     => none
  | n + 1, s => match step s with
    | .ok (.inl s') => run step n s'
    | .ok (.inr r)  => some (.ok r)
    | .error e      => some (.error e)

/-- The state after exactly `n` steps; `none` when the run stops before. -/
def after {σ ρ ε : Type} (step : σ → Except ε (σ ⊕ ρ)) : Nat → σ → Option σ
  | 0, s     => some s
  | n + 1, s => match step s with
    | .ok (.inl s') => after step n s'
    | _             => none

/-- The state `s` ends a run with this outcome. -/
def Ends {σ ρ ε : Type} (step : σ → Except ε (σ ⊕ ρ)) (s : σ) : Except ε ρ → Prop
  | .ok r    => step s = .ok (.inr r)
  | .error e => step s = .error e

variable {σ ρ ε : Type} {step : σ → Except ε (σ ⊕ ρ)}

/-- **An invariant of the steps holds wherever a run gets.** -/
theorem Reaches.invariant {P : σ → Prop} (hstep : ∀ a b, P a → step a = .ok (.inl b) → P b) {a b : σ}
    (h : Reaches step a b) (ha : P a) : P b := by
  induction h with
  | refl => exact ha
  | tail _ hn ih => exact hstep _ _ ih hn

theorem Reaches.refl (step : σ → Except ε (σ ⊕ ρ)) (a : σ) : Reaches step a a := Relation.ReflTransGen.refl

theorem Reaches.head {a b c : σ} (h : step a = .ok (.inl b)) (h' : Reaches step b c) : Reaches step a c :=
  Relation.ReflTransGen.head h h'

theorem Reaches.trans {a b c : σ} (h : Reaches step a b) (h' : Reaches step b c) : Reaches step a c :=
  Relation.ReflTransGen.trans h h'

theorem Reaches.single {a b : σ} (h : step a = .ok (.inl b)) : Reaches step a b := Relation.ReflTransGen.single h

/-- **A run that came to an end reached a state that ends it.** -/
theorem run_eq_some : ∀ (n : Nat) (s : σ) (o : Except ε ρ), run step n s = some o →
    ∃ s', Reaches step s s' ∧ Ends step s' o
  | 0, _, _, h => by cases h
  | n + 1, s, o, h => by
    unfold run at h
    cases hs : step s with
    | error e =>
      simp only [hs, Option.some.injEq] at h
      subst h
      exact ⟨s, Reaches.refl step s, hs⟩
    | ok x =>
      cases x with
      | inl s' =>
        simp only [hs] at h
        obtain ⟨t, hr, he⟩ := run_eq_some n s' o h
        exact ⟨t, Reaches.head hs hr, he⟩
      | inr r =>
        simp only [hs, Option.some.injEq] at h
        subst h
        exact ⟨s, Reaches.refl step s, hs⟩

theorem run_of_ends {s : σ} {o : Except ε ρ} (h : Ends step s o) : run step 1 s = some o := by
  cases o with
  | ok r => simp only [Ends] at h; simp [run, h]
  | error e => simp only [Ends] at h; simp [run, h]

/-- **Reaching an end is a budget that runs to it.** -/
theorem run_of_reaches {s s' : σ} {o : Except ε ρ} (h : Reaches step s s') (he : Ends step s' o) :
    ∃ n, run step n s = some o := by
  induction h using Relation.ReflTransGen.head_induction_on with
  | refl => exact ⟨1, run_of_ends he⟩
  | head hn _ ih =>
    obtain ⟨n, hn'⟩ := ih
    refine ⟨n + 1, ?_⟩
    unfold run
    rw [show step _ = _ from hn]
    exact hn'

theorem run_mono : ∀ {n m : Nat} {s : σ} {o : Except ε ρ}, n ≤ m → run step n s = some o → run step m s = some o
  | 0, _, _, _, _, h => by cases h
  | n + 1, 0, _, _, hle, _ => by omega
  | n + 1, m + 1, s, o, hle, h => by
    unfold run at h ⊢
    cases hs : step s with
    | error e => simpa [hs] using h
    | ok x =>
      cases x with
      | inl s' =>
        simp only [hs] at h ⊢
        exact run_mono (by omega) h
      | inr r => simpa [hs] using h

/-- **A machine that lowers a measure comes to an end** within that many steps. -/
theorem run_total (μ : σ → Nat) (hstep : ∀ a b, step a = .ok (.inl b) → μ b < μ a) (s : σ) :
    ∃ o, run step (μ s + 1) s = some o := by
  have hall : ∀ n s, μ s ≤ n → ∃ o, run step (n + 1) s = some o := by
    intro n
    induction n with
    | zero =>
      intro s hs
      unfold run
      cases hs' : step s with
      | error e => exact ⟨_, rfl⟩
      | ok x =>
        cases x with
        | inl s' => exact absurd (hstep s s' hs') (by omega)
        | inr r => exact ⟨_, rfl⟩
    | succ n ih =>
      intro s hs
      unfold run
      cases hs' : step s with
      | error e => exact ⟨_, rfl⟩
      | ok x =>
        cases x with
        | inl s' =>
          have := hstep s s' hs'
          exact ih s' (by omega)
        | inr r => exact ⟨_, rfl⟩
  exact hall (μ s) s (Nat.le_refl _)

/-- **Two budgets that are enough give one outcome.** -/
theorem run_unique {n m : Nat} {s : σ} {o o' : Except ε ρ} (h : run step n s = some o) (h' : run step m s = some o') :
    o = o' := by
  have h1 := run_mono (Nat.le_max_left n m) h
  have h2 := run_mono (Nat.le_max_right n m) h'
  rw [h1] at h2
  exact Option.some.inj h2

/-- The states of a run that ends within the budget, all satisfying `P`. -/
def Throughout (step : σ → Except ε (σ ⊕ ρ)) (P : σ → Prop) : Nat → σ → Prop
  | 0, _     => False
  | n + 1, s => P s ∧ match step s with
    | .ok (.inl s') => Throughout step P n s'
    | _             => True

/-- **A finite run checked state by state satisfies the predicate wherever it gets.** -/
theorem Throughout.of_reaches {P : σ → Prop} {n : Nat} {s s' : σ} (h : Throughout step P n s) (hr : Reaches step s s') :
    P s' := by
  induction hr using Relation.ReflTransGen.head_induction_on generalizing n with
  | refl =>
    cases n with
    | zero => exact h.elim
    | succ n => exact h.1
  | head hn _ ih =>
    cases n with
    | zero => exact h.elim
    | succ n =>
      have h2 := h.2
      rw [show step _ = _ from hn] at h2
      exact ih h2

/-! ## Two machines -/

/-- At least one step. -/
def Advances (step : σ → Except ε (σ ⊕ ρ)) (a b : σ) : Prop := ∃ c, step a = .ok (.inl c) ∧ Reaches step c b

theorem Advances.reaches {a b : σ} (h : Advances step a b) : Reaches step a b := by
  obtain ⟨c, hc, hr⟩ := h
  exact Reaches.head hc hr

theorem Advances.trans {a b c : σ} (h : Advances step a b) (h' : Reaches step b c) : Advances step a c := by
  obtain ⟨d, hd, hr⟩ := h
  exact ⟨d, hd, hr.trans h'⟩

theorem Reaches.advances {a b c : σ} (h : Reaches step a b) (h' : step b = .ok (.inl c)) : Advances step a c := by
  induction h using Relation.ReflTransGen.head_induction_on with
  | refl => exact ⟨c, h', Reaches.refl _ _⟩
  | head hn _ ih => exact ⟨_, hn, ih.reaches⟩

/-- **A run goes on from every state it reaches**, with what is left of its budget. -/
theorem run_after {a b : σ} {n : Nat} {o : Except ε ρ} (h : Reaches step a b) (hrun : run step n a = some o) :
    ∃ m ≤ n, run step m b = some o := by
  induction h using Relation.ReflTransGen.head_induction_on generalizing n with
  | refl => exact ⟨n, Nat.le_refl n, hrun⟩
  | head hn _ ih =>
    cases n with
    | zero => cases hrun
    | succ n =>
      unfold run at hrun
      rw [show step _ = _ from hn] at hrun
      obtain ⟨m, hm, hr⟩ := ih hrun
      exact ⟨m, by omega, hr⟩

theorem run_advances {a b : σ} {n : Nat} {o : Except ε ρ} (h : Advances step a b) (hrun : run step n a = some o) :
    ∃ m < n, run step m b = some o := by
  obtain ⟨c, hc, hr⟩ := h
  cases n with
  | zero => cases hrun
  | succ n =>
    unfold run at hrun
    rw [hc] at hrun
    obtain ⟨m, hm, hrun'⟩ := run_after hr hrun
    exact ⟨m, by omega, hrun'⟩

section
variable {σ' ρ' ε' : Type} {step' : σ' → Except ε' (σ' ⊕ ρ')} {R : σ → σ' → Prop} {Q : ρ → ρ' → Prop}

/-- **Forward simulation**: related states stay related, so a run that returns is matched by one that returns. -/
theorem run_forward (hstep : ∀ a b, R a b → ∀ a', step a = .ok (.inl a') → ∃ b', Reaches step' b b' ∧ R a' b')
    (hresult : ∀ a b, R a b → ∀ r, step a = .ok (.inr r) →
      ∃ b' r', Reaches step' b b' ∧ step' b' = .ok (.inr r') ∧ Q r r')
    {a : σ} {b : σ'} (hab : R a b) {n : Nat} {r : ρ} (hrun : run step n a = some (.ok r)) :
    ∃ m r', run step' m b = some (.ok r') ∧ Q r r' := by
  induction n generalizing a b with
  | zero => cases hrun
  | succ n ih =>
    unfold run at hrun
    split at hrun
    · rename_i a' ha
      obtain ⟨b', hr, hab'⟩ := hstep a b hab a' ha
      obtain ⟨m, r', hm, hq⟩ := ih hab' hrun
      obtain ⟨s, hs, he⟩ := run_eq_some _ _ _ hm
      obtain ⟨k, hk⟩ := run_of_reaches (hr.trans hs) he
      exact ⟨k, r', hk, hq⟩
    · rename_i r'' ha
      cases hrun
      obtain ⟨b', r', hr, he, hq⟩ := hresult a b hab _ ha
      obtain ⟨k, hk⟩ := run_of_reaches (o := .ok r') hr he
      exact ⟨k, r', hk, hq⟩
    · cases hrun

/-- **Backward simulation from a forward one**: when every step is matched by at least one step, or lowers a measure,
and failures are matched by failures, a return of the second machine is one of the first. -/
theorem run_backward (μ : σ → Nat) (hstep : ∀ a b, R a b → ∀ a', step a = .ok (.inl a') →
      ∃ b', R a' b' ∧ (Advances step' b b' ∨ (b' = b ∧ μ a' < μ a)))
    (hresult : ∀ a b, R a b → ∀ r, step a = .ok (.inr r) →
      ∃ b' r', Reaches step' b b' ∧ step' b' = .ok (.inr r') ∧ Q r r')
    (herror : ∀ a b, R a b → ∀ e, step a = .error e → ∃ b' e', Reaches step' b b' ∧ step' b' = .error e') :
    ∀ (n k : Nat) (a : σ) (b : σ'), μ a ≤ k → R a b → ∀ r', run step' n b = some (.ok r') →
      ∃ m r, run step m a = some (.ok r) ∧ Q r r' := by
  intro n
  induction n using Nat.strongRecOn with
  | ind n ihn =>
  intro k
  induction k using Nat.strongRecOn with
  | ind k ihk =>
  intro a b hk hab r' hrun
  cases hs : step a with
  | error e =>
    obtain ⟨b', e', hr, he⟩ := herror a b hab e hs
    obtain ⟨m, hm⟩ := run_of_reaches (o := .error e') hr he
    cases run_unique hm hrun
  | ok x =>
    cases x with
    | inr r =>
      obtain ⟨b', r'', hr, he, hq⟩ := hresult a b hab r hs
      obtain ⟨m, hm⟩ := run_of_reaches (o := .ok r'') hr he
      cases run_unique hm hrun
      exact ⟨1, r, run_of_ends (o := .ok r) hs, hq⟩
    | inl a' =>
      have hcont : (∃ m r, run step m a' = some (.ok r) ∧ Q r r') → ∃ m r, run step m a = some (.ok r) ∧ Q r r' := by
        rintro ⟨m, r, hm, hq⟩
        refine ⟨m + 1, r, ?_, hq⟩
        unfold run
        rw [hs]
        exact hm
      apply hcont
      obtain ⟨b', hab', hadv | ⟨rfl, hlt⟩⟩ := hstep a b hab a' hs
      · obtain ⟨m, hm, hrun'⟩ := run_advances hadv hrun
        exact ihn m hm (μ a') a' b' (Nat.le_refl _) hab' r' hrun'
      · exact ihk (μ a') (by omega) a' b' (Nat.le_refl _) hab' r' hrun

end

/-! ## Machines that agree unless one stops -/

section
variable {α β : Type} {E : ε → Prop}

/-- `y` is `x`, unless `x` failed with one of `E`. -/
def Agrees (E : ε → Prop) (x y : Except ε α) : Prop := (∀ e, x = .error e → ¬ E e) → y = x

theorem Agrees.refl (x : Except ε α) : Agrees E x x := fun _ => rfl

theorem Agrees.bind {x y : Except ε α} {f g : α → Except ε β} (h : Agrees E x y) (hfg : ∀ a, Agrees E (f a) (g a)) :
    Agrees E (x >>= f) (y >>= g) := by
  intro hne
  cases x with
  | error e =>
    rw [h (fun e' he' => hne e' (by rw [he']; rfl))]
    rfl
  | ok a =>
    rw [h (fun e he => by cases he)]
    exact hfg a hne

/-- **Machines whose steps agree have runs that agree**, under any budget. -/
theorem run_agrees {step' : σ → Except ε (σ ⊕ ρ)} (hstep : ∀ s, Agrees E (step s) (step' s)) :
    ∀ {n : Nat} {s : σ} {o : Except ε ρ}, run step n s = some o → (∀ e, o = .error e → ¬ E e) → run step' n s = some o
  | 0, _, _, h, _ => by cases h
  | n + 1, s, o, h, hne => by
    unfold run at h ⊢
    cases hs : step s with
    | error e =>
      simp only [hs, Option.some.injEq] at h
      have hkeep : step' s = step s := hstep s fun e' he' => hne e' (by
        rw [← h]
        cases hs.symm.trans he'
        rfl)
      rw [hkeep, hs]
      simp only [h]
    | ok x =>
      rw [hstep s (fun e he => by rw [hs] at he; cases he), hs]
      cases x with
      | inl s' =>
        simp only [hs] at h ⊢
        exact run_agrees hstep h hne
      | inr r => simpa [hs] using h

end

/-! ## Machines alike but for some failures -/

section
variable {α β γ δ : Type} {E : ε → Prop}

/-- Both fail alike, or both end well with related results; nothing is said where one failed with one of `E`. -/
inductive Alike (E : ε → Prop) (R : α → β → Prop) : Except ε α → Except ε β → Prop
  | left {e : ε} (stopped : E e) (y : Except ε β) : Alike E R (.error e) y
  | right {e : ε} (stopped : E e) (x : Except ε α) : Alike E R x (.error e)
  | error (e : ε) : Alike E R (.error e) (.error e)
  | ok {a : α} {b : β} (related : R a b) : Alike E R (.ok a) (.ok b)

theorem Alike.bind {R : α → β → Prop} {S : γ → δ → Prop} {x : Except ε α} {y : Except ε β} {f : α → Except ε γ}
    {g : β → Except ε δ} (h : Alike E R x y) (hfg : ∀ a b, R a b → Alike E S (f a) (g b)) : Alike E S (x >>= f) (y >>= g) := by
  cases h with
  | left he y => exact .left he _
  | right he x => exact .right he _
  | error e => exact .error e
  | ok hab => exact hfg _ _ hab

theorem Alike.mono {R S : α → β → Prop} {x : Except ε α} {y : Except ε β} (h : Alike E R x y) (hRS : ∀ a b, R a b → S a b) :
    Alike E S x y := by
  cases h with
  | left he y => exact .left he _
  | right he x => exact .right he _
  | error e => exact .error e
  | ok hab => exact .ok (hRS _ _ hab)

/-- The run from a state never fails with one of `E`. -/
def Unstopped (step : σ → Except ε (σ ⊕ ρ)) (E : ε → Prop) (s : σ) : Prop :=
  ∀ n e, run step n s = some (.error e) → ¬ E e

/-- A run that goes through a state has the outcome it has from there. -/
theorem run_through {s s' : σ} {n : Nat} {o : Except ε ρ} (h : Reaches step s s') (hrun : run step n s' = some o) :
    ∃ m, run step m s = some o := by
  obtain ⟨t, ht, he⟩ := run_eq_some n s' o hrun
  exact run_of_reaches (h.trans ht) he

theorem Unstopped.of_reaches {s s' : σ} (h : Unstopped step E s) (hr : Reaches step s s') : Unstopped step E s' := by
  intro n e hrun
  obtain ⟨m, hm⟩ := run_through hr hrun
  exact h m e hm

theorem Unstopped.not_error {s : σ} {e : ε} (h : Unstopped step E s) (he : step s = .error e) : ¬ E e :=
  h 1 e (run_of_ends (o := .error e) he)

variable {σ' ρ' : Type} {step' : σ' → Except ε (σ' ⊕ ρ')} {R : σ → σ' → Prop} {Q : ρ → ρ' → Prop}

/-- **Machines that match step by step, the second after some steps of its own, have runs that end alike**, where neither
is stopped. -/
theorem run_alike (hmatch : ∀ a b, R a b → ∃ b', Reaches step' b b' ∧ Alike E (Sum.LiftRel R Q) (step a) (step' b')) :
    ∀ {n : Nat} {a : σ} {b : σ'} {o : Except ε ρ}, R a b → Unstopped step E a → Unstopped step' E b →
      run step n a = some o → ∃ m o', run step' m b = some o' ∧ Alike E Q o o'
  | 0, _, _, _, _, _, _, hrun => by cases hrun
  | n + 1, a, b, o, hab, ha, hb, hrun => by
    obtain ⟨b', hr, hstep⟩ := hmatch a b hab
    have hb' := hb.of_reaches hr
    have hend : ∀ o' : Except ε ρ', Ends step' b' o' → Alike E Q o o' → ∃ m o', run step' m b = some o' ∧ Alike E Q o o' := by
      intro o' he hq
      obtain ⟨m, hm⟩ := run_of_reaches hr he
      exact ⟨m, o', hm, hq⟩
    unfold run at hrun
    generalize hx : step a = x at hstep hrun
    generalize hy : step' b' = y at hstep
    cases hstep with
    | left he y => exact absurd he (ha.not_error hx)
    | right he x => exact absurd he (hb'.not_error hy)
    | error e =>
      cases hrun
      exact hend (.error e) hy (.error e)
    | ok hrel =>
      cases hrel with
      | inl hrel =>
        obtain ⟨m, o', hm, hq⟩ :=
          run_alike hmatch hrel (ha.of_reaches (Reaches.single hx)) (hb'.of_reaches (Reaches.single hy)) hrun
        obtain ⟨k, hk⟩ := run_through (hr.trans (Reaches.single hy)) hm
        exact ⟨k, o', hk, hq⟩
      | inr hrel =>
        cases hrun
        exact hend (.ok _) hy (.ok hrel)

/-- **And the runs of the second machine that end are matched by the first**, which takes no more steps. -/
theorem run_alike_back (hmatch : ∀ a b, R a b → ∃ b', Reaches step' b b' ∧ Alike E (Sum.LiftRel R Q) (step a) (step' b')) :
    ∀ {n m : Nat} {a : σ} {b : σ'} {o' : Except ε ρ'}, m ≤ n → R a b → Unstopped step E a → Unstopped step' E b →
      run step' m b = some o' → ∃ o, run step n a = some o ∧ Alike E Q o o'
  | 0, m, _, _, _, hle, _, _, _, hrun => by
    cases Nat.le_zero.mp hle
    cases hrun
  | n + 1, m, a, b, o', hle, hab, ha, hb, hrun => by
    obtain ⟨b', hr, hstep⟩ := hmatch a b hab
    have hb' := hb.of_reaches hr
    obtain ⟨m', hm', hrun'⟩ := run_after hr hrun
    cases m' with
    | zero => cases hrun'
    | succ m' =>
      unfold run at hrun' ⊢
      generalize hx : step a = x at hstep
      generalize hy : step' b' = y at hstep hrun'
      cases hstep with
      | left he y => exact absurd he (ha.not_error hx)
      | right he x => exact absurd he (hb'.not_error hy)
      | error e =>
        cases hrun'
        exact ⟨_, rfl, .error e⟩
      | ok hrel =>
        cases hrel with
        | inl hrel =>
          exact run_alike_back hmatch (by omega) hrel (ha.of_reaches (Reaches.single hx)) (hb'.of_reaches (Reaches.single hy)) hrun'
        | inr hrel =>
          cases hrun'
          exact ⟨_, rfl, .ok hrel⟩

end

/-! ## Walks without cycles -/

section
variable {α : Type} {next : α → Option α}

/-- `b` comes right after `a`. -/
def Leads (next : α → Option α) (a b : α) : Prop := next a = some b

/-- **A walk in a finite type with no cycle ahead comes to an end.** -/
theorem exists_end_of_acyclic [Finite α] {a : α}
    (h : ∀ b, Relation.ReflTransGen (Leads next) a b → ¬ Relation.TransGen (Leads next) b b) :
    ∃ b, Relation.ReflTransGen (Leads next) a b ∧ next b = none := by
  let Ahead := { b // Relation.ReflTransGen (Leads next) a b }
  let later : Ahead → Ahead → Prop := fun x y => Relation.TransGen (Leads next) y.1 x.1
  have htrans : IsTrans Ahead later := ⟨fun _ _ _ hxy hyz => hyz.trans hxy⟩
  have hirrefl : Std.Irrefl later := ⟨fun x hx => h x.1 x.2 hx⟩
  have hwf : WellFounded later := Finite.wellFounded_of_trans_of_irrefl later
  have hends : ∀ x : Ahead, ∃ b, Relation.ReflTransGen (Leads next) x.1 b ∧ next b = none := by
    intro x
    induction x using hwf.induction with
    | _ x ih =>
      cases hx : next x.1 with
      | none => exact ⟨x.1, .refl, hx⟩
      | some y =>
        have hstep : Leads next x.1 y := hx
        obtain ⟨b, hb, hend⟩ := ih ⟨y, x.2.tail hstep⟩ (.single hstep)
        exact ⟨b, .head hstep hb, hend⟩
  exact hends ⟨a, .refl⟩

end

end Runs
end Syllog
