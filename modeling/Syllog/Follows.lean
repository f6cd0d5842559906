import Syllog.Runs
/-!
# Follows — machines that follow an evaluation

`Follows step E s r Q`: where `r` is a value the machine runs from `s` to a state that satisfies `Q` of it, and where `r`
is a failure `E` says what the machine does.  Evaluations compose with `bind`, and so do the runs that follow them, as
long as `E` looks ahead only (`Forward`).
-/
namespace Syllog
namespace Runs

section
variable {σ ρ ε η α β : Type} (step : σ → Except ε (σ ⊕ ρ))

def Follows (E : η → σ → Prop) (s : σ) (r : Except η α) (Q : α → σ → Prop) : Prop :=
  match r with
  | .ok a    => ∃ s', Reaches step s s' ∧ Q a s'
  | .error e => E e s

/-- What the machine does later it does now. -/
def Forward (E : η → σ → Prop) : Prop := ∀ e s s', Reaches step s s' → E e s' → E e s

variable {step} {E E' : η → σ → Prop} {s s' : σ} {r : Except η α} {Q Q' : α → σ → Prop}

theorem Follows.pure {a : α} (h : Q a s) : Follows step E s (.ok a) Q := ⟨s, .refl step s, h⟩

/-- **Evaluate, then continue**: the machine follows both parts, one after the other. -/
theorem Follows.bind {k : α → Except η β} {Q' : β → σ → Prop} (hE : Forward step E) (h : Follows step E s r Q)
    (hk : ∀ a s', Reaches step s s' → Q a s' → Follows step E s' (k a) Q') : Follows step E s (r >>= k) Q' := by
  cases r with
  | error e => exact h
  | ok a =>
    obtain ⟨s1, hr, hq⟩ := h
    have hnext := hk a s1 hr hq
    show Follows step E s (k a) Q'
    cases hka : k a with
    | error e =>
      rw [hka] at hnext
      exact hE e s s1 hr hnext
    | ok v =>
      rw [hka] at hnext
      obtain ⟨s2, hr', hq'⟩ := hnext
      exact ⟨s2, hr.trans hr', hq'⟩

/-- What the machine follows after some steps it follows. -/
theorem Follows.after (hE : Forward step E) (hr : Reaches step s s') (h : Follows step E s' r Q) : Follows step E s r Q := by
  cases r with
  | error e => exact hE e s s' hr h
  | ok a =>
    obtain ⟨s2, hr', hq⟩ := h
    exact ⟨s2, hr.trans hr', hq⟩

theorem Follows.mono (h : Follows step E s r Q) (hE : ∀ e, E e s → E' e s)
    (hQ : ∀ a s', Reaches step s s' → Q a s' → Q' a s') : Follows step E' s r Q' := by
  cases r with
  | error e => exact hE e h
  | ok a =>
    obtain ⟨s1, hr, hq⟩ := h
    exact ⟨s1, hr, hQ a s1 hr hq⟩

/-- The same with more steps at the end. -/
theorem Follows.then (h : Follows step E s r Q) (hE : ∀ e, E e s → E' e s)
    (hQ : ∀ a s', Reaches step s s' → Q a s' → ∃ s'', Reaches step s' s'' ∧ Q' a s'') : Follows step E' s r Q' := by
  cases r with
  | error e => exact hE e h
  | ok a =>
    obtain ⟨s1, hr, hq⟩ := h
    obtain ⟨s2, hr', hq'⟩ := hQ a s1 hr hq
    exact ⟨s2, hr.trans hr', hq'⟩

end

end Runs
end Syllog
