import Mathlib.Data.List.Basic
/-!
# Logged — computations that keep a log

A value with the list of what was noted on the way.  Sequencing appends the logs, so a run notes nothing of a kind exactly
when no part of it does.
-/
namespace Syllog

structure Logged (ω α : Type) where
  value : α
  log : List ω

namespace Logged

variable {ω α β : Type}

instance : Monad (Logged ω) where
  pure a   := ⟨a, []⟩
  bind x f := ⟨(f x.value).value, x.log ++ (f x.value).log⟩

def tell (e : ω) : Logged ω Unit := ⟨(), [e]⟩

@[simp] theorem value_pure (a : α) : (pure a : Logged ω α).value = a := rfl
@[simp] theorem log_pure (a : α) : (pure a : Logged ω α).log = [] := rfl
@[simp] theorem value_bind (x : Logged ω α) (f : α → Logged ω β) : (x >>= f).value = (f x.value).value := rfl
@[simp] theorem log_bind (x : Logged ω α) (f : α → Logged ω β) : (x >>= f).log = x.log ++ (f x.value).log := rfl
@[simp] theorem log_tell (e : ω) : (tell e).log = [e] := rfl

/-- Nothing bad is noted. -/
def Avoids (bad : ω → Prop) (x : Logged ω α) : Prop := ∀ e ∈ x.log, ¬ bad e

variable {bad : ω → Prop}

@[simp] theorem avoids_pure (a : α) : Avoids bad (pure a : Logged ω α) := fun _ h => by cases h

@[simp] theorem avoids_tell {e : ω} : Avoids bad (tell e) ↔ ¬ bad e := by simp [Avoids]

@[simp] theorem avoids_bind {x : Logged ω α} {f : α → Logged ω β} :
    Avoids bad (x >>= f) ↔ Avoids bad x ∧ Avoids bad (f x.value) := by
  simp only [Avoids, log_bind, List.mem_append, or_imp, forall_and]

/-- **What every step that notes nothing bad keeps, the whole loop keeps.** -/
theorem foldlM_keeps {σ : Type} {step : σ → α → Logged ω σ} {P : σ → Prop} :
    ∀ {l : List α} {s : σ}, (∀ a ∈ l, ∀ s, Avoids bad (step s a) → P s → P (step s a).value) →
      Avoids bad (l.foldlM step s) → P s → P (l.foldlM step s).value
  | [], _, _, _, hs => hs
  | a :: l, s, hstep, hbad, hs => by
    rw [List.foldlM_cons] at hbad ⊢
    obtain ⟨hhead, htail⟩ := avoids_bind.mp hbad
    exact foldlM_keeps (fun a ha => hstep a (List.mem_cons_of_mem _ ha)) htail (hstep a List.mem_cons_self s hhead hs)

theorem foldlM_passes_from {σ : Type} {step : σ → α → Logged ω σ} {P : List α → σ → Prop} {l : List α}
    (hstep : ∀ pre a post s, l = pre ++ a :: post → Avoids bad (step s a) → P pre s → P (pre ++ [a]) (step s a).value) :
    ∀ {rest done : List α} {s : σ}, l = done ++ rest → Avoids bad (rest.foldlM step s) → P done s →
      P l (rest.foldlM step s).value
  | [], done, _, hl, _, hs => by
    rw [hl, List.append_nil]
    exact hs
  | a :: rest, done, s, hl, hbad, hs => by
    rw [List.foldlM_cons] at hbad ⊢
    obtain ⟨hhead, htail⟩ := avoids_bind.mp hbad
    have hdone := hstep done a rest s hl hhead hs
    exact foldlM_passes_from hstep (by rw [hl, List.append_assoc]; rfl) htail hdone

/-- **The same, with the elements the loop has passed.** -/
theorem foldlM_passes {σ : Type} {step : σ → α → Logged ω σ} {P : List α → σ → Prop} {l : List α} {s : σ}
    (hstep : ∀ pre a post s, l = pre ++ a :: post → Avoids bad (step s a) → P pre s → P (pre ++ [a]) (step s a).value)
    (hbad : Avoids bad (l.foldlM step s)) (hs : P [] s) : P l (l.foldlM step s).value :=
  foldlM_passes_from hstep rfl hbad hs

/-! ## Loops that carry their log in the state -/

theorem foldl_silent_start {σ δ : Type} {step : σ → α → σ} (log : σ → List δ)
    (hgrows : ∀ s a, log (step s a) = [] → log s = []) : ∀ {l : List α} {s : σ}, log (l.foldl step s) = [] → log s = []
  | [], _, h => h
  | a :: _, s, h => hgrows s a (foldl_silent_start log hgrows h)

theorem foldl_silent_from {σ δ : Type} {step : σ → α → σ} {log : σ → List δ} {P : List α → σ → Prop} {l : List α}
    (hgrows : ∀ s a, log (step s a) = [] → log s = [])
    (hstep : ∀ pre a post s, l = pre ++ a :: post → log (step s a) = [] → P pre s → P (pre ++ [a]) (step s a)) :
    ∀ {rest done : List α} {s : σ}, l = done ++ rest → log (rest.foldl step s) = [] → P done s → P l (rest.foldl step s)
  | [], done, _, hl, _, hs => by
    rw [hl, List.append_nil]
    exact hs
  | a :: rest, done, s, hl, hlog, hs => by
    rw [List.foldl_cons] at hlog ⊢
    have hdone := hstep done a rest s hl (foldl_silent_start log hgrows hlog) hs
    exact foldl_silent_from hgrows hstep (by rw [hl, List.append_assoc]; rfl) hlog hdone

/-- **What every step that reports nothing makes of the elements passed, a loop that reported nothing makes of them all.** -/
theorem foldl_silent {σ δ : Type} {step : σ → α → σ} (log : σ → List δ) {P : List α → σ → Prop} {l : List α} {s : σ}
    (hgrows : ∀ s a, log (step s a) = [] → log s = [])
    (hstep : ∀ pre a post s, l = pre ++ a :: post → log (step s a) = [] → P pre s → P (pre ++ [a]) (step s a))
    (hlog : log (l.foldl step s) = []) (hs : P [] s) : P l (l.foldl step s) :=
  foldl_silent_from hgrows hstep rfl hlog hs

end Logged
end Syllog
