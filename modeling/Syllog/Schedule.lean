import Mathlib.Data.List.Basic
/-!
# Schedule — machines driven by a list of labels

A machine answers a label with its next state, or refuses it.  A schedule is a list of labels: which part moves next and
what its surroundings answer.  A law over all schedules is a law over all interleavings.
-/
namespace Syllog
namespace Schedule

variable {σ ℓ : Type}

/-- The state after a schedule; `none` when a label was refused. -/
def play (step : σ → ℓ → Option σ) : σ → List ℓ → Option σ
  | s, []      => some s
  | s, l :: ls => (step s l).bind fun s' => play step s' ls

variable {step : σ → ℓ → Option σ}

theorem play_cons {s s' : σ} {l : ℓ} {ls : List ℓ} (h : play step s (l :: ls) = some s') :
    ∃ t, step s l = some t ∧ play step t ls = some s' := Option.bind_eq_some_iff.mp h

theorem play_append : ∀ {ls ls' : List ℓ} {s : σ},
    play step s (ls ++ ls') = (play step s ls).bind fun t => play step t ls'
  | [], _, _ => rfl
  | l :: ls, ls', s => by
    simp only [List.cons_append, play, Option.bind_assoc]
    congr 1
    funext t
    exact play_append

theorem play_snoc {s t : σ} {ls : List ℓ} {l : ℓ} (h : play step s ls = some t) :
    play step s (ls ++ [l]) = step t l := by
  rw [play_append, h]
  simp [play]

/-- **What the labels allowed keep, a schedule of them keeps.** -/
theorem play_invariant {P : σ → Prop} {allowed : σ → ℓ → Prop} (hstep : ∀ s l s', P s → allowed s l → step s l = some s' → P s') :
    ∀ {ls : List ℓ} {s s' : σ}, P s → play step s ls = some s' →
      (∀ pre l post t, ls = pre ++ l :: post → play step s pre = some t → allowed t l) → P s'
  | [], s, s', hs, hplay, _ => by
    cases hplay
    exact hs
  | l :: ls, s, s', hs, hplay, hall => by
    obtain ⟨t, ht, hplay⟩ := play_cons hplay
    refine play_invariant hstep (hstep s l t hs (hall [] l ls s rfl rfl) ht) hplay ?_
    intro pre l' post u hsplit hpre
    refine hall (l :: pre) l' post u (by rw [hsplit]; rfl) ?_
    simp only [play, ht, Option.bind_some]
    exact hpre

/-- What every label keeps, every schedule keeps. -/
theorem play_keeps {P : σ → Prop} (hstep : ∀ s l s', P s → step s l = some s' → P s') {ls : List ℓ} {s s' : σ} (hs : P s)
    (hplay : play step s ls = some s') : P s' := by
  refine @play_invariant σ ℓ step P (fun _ _ => True) (fun s l s' h _ => hstep s l s' h) ls s s' hs hplay ?_
  intro _ _ _ _ _ _
  trivial

theorem play_split {s s' : σ} {pre post : List ℓ} {l : ℓ} (h : play step s (pre ++ l :: post) = some s') :
    ∃ t t', play step s pre = some t ∧ step t l = some t' ∧ play step t' post = some s' := by
  rw [play_append] at h
  obtain ⟨t, hpre, h⟩ := Option.bind_eq_some_iff.mp h
  obtain ⟨t', hstep, hpost⟩ := play_cons h
  exact ⟨t, t', hpre, hstep, hpost⟩

/-- Some schedule leads from the one state to the other. -/
def Reaches (step : σ → ℓ → Option σ) (s s' : σ) : Prop := ∃ ls, play step s ls = some s'

theorem Reaches.refl (s : σ) : Reaches step s s := ⟨[], rfl⟩

theorem Reaches.single {s s' : σ} {l : ℓ} (h : step s l = some s') : Reaches step s s' := ⟨[l], by simp [play, h]⟩

theorem Reaches.trans {s t u : σ} (h : Reaches step s t) (h' : Reaches step t u) : Reaches step s u := by
  obtain ⟨ls, h⟩ := h
  obtain ⟨ls', h'⟩ := h'
  exact ⟨ls ++ ls', by rw [play_append, h]; exact h'⟩

theorem Reaches.keeps {P : σ → Prop} {s s' : σ} (h : Reaches step s s') (hstep : ∀ s l s', P s → step s l = some s' → P s')
    (hs : P s) : P s' := by
  obtain ⟨ls, h⟩ := h
  exact play_keeps hstep hs h

/-! ## Trails -/

section Trails
variable {ε : Type} {P : List ε → ε → Prop}

/-- Every entry of a trail is right after what stands before it. -/
def Audited (P : List ε → ε → Prop) (trail : List ε) : Prop := ∀ pre e post, trail = pre ++ e :: post → P pre e

theorem audited_nil : Audited P [] := by
  intro pre e post h
  simp at h

theorem audited_snoc {trail : List ε} {e : ε} : Audited P (trail ++ [e]) ↔ Audited P trail ∧ P trail e := by
  constructor
  · intro h
    refine ⟨fun pre e' post hsplit => h pre e' (post ++ [e]) (by simp [hsplit]), h trail e [] rfl⟩
  · rintro ⟨htrail, hlast⟩ pre e' post hsplit
    rcases List.eq_nil_or_concat post with rfl | ⟨post', last, rfl⟩
    · obtain ⟨rfl, heq⟩ := List.append_inj' hsplit rfl
      cases heq
      exact hlast
    · rw [List.concat_eq_append, ← List.cons_append, ← List.append_assoc] at hsplit
      obtain ⟨hsplit, -⟩ := List.append_inj' hsplit rfl
      exact htrail pre e' post' hsplit

end Trails

end Schedule
end Syllog
