import Mathlib.Data.Finset.Card
import Mathlib.Logic.Relation
/-!
# Worklist — what a stack of pending elements comes to

`collect` pops an element, drops it when it was seen, and otherwise keeps it and pushes its successors.  Over finitely many
elements it ends, and it has then seen just what can be reached from the start (`mem_collect`).
-/
namespace Syllog
namespace Worklist

variable {α : Type} [DecidableEq α] {succ : α → List α}

/-- The top of the stack is the head of the list; the last successor comes to the top. -/
def collect (succ : α → List α) : Nat → List α → Finset α → Option (Finset α)
  | 0, _, _                  => none
  | _ + 1, [], seen          => some seen
  | n + 1, a :: stack, seen  =>
    if a ∈ seen then collect succ n stack seen else collect succ n ((succ a).reverse ++ stack) (insert a seen)

/-- A walk leads from one of the starts to `a`. -/
def Reached (succ : α → List α) (start : List α) (a : α) : Prop :=
  ∃ s ∈ start, Relation.ReflTransGen (fun a b => b ∈ succ a) s a

theorem collect_sound {P : α → Prop} (hsucc : ∀ a, P a → ∀ b ∈ succ a, P b) : ∀ {n : Nat} {stack : List α}
    {seen out : Finset α}, collect succ n stack seen = some out → (∀ a ∈ seen, P a) → (∀ a ∈ stack, P a) → ∀ a ∈ out, P a
  | 0, _, _, _, h, _, _ => by cases h
  | n + 1, [], seen, out, h, hseen, _ => by
    cases h
    exact hseen
  | n + 1, a :: stack, seen, out, h, hseen, hstack => by
    have ha : P a := hstack a List.mem_cons_self
    have hrest : ∀ b ∈ stack, P b := fun b hb => hstack b (List.mem_cons_of_mem _ hb)
    unfold collect at h
    by_cases hmem : a ∈ seen
    · rw [if_pos hmem] at h
      exact collect_sound hsucc h hseen hrest
    · rw [if_neg hmem] at h
      refine collect_sound hsucc h (fun b hb => ?_) (fun b hb => ?_)
      · rcases Finset.mem_insert.mp hb with rfl | hb
        · exact ha
        · exact hseen b hb
      · rcases List.mem_append.mp hb with hb | hb
        · exact hsucc a ha b (List.mem_reverse.mp hb)
        · exact hrest b hb

/-- What was seen or pending is seen at the end, and so are the successors of what was seen. -/
theorem collect_closed : ∀ {n : Nat} {stack : List α} {seen out : Finset α}, collect succ n stack seen = some out →
    (∀ a ∈ seen, ∀ b ∈ succ a, b ∈ seen ∨ b ∈ stack) →
      (∀ a, a ∈ seen ∨ a ∈ stack → a ∈ out) ∧ ∀ a ∈ out, ∀ b ∈ succ a, b ∈ out
  | 0, _, _, _, h, _ => by cases h
  | n + 1, [], seen, out, h, hpending => by
    cases h
    simpa using hpending
  | n + 1, a :: stack, seen, out, h, hpending => by
    unfold collect at h
    by_cases hmem : a ∈ seen
    · rw [if_pos hmem] at h
      obtain ⟨hkept, hout⟩ := collect_closed h fun x hx b hb => by
        rcases hpending x hx b hb with hb | hb
        · exact .inl hb
        · rcases List.mem_cons.mp hb with rfl | hb
          · exact .inl hmem
          · exact .inr hb
      refine ⟨fun x hx => hkept x ?_, hout⟩
      rcases hx with hx | hx
      · exact .inl hx
      · rcases List.mem_cons.mp hx with rfl | hx
        · exact .inl hmem
        · exact .inr hx
    · rw [if_neg hmem] at h
      obtain ⟨hkept, hout⟩ := collect_closed h fun x hx b hb => by
        rcases Finset.mem_insert.mp hx with rfl | hx
        · exact .inr (List.mem_append_left _ (List.mem_reverse.mpr hb))
        · rcases hpending x hx b hb with hb | hb
          · exact .inl (Finset.mem_insert_of_mem hb)
          · rcases List.mem_cons.mp hb with rfl | hb
            · exact .inl (Finset.mem_insert_self b seen)
            · exact .inr (List.mem_append_right _ hb)
      refine ⟨fun x hx => hkept x ?_, hout⟩
      rcases hx with hx | hx
      · exact .inl (Finset.mem_insert_of_mem hx)
      · rcases List.mem_cons.mp hx with rfl | hx
        · exact .inl (Finset.mem_insert_self x seen)
        · exact .inr (List.mem_append_right _ hx)

/-- Every push follows a new element, so the stack runs dry. -/
theorem collect_ends {all : Finset α} (hsucc : ∀ a ∈ all, ∀ b ∈ succ a, b ∈ all) (seen : Finset α) : ∀ stack : List α,
    (∀ a ∈ stack, a ∈ all) → ∃ n out, collect succ n stack seen = some out := by
  induction hcard : (all \ seen).card using Nat.strong_induction_on generalizing seen with
  | _ k ih =>
    intro stack
    induction stack with
    | nil => exact fun _ => ⟨1, seen, rfl⟩
    | cons a stack ihstack =>
      intro hstack
      have ha : a ∈ all := hstack a List.mem_cons_self
      have hrest : ∀ b ∈ stack, b ∈ all := fun b hb => hstack b (List.mem_cons_of_mem _ hb)
      by_cases hmem : a ∈ seen
      · obtain ⟨n, out, h⟩ := ihstack hrest
        exact ⟨n + 1, out, by rw [collect, if_pos hmem, h]⟩
      · have hfewer : (all \ insert a seen).card < k := by
          rw [← hcard]
          refine Finset.card_lt_card (Finset.ssubset_iff_of_subset ?_ |>.mpr ⟨a, ?_, ?_⟩)
          · exact Finset.sdiff_subset_sdiff (Finset.Subset.refl _) (Finset.subset_insert a seen)
          · exact Finset.mem_sdiff.mpr ⟨ha, hmem⟩
          · simp
        have hpushed : ∀ b ∈ (succ a).reverse ++ stack, b ∈ all := by
          intro b hb
          rcases List.mem_append.mp hb with hb | hb
          · exact hsucc a ha b (List.mem_reverse.mp hb)
          · exact hrest b hb
        obtain ⟨n, out, h⟩ := ih _ hfewer (insert a seen) rfl ((succ a).reverse ++ stack) hpushed
        exact ⟨n + 1, out, by rw [collect, if_neg hmem, h]⟩

/-- **The worklist sees what can be reached**, and nothing else. -/
theorem mem_collect {n : Nat} {start : List α} {out : Finset α} (h : collect succ n start ∅ = some out) (a : α) :
    a ∈ out ↔ Reached succ start a := by
  constructor
  · refine collect_sound (P := Reached succ start) (fun a ⟨s, hs, hwalk⟩ b hb => ⟨s, hs, hwalk.tail hb⟩) h ?_ ?_ a
    · simp
    · exact fun a ha => ⟨a, ha, .refl⟩
  · rintro ⟨s, hs, hwalk⟩
    obtain ⟨hkept, hout⟩ := collect_closed h (by simp)
    induction hwalk with
    | refl => exact hkept s (.inr hs)
    | tail _ hb ih => exact hout _ ih _ hb

end Worklist
end Syllog
