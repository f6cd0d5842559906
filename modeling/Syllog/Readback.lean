import Mathlib.Data.List.Forall2
import Mathlib.Data.List.Basic
/-!
# Readback — texts that are read back one way

A printed value is read back when whatever follows it, once it begins with a character that stops it, tells where it ends.
Lists of such values between a separator and a close are read back too, value by value.
-/
namespace Syllog
namespace Readback

variable {α β : Type}

/-- Nothing follows, or something that stops a text. -/
def Stops (stop : α → Bool) (rest : List α) : Prop := ∀ c ∈ rest.head?, stop c = true

@[simp] theorem stops_nil (stop : α → Bool) : Stops stop [] := fun _ h => (nomatch h)

@[simp] theorem stops_cons {stop : α → Bool} {c : α} {rest : List α} : Stops stop (c :: rest) ↔ stop c = true := by
  simp [Stops]

/-- The value is read back, up to `same`, from its text and what follows, against the texts of all that are `valid`. -/
def ReadsBack (show_ : β → List α) (valid : β → Prop) (stop : α → Bool) (same : β → β → Prop) (b : β) : Prop :=
  ∀ b' rest rest', valid b' → Stops stop rest → Stops stop rest' → show_ b ++ rest = show_ b' ++ rest' →
    same b b' ∧ rest = rest'

/-- Words are read back from what follows them. -/
theorem word_append {p : α → Bool} {w w' rest rest' : List α} (hw : ∀ c ∈ w, p c = true) (hw' : ∀ c ∈ w', p c = true)
    (hrest : Stops (fun c => !p c) rest) (hrest' : Stops (fun c => !p c) rest') (h : w ++ rest = w' ++ rest') :
    w = w' ∧ rest = rest' := by
  have htake : ∀ {w rest : List α}, (∀ c ∈ w, p c = true) → Stops (fun c => !p c) rest → (w ++ rest).takeWhile p = w := by
    intro w rest hw hrest
    rw [List.takeWhile_append_of_pos hw]
    cases rest with
    | nil => simp
    | cons c rest =>
      have hc : p c = false := by simpa using hrest
      rw [List.takeWhile_cons_of_neg (by simp [hc]), List.append_nil]
  have hwords := congrArg (List.takeWhile p) h
  rw [htake hw hrest, htake hw' hrest'] at hwords
  subst hwords
  exact ⟨rfl, List.append_cancel_left h⟩

section
variable {show_ : β → List α} {valid : β → Prop} {stop : α → Bool} {same : β → β → Prop} {s : α} {sep : List α} {close : α}

/-- **Values between separators, up to a close.** -/
theorem joined (hs : stop s = true) (hclose : stop close = true) (hne : s ≠ close)
    (hopens : ∀ b, valid b → ∃ c cs, show_ b = c :: cs ∧ c ≠ close) : ∀ {l l' : List β} {rest rest' : List α},
    (∀ b ∈ l, valid b ∧ ReadsBack show_ valid stop same b) → (∀ b ∈ l', valid b) →
      (s :: sep).intercalate (l.map show_) ++ close :: rest = (s :: sep).intercalate (l'.map show_) ++ close :: rest' →
        List.Forall₂ same l l' ∧ rest = rest'
  | [], [], rest, rest', _, _, h => ⟨.nil, by simpa using h⟩
  | [], b' :: l', rest, rest', _, hl', h => by
    obtain ⟨c, cs, hshow, hc⟩ := hopens b' (hl' b' List.mem_cons_self)
    cases l' with
    | nil => simp [hshow, Ne.symm hc] at h
    | cons c' l' => simp [List.intercalate_cons_cons, hshow, Ne.symm hc] at h
  | b :: l, [], rest, rest', hl, _, h => by
    obtain ⟨c, cs, hshow, hc⟩ := hopens b (hl b List.mem_cons_self).1
    cases l with
    | nil => simp [hshow, hc] at h
    | cons c' l => simp [List.intercalate_cons_cons, hshow, hc] at h
  | b :: l, b' :: l', rest, rest', hl, hl', h => by
    obtain ⟨⟨-, hb⟩, hlater⟩ := List.forall_mem_cons.mp hl
    obtain ⟨hb', hlater'⟩ := List.forall_mem_cons.mp hl'
    -- what follows the first value: the close, or a separator and the others
    cases l with
    | nil =>
      cases l' with
      | nil =>
        rw [List.map_cons, List.map_nil, List.intercalate_singleton, List.map_cons, List.map_nil,
          List.intercalate_singleton] at h
        obtain ⟨hsame, hrest⟩ := hb b' _ _ hb' (by simpa using hclose) (by simpa using hclose) h
        exact ⟨.cons hsame .nil, by simpa using hrest⟩
      | cons c' l' =>
        rw [List.map_cons, List.map_nil, List.intercalate_singleton, List.map_cons, List.map_cons,
          List.intercalate_cons_cons, List.append_assoc, List.append_assoc] at h
        obtain ⟨-, hrest⟩ := hb b' _ _ hb' (by simpa using hclose) (by simpa using hs) h
        exact absurd (List.cons.inj hrest).1 (Ne.symm hne)
    | cons c l =>
      cases l' with
      | nil =>
        rw [List.map_cons, List.map_cons, List.intercalate_cons_cons, List.append_assoc, List.append_assoc, List.map_cons,
          List.map_nil, List.intercalate_singleton] at h
        obtain ⟨-, hrest⟩ := hb b' _ _ hb' (by simpa using hs) (by simpa using hclose) h
        exact absurd (List.cons.inj hrest).1 hne
      | cons c' l' =>
        rw [List.map_cons, List.map_cons, List.intercalate_cons_cons, List.append_assoc, List.append_assoc, List.map_cons,
          List.map_cons, List.intercalate_cons_cons, List.append_assoc, List.append_assoc] at h
        obtain ⟨hsame, hrest⟩ := hb b' _ _ hb' (by simpa using hs) (by simpa using hs) h
        rw [List.cons_append, List.cons_append, List.cons.injEq] at hrest
        have hothers := List.append_cancel_left hrest.2
        rw [← List.map_cons, ← List.map_cons] at hothers
        obtain ⟨hall, hend⟩ := joined hs hclose hne hopens hlater hlater' hothers
        exact ⟨.cons hsame hall, hend⟩

end

/-! ## Lines -/

theorem not_mem_intercalate {a : α} {sep : List α} (hsep : a ∉ sep) : ∀ {l : List (List α)}, (∀ x ∈ l, a ∉ x) →
    a ∉ sep.intercalate l
  | [], _ => by simp
  | [x], h => by simpa using h
  | x :: y :: l, h => by
    obtain ⟨hx, hlater⟩ := List.forall_mem_cons.mp h
    rw [List.intercalate_cons_cons, List.append_assoc, List.mem_append, List.mem_append, not_or, not_or]
    exact ⟨hx, hsep, not_mem_intercalate hsep hlater⟩

/-- Lines without breaks in them are read back from what they are joined to. -/
theorem lines_eq [BEq α] [LawfulBEq α] {sep : α} {l l' : List (List α)} (hl : ∀ line ∈ l, sep ∉ line ∧ line ≠ [])
    (hl' : ∀ line ∈ l', sep ∉ line ∧ line ≠ []) (h : [sep].intercalate l = [sep].intercalate l') : l = l' := by
  have hempty : ∀ {l : List (List α)}, (∀ line ∈ l, sep ∉ line ∧ line ≠ []) → [sep].intercalate l = [] → l = [] := by
    intro l hl hnil
    cases l with
    | nil => rfl
    | cons line l =>
      have hline := (hl line List.mem_cons_self).2
      cases l with
      | nil => exact absurd (by simpa using hnil) hline
      | cons line' l => simp [List.intercalate_cons_cons] at hnil
  by_cases hnil : l = []
  · subst hnil
    exact (hempty hl' (by rw [← h]; rfl)).symm
  · have hnil' : l' ≠ [] := fun hnil' => hnil (hempty hl (by rw [h, hnil']; rfl))
    have hsplit := congrArg (List.splitOn sep) h
    rwa [List.splitOn_intercalate sep (fun line hline => (hl line hline).1) hnil,
      List.splitOn_intercalate sep (fun line hline => (hl' line hline).1) hnil'] at hsplit

end Readback
end Syllog
