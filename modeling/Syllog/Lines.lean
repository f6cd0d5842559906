import Mathlib.Data.List.Basic
import Mathlib.Algebra.BigOperators.Group.List.Basic
import Mathlib.Algebra.GroupWithZero.Nat
/-!
# Lines — a stream cut into lines, whatever pieces it comes in

`full` are the lines a stream has ended and `rest` is what stands behind its last separator.  Reading a piece more ends the
lines of the piece with the rest in front of it, so a reader that keeps the rest sees the lines of the whole stream.
-/
namespace Syllog
namespace Lines

variable {α : Type} [BEq α] (sep : α)

/-- The lines of a stream that their separator has ended. -/
def full (l : List α) : List (List α) := (l.splitOn sep).dropLast

/-- What stands behind the last separator. -/
def rest (l : List α) : List α := (l.splitOn sep).getLast (List.splitOn_ne_nil sep l)

/-- The length of lines with their separators. -/
def size {α : Type} (lines : List (List α)) : Nat := (lines.map fun line => line.length + 1).sum

@[simp] theorem size_nil {α : Type} : size ([] : List (List α)) = 0 := rfl

@[simp] theorem size_cons {α : Type} (line : List α) (lines : List (List α)) :
    size (line :: lines) = line.length + 1 + size lines := by
  simp [size]

theorem length_le_size {α : Type} {line : List α} : ∀ {lines : List (List α)}, line ∈ lines → line.length + 1 ≤ size lines
  | first :: lines, h => by
    rw [size_cons]
    rcases List.mem_cons.mp h with rfl | h
    · exact Nat.le_add_right _ _
    · exact Nat.le_trans (length_le_size h) (Nat.le_add_left _ _)

theorem splitOn_eq (l : List α) : l.splitOn sep = full sep l ++ [rest sep l] :=
  (List.dropLast_append_getLast _).symm

variable {sep}

theorem full_rest_of_splitOn {l : List α} {lines : List (List α)} {last : List α} (h : l.splitOn sep = lines ++ [last]) :
    full sep l = lines ∧ rest sep l = last := by
  refine ⟨by rw [full, h, List.dropLast_concat], ?_⟩
  have hlast := (splitOn_eq sep l).symm.trans h
  exact (List.append_inj' hlast rfl).2 |> List.head_eq_of_cons_eq

variable [LawfulBEq α]

theorem full_of_not_mem {l : List α} (h : sep ∉ l) : full sep l = [] ∧ rest sep l = l :=
  full_rest_of_splitOn (List.splitOn_eq_singleton h)

@[simp] theorem full_nil : full sep ([] : List α) = [] := (full_of_not_mem (List.not_mem_nil)).1

@[simp] theorem rest_nil : rest sep ([] : List α) = [] := (full_of_not_mem (List.not_mem_nil)).2

/-- A line in front. -/
theorem full_line {line l : List α} (h : sep ∉ line) :
    full sep (line ++ sep :: l) = line :: full sep l ∧ rest sep (line ++ sep :: l) = rest sep l := by
  refine full_rest_of_splitOn ?_
  rw [List.splitOn_append_cons_self_of_not_mem h, splitOn_eq sep l, List.cons_append]

variable (sep) in
/-- A stream has a line in front, or no separator. -/
theorem line_cases (l : List α) : sep ∉ l ∨ ∃ line l', l = line ++ sep :: l' ∧ sep ∉ line := by
  by_cases h : sep ∈ l
  · obtain ⟨line, l', heq, hout⟩ := List.eq_append_cons_of_mem h
    exact .inr ⟨line, l', heq, hout⟩
  · exact .inl h

variable (sep) in
/-- **What is proved of streams without a separator and carried over a line in front holds of every stream.** -/
theorem induction_lines {P : List α → Prop} (hrest : ∀ l, sep ∉ l → P l)
    (hline : ∀ line l, sep ∉ line → P l → P (line ++ sep :: l)) : ∀ l, P l := by
  intro l
  induction hlength : l.length using Nat.strongRecOn generalizing l with
  | _ n ih =>
    rcases line_cases sep l with h | ⟨line, l', rfl, h⟩
    · exact hrest l h
    · refine hline line l' h (ih l'.length ?_ l' rfl)
      simp at hlength
      omega

variable (sep) in
theorem not_mem_rest (l : List α) : sep ∉ rest sep l := by
  induction l using induction_lines sep with
  | hrest l h => rwa [(full_of_not_mem h).2]
  | hline line l h ih => rwa [(full_line h).2]

variable (sep) in
/-- **A piece more ends the lines of what was left with the piece behind it.** -/
theorem full_append (l more : List α) :
    full sep (l ++ more) = full sep l ++ full sep (rest sep l ++ more) ∧
      rest sep (l ++ more) = rest sep (rest sep l ++ more) := by
  induction l using induction_lines sep with
  | hrest l h => rw [(full_of_not_mem h).1, (full_of_not_mem h).2, List.nil_append]; exact ⟨rfl, rfl⟩
  | hline line l h ih =>
    rw [List.append_assoc, List.cons_append, (full_line h).1, (full_line h).2, (full_line h).1, (full_line h).2, ih.1, ih.2]
    exact ⟨rfl, rfl⟩

variable (sep) in
/-- The lines with their separators, and the rest, are as long as the stream. -/
theorem length_eq (l : List α) : l.length = size (full sep l) + (rest sep l).length := by
  induction l using induction_lines sep with
  | hrest l h => rw [(full_of_not_mem h).1, (full_of_not_mem h).2, size_nil, Nat.zero_add]
  | hline line l h ih =>
    rw [(full_line h).1, (full_line h).2, List.length_append, List.length_cons, ih, size_cons]
    omega

/-- A piece without a separator in front of a stream is within its first line. -/
theorem length_le_of_prefix {l more line : List α} {lines : List (List α)} (hl : sep ∉ l)
    (h : full sep (l ++ more) = line :: lines) : l.length ≤ line.length := by
  by_cases hmore : sep ∈ more
  · obtain ⟨first, after, rfl, hfirst⟩ := List.eq_append_cons_of_mem hmore
    have hout : sep ∉ l ++ first := by
      rw [List.mem_append, not_or]
      exact ⟨hl, hfirst⟩
    rw [← List.append_assoc, (full_line hout).1] at h
    rw [← (List.cons.inj h).1, List.length_append]
    omega
  · have hout : sep ∉ l ++ more := by
      rw [List.mem_append, not_or]
      exact ⟨hl, hmore⟩
    rw [(full_of_not_mem hout).1] at h
    cases h

/-- A stream at one of its lines. -/
theorem split_at_line {line : List α} {post : List (List α)} : ∀ {pre : List (List α)} {l : List α},
    full sep l = pre ++ line :: post → ∃ before after, l = before ++ line ++ sep :: after ∧
      full sep (before ++ line) = pre ∧ rest sep (before ++ line) = line ∧
        full sep after = post ∧ rest sep after = rest sep l
  | [], l, h => by
    rcases line_cases sep l with hout | ⟨first, after, rfl, hout⟩
    · rw [(full_of_not_mem hout).1] at h
      cases h
    · rw [(full_line hout).1] at h
      obtain ⟨rfl, rfl⟩ := List.cons.inj h
      exact ⟨[], after, rfl, (full_of_not_mem hout).1, (full_of_not_mem hout).2, rfl, (full_line hout).2.symm⟩
  | first :: pre, l, h => by
    rcases line_cases sep l with hout | ⟨first', l', rfl, hout⟩
    · rw [(full_of_not_mem hout).1] at h
      cases h
    · rw [(full_line hout).1] at h
      obtain ⟨rfl, hlater⟩ := List.cons.inj h
      obtain ⟨before, after, rfl, hfull, hrest, hpost, hlast⟩ := split_at_line hlater
      refine ⟨first' ++ sep :: before, after, by simp, ?_, ?_, hpost, ?_⟩
      · rw [List.append_assoc, List.cons_append, (full_line hout).1, hfull]
      · rw [List.append_assoc, List.cons_append, (full_line hout).2, hrest]
      · rw [hlast, (full_line hout).2]

end Lines
end Syllog
