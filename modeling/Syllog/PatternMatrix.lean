import Mathlib.Data.List.Forall2
import Mathlib.Algebra.BigOperators.Group.List.Basic
import Mathlib.Algebra.GroupWithZero.Nat
/-!
# PatternMatrix — trees, patterns, and matrices that cover a type

A tree is a head with children; the type of a tree says which children a head takes, in a type of their own each.  A row of
patterns matches a row of trees.  A matrix covers a row of types exactly where splitting its columns, head by head, ends in rows
that are there.
-/
namespace Syllog

inductive Tree (κ : Type) where
  | node (head : κ) (children : List (Tree κ))

inductive Pat (κ : Type) where
  | any
  | node (head : κ) (subs : List (Pat κ))

section
variable {κ τ : Type}

mutual
def Pat.Matches : Pat κ → Tree κ → Prop
  | .any, _                   => True
  | .node c ps, .node c' ts   => c = c' ∧ MatchAll ps ts
def MatchAll : List (Pat κ) → List (Tree κ) → Prop
  | [], []           => True
  | p :: ps, t :: ts => p.Matches t ∧ MatchAll ps ts
  | _, _             => False
end

mutual
/-- A tree of a type, where `payload` gives the types of the children of a head. -/
def Tree.Typed (payload : τ → κ → Option (List τ)) : Tree κ → τ → Prop
  | .node c ts, ty => ∃ tys ∈ payload ty c, TypedAll payload ts tys
def TypedAll (payload : τ → κ → Option (List τ)) : List (Tree κ) → List τ → Prop
  | [], []             => True
  | t :: ts, ty :: tys => t.Typed payload ty ∧ TypedAll payload ts tys
  | _, _               => False
end

/-! ## Rows -/

theorem matchAll_length : ∀ {ps : List (Pat κ)} {ts : List (Tree κ)}, MatchAll ps ts → ps.length = ts.length
  | [], [], _ => rfl
  | _ :: _, _ :: _, h => by rw [List.length_cons, List.length_cons, matchAll_length h.2]
  | [], _ :: _, h => h.elim
  | _ :: _, [], h => h.elim

theorem matchAll_append : ∀ {ps qs : List (Pat κ)} {ts us : List (Tree κ)}, ps.length = ts.length →
    (MatchAll (ps ++ qs) (ts ++ us) ↔ MatchAll ps ts ∧ MatchAll qs us)
  | [], _, [], _, _ => by simp [MatchAll]
  | _ :: ps, qs, _ :: ts, us, h => by
    have ih := @matchAll_append ps qs ts us (Nat.succ.inj h)
    simp only [List.cons_append, MatchAll, ih, and_assoc]
  | [], _, _ :: _, _, h => by cases h
  | _ :: _, _, [], _, h => by cases h

theorem matchAll_any : ∀ ts : List (Tree κ), MatchAll (List.replicate ts.length .any) ts
  | []      => trivial
  | _ :: ts => ⟨trivial, matchAll_any ts⟩

/-- Patterns that take everything match every row of their length. -/
theorem matchAll_of_any : ∀ {ps : List (Pat κ)} {ts : List (Tree κ)}, (∀ p ∈ ps, p = .any) → ps.length = ts.length →
    MatchAll ps ts
  | [], [], _, _ => trivial
  | p :: ps, t :: ts, hany, hlength => by
    refine ⟨?_, matchAll_of_any (fun q hq => hany q (List.mem_cons_of_mem _ hq)) (Nat.succ.inj hlength)⟩
    rw [hany p List.mem_cons_self]
    trivial
  | [], _ :: _, _, h => by cases h
  | _ :: _, [], _, h => by cases h

variable {payload : τ → κ → Option (List τ)}

theorem typedAll_length : ∀ {ts : List (Tree κ)} {tys : List τ}, TypedAll payload ts tys → ts.length = tys.length
  | [], [], _ => rfl
  | _ :: _, _ :: _, h => by rw [List.length_cons, List.length_cons, typedAll_length h.2]
  | [], _ :: _, h => h.elim
  | _ :: _, [], h => h.elim

theorem typedAll_append : ∀ {tys tys' : List τ} {ts : List (Tree κ)}, TypedAll payload ts (tys ++ tys') →
    ∃ us vs, ts = us ++ vs ∧ TypedAll payload us tys ∧ TypedAll payload vs tys'
  | [], _, ts, h => ⟨[], ts, rfl, trivial, h⟩
  | _ :: _, _, [], h => h.elim
  | ty :: tys, tys', t :: ts, h => by
    obtain ⟨us, vs, rfl, hus, hvs⟩ := @typedAll_append tys tys' ts h.2
    exact ⟨t :: us, vs, rfl, ⟨h.1, hus⟩, hvs⟩

theorem TypedAll.append : ∀ {_us _vs : List (Tree κ)} {_tys _tys' : List τ}, TypedAll payload _us _tys → TypedAll payload _vs _tys' →
    TypedAll payload (_us ++ _vs) (_tys ++ _tys')
  | [], _, [], _, _, h => h
  | _ :: _, _, _ :: _, _, h, h' => ⟨h.1, TypedAll.append h.2 h'⟩
  | [], _, _ :: _, _, h, _ => h.elim
  | _ :: _, _, [], _, h, _ => h.elim

/-! ## Weight -/

mutual
/-- The heads in a pattern. -/
def Pat.weight : Pat κ → Nat
  | .any       => 0
  | .node _ ps => 1 + weightAll ps
def weightAll : List (Pat κ) → Nat
  | []      => 0
  | p :: ps => p.weight + weightAll ps
end

def matrixWeight (rows : List (List (Pat κ))) : Nat := (rows.map weightAll).sum

/-- The first pattern of a row has a head. -/
def startsWithHead : List (Pat κ) → Bool
  | .node _ _ :: _ => true
  | _              => false

theorem weightAll_append (ps qs : List (Pat κ)) : weightAll (ps ++ qs) = weightAll ps + weightAll qs := by
  induction ps with
  | nil => simp [weightAll]
  | cons p ps ih => simp only [List.cons_append, weightAll, ih, Nat.add_assoc]

theorem weightAll_any (n : Nat) : weightAll (List.replicate n (.any : Pat κ)) = 0 := by
  induction n with
  | zero => rfl
  | succ n ih => rw [List.replicate_succ, weightAll, ih, Pat.weight]

theorem weight_pos_of_head {row : List (Pat κ)} (h : startsWithHead row = true) : 0 < weightAll row := by
  match row, h with
  | .node c ps :: row, _ =>
    simp only [weightAll, Pat.weight]
    omega

/-! ## Splitting a column -/

/-- The row without a first pattern that takes everything. -/
def defaultRow : List (Pat κ) → Option (List (Pat κ))
  | .any :: row => some row
  | _           => none

theorem defaultRow_matches {t : Tree κ} {us : List (Tree κ)} {row row' : List (Pat κ)} (h : defaultRow row = some row')
    (hmatch : MatchAll row' us) : MatchAll row (t :: us) := by
  match row, h with
  | .any :: _, h =>
    cases h
    exact ⟨trivial, hmatch⟩

theorem matrixWeight_default : ∀ {rows : List (List (Pat κ))}, rows.any startsWithHead = false →
    matrixWeight (rows.filterMap defaultRow) = matrixWeight rows
  | [], _ => rfl
  | row :: rows, h => by
    simp only [List.any_cons, Bool.or_eq_false_iff] at h
    have ih := matrixWeight_default h.2
    simp only [matrixWeight, List.filterMap_cons, List.map_cons, List.sum_cons] at ih ⊢
    match row, h.1 with
    | [], _ => simp only [defaultRow, weightAll, ih, Nat.zero_add]
    | .any :: row, _ => simp only [defaultRow, List.map_cons, List.sum_cons, weightAll, Pat.weight, ih, Nat.zero_add]

variable [DecidableEq κ]

/-- The row below a head with `n` children. -/
def specialize (c : κ) (n : Nat) : List (Pat κ) → Option (List (Pat κ))
  | .any :: row        => some (List.replicate n .any ++ row)
  | .node c' ps :: row => if c' = c ∧ ps.length = n then some (ps ++ row) else none
  | []                 => none

theorem specialize_matches {c : κ} {ts us : List (Tree κ)} {row : List (Pat κ)} :
    MatchAll row (.node c ts :: us) ↔ ∃ row' ∈ specialize c ts.length row, MatchAll row' (ts ++ us) := by
  match row with
  | [] => simp [specialize, MatchAll]
  | .any :: row =>
    simp only [specialize, Option.mem_def, Option.some.injEq, exists_eq_left']
    rw [matchAll_append (List.length_replicate ..)]
    simp only [MatchAll, Pat.Matches, true_and, matchAll_any]
  | .node c' ps :: row =>
    simp only [specialize, Option.mem_def, MatchAll, Pat.Matches]
    by_cases hhead : c' = c ∧ ps.length = ts.length
    · simp only [if_pos hhead, Option.some.injEq, exists_eq_left']
      rw [matchAll_append hhead.2, hhead.1]
      simp
    · simp only [if_neg hhead, reduceCtorEq, false_and, exists_false, iff_false]
      rintro ⟨⟨hc, hps⟩, -⟩
      exact hhead ⟨hc, matchAll_length hps⟩

/-! ## Matrices that cover -/

/-- A matrix covers a row of types: a row is left once there are no columns; the first column is passed by the rows that take
everything there, or split into the heads of its type, those below which there is a tree. -/
inductive MatrixCovers (payload : τ → κ → Option (List τ)) : List τ → List (List (Pat κ)) → Prop
  | done {rows : List (List (Pat κ))} (h : [] ∈ rows) : MatrixCovers payload [] rows
  | skip {ty : τ} {tys : List τ} {rows : List (List (Pat κ))} (h : MatrixCovers payload tys (rows.filterMap defaultRow)) :
    MatrixCovers payload (ty :: tys) rows
  | split {ty : τ} {tys : List τ} {rows : List (List (Pat κ))}
    (h : ∀ c fields, payload ty c = some fields → (∃ ts, TypedAll payload ts fields) →
      MatrixCovers payload (fields ++ tys) (rows.filterMap (specialize c fields.length))) : MatrixCovers payload (ty :: tys) rows

/-- **A matrix that covers leaves no tree out.** -/
theorem MatrixCovers.sound {tys : List τ} {rows : List (List (Pat κ))} (h : MatrixCovers payload tys rows) : ∀ {ts : List (Tree κ)},
    TypedAll payload ts tys → ∃ row ∈ rows, MatchAll row ts := by
  induction h with
  | done h =>
    rintro (_ | ⟨t, ts⟩) hts
    · exact ⟨[], h, trivial⟩
    · exact hts.elim
  | skip _ ih =>
    rintro (_ | ⟨t, ts⟩) hts
    · exact hts.elim
    · obtain ⟨row', hrow', hmatch⟩ := ih hts.2
      obtain ⟨row, hrow, hdefault⟩ := List.mem_filterMap.mp hrow'
      exact ⟨row, hrow, defaultRow_matches hdefault hmatch⟩
  | split _ ih =>
    rintro (_ | ⟨⟨c, children⟩, ts⟩) hts
    · exact hts.elim
    · obtain ⟨⟨fields, hpayload, hchildren⟩, htail⟩ := hts
      obtain ⟨row', hrow', hmatch⟩ := ih c fields hpayload ⟨children, hchildren⟩ (hchildren.append htail)
      rw [← typedAll_length hchildren] at hrow'
      obtain ⟨row, hrow, hspecialize⟩ := List.mem_filterMap.mp hrow'
      exact ⟨row, hrow, specialize_matches.mpr ⟨row', hspecialize, hmatch⟩⟩

/-! ## Every matrix that leaves no tree out covers -/

/-- Splitting a row takes its first head away. -/
theorem specialize_weight {c : κ} {n : Nat} {row row' : List (Pat κ)} (h : specialize c n row = some row') :
    weightAll row' + (if startsWithHead row then 1 else 0) ≤ weightAll row := by
  match row, h with
  | .any :: row, h =>
    cases h
    simp [weightAll_append, weightAll_any, weightAll, Pat.weight, startsWithHead]
  | .node c' ps :: row, h =>
    simp only [specialize] at h
    split_ifs at h
    cases h
    simp only [weightAll_append, weightAll, Pat.weight, startsWithHead, if_true]
    omega

/-- Splitting a matrix with a head in its first column makes it lighter. -/
theorem matrixWeight_specialize (c : κ) (n : Nat) : ∀ rows : List (List (Pat κ)),
    matrixWeight (rows.filterMap (specialize c n)) + (if rows.any startsWithHead then 1 else 0) ≤ matrixWeight rows
  | [] => by simp [matrixWeight]
  | row :: rows => by
    have ih := matrixWeight_specialize c n rows
    have hhead : startsWithHead row = true → 0 < weightAll row := weight_pos_of_head
    simp only [matrixWeight, List.filterMap_cons, List.any_cons, List.map_cons, List.sum_cons, Bool.or_eq_true] at ih ⊢
    cases hrow : specialize c n row with
    | none =>
      simp only
      split_ifs at ih ⊢ <;> simp_all <;> omega
    | some row' =>
      have hweight := specialize_weight hrow
      simp only [List.map_cons, List.sum_cons]
      split_ifs at ih hweight ⊢ <;> simp_all <;> omega

/-- **A matrix that leaves no tree out covers.** -/
theorem covers_of_all (tys : List τ) (rows : List (List (Pat κ)))
    (h : ∀ ts, TypedAll payload ts tys → ∃ row ∈ rows, MatchAll row ts) : MatrixCovers payload tys rows := by
  match tys with
  | [] =>
    obtain ⟨row, hrow, hmatch⟩ := h [] trivial
    rw [List.length_eq_zero_iff.mp (matchAll_length hmatch)] at hrow
    exact .done hrow
  | ty :: tys =>
    by_cases hhead : rows.any startsWithHead = true
    · -- the heads of the first column go
      refine .split fun c fields hpayload _ => ?_
      have hlighter : matrixWeight (rows.filterMap (specialize c fields.length)) < matrixWeight rows := by
        have hsplit := matrixWeight_specialize c fields.length rows
        rw [if_pos hhead] at hsplit
        omega
      refine covers_of_all _ _ fun ts hts => ?_
      obtain ⟨children, rest, rfl, hchildren, hrest⟩ := typedAll_append hts
      obtain ⟨row, hrow, hmatch⟩ := h (.node c children :: rest) ⟨⟨fields, hpayload, hchildren⟩, hrest⟩
      obtain ⟨row', hspecialize, hmatch'⟩ := specialize_matches.mp hmatch
      rw [typedAll_length hchildren] at hspecialize
      exact ⟨row', List.mem_filterMap.mpr ⟨row, hrow, hspecialize⟩, hmatch'⟩
    · rw [Bool.not_eq_true] at hhead
      have hweight := matrixWeight_default hhead
      by_cases hinhabited : ∃ t : Tree κ, t.Typed payload ty
      · -- the rows look at no tree of the first column
        obtain ⟨t, ht⟩ := hinhabited
        refine .skip (covers_of_all _ _ fun ts hts => ?_)
        obtain ⟨row, hrow, hmatch⟩ := h (t :: ts) ⟨ht, hts⟩
        match row, hrow, hmatch with
        | .any :: row, hrow, hmatch => exact ⟨row, List.mem_filterMap.mpr ⟨_, hrow, rfl⟩, hmatch.2⟩
        | .node c ps :: row, hrow, _ =>
          rw [List.any_eq_false] at hhead
          exact absurd rfl (hhead _ hrow)
      · exact .split fun c fields hpayload ⟨children, hchildren⟩ =>
          absurd ⟨.node c children, fields, hpayload, hchildren⟩ hinhabited
termination_by (matrixWeight rows, tys.length)
decreasing_by
  · exact Prod.Lex.left _ _ hlighter
  · rw [hweight]
    exact Prod.Lex.right _ (Nat.lt_succ_self _)

/-- **A matrix covers exactly where every row of trees is matched.** -/
theorem covers_iff {tys : List τ} {rows : List (List (Pat κ))} :
    MatrixCovers payload tys rows ↔ ∀ ts, TypedAll payload ts tys → ∃ row ∈ rows, MatchAll row ts :=
  ⟨fun h _ hts => h.sound hts, covers_of_all tys rows⟩

end

end Syllog
