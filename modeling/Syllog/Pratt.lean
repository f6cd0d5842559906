import Mathlib.Data.List.Basic
/-!
# Pratt — operators before and between operands

Precedence climbing over a list of tokens, each an operand, an operator before its operand, or an operator between two that
groups to the left.  It builds the one tree over the tokens, in their order, in which no operator takes what another holds more
tightly (`parse_iff`); and it ends with one whenever operands and operators alternate (`parse_of_sequence`).
-/
namespace Syllog
namespace Pratt

/-- What an operator is, and how tightly it holds its operands. -/
inductive Role where
  | before (power : Nat)
  | between (power : Nat)
deriving DecidableEq

inductive Tree (τ : Type) where
  | leaf (t : τ)
  | pre (t : τ) (operand : Tree τ)
  | bin (left : Tree τ) (t : τ) (right : Tree τ)

namespace Tree
variable {τ : Type}

/-- The tokens of a tree, from left to right. -/
def flatten : Tree τ → List τ
  | .leaf t     => [t]
  | .pre t x    => t :: x.flatten
  | .bin l t r  => l.flatten ++ t :: r.flatten

def fold {α : Type} (leaf : τ → α) (pre : τ → α → α) (bin : α → τ → α → α) : Tree τ → α
  | .leaf t    => leaf t
  | .pre t x   => pre t (x.fold leaf pre bin)
  | .bin l t r => bin (l.fold leaf pre bin) t (r.fold leaf pre bin)

end Tree

section
variable {τ : Type} (role : τ → Option Role)

mutual
/-- An operand with what follows it as long as that holds more tightly than `power`.  The fuel is a bound on the tokens. -/
def expr : Nat → Nat → List τ → Option (Tree τ × List τ)
  | n + 1, power, t :: ts =>
    match role t with
    | none             => climb n power (.leaf t) ts
    | some (.before p) =>
      match expr n (p - 1) ts with
      | none           => none
      | some (x, rest) => climb n power (.pre t x) rest
    | some (.between _) => none
  | _, _, _ => none
def climb : Nat → Nat → Tree τ → List τ → Option (Tree τ × List τ)
  | _, _, left, []                => some (left, [])
  | n + 1, power, left, t :: ts   =>
    match role t with
    | some (.between p) =>
      if power < p then
        match expr n p ts with
        | none               => none
        | some (right, rest) => climb n power (.bin left t right) rest
      else some (left, t :: ts)
    | some (.before p) => if power < p then none else some (left, t :: ts)
    | none             => none
  | 0, _, _, _ :: _ => none
end

def parse (ts : List τ) : Option (Tree τ) := (expr role ts.length 0 ts).map (·.1)

/-! ## How tokens are grouped -/

/-- How tightly an operator holds what is on its right. -/
def grip (t : τ) : Nat :=
  match role t with
  | some (.before p)  => p - 1
  | some (.between p) => p
  | none              => 0

/-- An operator of this power, behind the tree, takes nothing out of it. -/
def Keeps (p : Nat) : Tree τ → Prop
  | .leaf _    => True
  | .pre t x   => p ≤ grip role t ∧ Keeps p x
  | .bin _ t r => p ≤ grip role t ∧ Keeps p r

/-- An operator of this power, before the tree, takes all of it. -/
def Follows (p : Nat) : Tree τ → Prop
  | .leaf _    => True
  | .pre _ _   => True
  | .bin l t _ => p < grip role t ∧ Follows p l

/-- Operands are where operands should be, and every operator has the operands it holds. -/
def Grouped : Tree τ → Prop
  | .leaf t    => role t = none
  | .pre t x   => (∃ p, role t = some (.before p)) ∧ Grouped x ∧ Follows role (grip role t) x
  | .bin l t r => (∃ p, role t = some (.between p)) ∧ Grouped l ∧ Grouped r ∧ Keeps role (grip role t) l ∧
    Follows role (grip role t) r

/-- Operators before their operands, and operators between operands. -/
inductive Sequence : List τ → Prop
  | leaf {t : τ} (h : role t = none) : Sequence [t]
  | pre {t : τ} {ts : List τ} {p : Nat} (h : role t = some (.before p)) (hts : Sequence ts) : Sequence (t :: ts)
  | bin {t o : τ} {ts : List τ} {p : Nat} (h : role t = none) (ho : role o = some (.between p)) (hts : Sequence ts) :
      Sequence (t :: o :: ts)

/-- What may come behind a tree. -/
def Behind (x : Tree τ) (rest : List τ) : Prop :=
  ∀ t ∈ rest.head?, ∃ p, role t = some (.between p) ∧ Keeps role p x

end

section
variable {τ : Type} {role : τ → Option Role}

theorem climb_stops {n power : Nat} {x : Tree τ} {rest : List τ} (hn : rest.length ≤ n)
    (h : ∀ t ∈ rest.head?, ∃ p, role t = some (.between p) ∧ p ≤ power) : climb role n power x rest = some (x, rest) := by
  cases rest with
  | nil => unfold climb; rfl
  | cons t rest =>
    cases n with
    | zero => cases hn
    | succ n =>
      obtain ⟨p, hp, hle⟩ := h t rfl
      unfold climb
      simp only [hp]
      rw [if_neg (Nat.not_lt.mpr hle)]

/-- A grouped tree is read off its tokens, whatever comes behind it. -/
theorem expr_flatten : ∀ (x : Tree τ), Grouped role x → ∀ (power : Nat) {n : Nat} {rest : List τ},
    (x.flatten ++ rest).length ≤ n →
    Follows role power x → Behind role x rest →
      ∃ m, rest.length ≤ m ∧ expr role n power (x.flatten ++ rest) = climb role m power x rest
  | .leaf t, hg, power, n, rest, hn, _, _ => by
    cases n with
    | zero => cases hn
    | succ n =>
      refine ⟨n, by simpa [Tree.flatten] using hn, ?_⟩
      simp only [Tree.flatten, List.cons_append, List.nil_append]
      conv => lhs; unfold expr
      rw [show role t = none from hg]
  | .pre t x, ⟨⟨p, hp⟩, hg, hf⟩, power, n, rest, hn, _, hb => by
    cases n with
    | zero => cases hn
    | succ n =>
      have hgrip : grip role t = p - 1 := by rw [grip, hp]
      have hlen : (x.flatten ++ rest).length ≤ n := by simpa [Tree.flatten] using hn
      have hx : Behind role x rest := fun o ho => by
        obtain ⟨q, hq, hkeeps⟩ := hb o ho
        exact ⟨q, hq, hkeeps.2⟩
      obtain ⟨m, hm, hexpr⟩ := expr_flatten x hg (p - 1) hlen (hgrip ▸ hf) hx
      have hstop : climb role m (p - 1) x rest = some (x, rest) := climb_stops hm fun o ho => by
        obtain ⟨q, hq, hkeeps⟩ := hb o ho
        exact ⟨q, hq, hgrip ▸ hkeeps.1⟩
      refine ⟨n, by rw [List.length_append] at hlen; omega, ?_⟩
      simp only [Tree.flatten, List.cons_append]
      conv => lhs; unfold expr
      simp only [hp, hexpr, hstop]
  | .bin l t r, ⟨⟨p, hp⟩, hgl, hgr, hkeeps, hfr⟩, power, n, rest, hn, hf, hb => by
    have hgrip : grip role t = p := by rw [grip, hp]
    have hassoc : (Tree.bin l t r).flatten ++ rest = l.flatten ++ (t :: (r.flatten ++ rest)) := by simp [Tree.flatten]
    rw [hassoc] at hn ⊢
    obtain ⟨m, hm, hleft⟩ := expr_flatten l hgl power hn hf.2 (fun o ho => by
      cases ho
      exact ⟨p, hp, hgrip ▸ hkeeps⟩)
    cases m with
    | zero => cases hm
    | succ m =>
      have hlen : (r.flatten ++ rest).length ≤ m := by simpa using hm
      have hr : Behind role r rest := fun o ho => by
        obtain ⟨q, hq, hkeeps⟩ := hb o ho
        exact ⟨q, hq, hkeeps.2⟩
      obtain ⟨k, hk, hright⟩ := expr_flatten r hgr p hlen (hgrip ▸ hfr) hr
      have hstop : climb role k p r rest = some (r, rest) := climb_stops hk fun o ho => by
        obtain ⟨q, hq, hkeeps⟩ := hb o ho
        exact ⟨q, hq, hgrip ▸ hkeeps.1⟩
      refine ⟨m, by rw [List.length_append] at hlen; omega, ?_⟩
      rw [hleft]
      conv => lhs; unfold climb
      simp only [hp, hright, hstop]
      rw [if_pos (hgrip ▸ hf.1)]

mutual
/-- What is read is a grouped tree over a front of the tokens. -/
theorem expr_sound : ∀ (n : Nat) {power : Nat} {ts rest : List τ} {x : Tree τ}, expr role n power ts = some (x, rest) →
    x.flatten ++ rest = ts ∧ Grouped role x ∧ Follows role power x ∧
      ∀ t ∈ rest.head?, ∀ p, role t = some (.between p) → p ≤ power ∧ Keeps role p x
  | 0, power, ts, rest, x, h => by
    unfold expr at h
    cases h
  | n + 1, power, [], rest, x, h => by
    unfold expr at h
    cases h
  | n + 1, power, t :: ts, rest, x, h => by
    unfold expr at h
    split at h
    · rename_i hrole
      exact climb_sound n (.leaf t) hrole trivial (fun _ _ _ _ => trivial) h
    · rename_i p hrole
      split at h
      · cases h
      · rename_i y rest' hy
        obtain ⟨hflat, hg, hf, hnext⟩ := expr_sound n hy
        have hgrip : grip role t = p - 1 := by rw [grip, hrole]
        obtain ⟨hflat', hrest⟩ := climb_sound n (.pre t y) ⟨⟨p, hrole⟩, hg, hgrip ▸ hf⟩ trivial
          (fun o ho q hq => ⟨hgrip ▸ (hnext o ho q hq).1, (hnext o ho q hq).2⟩) h
        exact ⟨by rw [hflat', ← hflat]; rfl, hrest⟩
    · cases h
theorem climb_sound : ∀ (n : Nat) {power : Nat} (left : Tree τ) {ts rest : List τ} {x : Tree τ}, Grouped role left →
    Follows role power left → (∀ t ∈ ts.head?, ∀ p, role t = some (.between p) → Keeps role p left) →
    climb role n power left ts = some (x, rest) →
      x.flatten ++ rest = left.flatten ++ ts ∧ Grouped role x ∧ Follows role power x ∧
        ∀ t ∈ rest.head?, ∀ p, role t = some (.between p) → p ≤ power ∧ Keeps role p x
  | n, power, left, [], rest, x, hg, hf, _, h => by
    unfold climb at h
    cases h
    exact ⟨rfl, hg, hf, (fun _ h => by cases h)⟩
  | 0, power, left, t :: ts, rest, x, _, _, _, h => by
    unfold climb at h
    cases h
  | n + 1, power, left, t :: ts, rest, x, hg, hf, hkeeps, h => by
    unfold climb at h
    split at h
    · rename_i p hrole
      have hgrip : grip role t = p := by rw [grip, hrole]
      split_ifs at h with hlt
      · split at h
        · cases h
        · rename_i right rest' hright
          obtain ⟨hflat, hgr, hfr, hnext⟩ := expr_sound n hright
          obtain ⟨hflat', hrest⟩ := climb_sound n (.bin left t right)
            ⟨⟨p, hrole⟩, hg, hgr, hgrip ▸ hkeeps t rfl p hrole, hgrip ▸ hfr⟩ ⟨hgrip ▸ hlt, hf⟩
            (fun o ho q hq => ⟨hgrip ▸ (hnext o ho q hq).1, (hnext o ho q hq).2⟩) h
          exact ⟨by rw [hflat', ← hflat]; simp [Tree.flatten], hrest⟩
      · cases h
        refine ⟨rfl, hg, hf, fun o ho q hq => ?_⟩
        cases ho
        cases hrole.symm.trans hq
        exact ⟨Nat.not_lt.mp hlt, hkeeps t rfl p hrole⟩
    · rename_i p hrole
      split_ifs at h with hlt
      cases h
      refine ⟨rfl, hg, hf, fun o ho q hq => ?_⟩
      cases ho
      cases hrole.symm.trans hq
    · cases h
end

/-! ## Every sequence is read -/

/-- What may be left: nothing, or an operator between and a sequence. -/
def Rest (role : τ → Option Role) (power : Nat) (ts : List τ) : Prop :=
  ∀ t rest, ts = t :: rest → ∃ p, role t = some (.between p) ∧ p ≤ power ∧ Sequence role rest

/-- What may be behind an operand. -/
def Onward (role : τ → Option Role) (ts : List τ) : Prop := ∃ power, Rest role power ts

theorem onward_nil : Onward role [] := ⟨0, fun _ _ h => by cases h⟩

theorem Sequence.head {ts : List τ} (h : Sequence role ts) : ∃ t rest, ts = t :: rest ∧
    ((role t = none ∧ Onward role rest) ∨ ∃ p, role t = some (.before p) ∧ Sequence role rest) := by
  cases h with
  | leaf h => exact ⟨_, _, rfl, .inl ⟨h, onward_nil⟩⟩
  | pre h hts => exact ⟨_, _, rfl, .inr ⟨_, h, hts⟩⟩
  | @bin t o ts p h ho hts =>
    refine ⟨_, _, rfl, .inl ⟨h, p, fun o' rest heq => ?_⟩⟩
    cases heq
    exact ⟨p, ho, Nat.le_refl _, hts⟩

/-- With enough fuel an operand is found, and what is left goes on as a sequence does. -/
theorem expr_climb_ends (n : Nat) :
    (∀ (power : Nat) (ts : List τ), ts.length ≤ n → Sequence role ts →
      ∃ x rest, expr role n power ts = some (x, rest) ∧ rest.length ≤ ts.length ∧ Rest role power rest) ∧
    ∀ (power : Nat) (left : Tree τ) (ts : List τ), ts.length ≤ n → Onward role ts →
      ∃ x rest, climb role n power left ts = some (x, rest) ∧ rest.length ≤ ts.length ∧ Rest role power rest := by
  induction n with
  | zero =>
    constructor
    · intro power ts hlen h
      obtain ⟨t, rest, rfl, -⟩ := h.head
      simp at hlen
    · intro power left ts hlen _
      cases ts with
      | nil => exact ⟨left, [], by unfold climb; rfl, Nat.le_refl _, fun _ _ h => by cases h⟩
      | cons => simp at hlen
  | succ n ih =>
    constructor
    · intro power ts hlen h
      obtain ⟨t, rest, rfl, ⟨hrole, honward⟩ | ⟨p, hrole, hrest⟩⟩ := h.head
      · obtain ⟨x, rest', hclimb, hle, hrest'⟩ := ih.2 power (.leaf t) rest (by simpa using hlen) honward
        refine ⟨x, rest', ?_, Nat.le_succ_of_le hle, hrest'⟩
        unfold expr
        simp only [hrole, hclimb]
      · obtain ⟨y, rest', hexpr, hle, hrest'⟩ := ih.1 (p - 1) rest (by simpa using hlen) hrest
        obtain ⟨x, rest'', hclimb, hle', hrest''⟩ := ih.2 power (.pre t y) rest'
          (by rw [List.length_cons] at hlen; omega) ⟨_, hrest'⟩
        refine ⟨x, rest'', ?_, Nat.le_trans hle' (Nat.le_succ_of_le hle), hrest''⟩
        unfold expr
        simp only [hrole, hexpr, hclimb]
    · intro power left ts hlen honward
      cases ts with
      | nil => exact ⟨left, [], by unfold climb; rfl, Nat.le_refl _, fun _ _ h => by cases h⟩
      | cons t ts =>
        obtain ⟨q, hq⟩ := honward
        obtain ⟨p, hrole, -, hts⟩ := hq t ts rfl
        by_cases hlt : power < p
        · obtain ⟨y, rest', hexpr, hle, hrest'⟩ := ih.1 p ts (by simpa using hlen) hts
          obtain ⟨x, rest'', hclimb, hle', hrest''⟩ := ih.2 power (.bin left t y) rest'
            (by rw [List.length_cons] at hlen; omega) ⟨_, hrest'⟩
          refine ⟨x, rest'', ?_, Nat.le_trans hle' (Nat.le_succ_of_le hle), hrest''⟩
          unfold climb
          simp only [hrole, if_pos hlt, hexpr, hclimb]
        · refine ⟨left, t :: ts, ?_, Nat.le_refl _, fun t' rest heq => ?_⟩
          · unfold climb
            simp only [hrole, if_neg hlt]
          · cases heq
            exact ⟨p, hrole, Nat.not_lt.mp hlt, hts⟩

section
variable (hpos : ∀ t p, role t = some (.between p) → 0 < p)
include hpos

theorem follows_zero {x : Tree τ} (hx : Grouped role x) : Follows role 0 x := by
  induction x with
  | leaf => trivial
  | pre => trivial
  | bin l t r ihl _ =>
    obtain ⟨⟨p, hp⟩, hl, -⟩ := hx
    refine ⟨?_, ihl hl⟩
    rw [grip, hp]
    exact hpos t p hp

/-- A sequence is read whole. -/
theorem parse_of_sequence {ts : List τ} (h : Sequence role ts) :
    ∃ x, parse role ts = some x ∧ Grouped role x ∧ x.flatten = ts := by
  obtain ⟨x, rest, hexpr, -, hrest⟩ := (expr_climb_ends ts.length).1 0 ts (Nat.le_refl _) h
  have hnil : rest = [] := by
    cases rest with
    | nil => rfl
    | cons t rest =>
      obtain ⟨p, hp, hle, -⟩ := hrest t rest rfl
      exact absurd (hpos t p hp) (Nat.not_lt.mpr hle)
  obtain ⟨hflat, hgrouped, -⟩ := expr_sound _ hexpr
  rw [hnil, List.append_nil] at hflat
  exact ⟨x, by rw [parse, hexpr]; rfl, hgrouped, hflat⟩

/-- **The tree that is read is the only one over the tokens in which every operator has the operands it holds.** -/
theorem parse_iff {ts : List τ} (h : Sequence role ts) {x : Tree τ} :
    parse role ts = some x ↔ Grouped role x ∧ x.flatten = ts := by
  constructor
  · intro hx
    obtain ⟨y, hy, hgrouped, hflat⟩ := parse_of_sequence hpos h
    cases hx.symm.trans hy
    exact ⟨hgrouped, hflat⟩
  · rintro ⟨hgrouped, rfl⟩
    have hlen : (x.flatten ++ []).length ≤ x.flatten.length := Nat.le_of_eq (by rw [List.append_nil])
    obtain ⟨m, -, hexpr⟩ := expr_flatten x hgrouped 0 hlen (follows_zero hpos hgrouped) (fun _ h => by cases h)
    rw [List.append_nil] at hexpr
    rw [parse, hexpr]
    unfold climb
    rfl

end

end

end Pratt
end Syllog
