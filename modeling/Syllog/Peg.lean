import Mathlib.Data.List.Basic
import Mathlib.Data.List.Infix
/-!
# Peg — parsing expressions and the trees they build

Parsing expressions with ordered choice, over rules that are normal, silent or atomic.  Between the parts of a sequence and of
a repetition a skip is run, except inside an atomic rule.  A normal or an atomic rule makes a pair, outside of atomic rules:
where it starts, the text it matched and the pairs inside.

`Parses` is the meaning, one rule a case; `run` computes it with fuel.  A layering of a grammar gives every rule a rank above
the rules it can reach without reading, and then `run` ends with fuel linear in the text (`run_of_fuel`).
-/
namespace Syllog
namespace Peg

inductive Exp (ρ : Type) where
  | text (s : List Char)
  | one (p : Char → Bool)
  | rule (r : ρ)
  | seq (a b : Exp ρ)
  | alt (a b : Exp ρ)
  | opt (a : Exp ρ)
  | star (a : Exp ρ)
  /-- Not here. -/
  | ban (a : Exp ρ)
  /-- At the start of the text. -/
  | start
  /-- At its end. -/
  | stop
  /-- A skip, then the expression: how a sequence goes on. -/
  | after (a : Exp ρ)
  /-- The rest of a repetition. -/
  | more (a : Exp ρ)

namespace Exp
variable {ρ : Type}

/-- All of them, one after the other. -/
def all : List (Exp ρ) → Exp ρ
  | []      => .text []
  | [a]     => a
  | a :: as => .seq a (all as)

/-- The first of them. -/
def any : List (Exp ρ) → Exp ρ
  | []      => .ban (.text [])
  | [a]     => a
  | a :: as => .alt a (any as)

def plus (a : Exp ρ) : Exp ρ := .seq a (.star a)

end Exp

inductive Kind where
  | normal | silent | atomic
deriving DecidableEq

structure Grammar (ρ : Type) where
  body : ρ → Exp ρ
  kind : ρ → Kind
  skip : Exp ρ

inductive Pair (ρ : Type) where
  | node (rule : ρ) (start : Nat) (text : List Char) (inner : List (Pair ρ))

namespace Pair
variable {ρ : Type}

def rule : Pair ρ → ρ
  | .node rule _ _ _ => rule

def start : Pair ρ → Nat
  | .node _ start _ _ => start

def text : Pair ρ → List Char
  | .node _ _ text _ => text

def inner : Pair ρ → List (Pair ρ)
  | .node _ _ _ inner => inner

def stop (p : Pair ρ) : Nat := p.start + p.text.length

section
variable (r : ρ) (start : Nat) (text : List Char) (inner : List (Pair ρ))
@[simp] theorem rule_node : (node r start text inner).rule = r := rfl
@[simp] theorem start_node : (node r start text inner).start = start := rfl
@[simp] theorem text_node : (node r start text inner).text = text := rfl
@[simp] theorem inner_node : (node r start text inner).inner = inner := rfl
@[simp] theorem stop_node : (node r start text inner).stop = start + text.length := rfl
end

mutual
/-- How many pairs are one inside the other. -/
def height : Pair ρ → Nat
  | .node _ _ _ inner => heights inner + 1
def heights : List (Pair ρ) → Nat
  | []      => 0
  | p :: ps => max p.height (heights ps)
end

mutual
/-- The pair and all pairs inside it are so. -/
def all (q : Pair ρ → Bool) : Pair ρ → Bool
  | .node rule start text inner => q (.node rule start text inner) && allIn q inner
def allIn (q : Pair ρ → Bool) : List (Pair ρ) → Bool
  | []      => true
  | p :: ps => p.all q && allIn q ps
end

end Pair

/-- Where a run is: how many characters it has read, and what is left. -/
structure Cursor where
  pos : Nat
  rest : List Char

/-- The pairs of a match and where it ends, or no match. -/
abbrev Result (ρ : Type) := Option (List (Pair ρ) × Cursor)

section
variable {ρ : Type} (g : Grammar ρ)

def Grammar.isAtomic (r : ρ) : Bool := g.kind r = .atomic

/-- The pairs of a rule that matched, in an atomic rule or not. -/
def Grammar.wrap (atomic : Bool) (r : ρ) (c c' : Cursor) (inner : List (Pair ρ)) : List (Pair ρ) :=
  if atomic then []
  else if g.kind r = .silent then inner
  else [.node r c.pos (c.rest.take (c'.pos - c.pos)) inner]

/-! ## What parsing means -/

inductive Parses : Bool → Exp ρ → Cursor → Result ρ → Prop
  | text {m : Bool} {s rest : List Char} {pos : Nat} : Parses m (.text s) ⟨pos, s ++ rest⟩ (some ([], ⟨pos + s.length, rest⟩))
  | textFails {m : Bool} {s : List Char} {c : Cursor} (h : ¬s <+: c.rest) : Parses m (.text s) c none
  | one {m : Bool} {p : Char → Bool} {x : Char} {rest : List Char} {pos : Nat} (h : p x = true) :
      Parses m (.one p) ⟨pos, x :: rest⟩ (some ([], ⟨pos + 1, rest⟩))
  | oneFails {m : Bool} {p : Char → Bool} {c : Cursor} (h : ∀ x ∈ c.rest.head?, p x = false) : Parses m (.one p) c none
  | rule {m : Bool} {r : ρ} {c c' : Cursor} {ps : List (Pair ρ)} (h : Parses (m || g.isAtomic r) (g.body r) c (some (ps, c'))) :
      Parses m (.rule r) c (some (g.wrap m r c c' ps, c'))
  | ruleFails {m : Bool} {r : ρ} {c : Cursor} (h : Parses (m || g.isAtomic r) (g.body r) c none) : Parses m (.rule r) c none
  | seq {m : Bool} {a b : Exp ρ} {c c₁ c₂ : Cursor} {ps qs : List (Pair ρ)} (ha : Parses m a c (some (ps, c₁)))
      (hb : Parses m (.after b) c₁ (some (qs, c₂))) : Parses m (.seq a b) c (some (ps ++ qs, c₂))
  | seqFails {m : Bool} {a b : Exp ρ} {c : Cursor} (ha : Parses m a c none) : Parses m (.seq a b) c none
  | seqStops {m : Bool} {a b : Exp ρ} {c c₁ : Cursor} {ps : List (Pair ρ)} (ha : Parses m a c (some (ps, c₁)))
      (hb : Parses m (.after b) c₁ none) : Parses m (.seq a b) c none
  | altFirst {m : Bool} {a b : Exp ρ} {c c' : Cursor} {ps : List (Pair ρ)} (ha : Parses m a c (some (ps, c'))) :
      Parses m (.alt a b) c (some (ps, c'))
  | altSecond {m : Bool} {a b : Exp ρ} {c : Cursor} {r : Result ρ} (ha : Parses m a c none) (hb : Parses m b c r) :
      Parses m (.alt a b) c r
  | optSome {m : Bool} {a : Exp ρ} {c c' : Cursor} {ps : List (Pair ρ)} (ha : Parses m a c (some (ps, c'))) :
      Parses m (.opt a) c (some (ps, c'))
  | optNone {m : Bool} {a : Exp ρ} {c : Cursor} (ha : Parses m a c none) : Parses m (.opt a) c (some ([], c))
  | starNone {m : Bool} {a : Exp ρ} {c : Cursor} (ha : Parses m a c none) : Parses m (.star a) c (some ([], c))
  | starSome {m : Bool} {a : Exp ρ} {c c₁ c₂ : Cursor} {ps qs : List (Pair ρ)} (ha : Parses m a c (some (ps, c₁)))
      (hmore : Parses m (.more a) c₁ (some (qs, c₂))) : Parses m (.star a) c (some (ps ++ qs, c₂))
  | ban {m : Bool} {a : Exp ρ} {c : Cursor} (ha : Parses m a c none) : Parses m (.ban a) c (some ([], c))
  | banFails {m : Bool} {a : Exp ρ} {c c' : Cursor} {ps : List (Pair ρ)} (ha : Parses m a c (some (ps, c'))) :
      Parses m (.ban a) c none
  | start {m : Bool} {rest : List Char} : Parses m .start ⟨0, rest⟩ (some ([], ⟨0, rest⟩))
  | startFails {m : Bool} {c : Cursor} (h : c.pos ≠ 0) : Parses m .start c none
  | stop {m : Bool} {pos : Nat} : Parses m .stop ⟨pos, []⟩ (some ([], ⟨pos, []⟩))
  | stopFails {m : Bool} {c : Cursor} (h : c.rest ≠ []) : Parses m .stop c none
  | afterAtomic {a : Exp ρ} {c : Cursor} {r : Result ρ} (ha : Parses true a c r) : Parses true (.after a) c r
  | after {a : Exp ρ} {c c₁ : Cursor} {ps : List (Pair ρ)} {r : Result ρ} (hskip : Parses true g.skip c (some (ps, c₁)))
      (ha : Parses false a c₁ r) : Parses false (.after a) c r
  | afterFails {a : Exp ρ} {c : Cursor} (hskip : Parses true g.skip c none) : Parses false (.after a) c none
  | moreNone {m : Bool} {a : Exp ρ} {c : Cursor} (ha : Parses m (.after a) c none) : Parses m (.more a) c (some ([], c))
  | moreSome {m : Bool} {a : Exp ρ} {c c₁ c₂ : Cursor} {ps qs : List (Pair ρ)} (ha : Parses m (.after a) c (some (ps, c₁)))
      (hmore : Parses m (.more a) c₁ (some (qs, c₂))) : Parses m (.more a) c (some (ps ++ qs, c₂))

/-! ## Running -/

/-- Goes on behind a match. -/
def andThen (x : Option (Result ρ)) (f : List (Pair ρ) → Cursor → Option (Result ρ)) : Option (Result ρ) :=
  match x with
  | none                => none
  | some none           => some none
  | some (some (ps, c)) => f ps c

/-- Goes on where nothing matched. -/
def orElse (x : Option (Result ρ)) (y : Unit → Option (Result ρ)) : Option (Result ρ) :=
  match x with
  | none          => none
  | some none     => y ()
  | some (some r) => some (some r)

/-- The meaning of an expression at a cursor, with fuel. -/
def run : Nat → Bool → Exp ρ → Cursor → Option (Result ρ)
  | 0, _, _, _         => none
  | _ + 1, _, .text s, c =>
    some (if s.isPrefixOf c.rest then some ([], ⟨c.pos + s.length, c.rest.drop s.length⟩) else none)
  | _ + 1, _, .one p, c =>
    match c.rest with
    | x :: rest => some (if p x then some ([], ⟨c.pos + 1, rest⟩) else none)
    | []        => some none
  | n + 1, m, .rule r, c =>
    andThen (run n (m || g.isAtomic r) (g.body r) c) fun ps c' => some (some (g.wrap m r c c' ps, c'))
  | n + 1, m, .seq a b, c =>
    andThen (run n m a c) fun ps c₁ => andThen (run n m (.after b) c₁) fun qs c₂ => some (some (ps ++ qs, c₂))
  | n + 1, m, .alt a b, c => orElse (run n m a c) fun _ => run n m b c
  | n + 1, m, .opt a, c   => orElse (run n m a c) fun _ => some (some ([], c))
  | n + 1, m, .star a, c  =>
    match run n m a c with
    | none                 => none
    | some none            => some (some ([], c))
    | some (some (ps, c₁)) => andThen (run n m (.more a) c₁) fun qs c₂ => some (some (ps ++ qs, c₂))
  | n + 1, m, .ban a, c =>
    match run n m a c with
    | none          => none
    | some none     => some (some ([], c))
    | some (some _) => some none
  | _ + 1, _, .start, c => some (if c.pos = 0 then some ([], c) else none)
  | _ + 1, _, .stop, c  => some (if c.rest = [] then some ([], c) else none)
  | n + 1, m, .after a, c =>
    if m then run n m a c else andThen (run n true g.skip c) fun _ c₁ => run n false a c₁
  | n + 1, m, .more a, c =>
    match run n m (.after a) c with
    | none                 => none
    | some none            => some (some ([], c))
    | some (some (ps, c₁)) => andThen (run n m (.more a) c₁) fun qs c₂ => some (some (ps ++ qs, c₂))

end

section
variable {ρ : Type} {g : Grammar ρ}

theorem andThen_eq_some {x : Option (Result ρ)} {f : List (Pair ρ) → Cursor → Option (Result ρ)} {r : Result ρ}
    (h : andThen x f = some r) : (x = some none ∧ r = none) ∨ ∃ ps c, x = some (some (ps, c)) ∧ f ps c = some r := by
  cases x with
  | none => cases h
  | some y =>
    cases y with
    | none => exact .inl ⟨rfl, (Option.some.inj h).symm⟩
    | some z => exact .inr ⟨z.1, z.2, rfl, h⟩

theorem orElse_eq_some {x : Option (Result ρ)} {y : Unit → Option (Result ρ)} {r : Result ρ} (h : orElse x y = some r) :
    (x = some none ∧ y () = some r) ∨ (∃ ps c, x = some (some (ps, c)) ∧ r = some (ps, c)) := by
  cases x with
  | none => cases h
  | some z =>
    cases z with
    | none => exact .inl ⟨rfl, h⟩
    | some z => exact .inr ⟨z.1, z.2, rfl, (Option.some.inj h).symm⟩

theorem run_more_ne (n : Nat) (m : Bool) (a : Exp ρ) (c : Cursor) : run g n m (.more a) c ≠ some none := by
  induction n generalizing c with
  | zero => exact (fun h => by cases h)
  | succ n ih =>
    intro h
    unfold run at h
    split at h
    · cases h
    · cases h
    · rcases andThen_eq_some h with ⟨hmore, -⟩ | ⟨qs, c₂, -, h⟩
      · exact ih _ hmore
      · cases h

/-- An expression means one thing at a cursor. -/
theorem Parses.unique {m : Bool} {e : Exp ρ} {c : Cursor} {r r' : Result ρ} (h : Parses g m e c r) (h' : Parses g m e c r') :
    r = r' := by
  induction h generalizing r' with
  | @text m s rest pos =>
    generalize hc : Cursor.mk pos (s ++ rest) = c at h'
    cases h' with
    | text =>
      obtain ⟨rfl, hrest⟩ := Cursor.mk.inj hc
      rw [List.append_cancel_left hrest]
    | textFails hfails =>
      rw [← hc] at hfails
      exact absurd ⟨rest, rfl⟩ hfails
  | textFails hfails =>
    cases h' with
    | text => exact absurd ⟨_, rfl⟩ hfails
    | textFails => rfl
  | one hp =>
    cases h' with
    | one => rfl
    | oneFails hfails => rw [hfails _ rfl] at hp; cases hp
  | oneFails hfails =>
    cases h' with
    | one hp => rw [hfails _ rfl] at hp; cases hp
    | oneFails => rfl
  | rule _ ih =>
    cases h' with
    | rule h => cases ih h; rfl
    | ruleFails h => cases ih h
  | ruleFails _ ih =>
    cases h' with
    | rule h => cases ih h
    | ruleFails => rfl
  | seq _ _ iha ihb =>
    cases h' with
    | seq ha hb => cases iha ha; cases ihb hb; rfl
    | seqFails ha => cases iha ha
    | seqStops ha hb => cases iha ha; cases ihb hb
  | seqFails _ ih =>
    cases h' with
    | seq ha => cases ih ha
    | seqFails => rfl
    | seqStops => rfl
  | seqStops _ _ iha ihb =>
    cases h' with
    | seq ha hb => cases iha ha; cases ihb hb
    | seqFails => rfl
    | seqStops => rfl
  | altFirst _ ih =>
    cases h' with
    | altFirst ha => exact ih ha
    | altSecond ha => cases ih ha
  | altSecond _ _ iha ihb =>
    cases h' with
    | altFirst ha => cases iha ha
    | altSecond _ hb => exact ihb hb
  | optSome _ ih =>
    cases h' with
    | optSome ha => exact ih ha
    | optNone ha => cases ih ha
  | optNone _ ih =>
    cases h' with
    | optSome ha => cases ih ha
    | optNone => rfl
  | starNone _ ih =>
    cases h' with
    | starNone => rfl
    | starSome ha => cases ih ha
  | starSome _ _ iha ihmore =>
    cases h' with
    | starNone ha => cases iha ha
    | starSome ha hmore => cases iha ha; cases ihmore hmore; rfl
  | ban _ ih =>
    cases h' with
    | ban => rfl
    | banFails ha => cases ih ha
  | banFails _ ih =>
    cases h' with
    | ban ha => cases ih ha
    | banFails => rfl
  | start =>
    cases h' with
    | start => rfl
    | startFails hne => exact absurd rfl hne
  | startFails hne =>
    cases h' with
    | start => exact absurd rfl hne
    | startFails => rfl
  | stop =>
    cases h' with
    | stop => rfl
    | stopFails hne => exact absurd rfl hne
  | stopFails hne =>
    cases h' with
    | stop => exact absurd rfl hne
    | stopFails => rfl
  | afterAtomic _ ih =>
    cases h' with
    | afterAtomic ha => exact ih ha
  | after _ _ ihskip iha =>
    cases h' with
    | after hskip ha => cases ihskip hskip; exact iha ha
    | afterFails hskip => cases ihskip hskip
  | afterFails _ ih =>
    cases h' with
    | after hskip => cases ih hskip
    | afterFails => rfl
  | moreNone _ ih =>
    cases h' with
    | moreNone => rfl
    | moreSome ha => cases ih ha
  | moreSome _ _ iha ihmore =>
    cases h' with
    | moreNone ha => cases iha ha
    | moreSome ha hmore => cases iha ha; cases ihmore hmore; rfl

/-- What a run computes is the meaning. -/
theorem run_sound : ∀ (n : Nat) {m : Bool} {e : Exp ρ} {c : Cursor} {r : Result ρ}, run g n m e c = some r → Parses g m e c r
  | 0, _, _, _, _, h => by cases h
  | n + 1, m, e, c, r, h => by
    cases e with
    | text s =>
      unfold run at h
      split_ifs at h with hs
      · cases h
        obtain ⟨rest, hrest⟩ := List.isPrefixOf_iff_prefix.mp hs
        obtain ⟨pos, chars⟩ := c
        cases hrest
        change Parses g m (.text s) ⟨pos, s ++ rest⟩ (some ([], ⟨pos + s.length, (s ++ rest).drop s.length⟩))
        rw [List.drop_left]
        exact .text
      · cases h
        exact .textFails fun hp => hs (List.isPrefixOf_iff_prefix.mpr hp)
    | one p =>
      obtain ⟨pos, chars⟩ := c
      unfold run at h
      cases chars with
      | nil => cases h; exact .oneFails fun x hx => by cases hx
      | cons x rest =>
        simp only at h
        split_ifs at h with hp
        · cases h; exact .one hp
        · cases h
          refine .oneFails fun y hy => ?_
          cases hy
          exact Bool.eq_false_iff.mpr hp
    | rule k =>
      unfold run at h
      rcases andThen_eq_some h with ⟨hx, rfl⟩ | ⟨ps, c', hx, h⟩
      · exact .ruleFails (run_sound n hx)
      · cases h; exact .rule (run_sound n hx)
    | seq a b =>
      unfold run at h
      rcases andThen_eq_some h with ⟨hx, rfl⟩ | ⟨ps, c₁, hx, h⟩
      · exact .seqFails (run_sound n hx)
      · rcases andThen_eq_some h with ⟨hy, rfl⟩ | ⟨qs, c₂, hy, h⟩
        · exact .seqStops (run_sound n hx) (run_sound n hy)
        · cases h; exact .seq (run_sound n hx) (run_sound n hy)
    | alt a b =>
      unfold run at h
      rcases orElse_eq_some h with ⟨hx, h⟩ | ⟨ps, c', hx, rfl⟩
      · exact .altSecond (run_sound n hx) (run_sound n h)
      · exact .altFirst (run_sound n hx)
    | opt a =>
      unfold run at h
      rcases orElse_eq_some h with ⟨hx, h⟩ | ⟨ps, c', hx, rfl⟩
      · cases h; exact .optNone (run_sound n hx)
      · exact .optSome (run_sound n hx)
    | star a =>
      unfold run at h
      split at h
      · cases h
      · rename_i hx
        cases h; exact .starNone (run_sound n hx)
      · rename_i ps c₁ hx
        rcases andThen_eq_some h with ⟨hy, -⟩ | ⟨qs, c₂, hy, h⟩
        · exact absurd hy (run_more_ne n m a c₁)
        · cases h; exact .starSome (run_sound n hx) (run_sound n hy)
    | ban a =>
      unfold run at h
      split at h
      · cases h
      · rename_i hx
        cases h; exact .ban (run_sound n hx)
      · rename_i hx
        cases h; exact .banFails (run_sound n hx)
    | start =>
      unfold run at h
      obtain ⟨pos, chars⟩ := c
      split_ifs at h with hp
      · cases h
        cases hp
        exact .start
      · cases h; exact .startFails hp
    | stop =>
      unfold run at h
      obtain ⟨pos, chars⟩ := c
      split_ifs at h with hp
      · cases h
        cases hp
        exact .stop
      · cases h; exact .stopFails hp
    | after a =>
      unfold run at h
      cases m with
      | true => exact .afterAtomic (run_sound n h)
      | false =>
        rw [if_neg Bool.false_ne_true] at h
        rcases andThen_eq_some h with ⟨hx, rfl⟩ | ⟨ps, c₁, hx, h⟩
        · exact .afterFails (run_sound n hx)
        · exact .after (run_sound n hx) (run_sound n h)
    | more a =>
      unfold run at h
      split at h
      · cases h
      · rename_i hx
        cases h; exact .moreNone (run_sound n hx)
      · rename_i ps c₁ hx
        rcases andThen_eq_some h with ⟨hy, -⟩ | ⟨qs, c₂, hy, h⟩
        · exact absurd hy (run_more_ne n m a c₁)
        · cases h; exact .moreSome (run_sound n hx) (run_sound n hy)

/-! ## What is read -/

/-- A match reads from the front of what is left. -/
theorem Parses.reads {m : Bool} {e : Exp ρ} {c : Cursor} {r : Result ρ} (h : Parses g m e c r) :
    ∀ ps c', r = some (ps, c') → ∃ s, c.rest = s ++ c'.rest ∧ c'.pos = c.pos + s.length := by
  induction h with
  | text => rintro _ _ ⟨⟩; exact ⟨_, rfl, rfl⟩
  | @one _ _ x => rintro _ _ ⟨⟩; exact ⟨[x], rfl, rfl⟩
  | rule _ ih => rintro _ _ ⟨⟩; exact ih _ _ rfl
  | seq _ _ iha ihb =>
    rintro _ _ ⟨⟩
    obtain ⟨s, hs, hpos⟩ := iha _ _ rfl
    obtain ⟨t, ht, hpos'⟩ := ihb _ _ rfl
    exact ⟨s ++ t, by rw [hs, ht, List.append_assoc], by rw [hpos', hpos, List.length_append, Nat.add_assoc]⟩
  | altFirst _ ih => rintro _ _ ⟨⟩; exact ih _ _ rfl
  | altSecond _ _ _ ih => exact ih
  | optSome _ ih => rintro _ _ ⟨⟩; exact ih _ _ rfl
  | starSome _ _ iha ihb | moreSome _ _ iha ihb =>
    rintro _ _ ⟨⟩
    obtain ⟨s, hs, hpos⟩ := iha _ _ rfl
    obtain ⟨t, ht, hpos'⟩ := ihb _ _ rfl
    exact ⟨s ++ t, by rw [hs, ht, List.append_assoc], by rw [hpos', hpos, List.length_append, Nat.add_assoc]⟩
  | optNone | starNone | ban | start | stop | moreNone => rintro _ _ ⟨⟩; exact ⟨[], rfl, rfl⟩
  | afterAtomic _ ih => exact ih
  | after _ _ ihskip iha =>
    intro ps c' heq
    obtain ⟨s, hs, hpos⟩ := ihskip _ _ rfl
    obtain ⟨t, ht, hpos'⟩ := iha _ _ heq
    exact ⟨s ++ t, by rw [hs, ht, List.append_assoc], by rw [hpos', hpos, List.length_append, Nat.add_assoc]⟩
  | textFails | oneFails | ruleFails | seqFails | seqStops | banFails | startFails | stopFails | afterFails =>
    exact (fun _ _ h => by cases h)

theorem Parses.pos_le {m : Bool} {e : Exp ρ} {c c' : Cursor} {ps : List (Pair ρ)} (h : Parses g m e c (some (ps, c'))) :
    c.pos ≤ c'.pos := by
  obtain ⟨s, -, hpos⟩ := h.reads _ _ rfl
  omega

/-- An expression that may match without reading, when `known` says which rules do. -/
def Exp.nullable (known : ρ → Bool) : Exp ρ → Bool
  | .text s                                            => s.isEmpty
  | .one _                                             => false
  | .rule r                                            => known r
  | .seq a b                                           => a.nullable known && b.nullable known
  | .alt a b                                           => a.nullable known || b.nullable known
  | .opt _ | .star _ | .more _ | .ban _ | .start | .stop => true
  | .after a                                           => a.nullable known

theorem Parses.pos_lt {known : ρ → Bool} (hknown : ∀ r, (g.body r).nullable known = true → known r = true) {m : Bool}
    {e : Exp ρ} {c : Cursor} {r : Result ρ} (h : Parses g m e c r) :
    ∀ ps c', r = some (ps, c') → e.nullable known = false → c.pos < c'.pos := by
  induction h with
  | text =>
    rintro _ _ ⟨⟩ hne
    exact Nat.lt_add_of_pos_right (List.length_pos_iff.mpr (List.isEmpty_eq_false_iff.mp hne))
  | one => rintro _ _ ⟨⟩ -; exact Nat.lt_succ_self _
  | @rule _ r _ _ _ _ ih =>
    rintro _ _ ⟨⟩ hne
    exact ih _ _ rfl (Bool.eq_false_iff.mpr fun hnull => by rw [Exp.nullable, hknown r hnull] at hne; cases hne)
  | seq ha hb iha ihb =>
    rintro _ _ ⟨⟩ hne
    rcases Bool.and_eq_false_iff.mp hne with hne | hne
    · exact Nat.lt_of_lt_of_le (iha _ _ rfl hne) hb.pos_le
    · exact Nat.lt_of_le_of_lt ha.pos_le (ihb _ _ rfl hne)
  | altFirst _ ih => rintro _ _ ⟨⟩ hne; exact ih _ _ rfl (Bool.or_eq_false_iff.mp hne).1
  | altSecond _ _ _ ih => exact fun ps c' heq hne => ih ps c' heq (Bool.or_eq_false_iff.mp hne).2
  | afterAtomic _ ih => exact ih
  | after hskip _ _ ih => exact fun ps c' heq hne => Nat.lt_of_le_of_lt hskip.pos_le (ih ps c' heq hne)
  | optSome | optNone | starNone | starSome | ban | start | stop | moreNone | moreSome => exact (fun _ _ _ hne => by cases hne)
  | textFails | oneFails | ruleFails | seqFails | seqStops | banFails | startFails | stopFails | afterFails =>
    exact (fun _ _ h => by cases h)

/-! ## Every run ends -/

/-- The rules an expression can reach without reading have a rank below `k`; `skip` says so of the skip. -/
def Exp.ranked (rank : ρ → Nat) (known : ρ → Bool) (k : Nat) (skip : Bool) : Exp ρ → Bool
  | .text _ | .one _ | .start | .stop => true
  | .rule r                           => rank r < k
  | .seq a b                          => a.ranked rank known k skip && (!a.nullable known || skip && b.ranked rank known k skip)
  | .alt a b                          => a.ranked rank known k skip && b.ranked rank known k skip
  | .opt a | .star a | .ban a         => a.ranked rank known k skip
  | .after a | .more a                => skip && a.ranked rank known k skip

/-- What is repeated reads. -/
def Exp.solid (known : ρ → Bool) : Exp ρ → Bool
  | .text _ | .one _ | .start | .stop | .rule _ => true
  | .seq a b | .alt a b                         => a.solid known && b.solid known
  | .opt a | .ban a | .after a                  => a.solid known
  | .star a | .more a                           => !a.nullable known && a.solid known

/-- How deep an expression is, when a skip is `skip` deep. -/
def Exp.depth (skip : Nat) : Exp ρ → Nat
  | .text _ | .one _ | .start | .stop | .rule _ => 1
  | .seq a b                                    => a.depth skip + b.depth skip + skip + 2
  | .alt a b                                    => a.depth skip + b.depth skip + 1
  | .opt a | .ban a                             => a.depth skip + 1
  | .star a                                     => a.depth skip + skip + 3
  | .after a                                    => a.depth skip + skip + 1
  | .more a                                     => a.depth skip + skip + 2

/-- A rank for every rule, above the rules it reaches without reading. -/
structure Layering (g : Grammar ρ) where
  known : ρ → Bool
  rank : ρ → Nat
  top : Nat
  width : Nat
  width_pos : 0 < width
  known_body : ∀ r, (g.body r).nullable known = true → known r = true
  rank_lt : ∀ r, rank r < top
  ranked_body : ∀ r, (g.body r).ranked rank known (rank r) (g.skip.ranked rank known (rank r) true) = true
  solid_body : ∀ r, (g.body r).solid known = true
  solid_skip : g.skip.solid known = true
  depth_body : ∀ r, (g.body r).depth (g.skip.depth 0) ≤ width

theorem Exp.ranked_mono {rank : ρ → Nat} {known : ρ → Bool} {k k' : Nat} {skip skip' : Bool} (hk : k ≤ k')
    (hskip : skip = true → skip' = true) {e : Exp ρ} (h : e.ranked rank known k skip = true) :
    e.ranked rank known k' skip' = true := by
  induction e with
  | text | one | start | stop => rfl
  | rule r => exact decide_eq_true (Nat.lt_of_lt_of_le (of_decide_eq_true h) hk)
  | seq a b iha ihb =>
    simp only [Exp.ranked, Bool.and_eq_true, Bool.or_eq_true] at h ⊢
    exact ⟨iha h.1, h.2.imp_right fun h => ⟨hskip h.1, ihb h.2⟩⟩
  | alt a b iha ihb =>
    simp only [Exp.ranked, Bool.and_eq_true] at h ⊢
    exact ⟨iha h.1, ihb h.2⟩
  | opt a ih | star a ih | ban a ih => exact ih h
  | after a ih | more a ih =>
    simp only [Exp.ranked, Bool.and_eq_true] at h ⊢
    exact ⟨hskip h.1, ih h.2⟩

theorem Exp.depth_pos (skip : Nat) (e : Exp ρ) : 0 < e.depth skip := by
  cases e with
  | text | one | start | stop | rule => exact Nat.one_pos
  | seq | alt | opt | ban | after | star | more => exact Nat.succ_pos _

theorem Exp.depth_mono {skip skip' : Nat} (h : skip ≤ skip') (e : Exp ρ) : e.depth skip ≤ e.depth skip' := by
  induction e with
  | text | one | start | stop | rule => exact Nat.le_refl _
  | seq a b iha ihb => simp only [Exp.depth]; omega
  | alt a b iha ihb => simp only [Exp.depth]; omega
  | opt a ih | ban a ih | after a ih | star a ih | more a ih => simp only [Exp.depth]; omega

namespace Layering
variable (L : Layering g)

/-- Behind something read every rule can be reached. -/
theorem ranked_top (e : Exp ρ) : e.ranked L.rank L.known L.top true = true := by
  induction e with
  | text | one | start | stop => rfl
  | rule r => exact decide_eq_true (L.rank_lt r)
  | seq a b iha ihb => simp [Exp.ranked, iha, ihb]
  | alt a b iha ihb => simp [Exp.ranked, iha, ihb]
  | opt a ih | star a ih | ban a ih => exact ih
  | after a ih | more a ih => simp [Exp.ranked, ih]

/-- Whether a skip may be run where rules are below `k`: in an atomic rule none is. -/
def skips (m : Bool) (k : Nat) : Bool := m || g.skip.ranked L.rank L.known k true

theorem skips_top (m : Bool) : L.skips m L.top = true := by
  rw [skips, L.ranked_top, Bool.or_true]

/-- What is enough for a run with `left` characters left, where rules are below `k`. -/
def need (m : Bool) (left k : Nat) (e : Exp ρ) : Nat :=
  (left * (L.top + 1) + k) * L.width + e.depth (if m then 0 else g.skip.depth 0)

theorem need_le {m : Bool} {left left' k k' n : Nat} {e e' : Exp ρ} (h : L.need m left k e ≤ n + 1) (hleft : left' ≤ left)
    (hk : k' ≤ k) (he : e'.depth (if m then 0 else g.skip.depth 0) < e.depth (if m then 0 else g.skip.depth 0)) :
    L.need m left' k' e' ≤ n := by
  unfold need at h ⊢
  have hle := Nat.mul_le_mul_right L.width (Nat.add_le_add (Nat.mul_le_mul_right (L.top + 1) hleft) hk)
  omega

/-- Having read, a run may start over. -/
theorem need_reads {m : Bool} {left left' k n : Nat} {e e' : Exp ρ} (h : L.need m left k e ≤ n + 1) (hleft : left' < left)
    (he : e'.depth (if m then 0 else g.skip.depth 0) ≤ e.depth (if m then 0 else g.skip.depth 0)) :
    L.need m left' L.top e' ≤ n := by
  unfold need at h ⊢
  have hstep : left' * (L.top + 1) + L.top + 1 ≤ left * (L.top + 1) + k := by
    have := Nat.mul_le_mul_right (L.top + 1) (Nat.succ_le_of_lt hleft)
    rw [Nat.succ_mul] at this
    omega
  have hle := Nat.mul_le_mul_right L.width hstep
  rw [Nat.succ_mul] at hle
  have := L.width_pos
  omega

theorem need_rule {m : Bool} {left k n : Nat} {r : ρ} (h : L.need m left k (.rule r) ≤ n + 1) (hrank : L.rank r < k) (m' : Bool) :
    L.need m' left (L.rank r) (g.body r) ≤ n := by
  unfold need at h ⊢
  have hle := Nat.mul_le_mul_right L.width (Nat.add_le_add_left (Nat.succ_le_of_lt hrank) (left * (L.top + 1)))
  rw [Nat.add_succ, Nat.succ_mul] at hle
  have hbody : (g.body r).depth (if m' then 0 else g.skip.depth 0) ≤ L.width := by
    refine Nat.le_trans (Exp.depth_mono ?_ _) (L.depth_body r)
    split <;> omega
  have hone : Exp.depth (if m then 0 else g.skip.depth 0) (.rule r) = 1 := rfl
  omega

end Layering

theorem Parses.left_le {m : Bool} {e : Exp ρ} {c c' : Cursor} {ps : List (Pair ρ)} (h : Parses g m e c (some (ps, c'))) :
    c'.rest.length ≤ c.rest.length := by
  obtain ⟨s, hs, -⟩ := h.reads _ _ rfl
  rw [hs, List.length_append]
  omega

theorem Parses.left_lt (L : Layering g) {m : Bool} {e : Exp ρ} {c c' : Cursor} {ps : List (Pair ρ)}
    (h : Parses g m e c (some (ps, c'))) (hne : e.nullable L.known = false) : c'.rest.length < c.rest.length := by
  obtain ⟨s, hs, hpos⟩ := h.reads _ _ rfl
  have hlt := h.pos_lt L.known_body _ _ rfl hne
  rw [hs, List.length_append]
  omega

theorem andThen_some {x : Option (Result ρ)} {f : List (Pair ρ) → Cursor → Option (Result ρ)} (hx : ∃ r, x = some r)
    (hf : ∀ ps c, x = some (some (ps, c)) → ∃ r, f ps c = some r) : ∃ r, andThen x f = some r := by
  obtain ⟨r, rfl⟩ := hx
  cases r with
  | none => exact ⟨none, rfl⟩
  | some z => exact hf z.1 z.2 rfl

theorem orElse_some {x : Option (Result ρ)} {y : Unit → Option (Result ρ)} (hx : ∃ r, x = some r)
    (hy : ∃ r, y () = some r) : ∃ r, orElse x y = some r := by
  obtain ⟨r, rfl⟩ := hx
  cases r with
  | none => exact hy
  | some z => exact ⟨some z, rfl⟩

/-- **With the fuel it needs a run ends.** -/
theorem run_of_fuel (L : Layering g) : ∀ (n : Nat) {m : Bool} {e : Exp ρ} {c : Cursor} {k : Nat}, e.solid L.known = true →
    e.ranked L.rank L.known k (L.skips m k) = true → L.need m c.rest.length k e ≤ n → ∃ r, run g n m e c = some r
  | 0, m, e, c, k, _, _, hn => by
    have := e.depth_pos (if m then 0 else g.skip.depth 0)
    unfold Layering.need at hn
    omega
  | n + 1, m, e, c, k, hsolid, hranked, hn => by
    cases e with
    | text s => exact ⟨_, rfl⟩
    | one p =>
      unfold run
      split
      · exact ⟨_, rfl⟩
      · exact ⟨_, rfl⟩
    | start => exact ⟨_, rfl⟩
    | stop => exact ⟨_, rfl⟩
    | rule r =>
      unfold run
      have hrank := of_decide_eq_true hranked
      refine andThen_some (run_of_fuel L n (L.solid_body r) ?_ (L.need_rule hn hrank _)) fun _ _ _ => ⟨_, rfl⟩
      exact Exp.ranked_mono (Nat.le_refl _) (fun h => by rw [Layering.skips, h, Bool.or_true]) (L.ranked_body r)
    | seq a b =>
      simp only [Exp.solid, Exp.ranked, Bool.and_eq_true, Bool.or_eq_true, Bool.not_eq_true'] at hsolid hranked
      unfold run
      refine andThen_some (run_of_fuel L n hsolid.1 hranked.1
        (L.need_le hn (Nat.le_refl _) (Nat.le_refl _) (by simp only [Exp.depth]; omega))) fun ps c₁ ha => ?_
      have hp := run_sound n ha
      refine andThen_some ?_ fun _ _ _ => ⟨_, rfl⟩
      have hdepth : Exp.depth (if m then 0 else g.skip.depth 0) (.after b) <
          Exp.depth (if m then 0 else g.skip.depth 0) (.seq a b) := by
        have := a.depth_pos (if m then 0 else g.skip.depth 0)
        simp only [Exp.depth]
        omega
      rcases hranked.2 with hreads | ⟨hskip, hb⟩
      · refine run_of_fuel L n hsolid.2 ?_ (L.need_reads hn (hp.left_lt L hreads) (Nat.le_of_lt hdepth))
        rw [L.skips_top]
        exact L.ranked_top _
      · refine run_of_fuel L n hsolid.2 ?_ (L.need_le hn hp.left_le (Nat.le_refl _) hdepth)
        simp only [Exp.ranked, Bool.and_eq_true]
        exact ⟨hskip, hb⟩
    | alt a b =>
      simp only [Exp.solid, Exp.ranked, Bool.and_eq_true] at hsolid hranked
      unfold run
      refine orElse_some (run_of_fuel L n hsolid.1 hranked.1
        (L.need_le hn (Nat.le_refl _) (Nat.le_refl _) (by simp only [Exp.depth]; omega)))
        (run_of_fuel L n hsolid.2 hranked.2 (L.need_le hn (Nat.le_refl _) (Nat.le_refl _) (by simp only [Exp.depth]; omega)))
    | opt a =>
      unfold run
      exact orElse_some (run_of_fuel L n hsolid hranked
        (L.need_le hn (Nat.le_refl _) (Nat.le_refl _) (by simp only [Exp.depth]; omega))) ⟨_, rfl⟩
    | star a =>
      simp only [Exp.solid, Bool.and_eq_true, Bool.not_eq_true'] at hsolid
      obtain ⟨r, hr⟩ := run_of_fuel L n (c := c) hsolid.2 hranked
        (L.need_le hn (Nat.le_refl _) (Nat.le_refl _) (by simp only [Exp.depth]; omega))
      unfold run
      rw [hr]
      cases r with
      | none => exact ⟨_, rfl⟩
      | some z =>
        refine andThen_some ?_ fun _ _ _ => ⟨_, rfl⟩
        refine run_of_fuel L n (by simp [Exp.solid, hsolid]) ?_ (L.need_reads hn ((run_sound n hr).left_lt L hsolid.1)
          (by simp only [Exp.depth]; omega))
        rw [L.skips_top]
        exact L.ranked_top _
    | ban a =>
      obtain ⟨r, hr⟩ := run_of_fuel L n (e := a) (c := c) hsolid hranked
        (L.need_le hn (Nat.le_refl _) (Nat.le_refl _) (by simp only [Exp.depth]; omega))
      unfold run
      rw [hr]
      cases r with
      | none => exact ⟨_, rfl⟩
      | some z => exact ⟨_, rfl⟩
    | after a =>
      simp only [Exp.ranked, Bool.and_eq_true] at hranked
      unfold run
      cases m with
      | true =>
        rw [if_pos rfl]
        exact run_of_fuel L n hsolid hranked.2 (L.need_le hn (Nat.le_refl _) (Nat.le_refl _) (by simp only [Exp.depth]; omega))
      | false =>
        rw [if_neg Bool.false_ne_true]
        have hskip : L.need true c.rest.length k g.skip ≤ n := by
          have := a.depth_pos (g.skip.depth 0)
          simp only [Layering.need, Exp.depth, Bool.false_eq_true, if_false, if_true] at hn ⊢
          omega
        refine andThen_some (run_of_fuel L n L.solid_skip ?_ hskip) fun ps c₁ hs => ?_
        · exact hranked.1
        · exact run_of_fuel L n hsolid hranked.2
            (L.need_le hn (run_sound n hs).left_le (Nat.le_refl _) (by simp only [Exp.depth]; omega))
    | more a =>
      obtain ⟨r, hr⟩ := run_of_fuel L n (c := c) (e := .after a) (by simp [Exp.solid] at hsolid; exact hsolid.2) hranked
        (L.need_le hn (Nat.le_refl _) (Nat.le_refl _) (by simp only [Exp.depth]; omega))
      simp only [Exp.solid, Bool.and_eq_true, Bool.not_eq_true'] at hsolid
      unfold run
      rw [hr]
      cases r with
      | none => exact ⟨_, rfl⟩
      | some z =>
        refine andThen_some ?_ fun _ _ _ => ⟨_, rfl⟩
        refine run_of_fuel L n (by simp [Exp.solid, hsolid]) ?_ (L.need_reads hn ((run_sound n hr).left_lt L hsolid.1)
          (Nat.le_refl _))
        rw [L.skips_top]
        exact L.ranked_top _

/-- A grammar's parse of a text, from a rule: the pairs, where there is a match. -/
def parse (L : Layering g) (r : ρ) (input : List Char) : Option (List (Pair ρ)) :=
  ((run g (L.need false input.length L.top (.rule r)) false (.rule r) ⟨0, input⟩).join).map (·.1)

/-- The fuel of `parse` is enough. -/
theorem parse_run (L : Layering g) (r : ρ) (input : List Char) :
    ∃ res, run g (L.need false input.length L.top (.rule r)) false (.rule r) ⟨0, input⟩ = some res := by
  refine run_of_fuel L _ rfl ?_ (Nat.le_refl _)
  rw [L.skips_top]
  exact L.ranked_top _

/-- `parse` gives what the expression means. -/
theorem parse_of_parses {L : Layering g} {r : ρ} {input : List Char} {res : Result ρ}
    (h : Parses g false (.rule r) ⟨0, input⟩ res) : parse L r input = res.map (·.1) := by
  obtain ⟨res', hres⟩ := parse_run L r input
  rw [parse, hres, (run_sound _ hres).unique h]
  rfl

theorem parse_eq_some {L : Layering g} {r : ρ} {input : List Char} {ps : List (Pair ρ)} (h : parse L r input = some ps) :
    ∃ c, Parses g false (.rule r) ⟨0, input⟩ (some (ps, c)) := by
  obtain ⟨res, hres⟩ := parse_run L r input
  unfold parse at h
  rw [hres] at h
  cases res with
  | none => cases h
  | some z =>
    cases h
    exact ⟨z.2, run_sound _ hres⟩

end

end Peg
end Syllog
