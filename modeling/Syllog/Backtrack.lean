import Mathlib.Data.List.Basic
/-!
# Backtrack — depth-first search with a table of failed states

A problem says what a state is: done, refused, or a list of ways to go on.  `search` tries the ways in order, goes to the next
one after an error that can be retried, stops at any other, and remembers the states that failed under their key.
`explore` is the same search without the table, and `search_explores` says that the table is invisible when states with one
key are bisimilar.  The other rules are about `explore`: an invariant holds where it ends, a state with a way to a solution is
never given up, and two problems that agree explore alike.
-/
namespace Syllog
namespace Backtrack

/-- What to do at a state. -/
inductive Node (σ ρ ε : Type) where
  /-- A solution. -/
  | done (result : ρ)
  /-- No way on; the table may remember it. -/
  | refuse (error : ε) (remember : Bool)
  /-- Ways to go on, each a state or an error that ends the search, and the error when there are none. -/
  | branch (ways : List (Except ε σ)) (fallback : ε)

structure Problem (σ κ ρ ε : Type) where
  key : σ → κ
  node : σ → Node σ ρ ε
  /-- The error lets the search go on with the next way. -/
  retry : ε → Bool

abbrev Memo (κ ε : Type) := List (κ × ε)

section
variable {σ κ ρ ε : Type}

/-- Tries the ways in order; `last` is the error of the way before. -/
def tryEach (retry : ε → Bool) (recurse : σ → Memo κ ε → Option (Except ε ρ × Memo κ ε)) (k : κ) :
    ε → List (Except ε σ) → Memo κ ε → Option (Except ε ρ × Memo κ ε)
  | last, [], memo             => some (.error last, (k, last) :: memo)
  | _, .error e :: _, memo     => some (.error e, memo)
  | _, .ok s :: ways, memo     =>
    match recurse s memo with
    | none                  => none
    | some (.ok r, memo)    => some (.ok r, memo)
    | some (.error e, memo) => if retry e then tryEach retry recurse k e ways memo else some (.error e, memo)

def search [DecidableEq κ] (P : Problem σ κ ρ ε) : Nat → σ → Memo κ ε → Option (Except ε ρ × Memo κ ε)
  | 0, _, _        => none
  | n + 1, s, memo =>
    match memo.lookup (P.key s) with
    | some e => some (.error e, memo)
    | none   =>
      match P.node s with
      | .done r             => some (.ok r, memo)
      | .refuse e remember  => some (.error e, if remember then (P.key s, e) :: memo else memo)
      | .branch ways fallback => tryEach P.retry (search P n) (P.key s) fallback ways memo

/-! ## Without the table -/

def exploreEach (retry : ε → Bool) (recurse : σ → Option (Except ε ρ)) :
    ε → List (Except ε σ) → Option (Except ε ρ)
  | last, []         => some (.error last)
  | _, .error e :: _ => some (.error e)
  | _, .ok s :: ways =>
    match recurse s with
    | none            => none
    | some (.ok r)    => some (.ok r)
    | some (.error e) => if retry e then exploreEach retry recurse e ways else some (.error e)

def explore (P : Problem σ κ ρ ε) : Nat → σ → Option (Except ε ρ)
  | 0, _     => none
  | n + 1, s =>
    match P.node s with
    | .done r               => some (.ok r)
    | .refuse e _           => some (.error e)
    | .branch ways fallback => exploreEach P.retry (explore P n) fallback ways

/-- Some budget is enough for this outcome. -/
def Explores (P : Problem σ κ ρ ε) (s : σ) (o : Except ε ρ) : Prop := ∃ n, explore P n s = some o

variable {P : Problem σ κ ρ ε} {retry : ε → Bool} {recurse recurse' : σ → Option (Except ε ρ)}

theorem exploreEach_mono (h : ∀ s o, recurse s = some o → recurse' s = some o) : ∀ (ways : List (Except ε σ)) (last : ε)
    (o : Except ε ρ), exploreEach retry recurse last ways = some o → exploreEach retry recurse' last ways = some o
  | [], _, _, ho => ho
  | .error _ :: _, _, _, ho => ho
  | .ok s :: ways, last, o, ho => by
    unfold exploreEach at ho ⊢
    cases hs : recurse s with
    | none => simp [hs] at ho
    | some o' =>
      rw [hs] at ho
      rw [h s o' hs]
      cases o' with
      | ok r => exact ho
      | error e =>
        by_cases he : retry e = true
        · simp only [if_pos he] at ho ⊢
          exact exploreEach_mono h ways e o ho
        · simp only [if_neg he] at ho ⊢
          exact ho

theorem explore_mono_succ : ∀ (n : Nat) (s : σ) (o : Except ε ρ), explore P n s = some o → explore P (n + 1) s = some o
  | 0, _, _, h => by cases h
  | n + 1, s, o, h => by
    unfold explore at h ⊢
    cases hs : P.node s with
    | done r => simpa [hs] using h
    | refuse e remember => simpa [hs] using h
    | branch ways fallback =>
      simp only [hs] at h ⊢
      exact exploreEach_mono (explore_mono_succ n) ways fallback o h

theorem explore_mono {n m : Nat} (hle : n ≤ m) {s : σ} {o : Except ε ρ} (h : explore P n s = some o) :
    explore P m s = some o := by
  induction hle with
  | refl => exact h
  | step _ ih => exact explore_mono_succ _ s o ih

/-- **One outcome**: two budgets that are enough give the same. -/
theorem Explores.unique {s : σ} {o o' : Except ε ρ} (h : Explores P s o) (h' : Explores P s o') : o = o' := by
  obtain ⟨n, hn⟩ := h
  obtain ⟨m, hm⟩ := h'
  have h1 := explore_mono (Nat.le_max_left n m) hn
  have h2 := explore_mono (Nat.le_max_right n m) hm
  rw [h1] at h2
  exact Option.some.inj h2

/-! ## What trying the ways comes to -/

theorem exploreEach_ok {r : ρ} : ∀ {ways : List (Except ε σ)} {last : ε},
    exploreEach retry recurse last ways = some (.ok r) → ∃ s, .ok s ∈ ways ∧ recurse s = some (.ok r)
  | [], _, h => by cases h
  | .error _ :: _, _, h => by cases h
  | .ok s :: ways, last, h => by
    unfold exploreEach at h
    cases hs : recurse s with
    | none => simp [hs] at h
    | some o =>
      rw [hs] at h
      cases o with
      | ok r' =>
        cases h
        exact ⟨s, List.mem_cons_self, hs⟩
      | error e =>
        by_cases he : retry e = true
        · simp only [if_pos he] at h
          obtain ⟨t, ht, hr⟩ := exploreEach_ok h
          exact ⟨t, List.mem_cons_of_mem _ ht, hr⟩
        · simp [if_neg he] at h

/-- An error comes from a way, or from the last one before there were no more. -/
theorem exploreEach_error {e : ε} : ∀ {ways : List (Except ε σ)} {last : ε},
    exploreEach retry recurse last ways = some (.error e) →
      e = last ∨ .error e ∈ ways ∨ ∃ s, .ok s ∈ ways ∧ recurse s = some (.error e)
  | [], _, h => by
    cases h
    exact .inl rfl
  | .error _ :: _, _, h => by
    cases h
    exact .inr (.inl List.mem_cons_self)
  | .ok s :: ways, last, h => by
    unfold exploreEach at h
    cases hs : recurse s with
    | none => simp [hs] at h
    | some o =>
      rw [hs] at h
      cases o with
      | ok r' => cases h
      | error e' =>
        by_cases he : retry e' = true
        · simp only [if_pos he] at h
          rcases exploreEach_error h with rfl | hmem | ⟨t, ht, hr⟩
          · exact .inr (.inr ⟨s, List.mem_cons_self, hs⟩)
          · exact .inr (.inl (List.mem_cons_of_mem _ hmem))
          · exact .inr (.inr ⟨t, List.mem_cons_of_mem _ ht, hr⟩)
        · simp only [if_neg he] at h
          cases h
          exact .inr (.inr ⟨s, List.mem_cons_self, hs⟩)

/-- An error that can be retried is there only after every way failed so. -/
theorem exploreEach_retry {e : ε} (he : retry e = true) : ∀ {ways : List (Except ε σ)} {last : ε},
    (∀ e', .error e' ∈ ways → retry e' = false) → exploreEach retry recurse last ways = some (.error e) →
      ∀ s, .ok s ∈ ways → ∃ e', recurse s = some (.error e') ∧ retry e' = true
  | [], _, _, _ => fun s hs => by cases hs
  | .error e' :: ways, _, herror, h => by
    cases h
    rw [herror e List.mem_cons_self] at he
    cases he
  | .ok t :: ways, last, herror, h => by
    intro s hmem
    unfold exploreEach at h
    cases ht : recurse t with
    | none => simp [ht] at h
    | some o =>
      rw [ht] at h
      cases o with
      | ok r' => cases h
      | error e' =>
        by_cases he' : retry e' = true
        · simp only [if_pos he'] at h
          rcases List.mem_cons.mp hmem with heq | hmem
          · cases heq
            exact ⟨e', ht, he'⟩
          · exact exploreEach_retry he (fun x hx => herror x (List.mem_cons_of_mem _ hx)) h s hmem
        · simp only [if_neg he'] at h
          cases h
          exact absurd he he'

/-! ## Rules -/

/-- The ways of a problem keep the invariant. -/
def Keeps (P : Problem σ κ ρ ε) (I : σ → Prop) : Prop :=
  ∀ s ways fallback s', I s → P.node s = .branch ways fallback → .ok s' ∈ ways → I s'

/-- **Soundness**: a solution is found at a state that satisfies the invariant. -/
theorem explore_sound {I : σ → Prop} (hkeeps : Keeps P I) : ∀ (n : Nat) (s : σ) (r : ρ), I s →
    explore P n s = some (.ok r) → ∃ t, I t ∧ P.node t = .done r
  | 0, _, _, _, h => by cases h
  | n + 1, s, r, hs, h => by
    unfold explore at h
    cases hnode : P.node s with
    | done r' =>
      simp only [hnode, Option.some.injEq, Except.ok.injEq] at h
      exact ⟨s, hs, h ▸ hnode⟩
    | refuse e remember => simp [hnode] at h
    | branch ways fallback =>
      simp only [hnode] at h
      obtain ⟨t, ht, hr⟩ := exploreEach_ok h
      exact explore_sound hkeeps n t r (hkeeps s ways fallback t hs hnode ht) hr

/-- **Errors**: they are those of the nodes the search comes to. -/
theorem explore_errors {I : σ → Prop} {E : ε → Prop} (hkeeps : Keeps P I)
    (hrefuse : ∀ s e remember, I s → P.node s = .refuse e remember → E e)
    (hbranch : ∀ s ways fallback, I s → P.node s = .branch ways fallback → E fallback ∧ ∀ e, .error e ∈ ways → E e) :
    ∀ (n : Nat) (s : σ) (e : ε), I s → explore P n s = some (.error e) → E e
  | 0, _, _, _, h => by cases h
  | n + 1, s, e, hs, h => by
    unfold explore at h
    cases hnode : P.node s with
    | done r => simp [hnode] at h
    | refuse e' remember =>
      simp only [hnode, Option.some.injEq, Except.error.injEq] at h
      exact h ▸ hrefuse s e' remember hs hnode
    | branch ways fallback =>
      simp only [hnode] at h
      obtain ⟨hfallback, herror⟩ := hbranch s ways fallback hs hnode
      rcases exploreEach_error h with rfl | hmem | ⟨t, ht, hr⟩
      · exact hfallback
      · exact herror e hmem
      · exact explore_errors hkeeps hrefuse hbranch n t e (hkeeps s ways fallback t hs hnode ht) hr

/-- **Completeness**: where every good state is done, or has a good state among its ways, a good state is not given up for
an error that can be retried. -/
theorem explore_complete {G : σ → Prop}
    (hrefuse : ∀ s e remember, G s → P.node s = .refuse e remember → P.retry e = false)
    (hbranch : ∀ s ways fallback, G s → P.node s = .branch ways fallback →
      (∀ e, .error e ∈ ways → P.retry e = false) ∧ ∃ s', .ok s' ∈ ways ∧ G s') :
    ∀ (n : Nat) (s : σ) (e : ε), G s → explore P n s = some (.error e) → P.retry e = false
  | 0, _, _, _, h => by cases h
  | n + 1, s, e, hs, h => by
    unfold explore at h
    cases hnode : P.node s with
    | done r => simp [hnode] at h
    | refuse e' remember =>
      simp only [hnode, Option.some.injEq, Except.error.injEq] at h
      exact h ▸ hrefuse s e' remember hs hnode
    | branch ways fallback =>
      simp only [hnode] at h
      obtain ⟨herror, t, ht, hgt⟩ := hbranch s ways fallback hs hnode
      cases he : P.retry e with
      | false => rfl
      | true =>
        obtain ⟨e', hr, he'⟩ := exploreEach_retry he herror h t ht
        rw [explore_complete hrefuse hbranch n t e' hgt hr] at he'
        cases he'

/-! ## Two problems -/

/-- **Refinement**: where the first problem does what the second does, or refuses with an error of `E` that cannot be
retried, it explores as the second does, or ends with such an error. -/
theorem explore_refines {κ' : Type} {Q : Problem σ κ' ρ ε} {E : ε → Prop} (hretry : P.retry = Q.retry)
    (hE : ∀ e, E e → P.retry e = false)
    (hnode : ∀ s, P.node s = Q.node s ∨ ∃ e remember, P.node s = .refuse e remember ∧ E e) : ∀ (n : Nat) (s : σ),
      explore P n s = explore Q n s ∨ ∃ e, E e ∧ explore P n s = some (.error e) := by
  intro n
  induction n with
  | zero => exact fun _ => .inl rfl
  | succ n ih =>
    -- the same for a list of ways
    have heach : ∀ (ways : List (Except ε σ)) (last : ε),
        exploreEach P.retry (explore P n) last ways = exploreEach Q.retry (explore Q n) last ways ∨
          ∃ e, E e ∧ exploreEach P.retry (explore P n) last ways = some (.error e) := by
      intro ways
      induction ways with
      | nil => exact fun _ => .inl rfl
      | cons way ways ihways =>
        intro last
        cases way with
        | error e => exact .inl rfl
        | ok t =>
          rcases ih t with heq | ⟨e, he, hr⟩
          · unfold exploreEach
            rw [heq]
            cases ht : explore Q n t with
            | none => exact .inl rfl
            | some o =>
              cases o with
              | ok r => exact .inl rfl
              | error e =>
                rw [← hretry]
                by_cases he : P.retry e = true
                · simp only [if_pos he]
                  rw [hretry] at ihways ⊢
                  exact ihways e
                · exact .inl (by simp only [if_neg he])
          · refine .inr ⟨e, he, ?_⟩
            unfold exploreEach
            rw [hr]
            simp [hE e he]
    intro s
    rcases hnode s with heq | ⟨e, remember, hrefuse, he⟩
    · unfold explore
      rw [heq]
      cases Q.node s with
      | done r => exact .inl rfl
      | refuse e remember => exact .inl rfl
      | branch ways fallback => exact heach ways fallback
    · exact .inr ⟨e, he, by simp [explore, hrefuse]⟩

/-! ## The table -/

/-- Two ways that lead to related states, or to the same error. -/
def SimilarWay (R : σ → σ → Prop) : Except ε σ → Except ε σ → Prop
  | .ok s, .ok s'       => R s s'
  | .error e, .error e' => e = e'
  | _, _                => False

/-- Two nodes that do the same, up to the states they go on to. -/
def Similar (R : σ → σ → Prop) : Node σ ρ ε → Node σ ρ ε → Prop
  | .done r, .done r'                     => r = r'
  | .refuse e _, .refuse e' _             => e = e'
  | .branch ways e, .branch ways' e'      => e = e' ∧ List.Forall₂ (SimilarWay R) ways ways'
  | _, _                                  => False

theorem exploreEach_similar {R : σ → σ → Prop} (h : ∀ s s', R s s' → recurse s = recurse s') {ways ways' : List (Except ε σ)}
    (hways : List.Forall₂ (SimilarWay R) ways ways') : ∀ last : ε,
      exploreEach retry recurse last ways = exploreEach retry recurse last ways' := by
  induction hways with
  | nil => exact fun _ => rfl
  | @cons way way' ways ways' hway _ ih =>
    intro last
    cases way with
    | error e =>
      cases way' with
      | error e' =>
        cases hway
        rfl
      | ok s' => exact hway.elim
    | ok s =>
      cases way' with
      | error e' => exact hway.elim
      | ok s' =>
        unfold exploreEach
        rw [h s s' hway]
        cases recurse s' with
        | none => rfl
        | some o =>
          cases o with
          | ok r => rfl
          | error e => simp only [ih e]

/-- **Bisimilar states explore alike.** -/
theorem explore_similar {R : σ → σ → Prop} (hR : ∀ s s', R s s' → Similar R (P.node s) (P.node s')) : ∀ (n : Nat) (s s' : σ),
    R s s' → explore P n s = explore P n s'
  | 0, _, _, _ => rfl
  | n + 1, s, s', h => by
    have hsimilar := hR s s' h
    unfold explore
    cases hs : P.node s with
    | done r =>
      cases hs' : P.node s' with
      | done r' =>
        rw [hs, hs'] at hsimilar
        cases hsimilar
        rfl
      | refuse e' remember' => rw [hs, hs'] at hsimilar; exact hsimilar.elim
      | branch ways' fallback' => rw [hs, hs'] at hsimilar; exact hsimilar.elim
    | refuse e remember =>
      cases hs' : P.node s' with
      | done r' => rw [hs, hs'] at hsimilar; exact hsimilar.elim
      | refuse e' remember' =>
        rw [hs, hs'] at hsimilar
        cases hsimilar
        rfl
      | branch ways' fallback' => rw [hs, hs'] at hsimilar; exact hsimilar.elim
    | branch ways fallback =>
      cases hs' : P.node s' with
      | done r' => rw [hs, hs'] at hsimilar; exact hsimilar.elim
      | refuse e' remember' => rw [hs, hs'] at hsimilar; exact hsimilar.elim
      | branch ways' fallback' =>
        rw [hs, hs'] at hsimilar
        obtain ⟨rfl, hways⟩ := hsimilar
        exact exploreEach_similar (explore_similar hR n) hways fallback

/-- What the table remembers of a state is how its exploration ends. -/
def Remembers (P : Problem σ κ ρ ε) (I : σ → Prop) (memo : Memo κ ε) : Prop :=
  ∀ k e, (k, e) ∈ memo → ∀ s, I s → P.key s = k → Explores P s (.error e)

section
variable {I : σ → Prop} {R : σ → σ → Prop}

theorem Remembers.cons {memo : Memo κ ε} {s : σ} {e : ε} (hmemo : Remembers P I memo)
    (hR : ∀ s s', R s s' → Similar R (P.node s) (P.node s'))
    (hkey : ∀ s s', I s → I s' → P.key s = P.key s' → R s s') (hs : I s) (h : Explores P s (.error e)) :
    Remembers P I ((P.key s, e) :: memo) := by
  intro k e' hmem t ht hk
  rcases List.mem_cons.mp hmem with heq | hmem
  · cases heq
    obtain ⟨n, hn⟩ := h
    exact ⟨n, by rw [explore_similar hR n t s (hkey t s ht hs hk), hn]⟩
  · exact hmemo k e' hmem t ht hk

/-- The ways are tried as without the table; a new entry is the one of their state. -/
theorem tryEach_explores {find : σ → Memo κ ε → Option (Except ε ρ × Memo κ ε)} (k : κ)
    (hfind : ∀ s memo o memo', I s → Remembers P I memo → find s memo = some (o, memo') →
      Explores P s o ∧ Remembers P I memo') : ∀ (ways : List (Except ε σ)) (last : ε) (memo : Memo κ ε) (o : Except ε ρ)
      (memo' : Memo κ ε), (∀ s, .ok s ∈ ways → I s) → Remembers P I memo →
        tryEach P.retry find k last ways memo = some (o, memo') →
          (∃ n, exploreEach P.retry (explore P n) last ways = some o) ∧
          (Remembers P I memo' ∨ ∃ e memo'', o = .error e ∧ memo' = (k, e) :: memo'' ∧ Remembers P I memo'')
  | [], last, memo, o, memo', _, hmemo, h => by
    cases h
    exact ⟨⟨0, rfl⟩, .inr ⟨last, memo, rfl, rfl, hmemo⟩⟩
  | .error e :: ways, last, memo, o, memo', _, hmemo, h => by
    cases h
    exact ⟨⟨0, rfl⟩, .inl hmemo⟩
  | .ok s :: ways, last, memo, o, memo', hI, hmemo, h => by
    unfold tryEach at h
    cases hs : find s memo with
    | none => simp [hs] at h
    | some found =>
      obtain ⟨o1, memo1⟩ := found
      obtain ⟨⟨n, hn⟩, hmemo1⟩ := hfind s memo o1 memo1 (hI s List.mem_cons_self) hmemo hs
      cases o1 with
      | ok r =>
        simp only [hs] at h
        cases h
        exact ⟨⟨n, by simp [exploreEach, hn]⟩, .inl hmemo1⟩
      | error e =>
        by_cases he : P.retry e = true
        · simp only [hs, if_pos he] at h
          obtain ⟨⟨m, hm⟩, hrest⟩ := tryEach_explores k hfind ways e memo1 o memo'
            (fun t ht => hI t (List.mem_cons_of_mem _ ht)) hmemo1 h
          refine ⟨⟨max n m, ?_⟩, hrest⟩
          unfold exploreEach
          rw [explore_mono (Nat.le_max_left n m) hn]
          simp only [if_pos he]
          exact exploreEach_mono (fun t o ht => explore_mono (Nat.le_max_right n m) ht) ways e o hm
        · simp only [hs, if_neg he] at h
          cases h
          exact ⟨⟨n, by simp [exploreEach, hn, he]⟩, .inl hmemo1⟩

/-- **The table is invisible**: the search ends as the exploration without it does, and what it remembers stays true. -/
theorem search_explores [DecidableEq κ] (hkeeps : Keeps P I) (hR : ∀ s s', R s s' → Similar R (P.node s) (P.node s'))
    (hkey : ∀ s s', I s → I s' → P.key s = P.key s' → R s s') : ∀ (n : Nat) (s : σ) (memo : Memo κ ε) (o : Except ε ρ)
      (memo' : Memo κ ε), I s → Remembers P I memo → search P n s memo = some (o, memo') →
        Explores P s o ∧ Remembers P I memo'
  | 0, _, _, _, _, _, _, h => by cases h
  | n + 1, s, memo, o, memo', hs, hmemo, h => by
    unfold search at h
    cases hlookup : memo.lookup (P.key s) with
    | some e =>
      simp only [hlookup] at h
      cases h
      obtain ⟨l₁, l₂, hmem, _⟩ := List.lookup_eq_some_iff.mp hlookup
      exact ⟨hmemo (P.key s) e (by rw [hmem]; simp) s hs rfl, hmemo⟩
    | none =>
      simp only [hlookup] at h
      cases hnode : P.node s with
      | done r =>
        simp only [hnode] at h
        cases h
        exact ⟨⟨1, by simp [explore, hnode]⟩, hmemo⟩
      | refuse e remember =>
        have hexplores : Explores P s (.error e) := ⟨1, by simp [explore, hnode]⟩
        simp only [hnode] at h
        cases h
        refine ⟨hexplores, ?_⟩
        cases remember with
        | true => exact hmemo.cons hR hkey hs hexplores
        | false => exact hmemo
      | branch ways fallback =>
        simp only [hnode] at h
        obtain ⟨⟨m, hm⟩, hrest⟩ := tryEach_explores (P.key s)
          (fun t memo o memo' ht hmemo h => search_explores hkeeps hR hkey n t memo o memo' ht hmemo h) ways fallback memo o
          memo' (fun t ht => hkeeps s ways fallback t hs hnode ht) hmemo h
        have hexplores : Explores P s o := ⟨m + 1, by simp [explore, hnode, hm]⟩
        refine ⟨hexplores, ?_⟩
        rcases hrest with hmemo' | ⟨e, memo'', rfl, rfl, hmemo''⟩
        · exact hmemo'
        · exact hmemo''.cons hR hkey hs hexplores

/-- **The table costs nothing**: a budget that is enough without it is enough with it, for the same outcome. -/
theorem explore_searches [DecidableEq κ] (hkeeps : Keeps P I) (hR : ∀ s s', R s s' → Similar R (P.node s) (P.node s'))
    (hkey : ∀ s s', I s → I s' → P.key s = P.key s' → R s s') : ∀ (n : Nat) (s : σ) (memo : Memo κ ε) (o : Except ε ρ),
      I s → Remembers P I memo → explore P n s = some o → ∃ memo', search P n s memo = some (o, memo')
  | 0, _, _, _, _, _, h => by cases h
  | n + 1, s, memo, o, hs, hmemo, h => by
    unfold search
    cases hlookup : memo.lookup (P.key s) with
    | some e =>
      obtain ⟨l₁, l₂, hmem, _⟩ := List.lookup_eq_some_iff.mp hlookup
      have hend := hmemo (P.key s) e (by rw [hmem]; simp) s hs rfl
      have heq : Except.error e = o := hend.unique ⟨n + 1, h⟩
      subst heq
      exact ⟨memo, rfl⟩
    | none =>
      unfold explore at h
      cases hnode : P.node s with
      | done r =>
        simp only [hnode] at h
        cases h
        exact ⟨memo, rfl⟩
      | refuse e remember =>
        simp only [hnode] at h
        cases h
        exact ⟨_, rfl⟩
      | branch ways fallback =>
        simp only [hnode] at h
        have hways : ∀ t, .ok t ∈ ways → I t := fun t ht => hkeeps s ways fallback t hs hnode ht
        clear hnode hlookup
        show ∃ memo', tryEach P.retry (search P n) (P.key s) fallback ways memo = some (o, memo')
        -- the ways are tried one for one, and each leaves a table that is true
        induction ways generalizing fallback memo with
        | nil =>
          cases h
          exact ⟨_, rfl⟩
        | cons way ways ih =>
          cases way with
          | error e =>
            cases h
            exact ⟨_, rfl⟩
          | ok t =>
            unfold exploreEach at h
            cases ht : explore P n t with
            | none => simp [ht] at h
            | some o1 =>
              have hIt := hways t List.mem_cons_self
              obtain ⟨memo1, hfound⟩ := explore_searches hkeeps hR hkey n t memo o1 hIt hmemo ht
              have hmemo1 := (search_explores hkeeps hR hkey n t memo o1 memo1 hIt hmemo hfound).2
              unfold tryEach
              rw [hfound]
              rw [ht] at h
              cases o1 with
              | ok r =>
                cases h
                exact ⟨_, rfl⟩
              | error e =>
                by_cases he : P.retry e = true
                · simp only [if_pos he] at h ⊢
                  exact ih memo1 hmemo1 e h fun u hu => hways u (List.mem_cons_of_mem _ hu)
                · simp only [if_neg he] at h ⊢
                  cases h
                  exact ⟨_, rfl⟩

/-- **Termination**: where every way lowers a measure, a budget above it is enough. -/
theorem search_total [DecidableEq κ] (hkeeps : Keeps P I) {μ : σ → Nat}
    (hμ : ∀ s ways fallback s', I s → P.node s = .branch ways fallback → .ok s' ∈ ways → μ s' < μ s) : ∀ (n : Nat) (s : σ)
      (memo : Memo κ ε), I s → μ s < n → ∃ o memo', search P n s memo = some (o, memo')
  | 0, _, _, _, h => by omega
  | n + 1, s, memo, hs, hlt => by
    unfold search
    cases memo.lookup (P.key s) with
    | some e => exact ⟨_, _, rfl⟩
    | none =>
      cases hnode : P.node s with
      | done r => exact ⟨_, _, rfl⟩
      | refuse e remember => exact ⟨_, _, rfl⟩
      | branch ways fallback =>
        have hways : ∀ t, .ok t ∈ ways → I t ∧ μ t < n := by
          intro t ht
          have hlower := hμ s ways fallback t hs hnode ht
          exact ⟨hkeeps s ways fallback t hs hnode ht, by omega⟩
        clear hnode
        show ∃ o memo', tryEach P.retry (search P n) (P.key s) fallback ways memo = some (o, memo')
        induction ways generalizing fallback memo with
        | nil => exact ⟨_, _, rfl⟩
        | cons way ways ih =>
          cases way with
          | error e => exact ⟨_, _, rfl⟩
          | ok t =>
            obtain ⟨hIt, hμt⟩ := hways t List.mem_cons_self
            obtain ⟨o, memo1, hfound⟩ := search_total hkeeps hμ n t memo hIt hμt
            unfold tryEach
            rw [hfound]
            cases o with
            | ok r => exact ⟨_, _, rfl⟩
            | error e =>
              by_cases he : P.retry e = true
              · simp only [if_pos he]
                exact ih memo1 e fun u hu => hways u (List.mem_cons_of_mem _ hu)
              · simp only [if_neg he]
                exact ⟨_, _, rfl⟩

end

end

end Backtrack
end Syllog
