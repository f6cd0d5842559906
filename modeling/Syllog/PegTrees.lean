import Syllog.Peg
/-!
# PegTrees — the trees a grammar builds

What can be said of the pairs of a match from the grammar alone: which rules they have, in which order, that they lie one
behind the other in the text, and how the text of an atomic one is spelt.
-/
namespace Syllog
namespace Peg

section
variable {ρ : Type} (g : Grammar ρ) (known : ρ → Bool)

/-- The texts an expression may match in an atomic rule. -/
inductive Spells : Exp ρ → List Char → Prop
  | text {s : List Char} : Spells (.text s) s
  | one {p : Char → Bool} {x : Char} (h : p x = true) : Spells (.one p) [x]
  | rule {r : ρ} {s : List Char} (h : Spells (g.body r) s) : Spells (.rule r) s
  | seq {a b : Exp ρ} {s t : List Char} (ha : Spells a s) (hb : Spells b t) : Spells (.seq a b) (s ++ t)
  | altFirst {a b : Exp ρ} {s : List Char} (h : Spells a s) : Spells (.alt a b) s
  | altSecond {a b : Exp ρ} {s : List Char} (h : Spells b s) : Spells (.alt a b) s
  | optSome {a : Exp ρ} {s : List Char} (h : Spells a s) : Spells (.opt a) s
  | optNone {a : Exp ρ} : Spells (.opt a) []
  | starNone {a : Exp ρ} : Spells (.star a) []
  | starSome {a : Exp ρ} {s t : List Char} (ha : Spells a s) (hmore : Spells (.star a) t) : Spells (.star a) (s ++ t)
  | ban {a : Exp ρ} : Spells (.ban a) []
  | start : Spells .start []
  | stop : Spells .stop []
  | after {a : Exp ρ} {s : List Char} (h : Spells a s) : Spells (.after a) s
  | more {a : Exp ρ} {s : List Char} (h : Spells (.star a) s) : Spells (.more a) s

/-- The pairs an expression may build between two places of the text, no more than so many one inside the other. -/
inductive Fits : Nat → Exp ρ → Nat → List (Pair ρ) → Nat → Prop
  | text {d : Nat} {s : List Char} {lo hi : Nat} (hle : lo + s.length ≤ hi) : Fits d (.text s) lo [] hi
  | one {d : Nat} {p : Char → Bool} {lo hi : Nat} (hle : lo + 1 ≤ hi) : Fits d (.one p) lo [] hi
  | ban {d : Nat} {a : Exp ρ} {lo hi : Nat} (hle : lo ≤ hi) : Fits d (.ban a) lo [] hi
  | start {d lo hi : Nat} (hle : lo ≤ hi) : Fits d .start lo [] hi
  | stop {d lo hi : Nat} (hle : lo ≤ hi) : Fits d .stop lo [] hi
  | normal {d : Nat} {r : ρ} {lo hi start : Nat} {text : List Char} {inner : List (Pair ρ)} (hkind : g.kind r = .normal)
      (hlo : lo ≤ start) (hinner : Fits d (g.body r) start inner (start + text.length)) (hhi : start + text.length ≤ hi)
      (hreads : known r = false → text ≠ []) : Fits (d + 1) (.rule r) lo [.node r start text inner] hi
  | atomic {d : Nat} {r : ρ} {lo hi start : Nat} {text : List Char} (hkind : g.kind r = .atomic) (hlo : lo ≤ start)
      (hspells : Spells g (g.body r) text) (hhi : start + text.length ≤ hi)
      (hreads : known r = false → text ≠ []) : Fits (d + 1) (.rule r) lo [.node r start text []] hi
  | silent {d : Nat} {r : ρ} {lo hi : Nat} {ps : List (Pair ρ)} (hkind : g.kind r = .silent) (h : Fits d (g.body r) lo ps hi) :
      Fits d (.rule r) lo ps hi
  | seq {d : Nat} {a b : Exp ρ} {lo mid hi : Nat} {ps qs : List (Pair ρ)} (ha : Fits d a lo ps mid) (hb : Fits d b mid qs hi) :
      Fits d (.seq a b) lo (ps ++ qs) hi
  | altFirst {d : Nat} {a b : Exp ρ} {lo hi : Nat} {ps : List (Pair ρ)} (h : Fits d a lo ps hi) : Fits d (.alt a b) lo ps hi
  | altSecond {d : Nat} {a b : Exp ρ} {lo hi : Nat} {ps : List (Pair ρ)} (h : Fits d b lo ps hi) : Fits d (.alt a b) lo ps hi
  | optSome {d : Nat} {a : Exp ρ} {lo hi : Nat} {ps : List (Pair ρ)} (h : Fits d a lo ps hi) : Fits d (.opt a) lo ps hi
  | optNone {d : Nat} {a : Exp ρ} {lo hi : Nat} (hle : lo ≤ hi) : Fits d (.opt a) lo [] hi
  | starNone {d : Nat} {a : Exp ρ} {lo hi : Nat} (hle : lo ≤ hi) : Fits d (.star a) lo [] hi
  | starSome {d : Nat} {a : Exp ρ} {lo mid hi : Nat} {ps qs : List (Pair ρ)} (ha : Fits d a lo ps mid)
      (hmore : Fits d (.star a) mid qs hi) : Fits d (.star a) lo (ps ++ qs) hi
  | after {d : Nat} {a : Exp ρ} {lo hi : Nat} {ps : List (Pair ρ)} (h : Fits d a lo ps hi) : Fits d (.after a) lo ps hi
  | more {d : Nat} {a : Exp ρ} {lo hi : Nat} {ps : List (Pair ρ)} (h : Fits d (.star a) lo ps hi) : Fits d (.more a) lo ps hi

end

section
variable {ρ : Type} {g : Grammar ρ} {known : ρ → Bool}

/-- Atomic rules build no pairs; what they read is spelt as they say. -/
theorem Parses.spells {m : Bool} {e : Exp ρ} {c : Cursor} {r : Result ρ} (h : Parses g m e c r) :
    ∀ ps c', r = some (ps, c') → m = true → ps = [] ∧ ∃ s, c.rest = s ++ c'.rest ∧ Spells g e s := by
  induction h with
  | text => rintro _ _ ⟨⟩ -; exact ⟨rfl, _, rfl, .text⟩
  | @one _ _ x _ _ hp => rintro _ _ ⟨⟩ -; exact ⟨rfl, [x], rfl, .one hp⟩
  | rule _ ih =>
    rintro _ _ ⟨⟩ rfl
    obtain ⟨-, s, hs, hspells⟩ := ih _ _ rfl (Bool.true_or _)
    exact ⟨rfl, s, hs, .rule hspells⟩
  | seq _ _ iha ihb =>
    rintro _ _ ⟨⟩ hm
    obtain ⟨rfl, s, hs, hspells⟩ := iha _ _ rfl hm
    obtain ⟨rfl, t, ht, hspells'⟩ := ihb _ _ rfl hm
    cases hspells' with
    | after hspells' => exact ⟨rfl, s ++ t, by rw [hs, ht, List.append_assoc], .seq hspells hspells'⟩
  | altFirst _ ih =>
    rintro _ _ ⟨⟩ hm
    obtain ⟨hps, s, hs, hspells⟩ := ih _ _ rfl hm
    exact ⟨hps, s, hs, .altFirst hspells⟩
  | altSecond _ _ _ ih =>
    intro ps c' heq hm
    obtain ⟨hps, s, hs, hspells⟩ := ih ps c' heq hm
    exact ⟨hps, s, hs, .altSecond hspells⟩
  | optSome _ ih =>
    rintro _ _ ⟨⟩ hm
    obtain ⟨hps, s, hs, hspells⟩ := ih _ _ rfl hm
    exact ⟨hps, s, hs, .optSome hspells⟩
  | optNone => rintro _ _ ⟨⟩ -; exact ⟨rfl, [], rfl, .optNone⟩
  | starNone => rintro _ _ ⟨⟩ -; exact ⟨rfl, [], rfl, .starNone⟩
  | starSome _ _ iha ihb =>
    rintro _ _ ⟨⟩ hm
    obtain ⟨rfl, s, hs, hspells⟩ := iha _ _ rfl hm
    obtain ⟨rfl, t, ht, hspells'⟩ := ihb _ _ rfl hm
    cases hspells' with
    | more hspells' => exact ⟨rfl, s ++ t, by rw [hs, ht, List.append_assoc], .starSome hspells hspells'⟩
  | ban => rintro _ _ ⟨⟩ -; exact ⟨rfl, [], rfl, .ban⟩
  | start => rintro _ _ ⟨⟩ -; exact ⟨rfl, [], rfl, .start⟩
  | stop => rintro _ _ ⟨⟩ -; exact ⟨rfl, [], rfl, .stop⟩
  | afterAtomic _ ih =>
    intro ps c' heq hm
    obtain ⟨hps, s, hs, hspells⟩ := ih ps c' heq hm
    exact ⟨hps, s, hs, .after hspells⟩
  | after => intro _ _ _ hm; cases hm
  | moreNone => rintro _ _ ⟨⟩ -; exact ⟨rfl, [], rfl, .more .starNone⟩
  | moreSome _ _ iha ihb =>
    rintro _ _ ⟨⟩ hm
    obtain ⟨rfl, s, hs, hspells⟩ := iha _ _ rfl hm
    obtain ⟨rfl, t, ht, hspells'⟩ := ihb _ _ rfl hm
    cases hspells with
    | after hspells =>
      cases hspells' with
      | more hspells' => exact ⟨rfl, s ++ t, by rw [hs, ht, List.append_assoc], .more (.starSome hspells hspells')⟩
  | textFails | oneFails | ruleFails | seqFails | seqStops | banFails | startFails | stopFails | afterFails =>
    exact (fun _ _ h => by cases h)

/-! ## What fits fits between places further apart -/

theorem Fits.le {d : Nat} {e : Exp ρ} {lo hi : Nat} {ps : List (Pair ρ)} (h : Fits g known d e lo ps hi) : lo ≤ hi := by
  induction h with
  | text hle => exact Nat.le_trans (Nat.le_add_right _ _) hle
  | one hle => exact Nat.le_of_succ_le hle
  | ban hle | start hle | stop hle | optNone hle | starNone hle => exact hle
  | normal _ hlo _ hhi _ _ => omega
  | atomic _ hlo _ hhi _ => omega
  | seq _ _ iha ihb | starSome _ _ iha ihb => exact Nat.le_trans iha ihb
  | silent _ _ ih | altFirst _ ih | altSecond _ ih | optSome _ ih | after _ ih | more _ ih => exact ih

theorem Fits.earlier {d : Nat} {e : Exp ρ} {lo hi lo' : Nat} {ps : List (Pair ρ)} (h : Fits g known d e lo ps hi)
    (hle : lo' ≤ lo) : Fits g known d e lo' ps hi := by
  induction h with
  | text h => exact .text (Nat.le_trans (Nat.add_le_add_right hle _) h)
  | one h => exact .one (Nat.le_trans (Nat.add_le_add_right hle _) h)
  | ban h => exact .ban (Nat.le_trans hle h)
  | start h => exact .start (Nat.le_trans hle h)
  | stop h => exact .stop (Nat.le_trans hle h)
  | optNone h => exact .optNone (Nat.le_trans hle h)
  | starNone h => exact .starNone (Nat.le_trans hle h)
  | normal hkind hlo hinner hhi hreads => exact .normal hkind (Nat.le_trans hle hlo) hinner hhi hreads
  | atomic hkind hlo hspells hhi hreads => exact .atomic hkind (Nat.le_trans hle hlo) hspells hhi hreads
  | seq _ hb iha => exact .seq (iha hle) hb
  | starSome _ hmore iha => exact .starSome (iha hle) hmore
  | silent hkind _ ih => exact .silent hkind (ih hle)
  | altFirst _ ih => exact .altFirst (ih hle)
  | altSecond _ ih => exact .altSecond (ih hle)
  | optSome _ ih => exact .optSome (ih hle)
  | after _ ih => exact .after (ih hle)
  | more _ ih => exact .more (ih hle)

theorem heights_append (ps qs : List (Pair ρ)) : Pair.heights (ps ++ qs) = max (Pair.heights ps) (Pair.heights qs) := by
  induction ps with
  | nil => simp [Pair.heights]
  | cons p ps ih => simp only [List.cons_append, Pair.heights, ih, Nat.max_assoc]

/-- The pairs of a match fit its expression, from where it starts to where it ends. -/
theorem Parses.fits (hknown : ∀ r, (g.body r).nullable known = true → known r = true) {m : Bool} {e : Exp ρ} {c : Cursor}
    {r : Result ρ} (h : Parses g m e c r) : ∀ ps c', r = some (ps, c') → m = false → ∀ d, Pair.heights ps ≤ d →
      Fits g known d e c.pos ps c'.pos := by
  induction h with
  | text => rintro _ _ ⟨⟩ - _ -; exact .text (Nat.le_refl _)
  | one => rintro _ _ ⟨⟩ - _ -; exact .one (Nat.le_refl _)
  | @rule m r c c' ps hbody ih =>
    rintro _ _ ⟨⟩ rfl d hd
    obtain ⟨s, hs, hpos⟩ := hbody.reads _ _ rfl
    have htext : c.rest.take (c'.pos - c.pos) = s := by
      rw [hpos, Nat.add_sub_cancel_left, hs, List.take_left]
    have hreads : known r = false → s ≠ [] := by
      intro hne hnil
      have hbody' : (g.body r).nullable known = false := Bool.eq_false_iff.mpr fun h => by rw [hknown r h] at hne; cases hne
      have hlt := hbody.pos_lt hknown _ _ rfl hbody'
      rw [hpos, hnil, List.length_nil] at hlt
      omega
    unfold Grammar.wrap at hd ⊢
    rw [if_neg Bool.false_ne_true, htext] at hd ⊢
    cases hkind : g.kind r with
    | silent =>
      rw [hkind, if_pos rfl] at hd
      rw [if_pos rfl]
      exact .silent hkind (ih _ _ rfl (by simp [Grammar.isAtomic, hkind]) d hd)
    | normal =>
      rw [hkind, if_neg (by decide)] at hd
      rw [if_neg (by decide)]
      cases d with
      | zero => simp [Pair.heights, Pair.height] at hd
      | succ d =>
        simp only [Pair.heights, Pair.height, Nat.max_zero, Nat.add_le_add_iff_right] at hd
        refine .normal hkind (Nat.le_refl _) ?_ (Nat.le_of_eq hpos.symm) hreads
        exact hpos ▸ ih _ _ rfl (by simp [Grammar.isAtomic, hkind]) d hd
    | atomic =>
      rw [hkind, if_neg (by decide)] at hd
      rw [if_neg (by decide)]
      obtain ⟨rfl, t, ht, hspells⟩ := hbody.spells _ _ rfl (by simp [Grammar.isAtomic, hkind])
      rw [hs] at ht
      rw [List.append_cancel_right ht]
      rw [List.append_cancel_right ht] at hpos hreads
      cases d with
      | zero => simp [Pair.heights, Pair.height] at hd
      | succ d => exact .atomic hkind (Nat.le_refl _) hspells (Nat.le_of_eq hpos.symm) hreads
  | seq _ _ iha ihb =>
    rintro _ _ ⟨⟩ hm d hd
    rw [heights_append, Nat.max_le] at hd
    cases ihb _ _ rfl hm d hd.2 with
    | after hb => exact .seq (iha _ _ rfl hm d hd.1) hb
  | altFirst _ ih => rintro _ _ ⟨⟩ hm d hd; exact .altFirst (ih _ _ rfl hm d hd)
  | altSecond _ _ _ ih => exact fun ps c' heq hm d hd => .altSecond (ih ps c' heq hm d hd)
  | optSome _ ih => rintro _ _ ⟨⟩ hm d hd; exact .optSome (ih _ _ rfl hm d hd)
  | optNone => rintro _ _ ⟨⟩ - _ -; exact .optNone (Nat.le_refl _)
  | starNone => rintro _ _ ⟨⟩ - _ -; exact .starNone (Nat.le_refl _)
  | starSome _ _ iha ihb =>
    rintro _ _ ⟨⟩ hm d hd
    rw [heights_append, Nat.max_le] at hd
    cases ihb _ _ rfl hm d hd.2 with
    | more hmore => exact .starSome (iha _ _ rfl hm d hd.1) hmore
  | ban => rintro _ _ ⟨⟩ - _ -; exact .ban (Nat.le_refl _)
  | start => rintro _ _ ⟨⟩ - _ -; exact .start (Nat.le_refl _)
  | stop => rintro _ _ ⟨⟩ - _ -; exact .stop (Nat.le_refl _)
  | afterAtomic => intro _ _ _ hm; cases hm
  | after hskip _ _ ih => exact fun ps c' heq hm d hd => .after ((ih ps c' heq hm d hd).earlier hskip.pos_le)
  | moreNone => rintro _ _ ⟨⟩ - _ -; exact .more (.starNone (Nat.le_refl _))
  | moreSome _ _ iha ihb =>
    rintro _ _ ⟨⟩ hm d hd
    rw [heights_append, Nat.max_le] at hd
    cases iha _ _ rfl hm d hd.1 with
    | after ha =>
      cases ihb _ _ rfl hm d hd.2 with
      | more hmore => exact .more (.starSome ha hmore)
  | textFails | oneFails | ruleFails | seqFails | seqStops | banFails | startFails | stopFails | afterFails =>
    exact (fun _ _ h => by cases h)

/-! ## Reading a fit -/

variable {d lo hi : Nat} {ps : List (Pair ρ)}

theorem fits_text {s : List Char} : Fits g known d (.text s) lo ps hi ↔ ps = [] ∧ lo + s.length ≤ hi := by
  refine ⟨fun h => ?_, fun ⟨hps, hle⟩ => hps ▸ .text hle⟩
  cases h with
  | text hle => exact ⟨rfl, hle⟩

theorem fits_ban {a : Exp ρ} : Fits g known d (.ban a) lo ps hi ↔ ps = [] ∧ lo ≤ hi := by
  refine ⟨fun h => ?_, fun ⟨hps, hle⟩ => hps ▸ .ban hle⟩
  cases h with
  | ban hle => exact ⟨rfl, hle⟩

theorem fits_start : Fits g known d .start lo ps hi ↔ ps = [] ∧ lo ≤ hi := by
  refine ⟨fun h => ?_, fun ⟨hps, hle⟩ => hps ▸ .start hle⟩
  cases h with
  | start hle => exact ⟨rfl, hle⟩

theorem fits_seq {a b : Exp ρ} : Fits g known d (.seq a b) lo ps hi ↔
    ∃ qs mid rs, Fits g known d a lo qs mid ∧ Fits g known d b mid rs hi ∧ ps = qs ++ rs := by
  refine ⟨fun h => ?_, fun ⟨qs, mid, rs, ha, hb, hps⟩ => hps ▸ .seq ha hb⟩
  cases h with
  | seq ha hb => exact ⟨_, _, _, ha, hb, rfl⟩

theorem fits_alt {a b : Exp ρ} : Fits g known d (.alt a b) lo ps hi ↔ Fits g known d a lo ps hi ∨ Fits g known d b lo ps hi := by
  refine ⟨fun h => ?_, fun h => h.elim .altFirst .altSecond⟩
  cases h with
  | altFirst h => exact .inl h
  | altSecond h => exact .inr h

theorem fits_opt {a : Exp ρ} : Fits g known d (.opt a) lo ps hi ↔ Fits g known d a lo ps hi ∨ ps = [] ∧ lo ≤ hi := by
  refine ⟨fun h => ?_, fun h => h.elim .optSome fun ⟨hps, hle⟩ => hps ▸ .optNone hle⟩
  cases h with
  | optSome h => exact .inl h
  | optNone hle => exact .inr ⟨rfl, hle⟩

theorem fits_silent {r : ρ} (hkind : g.kind r = .silent) :
    Fits g known d (.rule r) lo ps hi ↔ Fits g known d (g.body r) lo ps hi := by
  refine ⟨fun h => ?_, .silent hkind⟩
  cases h with
  | normal h => rw [hkind] at h; cases h
  | atomic h => rw [hkind] at h; cases h
  | silent _ h => exact h

/-- One pair of this rule. -/
def Fit (g : Grammar ρ) (known : ρ → Bool) (d : Nat) (r : ρ) (lo : Nat) (p : Pair ρ) (hi : Nat) : Prop :=
  Fits g known d (.rule r) lo [p] hi

theorem fits_rule {r : ρ} (hkind : g.kind r ≠ .silent) :
    Fits g known d (.rule r) lo ps hi ↔ ∃ p, Fit g known d r lo p hi ∧ ps = [p] := by
  refine ⟨fun h => ?_, fun ⟨p, hp, hps⟩ => hps ▸ hp⟩
  cases h with
  | normal hk hlo hinner hhi hreads => exact ⟨_, .normal hk hlo hinner hhi hreads, rfl⟩
  | atomic hk hlo hspells hhi hreads => exact ⟨_, .atomic hk hlo hspells hhi hreads, rfl⟩
  | silent hk => exact absurd hk hkind

namespace Fit
variable {r : ρ} {p : Pair ρ}

theorem le (h : Fit g known d r lo p hi) : lo ≤ hi := Fits.le h

theorem rule_eq (hkind : g.kind r ≠ .silent) (h : Fit g known d r lo p hi) : p.rule = r := by
  cases h with
  | normal => rfl
  | atomic => rfl
  | silent hk => exact absurd hk hkind

/-- What is inside a pair fits the body of its rule. -/
theorem inner (hkind : g.kind r = .normal) (h : Fit g known d r lo p hi) : ∃ d' start text inner, d = d' + 1 ∧
    p = .node r start text inner ∧ lo ≤ start ∧ start + text.length ≤ hi ∧ (known r = false → start < start + text.length) ∧
      Fits g known d' (g.body r) start inner (start + text.length) := by
  cases h with
  | normal _ hlo hinner hhi hreads =>
    exact ⟨_, _, _, _, rfl, rfl, hlo, hhi, fun hr => Nat.lt_add_of_pos_right (List.length_pos_iff.mpr (hreads hr)), hinner⟩
  | atomic hk => rw [hkind] at hk; cases hk
  | silent hk => rw [hkind] at hk; cases hk

/-- The text of an atomic pair is spelt as its rule says. -/
theorem spelt (hkind : g.kind r = .atomic) (h : Fit g known d r lo p hi) : ∃ start text, p = .node r start text [] ∧ lo ≤ start ∧
    start + text.length ≤ hi ∧ (known r = false → start < start + text.length) ∧ Spells g (g.body r) text := by
  cases h with
  | normal hk => rw [hkind] at hk; cases hk
  | atomic _ hlo hspells hhi hreads =>
    exact ⟨_, _, rfl, hlo, hhi, fun hr => Nat.lt_add_of_pos_right (List.length_pos_iff.mpr (hreads hr)), hspells⟩
  | silent hk => rw [hkind] at hk; cases hk

end Fit

/-! ## Lists of pairs -/

/-- One behind the other, each where `P` says. -/
inductive InOrder {α : Type} (P : Nat → α → Nat → Prop) : Nat → List α → Nat → Prop
  | nil {lo hi : Nat} (hle : lo ≤ hi) : InOrder P lo [] hi
  | cons {lo mid hi : Nat} {x : α} {xs : List α} (hx : P lo x mid) (hxs : InOrder P mid xs hi) : InOrder P lo (x :: xs) hi

namespace InOrder
variable {α : Type} {P Q : Nat → α → Nat → Prop} {xs ys : List α} {lo mid hi : Nat}

theorem le (hP : ∀ lo x hi, P lo x hi → lo ≤ hi) (h : InOrder P lo xs hi) : lo ≤ hi := by
  induction h with
  | nil hle => exact hle
  | cons hx _ ih => exact Nat.le_trans (hP _ _ _ hx) ih

theorem exists_of_mem {x : α} (h : InOrder P lo xs hi) (hx : x ∈ xs) : ∃ lo hi, P lo x hi := by
  induction h with
  | nil => cases hx
  | cons hy _ ih =>
    rcases List.mem_cons.mp hx with rfl | hx
    · exact ⟨_, _, hy⟩
    · exact ih hx

theorem within {x : α} (hP : ∀ lo x hi, P lo x hi → lo ≤ hi) (h : InOrder P lo xs hi) (hx : x ∈ xs) :
    ∃ lo' hi', lo ≤ lo' ∧ hi' ≤ hi ∧ P lo' x hi' := by
  induction h with
  | nil => cases hx
  | cons hy hxs ih =>
    rcases List.mem_cons.mp hx with rfl | hx
    · exact ⟨_, _, Nat.le_refl _, hxs.le hP, hy⟩
    · obtain ⟨lo', hi', hlo, hhi, hx⟩ := ih hx
      exact ⟨lo', hi', Nat.le_trans (hP _ _ _ hy) hlo, hhi, hx⟩

theorem mono (hPQ : ∀ lo x hi, x ∈ xs → P lo x hi → Q lo x hi) (h : InOrder P lo xs hi) : InOrder Q lo xs hi := by
  induction h with
  | nil hle => exact .nil hle
  | cons hx _ ih => exact .cons (hPQ _ _ _ List.mem_cons_self hx) (ih fun _ _ _ hmem => hPQ _ _ _ (List.mem_cons_of_mem _ hmem))

theorem later {hi' : Nat} (h : InOrder P lo xs hi) (hle : hi ≤ hi') : InOrder P lo xs hi' := by
  induction h with
  | nil h => exact .nil (Nat.le_trans h hle)
  | cons hx _ ih => exact .cons hx (ih hle)

theorem earlier {lo' : Nat} (h : InOrder P lo xs hi) (hle : lo' ≤ lo) (hP : ∀ lo lo' x hi, lo' ≤ lo → P lo x hi → P lo' x hi) :
    InOrder P lo' xs hi := by
  cases h with
  | nil h => exact .nil (Nat.le_trans hle h)
  | cons hx hxs => exact .cons (hP _ _ _ _ hle hx) hxs

theorem append (hxs : InOrder P lo xs mid) (hys : InOrder P mid ys hi) (hP : ∀ lo lo' x hi, lo' ≤ lo → P lo x hi → P lo' x hi) :
    InOrder P lo (xs ++ ys) hi := by
  induction hxs with
  | nil hle =>
    cases hys with
    | nil hle' => exact .nil (Nat.le_trans hle hle')
    | cons hx hxs => exact .cons (hP _ _ _ _ hle hx) hxs
  | cons hx _ ih => exact .cons hx (ih hys)

theorem split (h : InOrder P lo (xs ++ ys) hi) : ∃ mid, InOrder P lo xs mid ∧ InOrder P mid ys hi := by
  induction xs generalizing lo with
  | nil => exact ⟨lo, .nil (Nat.le_refl _), h⟩
  | cons x xs ih =>
    cases h with
    | cons hx hxs =>
      obtain ⟨mid, hxs, hys⟩ := ih hxs
      exact ⟨mid, .cons hx hxs, hys⟩

/-- A predicate that goes down a list this way. -/
theorem of_steps {F : Nat → List α → Nat → Prop} (hnil : ∀ lo hi, F lo [] hi ↔ lo ≤ hi)
    (hcons : ∀ lo x xs hi, F lo (x :: xs) hi ↔ ∃ mid, P lo x mid ∧ F mid xs hi) : F lo xs hi ↔ InOrder P lo xs hi := by
  induction xs generalizing lo with
  | nil =>
    rw [hnil]
    exact ⟨.nil, fun h => by cases h; assumption⟩
  | cons x xs ih =>
    rw [hcons]
    constructor
    · rintro ⟨mid, hx, hxs⟩
      exact .cons hx (ih.mp hxs)
    · intro h
      cases h with
      | cons hx hxs => exact ⟨_, hx, ih.mpr hxs⟩

end InOrder

theorem fits_opt_rule {r : ρ} (hkind : g.kind r ≠ .silent) : Fits g known d (.opt (.rule r)) lo ps hi ↔
    ∃ o : Option (Pair ρ), (∀ p ∈ o, Fit g known d r lo p hi) ∧ lo ≤ hi ∧ ps = o.toList := by
  rw [fits_opt, fits_rule hkind]
  constructor
  · rintro (⟨p, hp, rfl⟩ | ⟨rfl, hle⟩)
    · exact ⟨some p, fun q hq => by cases hq; exact hp, hp.le, rfl⟩
    · exact ⟨none, (fun _ hq => by cases hq), hle, rfl⟩
  · rintro ⟨o, ho, hle, rfl⟩
    cases o with
    | none => exact .inr ⟨rfl, hle⟩
    | some p => exact .inl ⟨p, ho p rfl, rfl⟩

/-- A repetition of what builds one pair. -/
theorem fits_star {P : Nat → Pair ρ → Nat → Prop} {a : Exp ρ}
    (ha : ∀ lo ps hi, Fits g known d a lo ps hi → ∃ p, P lo p hi ∧ ps = [p])
    (h : Fits g known d (.star a) lo ps hi) : InOrder P lo ps hi := by
  generalize he : Exp.star a = e at h
  induction h with
  | starNone hle => exact .nil hle
  | starSome hfirst _ _ ih =>
    cases he
    obtain ⟨p, hp, rfl⟩ := ha _ _ _ hfirst
    exact .cons hp (ih ha rfl)
  | _ => cases he

theorem fits_star_rule {r : ρ} (hkind : g.kind r ≠ .silent) :
    Fits g known d (.star (.rule r)) lo ps hi ↔ InOrder (Fit g known d r) lo ps hi := by
  refine ⟨fits_star fun lo ps hi => (fits_rule hkind).mp, fun h => ?_⟩
  induction h with
  | nil hle => exact .starNone hle
  | cons hp _ ih =>
    have hstar := Fits.starSome hp ih
    exact hstar

end

end Peg
end Syllog
