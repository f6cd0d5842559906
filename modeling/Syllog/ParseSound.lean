import Syllog.Formed
/-!
# ParseSound — the builder fits the grammar

The pairs of a match are those the builder asks for, so it fails on nothing but literals: an integer out of range, or a string
that is no JSON string.  Where it does not fail, what it builds lies in the text as `Formed` says.
-/
namespace Syllog
namespace Syl

open Hir Peg Ast

/-- Fails exactly where `ok` is false, at a literal; else the result is as `Q` says. -/
def Yields {α : Type} (ok : Bool) (Q : α → Prop) : Except LowerError α → Prop
  | .ok a    => ok = true ∧ Q a
  | .error e => ok = false ∧ e.ofLiteral = true

section
variable {α β : Type} {ok ok' : Bool} {Q : α → Prop} {R : β → Prop}

theorem Yields.pure {a : α} (h : Q a) : Yields true Q (.ok a) := ⟨rfl, h⟩

theorem Yields.bind {x : Except LowerError α} {f : α → Except LowerError β} (hx : Yields ok Q x)
    (hf : ∀ a, Q a → Yields ok' R (f a)) : Yields (ok && ok') R (x >>= f) := by
  cases x with
  | error e => exact ⟨by rw [hx.1, Bool.false_and], hx.2⟩
  | ok a =>
    have h : Yields ok' R (f a) := hf a hx.2
    have hok : ok = true := hx.1
    rw [hok, Bool.true_and]
    exact h

theorem Yields.map {x : Except LowerError α} {f : α → β} (hx : Yields ok Q x) (hf : ∀ a, Q a → R (f a)) :
    Yields ok R (x >>= fun a => .ok (f a)) := by
  have h := hx.bind (fun a ha => Yields.pure (hf a ha))
  rwa [Bool.and_true] at h

theorem Yields.fmap {x : Except LowerError α} {f : α → β} (hx : Yields ok Q x) (hf : ∀ a, Q a → R (f a)) :
    Yields ok R (f <$> x) := hx.map hf

theorem Yields.mono {x : Except LowerError α} {Q' : α → Prop} (hx : Yields ok Q x) (h : ∀ a, Q a → Q' a) : Yields ok Q' x := by
  cases x with
  | error e => exact hx
  | ok a => exact ⟨hx.1, h a hx.2⟩

theorem Yields.option {f : α → Except LowerError β} {ok : α → Bool} {o : Option α}
    (ho : ∀ a, o = some a → Yields (ok a) R (f a)) : Yields (o.toList.all ok) (fun b => ∀ x, b = some x → R x) (o.mapM f) := by
  cases o with
  | none => exact .pure (fun _ h => by cases h)
  | some a =>
    rw [Option.toList_some, List.all_cons, List.all_nil, Bool.and_true]
    refine (ho a rfl).fmap fun b hb x hx => ?_
    cases hx
    exact hb

theorem Yields.mapM {f : α → Except LowerError β} {ok : α → Bool} {P : Nat → α → Nat → Prop} {Q : Nat → β → Nat → Prop}
    {xs : List α} {lo hi : Nat} (hxs : InOrder P lo xs hi) (hf : ∀ lo x hi, P lo x hi → Yields (ok x) (Q lo · hi) (f x)) :
    Yields (xs.all ok) (InOrder Q lo · hi) (xs.mapM f) := by
  induction hxs with
  | nil hle => exact .pure (.nil hle)
  | cons hx _ ih =>
    rw [List.mapM_cons, List.all_cons]
    exact (hf _ _ _ hx).bind fun b hb => ih.map fun bs hbs => .cons hb hbs

end

/-! ## Pairs of the grammar -/

/-- The literal can be represented, if the pair is one. -/
def literalOk (p : Pair Rule) : Bool :=
  match p.rule with
  | .string  => (jsonString p.text).isSome
  | .integer => (parseInteger p.text).isSome
  | _        => true

/-- All literals inside can be represented. -/
def readable (p : Pair Rule) : Bool := p.all literalOk

theorem allIn_eq (q : Pair Rule → Bool) (ps : List (Pair Rule)) : Pair.allIn q ps = ps.all (Pair.all q) := by
  induction ps with
  | nil => rfl
  | cons p ps ih => rw [Pair.allIn, ih, List.all_cons]

theorem readable_node (r : Rule) (start : Nat) (text : List Char) (inner : List (Pair Rule)) :
    readable (.node r start text inner) = (literalOk (.node r start text inner) && inner.all readable) := by
  rw [readable, Pair.all, allIn_eq]
  rfl

/-- A pair of this rule, as the grammar builds it. -/
abbrev Built (d : Nat) (r : Rule) (lo : Nat) (p : Pair Rule) (hi : Nat) : Prop := Fit sylGrammar mayBeEmpty d r lo p hi

theorem body_eq (r : Rule) : sylGrammar.body r = ruleBody r := rfl

section
variable {d lo hi : Nat} {r : Rule} {ps : List (Pair Rule)}

theorem fits_separator : Fits sylGrammar mayBeEmpty d (.opt (.rule .separator)) lo ps hi ↔ ps = [] ∧ lo ≤ hi := by
  refine ⟨fun h => ⟨?_, h.le⟩, fun ⟨hps, hle⟩ => hps ▸ .optNone hle⟩
  rw [fits_opt, fits_silent rfl, body_eq, ruleBody, fits_alt, lit, fits_text, lit, fits_text] at h
  rcases h with (h | h) | h <;> exact h.1

theorem fits_separator_one (h : Fits sylGrammar mayBeEmpty d (.rule .separator) lo ps hi) : ps = [] ∧ lo ≤ hi :=
  fits_separator.mp (.optSome h)

/-- What is separated by a text, each behind the text. -/
theorem fits_separated {sep : List Char} (hkind : sylGrammar.kind r ≠ .silent)
    (h : Fits sylGrammar mayBeEmpty d (.star (.seq (.text sep) (.rule r))) lo ps hi) : InOrder (Built d r) lo ps hi := by
  refine fits_star (fun lo ps hi h => ?_) h
  rw [fits_seq] at h
  obtain ⟨_, mid, _, htext, hrule, rfl⟩ := h
  rw [fits_text] at htext
  rw [fits_rule hkind] at hrule
  obtain ⟨p, hp, rfl⟩ := hrule
  rw [htext.1]
  exact ⟨p, hp.earlier (Nat.le_trans (Nat.le_add_right _ _) htext.2), rfl⟩

/-- A pair behind a text, or neither. -/
theorem fits_opt_behind {sep : List Char} (hkind : sylGrammar.kind r ≠ .silent)
    (h : Fits sylGrammar mayBeEmpty d (.opt (.seq (.text sep) (.rule r))) lo ps hi) :
    ∃ o : Option (Pair Rule), ps = o.toList ∧ lo ≤ hi ∧ ∀ p, o = some p → Built d r lo p hi := by
  have hle := h.le
  simp only [fits_opt, fits_seq, fits_text, fits_rule hkind] at h
  rcases h with ⟨_, mid, _, ⟨rfl, hsep⟩, ⟨p, hp, rfl⟩, rfl⟩ | ⟨rfl, -⟩
  · refine ⟨some p, rfl, hle, fun q hq => ?_⟩
    cases hq
    exact hp.earlier (Nat.le_trans (Nat.le_add_right _ _) hsep)
  · exact ⟨none, rfl, hle, (fun _ h => by cases h)⟩

theorem fits_listed (hkind : sylGrammar.kind r ≠ .silent) (h : Fits sylGrammar mayBeEmpty d (listed (.rule r)) lo ps hi) :
    InOrder (Built d r) lo ps hi := by
  simp only [listed, Exp.all, lit, fits_seq, fits_opt, fits_text, fits_rule hkind] at h
  obtain ⟨_, mid, _, ⟨p, hp, rfl⟩, ⟨qs, last, _, hqs, hcomma, rfl⟩, rfl⟩ := h
  have hrest := fits_separated hkind hqs
  rcases hcomma with ⟨rfl, hle⟩ | ⟨rfl, hle⟩
  · rw [List.append_nil]
    exact .cons hp (hrest.later (Nat.le_trans (Nat.le_add_right _ _) hle))
  · rw [List.append_nil]
    exact .cons hp (hrest.later hle)

theorem fits_listed_opt (hkind : sylGrammar.kind r ≠ .silent)
    (h : Fits sylGrammar mayBeEmpty d (.opt (listed (.rule r))) lo ps hi) : InOrder (Built d r) lo ps hi := by
  rw [fits_opt] at h
  rcases h with h | ⟨rfl, hle⟩
  · exact fits_listed hkind h
  · exact .nil hle

end

/-! ## Names -/

theorem spells_one {p : Char → Bool} {s : List Char} (h : Spells sylGrammar (.one p) s) : ∃ c, s = [c] ∧ p c = true := by
  cases h with
  | one hp => exact ⟨_, rfl, hp⟩

/-- A letter of `identStart` or of `identContinue`. -/
theorem spells_letter {p : Char → Bool} {r : Rule} (hbody : ruleBody r = .alt (.one p) (lit "_")) {s : List Char}
    (h : Spells sylGrammar (.rule r) s) : ∃ c, s = [c] ∧ (p c || c = '_') = true := by
  cases h with
  | rule h =>
    rw [body_eq, hbody] at h
    cases h with
    | altFirst h =>
      obtain ⟨c, rfl, hc⟩ := spells_one h
      exact ⟨c, rfl, by rw [hc, Bool.true_or]⟩
    | altSecond h =>
      cases h with
      | text => exact ⟨'_', rfl, by simp⟩

theorem spells_letters {s : List Char} (h : Spells sylGrammar (.star (.rule .identContinue)) s) :
    s.all isIdentContinue = true := by
  generalize he : Exp.star (Exp.rule Rule.identContinue) = e at h
  induction h with
  | starNone => rfl
  | starSome hfirst _ _ ih =>
    cases he
    obtain ⟨c, rfl, hc⟩ := spells_letter rfl hfirst
    rw [List.singleton_append, List.all_cons, ih rfl, Bool.and_true]
    exact hc
  | _ => cases he

/-- A letter and the letters behind it make up an identifier. -/
theorem spells_identifier {s : List Char}
    (h : Spells sylGrammar (.seq (.rule .identStart) (.star (.rule .identContinue))) s) :
    ∃ c cs, s = c :: cs ∧ isIdentStart c = true ∧ cs.all isIdentContinue = true := by
  cases h with
  | seq hfirst hrest =>
    obtain ⟨c, rfl, hc⟩ := spells_letter rfl hfirst
    exact ⟨c, _, rfl, hc, spells_letters hrest⟩

theorem isIdentifier_ofList {c : Char} {cs : List Char} (hc : isIdentStart c = true) (hcs : cs.all isIdentContinue = true) :
    isIdentifier (String.ofList (c :: cs)) = true := by
  rw [isIdentifier, String.toList_ofList]
  simp only [hc, hcs, Bool.and_self]

section
variable {d lo hi : Nat} {p : Pair Rule}

theorem built_identifier (h : Built d .identifier lo p hi) : isIdentifier (asStr p) = true := by
  obtain ⟨start, text, rfl, -, -, -, hspells⟩ := h.spelt rfl
  obtain ⟨c, cs, rfl, hc, hcs⟩ := spells_identifier hspells
  exact isIdentifier_ofList hc hcs

/-- An atomic pair that is no literal. -/
theorem readable_atomic {r : Rule} (hkind : sylGrammar.kind r = .atomic) (hstring : r ≠ .string) (hinteger : r ≠ .integer)
    (h : Built d r lo p hi) : readable p = true := by
  obtain ⟨start, text, rfl, -⟩ := h.spelt hkind
  rw [readable_node, List.all_nil, Bool.and_true]
  unfold literalOk
  split
  · exact absurd ‹_› hstring
  · exact absurd ‹_› hinteger
  · rfl

end

theorem readable_option {r : Rule} {o : Option (Pair Rule)} {d lo hi : Nat} (hkind : sylGrammar.kind r = .atomic)
    (hstring : r ≠ .string) (hinteger : r ≠ .integer) (h : ∀ p, o = some p → Built d r lo p hi) :
    o.toList.all readable = true := by
  cases o with
  | none => rfl
  | some p =>
    rw [Option.toList_some, List.all_cons, List.all_nil, Bool.and_true]
    exact readable_atomic hkind hstring hinteger (h p rfl)

/-! ## Parts -/

section
variable {d lo hi : Nat} {r : Rule} {o : Option (Pair Rule)} {ps : List (Pair Rule)}

theorem takePart_toList (ho : ∀ p, o = some p → p.rule = r) (hps : ∀ p, ps.head? = some p → p.rule ≠ r) :
    takePart (o.toList ++ ps) r = (o, ps) := by
  cases o with
  | some p =>
    change (if p.rule = r then _ else _) = _
    rw [if_pos (ho p rfl)]
    rfl
  | none =>
    cases ps with
    | nil => rfl
    | cons p ps =>
      change (if p.rule = r then _ else _) = _
      rw [if_neg (hps p rfl)]

theorem takeMarker_toList (ho : ∀ p, o = some p → p.rule = r) (hps : ∀ p, ps.head? = some p → p.rule ≠ r) :
    takeMarker (o.toList ++ ps) r = (o.isSome, ps) := by
  rw [takeMarker, takePart_toList ho hps]

theorem meaningful_toList (ho : ∀ p, o = some p → isKeyword p.rule = false) :
    (o.toList.filter fun inner => !isKeyword inner.rule) = o.toList := by
  cases o with
  | some p => simp [ho p rfl]
  | none => rfl

theorem head_toList (ho : ∀ p, o = some p → p.rule ≠ r) (hps : ∀ p, ps.head? = some p → p.rule ≠ r) :
    ∀ p, (o.toList ++ ps).head? = some p → p.rule ≠ r := by
  cases o with
  | none => exact hps
  | some p =>
    intro q hq
    cases hq
    exact ho p rfl

/-- A keyword in front is passed over. -/
theorem meaningful_keyword {start : Nat} {text : List Char} {q : Pair Rule} (hq : isKeyword q.rule = true) :
    meaningfulInner (.node r start text (q :: ps)) = meaningfulInner (.node r start text ps) := by
  rw [meaningfulInner, meaningfulInner, Pair.inner_node, Pair.inner_node, List.filter_cons, hq]
  rfl

/-- No keyword is inside. -/
theorem meaningful_all {start : Nat} {text : List Char} (h : ∀ p ∈ ps, isKeyword p.rule = false) :
    meaningfulInner (.node r start text ps) = ps := by
  rw [meaningfulInner, Pair.inner_node, List.filter_eq_self]
  intro p hp
  rw [h p hp]
  rfl

end

theorem ok_bind {α β : Type} (a : α) (f : α → Except LowerError β) : (Except.ok a >>= f) = f a := rfl

theorem popFront_cons (p : Pair Rule) (ps : List (Pair Rule)) (context : String) : popFront (p :: ps) context = .ok (p, ps) := rfl

theorem takeIdentifier_cons {p : Pair Rule} (h : p.rule = .identifier) (ps : List (Pair Rule)) (context : String) :
    takeIdentifier (p :: ps) context = .ok (asStr p, ps) := by
  rw [takeIdentifier, popFront_cons, ok_bind]
  simp only [h, ne_eq, not_true_eq_false, if_false]
  rfl

theorem asStr_identifiers {d lo hi : Nat} {ps : List (Pair Rule)} (h : InOrder (Built d .identifier) lo ps hi) :
    (∀ segment ∈ ps.map asStr, isIdentifier segment = true) ∧ ps.all readable = true := by
  induction h with
  | nil => exact ⟨(fun _ h => by cases h), rfl⟩
  | cons hx _ ih =>
    rw [List.map_cons, List.forall_mem_cons, List.all_cons, ih.2, readable_atomic rfl (by decide) (by decide) hx]
    exact ⟨⟨built_identifier hx, ih.1⟩, rfl⟩

theorem parsePath_yields {d lo hi : Nat} {p : Pair Rule} (h : Built d .path lo p hi) :
    Yields (readable p) PathNamed (parsePath p) := by
  obtain ⟨d, start, text, inner, rfl, rfl, -, -, -, hinner⟩ := h.inner rfl
  simp (disch := decide) only [body_eq, ruleBody, separated, lit, fits_seq, fits_rule] at hinner
  obtain ⟨_, mid, rest, ⟨first, hfirst, rfl⟩, hrest, rfl⟩ := hinner
  obtain ⟨hnames, hreadable⟩ := asStr_identifiers (fits_separated (by decide) hrest)
  rw [readable_node, List.singleton_append, List.all_cons, readable_atomic rfl (by decide) (by decide) hfirst, hreadable]
  refine .pure ⟨by simp, ?_⟩
  rw [Pair.inner_node, List.map_cons, List.forall_mem_cons]
  exact ⟨built_identifier hfirst, hnames⟩

/-! ## Types -/

section
variable {input : List Char}

/-- A lifetime is a quote and an identifier. -/
theorem lifetime_named {d lo hi : Nat} {p : Pair Rule} (h : Built d .lifetime lo p hi) :
    isIdentifier (String.ofList (p.text.dropWhile (· ∈ "'".toList))) = true := by
  obtain ⟨start, text, rfl, -, -, -, hspells⟩ := h.spelt rfl
  cases hspells with
  | seq hquote hrest =>
    cases hquote
    obtain ⟨c, cs, rfl, hc, hcs⟩ := spells_identifier hrest
    have hne : ¬c ∈ "'".toList := by
      intro hmem
      rw [List.mem_singleton.mp hmem] at hc
      exact absurd hc (by decide)
    rw [Pair.text_node, List.dropWhile_append_of_pos (by simp), List.dropWhile_cons_of_neg (by simpa using hne)]
    exact isIdentifier_ofList hc hcs

/-- What a pair of the grammar is read as, with this much fuel. -/
def Reads {α : Type} (r : Rule) (n : Nat) (Q : Nat → α → Nat → Prop) (f : Pair Rule → Except LowerError α) : Prop :=
  ∀ ⦃d lo hi : Nat⦄ ⦃p : Pair Rule⦄, Built d r lo p hi → 2 * d ≤ n → Yields (readable p) (Q lo · hi) (f p)

section
variable {n d lo hi : Nat} {p : Pair Rule}

theorem parseType_typeExpr {start : Nat} {text : List Char} {q : Pair Rule} (hq : q.rule ≠ .typeExpr) :
    parseType input (n + 1) (.node .typeExpr start text [q]) = parseType input (n + 1) q := by
  unfold parseType
  simp only [Pair.rule_node, if_true, if_neg hq]
  rfl

theorem parseType_reference (ih : Reads .typeExpr n (TypeNode.Formed input) (parseType input n))
    (h : Built d .referenceType lo p hi) (hn : 2 * d ≤ n + 1) :
    Yields (readable p) (TypeNode.Formed input lo · hi) (parseType input (n + 1) p) := by
  obtain ⟨d, s, t, inner, rfl, rfl, hlo, hhi, hlt, hinner⟩ := h.inner rfl
  simp (disch := decide) [body_eq, ruleBody, Exp.all, lit, Keyword.rule, fits_seq, fits_opt_rule, fits_text, fits_rule] at hinner
  obtain ⟨mid, hamp, mid', lifetime, mid'', mark, referenced, ⟨⟨hlifetime, hle⟩, ⟨hmark, hle'⟩, hreferenced⟩, rfl⟩ := hinner
  have hl := fun p h => (hlifetime p h).rule_eq (by decide)
  have hm := fun p h => (hmark p h).rule_eq (by decide)
  have hr := hreferenced.rule_eq (by decide)
  have hmeaningful : meaningfulInner (.node .referenceType s t (lifetime.toList ++ (mark.toList ++ [referenced]))) =
      lifetime.toList ++ (mark.toList ++ [referenced]) := by
    refine meaningful_all fun p hp => ?_
    simp only [List.mem_append, Option.mem_toList, List.mem_singleton] at hp
    rcases hp with hp | hp | rfl
    · rw [hl p hp]; rfl
    · rw [hm p hp]; rfl
    · rw [hr]; rfl
  have hhead : ∀ p, [referenced].head? = some p → p.rule ≠ .kw .mut := by simp [hr]
  have hhead' : ∀ p, (mark.toList ++ [referenced]).head? = some p → p.rule ≠ .lifetime :=
    head_toList (fun p h => by simp [hm p h]) (by simp [hr])
  simp only [parseType, Pair.rule_node, reduceCtorEq, if_false, pure_bind, hmeaningful, takePart_toList hl hhead',
    takeMarker_toList hm hhead, popFront_cons, ok_bind,
    readable_node, literalOk, List.all_append, readable_option rfl (by decide) (by decide) hlifetime,
    readable_option rfl (by decide) (by decide) hmark, List.all_cons, List.all_nil, Bool.true_and, Bool.and_true]
  refine (ih hreferenced (by omega)).map fun t ht => ⟨?_, ?_⟩
  · intro name hname
    obtain ⟨pair, hpair, rfl⟩ := Option.map_eq_some_iff.mp hname
    exact lifetime_named (hlifetime pair hpair)
  · have hlt := hlt rfl
    exact ⟨_, _, ⟨by omega, hlt, by omega, rfl⟩, ht.widen (by omega) (Nat.le_refl _)⟩

theorem parseType_array (ih : Reads .typeExpr n (TypeNode.Formed input) (parseType input n))
    (h : Built d .arrayType lo p hi) (hn : 2 * d ≤ n + 1) :
    Yields (readable p) (TypeNode.Formed input lo · hi) (parseType input (n + 1) p) := by
  obtain ⟨d, s, t, inner, rfl, rfl, hlo, hhi, hlt, hinner⟩ := h.inner rfl
  simp (disch := decide) [body_eq, ruleBody, Exp.all, lit, fits_seq, fits_text, fits_rule] at hinner
  obtain ⟨mid, hopen, mid', item, ⟨hitem, hclose⟩, rfl⟩ := hinner
  rw [readable_node, List.all_cons, List.all_nil, Bool.and_true]
  have hlt := hlt rfl
  exact (ih hitem (by omega)).map fun t ht =>
    ⟨_, _, ⟨by omega, hlt, by omega, rfl⟩, ht.widen (by omega) (by omega)⟩

/-- The types of a list, in parentheses or not. -/
theorem fits_typeList {ps : List (Pair Rule)} (h : Fits sylGrammar mayBeEmpty d (.rule .typeList) lo ps hi) :
    InOrder (Built d .typeExpr) lo ps hi := by
  rw [fits_silent rfl] at h
  exact fits_listed (by decide) h

theorem fits_typeList_opt {ps : List (Pair Rule)} (h : Fits sylGrammar mayBeEmpty d (.opt (.rule .typeList)) lo ps hi) :
    InOrder (Built d .typeExpr) lo ps hi := by
  rw [fits_opt] at h
  rcases h with h | ⟨rfl, hle⟩
  · exact fits_typeList h
  · exact .nil hle

theorem types_yield {ps : List (Pair Rule)} (ih : Reads .typeExpr n (TypeNode.Formed input) (parseType input n))
    (h : InOrder (Built d .typeExpr) lo ps hi) (hn : 2 * d ≤ n) :
    Yields (ps.all readable) (formedTypes input lo · hi) (ps.mapM (parseType input n)) :=
  (Yields.mapM h fun _ _ _ h => ih h hn).mono fun _ => formedTypes_iff.mpr

theorem parseType_tuple (ih : Reads .typeExpr n (TypeNode.Formed input) (parseType input n))
    (h : Built d .tupleType lo p hi) (hn : 2 * d ≤ n + 1) :
    Yields (readable p) (TypeNode.Formed input lo · hi) (parseType input (n + 1) p) := by
  obtain ⟨d, s, t, inner, rfl, rfl, hlo, hhi, hlt, hinner⟩ := h.inner rfl
  simp (disch := decide) [body_eq, ruleBody, Exp.all, lit, fits_seq, fits_text] at hinner
  obtain ⟨mid, hopen, mid', hitems, hclose⟩ := hinner
  rw [readable_node]
  have hlt := hlt rfl
  have hitems := ((fits_typeList_opt hitems).later (by omega : mid' ≤ s + t.length)).earlier (by omega : s + 1 ≤ mid)
    fun _ _ _ _ hle h => h.earlier hle
  exact (types_yield ih hitems (by omega)).map fun ts hts => ⟨_, _, ⟨by omega, hlt, by omega, rfl⟩, hts⟩

theorem parseType_path (ih : Reads .typeExpr n (TypeNode.Formed input) (parseType input n))
    (h : Built d .pathType lo p hi) (hn : 2 * d ≤ n + 1) :
    Yields (readable p) (TypeNode.Formed input lo · hi) (parseType input (n + 1) p) := by
  obtain ⟨d, s, t, inner, rfl, rfl, hlo, hhi, hlt, hinner⟩ := h.inner rfl
  simp (disch := decide) [body_eq, ruleBody, fits_seq, fits_opt_rule, fits_rule] at hinner
  obtain ⟨mid, path, hpath, generics, ⟨hgenerics, hle⟩, rfl⟩ := hinner
  have hlt := hlt rfl
  rw [readable_node, List.all_cons]
  refine (parsePath_yields hpath).bind fun segments hsegments => ?_
  cases generics with
  | none => exact .pure ⟨hsegments, _, _, ⟨by omega, hlt, by omega, rfl⟩, Nat.le_of_lt hlt⟩
  | some q =>
    obtain ⟨d, s', t', inner, rfl, rfl, hlo', hhi', -, hinner⟩ := (hgenerics q rfl).inner rfl
    simp (disch := decide) [body_eq, ruleBody, Exp.all, lit, fits_seq, fits_text] at hinner
    obtain ⟨mid', hopen, mid'', hitems, hclose⟩ := hinner
    have hmid := hpath.le
    have hitems := ((fits_typeList hitems).later (by omega : mid'' ≤ s + t.length)).earlier (by omega : s ≤ mid')
      fun _ _ _ _ hle h => h.earlier hle
    rw [Option.toList_some, List.all_cons, List.all_nil, Bool.and_true, readable_node]
    exact (types_yield ih hitems (by omega)).map fun ts hts => ⟨hsegments, _, _, ⟨by omega, hlt, by omega, rfl⟩, hts⟩

end

theorem parseType_yields : ∀ n : Nat, Reads .typeExpr n (TypeNode.Formed input) (parseType input n)
  | 0, _, _, _, _, h, hn => by
    obtain ⟨d, _, _, _, rfl, _⟩ := h.inner rfl
    omega
  | n + 1, d, lo, hi, p, h, hn => by
    have ih := parseType_yields n
    obtain ⟨d, start, text, inner, rfl, rfl, hlo, hhi, -, hinner⟩ := h.inner rfl
    simp (disch := decide) only [body_eq, ruleBody, Exp.any, fits_alt, fits_rule] at hinner
    have key : ∃ q, q.rule ≠ .typeExpr ∧ inner = [q] ∧
        Yields (readable q) (TypeNode.Formed input start · (start + text.length)) (parseType input (n + 1) q) := by
      rcases hinner with ⟨q, hq, rfl⟩ | ⟨q, hq, rfl⟩ | ⟨q, hq, rfl⟩ | ⟨q, hq, rfl⟩
      · exact ⟨q, by rw [hq.rule_eq (by decide)]; decide, rfl, parseType_reference ih hq (by omega)⟩
      · exact ⟨q, by rw [hq.rule_eq (by decide)]; decide, rfl, parseType_array ih hq (by omega)⟩
      · exact ⟨q, by rw [hq.rule_eq (by decide)]; decide, rfl, parseType_tuple ih hq (by omega)⟩
      · exact ⟨q, by rw [hq.rule_eq (by decide)]; decide, rfl, parseType_path ih hq (by omega)⟩
    obtain ⟨q, hrule, rfl, hq⟩ := key
    rw [parseType_typeExpr hrule, readable_node, List.all_cons, List.all_nil, Bool.and_true]
    exact hq.mono fun t ht => ht.widen hlo hhi

end

/-! ## Literals and patterns -/

theorem fits_literal {d lo hi : Nat} {ps : List (Pair Rule)} (h : Fits sylGrammar mayBeEmpty d (.rule .literal) lo ps hi) :
    ∃ p r, ps = [p] ∧ Built d r lo p hi ∧ r ∈ [Rule.string, .boolean, .float, .integer] := by
  rw [fits_silent rfl, body_eq] at h
  simp (disch := decide) only [ruleBody, Exp.any, fits_alt, fits_rule] at h
  rcases h with ⟨p, hp, rfl⟩ | ⟨p, hp, rfl⟩ | ⟨p, hp, rfl⟩ | ⟨p, hp, rfl⟩ <;> exact ⟨p, _, rfl, hp, by decide⟩

/-- The two ways to fail. -/
theorem parseLiteral_yields {d lo hi : Nat} {r : Rule} {p : Pair Rule} (h : Built d r lo p hi)
    (hr : r ∈ [Rule.string, .boolean, .float, .integer]) : Yields (readable p) literalNamed (parseLiteral p) := by
  have hkind : sylGrammar.kind r = .atomic := by
    simp only [List.mem_cons, List.not_mem_nil, or_false] at hr
    rcases hr with rfl | rfl | rfl | rfl <;> rfl
  obtain ⟨start, text, rfl, -⟩ := h.spelt hkind
  rw [readable_node, List.all_nil, Bool.and_true]
  simp only [List.mem_cons, List.not_mem_nil, or_false] at hr
  rcases hr with rfl | rfl | rfl | rfl
  · simp only [parseLiteral, Pair.rule_node, Pair.text_node, literalOk]
    cases jsonString text with
    | none => exact ⟨rfl, rfl⟩
    | some value => exact .pure trivial
  · exact .pure trivial
  · exact .pure trivial
  · simp only [parseLiteral, Pair.rule_node, Pair.text_node, literalOk]
    cases parseInteger text with
    | none => exact ⟨rfl, rfl⟩
    | some value => exact .pure trivial

section
variable {input : List Char}

theorem parsePattern_yields : ∀ n : Nat, Reads .pattern n (Pattern.Formed input) (parsePattern input n)
  | 0, _, _, _, _, h, hn => by
    obtain ⟨d, _, _, _, rfl, _⟩ := h.inner rfl
    omega
  | n + 1, d, lo, hi, p, h, hn => by
    obtain ⟨d, start, text, inner, rfl, rfl, hlo, hhi, hlt, hinner⟩ := h.inner rfl
    have hlt := hlt rfl
    have hplaced : Placed input (pairSpan input (.node .pattern start text inner)) lo start (start + text.length) hi :=
      ⟨hlo, hlt, hhi, rfl⟩
    simp (disch := decide) only [body_eq, ruleBody, Exp.any, fits_alt, fits_rule] at hinner
    rw [readable_node]
    rcases hinner with ⟨q, hq, rfl⟩ | ⟨q, hq, rfl⟩ | ⟨q, hq, rfl⟩ | ⟨q, hq, rfl⟩
    · -- `_`
      obtain ⟨d, s, t, inner, rfl, rfl, -, -, -, hinner⟩ := hq.inner rfl
      simp only [body_eq, ruleBody, wholeWord, lit, fits_seq, fits_text, fits_ban] at hinner
      obtain ⟨_, _, _, ⟨rfl, -⟩, ⟨rfl, -⟩, rfl⟩ := hinner
      exact .pure ⟨_, _, hplaced⟩
    · obtain ⟨d, s, t, inner, rfl, rfl, hlo', hhi', -, hinner⟩ := hq.inner rfl
      simp (disch := decide) [body_eq, ruleBody, Exp.all, lit, fits_seq, fits_text, fits_rule] at hinner
      obtain ⟨mid, path, hpath, fields, ⟨mid', hopen, mid'', hfields, hclose⟩, rfl⟩ := hinner
      have hmid := hpath.le
      have hfields := ((fits_listed_opt (by decide) hfields).later (by omega : mid'' ≤ start + text.length)).earlier
        (by omega : start ≤ mid') fun _ _ _ _ hle h => h.earlier hle
      rw [List.all_cons, List.all_nil, Bool.and_true, readable_node, List.all_cons]
      refine (parsePath_yields hpath).bind fun segments hsegments => ?_
      exact (Yields.mapM hfields fun _ _ _ h => parsePattern_yields n h (by omega)).map fun ps hps =>
        ⟨hsegments, _, _, hplaced, formedPatterns_iff.mpr hps⟩
    · obtain ⟨d, s, t, inner, rfl, rfl, -, -, -, hinner⟩ := hq.inner rfl
      obtain ⟨p, r, rfl, hp, hr⟩ := fits_literal hinner
      rw [List.all_cons, List.all_nil, Bool.and_true, readable_node, List.all_cons, List.all_nil, Bool.and_true]
      exact (parseLiteral_yields hp hr).map fun _ _ => ⟨_, _, hplaced⟩
    · obtain ⟨d, s, t, inner, rfl, rfl, -, -, -, hinner⟩ := hq.inner rfl
      simp (disch := decide) only [body_eq, ruleBody, fits_rule] at hinner
      obtain ⟨path, hpath, rfl⟩ := hinner
      rw [List.all_cons, List.all_nil, Bool.and_true, readable_node, List.all_cons, List.all_nil, Bool.and_true]
      exact (parsePath_yields hpath).map fun segments hsegments => ⟨hsegments, _, _, hplaced⟩

end

end Syl
end Syllog
