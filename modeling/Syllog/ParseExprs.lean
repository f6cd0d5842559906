import Syllog.ParseSound
/-!
# ParseExprs — expressions are built as the grammar says

One lemma for each function of the builder, from the lemmas for all of them with less fuel.
-/
namespace Syllog
namespace Syl

open Hir Peg Ast

/-! ## The tokens of an expression -/

/-- An operand, an operator before one or an operator between two. -/
def Token (d : Nat) (lo : Nat) (p : Pair Rule) (hi : Nat) : Prop :=
  Built d .postfixExpression lo p hi ∨ Built d .prefixOperator lo p hi ∨ ∃ operator, Built d (.op operator) lo p hi

theorem Token.earlier {d lo lo' hi : Nat} {p : Pair Rule} (hle : lo' ≤ lo) (h : Token d lo p hi) : Token d lo' p hi := by
  rcases h with h | h | ⟨operator, h⟩
  · exact .inl (h.earlier hle)
  · exact .inr (.inl (h.earlier hle))
  · exact .inr (.inr ⟨operator, h.earlier hle⟩)

section
variable {d lo mid hi : Nat} {p : Pair Rule} {ps qs : List (Pair Rule)}

theorem role_operand (h : Built d .postfixExpression lo p hi) : role p = none := by
  rw [role, h.rule_eq (by decide)]

theorem role_before (h : Built d .prefixOperator lo p hi) : role p = some (.before 70) := by
  rw [role, h.rule_eq (by decide)]

theorem kind_op (operator : BinaryOperator) : sylGrammar.kind (.op operator) ≠ .silent := by
  change Kind.normal ≠ Kind.silent
  decide

theorem role_between {operator : BinaryOperator} (h : Built d (.op operator) lo p hi) :
    role p = some (.between (10 * level operator)) := by
  rw [role, h.rule_eq (kind_op operator)]

theorem role_pos : ∀ (t : Pair Rule) (power : Nat), role t = some (.between power) → 0 < power := by
  intro t power h
  unfold role at h
  split at h
  · rename_i operator _
    cases h
    cases operator <;> decide
  · cases h
  · cases h

/-- Operators and an operand, then nothing or an operator and what it needs. -/
theorem sequence_operand (hqs : InOrder (Built d .prefixOperator) lo qs mid) (hp : Built d .postfixExpression mid p hi)
    (hps : Pratt.Onward role ps) : Pratt.Sequence role (qs ++ p :: ps) := by
  induction hqs with
  | nil =>
    cases ps with
    | nil => exact .leaf (role_operand (hp.earlier (by assumption)))
    | cons o ps =>
      obtain ⟨power, hpower⟩ := hps
      obtain ⟨q, hq, -, hrest⟩ := hpower o ps rfl
      exact .bin (role_operand hp) hq hrest
  | cons hx _ ih => exact .pre (role_before hx) (ih hp)

/-- Operators before an operand, and the operand. -/
theorem tokens_operand (hqs : InOrder (Built d .prefixOperator) lo qs mid) (hp : InOrder (Token d) mid (p :: ps) hi) :
    InOrder (Token d) lo (qs ++ p :: ps) hi :=
  (hqs.mono fun _ _ _ _ h => Or.inr (.inl h)).append hp fun _ _ _ _ hle h => Token.earlier hle h

theorem fits_infix (h : Fits sylGrammar mayBeEmpty d (.rule .infixOperator) lo ps hi) :
    ∃ p operator, ps = [p] ∧ Built d (.op operator) lo p hi := by
  rw [fits_silent rfl, body_eq] at h
  simp only [ruleBody, List.map, Exp.any, fits_alt, fits_rule (kind_op _)] at h
  rcases h with ⟨p, hp, rfl⟩ | ⟨p, hp, rfl⟩ | ⟨p, hp, rfl⟩ | ⟨p, hp, rfl⟩ | ⟨p, hp, rfl⟩ | ⟨p, hp, rfl⟩ | ⟨p, hp, rfl⟩ |
    ⟨p, hp, rfl⟩ | ⟨p, hp, rfl⟩ | ⟨p, hp, rfl⟩ | ⟨p, hp, rfl⟩ | ⟨p, hp, rfl⟩ | ⟨p, hp, rfl⟩ <;> exact ⟨p, _, rfl, hp⟩

/-- Operators between operands, each with the operand behind it. -/
theorem fits_infixes (h : Fits sylGrammar mayBeEmpty d
    (.star (.all [.rule .infixOperator, .star (.rule .prefixOperator), .rule .postfixExpression])) lo ps hi) :
    InOrder (Token d) lo ps hi ∧ Pratt.Onward role ps := by
  generalize he :
    Exp.star (Exp.all [Exp.rule Rule.infixOperator, .star (.rule .prefixOperator), .rule .postfixExpression]) = e at h
  induction h with
  | starNone hle => exact ⟨.nil hle, Pratt.onward_nil⟩
  | starSome hfirst _ _ ih =>
    cases he
    obtain ⟨hrest, honward⟩ := ih rfl
    simp (disch := decide) only [Exp.all, fits_seq, fits_star_rule, fits_rule] at hfirst
    obtain ⟨_, mid, _, hop, ⟨qs, mid', _, hqs, ⟨p, hp, rfl⟩, rfl⟩, rfl⟩ := hfirst
    obtain ⟨o, operator, rfl, ho⟩ := fits_infix hop
    rw [List.append_assoc, List.append_assoc]
    refine ⟨.cons (.inr (.inr ⟨operator, ho⟩)) (tokens_operand hqs (.cons (.inl hp) hrest)), 10 * level operator,
      fun t rest heq => ?_⟩
    cases heq
    exact ⟨_, role_between ho, Nat.le_refl _, sequence_operand hqs hp honward⟩
  | _ => cases he

/-- The pairs of an expression are tokens, in a sequence. -/
theorem fits_expression (h : Fits sylGrammar mayBeEmpty d (ruleBody .expression) lo ps hi) :
    InOrder (Token d) lo ps hi ∧ Pratt.Sequence role ps := by
  obtain ⟨qs, mid, _, hqs, htail, rfl⟩ := fits_seq.mp h
  obtain ⟨_, mid', rest, hp, hrest, rfl⟩ := fits_seq.mp htail
  rw [fits_rule (by decide)] at hp
  obtain ⟨p, hp, rfl⟩ := hp
  rw [fits_star_rule (by decide)] at hqs
  obtain ⟨htokens, honward⟩ := fits_infixes hrest
  exact ⟨tokens_operand hqs (.cons (.inl hp) htokens), sequence_operand hqs hp honward⟩

end

/-! ## Folding the tree of the tokens -/

section
variable {input : List Char} {d lo hi : Nat} {p : Pair Rule}

/-- A pair takes some text. -/
theorem built_placed (input : List Char) {r : Rule} (hkind : sylGrammar.kind r ≠ .silent) (hreads : mayBeEmpty r = false)
    (h : Built d r lo p hi) :
    Placed input (pairSpan input p) lo p.start p.stop hi := by
  cases hk : sylGrammar.kind r with
  | normal =>
    obtain ⟨_, s, t, inner, -, rfl, hlo, hhi, hlt, -⟩ := h.inner hk
    exact ⟨hlo, hlt hreads, hhi, rfl⟩
  | atomic =>
    obtain ⟨s, t, rfl, hlo, hhi, hlt, -⟩ := h.spelt hk
    exact ⟨hlo, hlt hreads, hhi, rfl⟩
  | silent => exact absurd hk hkind

/-- An expression within two places is at places of its own. -/
theorem formed_tight {e : Expr} (h : Expr.Formed input lo e hi) :
    ∃ a b, Placed input e.span lo a b hi ∧ Expr.Formed input a e b := by
  cases e with
  | mk kind span =>
    obtain ⟨a, b, hplaced, hkind⟩ := h
    exact ⟨a, b, hplaced, a, b, ⟨Nat.le_refl _, hplaced.2.1, Nat.le_refl _, hplaced.2.2.2⟩, hkind⟩

theorem unaryOperator_yields (h : Built d .prefixOperator lo p hi) : Yields (readable p) (fun _ => True) (unaryOperator p) := by
  obtain ⟨d, s, t, inner, rfl, rfl, -, -, -, hinner⟩ := h.inner rfl
  simp (disch := decide) only [body_eq, ruleBody, fits_alt, fits_rule] at hinner
  rcases hinner with ⟨q, hq, rfl⟩ | ⟨q, hq, rfl⟩
  all_goals
    obtain ⟨d, s', t', inner, rfl, rfl, -, -, -, hinner⟩ := hq.inner rfl
    rw [body_eq, ruleBody, lit, fits_text] at hinner
    obtain ⟨rfl, -⟩ := hinner
    exact .pure trivial

theorem mapPrefix_yields {ok : Bool} {mid : Nat} {x : Except LowerError Expr} (h : Built d .prefixOperator lo p mid)
    (hx : Yields ok (Expr.Formed input mid · hi) x) :
    Yields (readable p && ok) (Expr.Formed input lo · hi) (mapPrefix input p x) := by
  obtain ⟨hlo, hlt, hmid, hspan⟩ := built_placed input (by decide) rfl h
  rw [Bool.and_comm]
  refine hx.bind fun e he => (unaryOperator_yields h).map fun unary _ => ?_
  obtain ⟨a, b, ⟨ha, hab, hb, he'⟩, htight⟩ := formed_tight he
  refine ⟨p.start, b, ⟨hlo, by omega, hb, ?_⟩, htight.widen (by omega) (Nat.le_refl _)⟩
  rw [he']
  rfl

theorem mapInfix_yields {ok ok' : Bool} {mid mid' : Nat} {operator : BinaryOperator} {x y : Except LowerError Expr}
    (hx : Yields ok (Expr.Formed input lo · mid) x) (h : Built d (.op operator) mid p mid')
    (hy : Yields ok' (Expr.Formed input mid' · hi) y) :
    Yields (ok && (readable p && ok')) (Expr.Formed input lo · hi) (mapInfix x p y) := by
  have hok : readable p = true := by
    obtain ⟨d, s, t, inner, rfl, rfl, -, -, -, hinner⟩ := h.inner rfl
    rw [body_eq, ruleBody, lit, fits_text] at hinner
    obtain ⟨rfl, -⟩ := hinner
    rfl
  rw [hok, Bool.true_and, mapInfix, h.rule_eq (kind_op operator)]
  refine hx.bind fun left hleft => hy.map fun right hright => ?_
  obtain ⟨a, b, ⟨ha, hab, hb, hspan⟩, hleft⟩ := formed_tight hleft
  obtain ⟨a', b', ⟨ha', hab', hb', hspan'⟩, hright⟩ := formed_tight hright
  have hmid := h.le
  refine ⟨a, b', ⟨ha, by omega, hb', ?_⟩, b, hleft, hright.widen (by omega) (Nat.le_refl _)⟩
  rw [hspan, hspan']
  rfl

/-- The tokens are folded along the tree they are grouped in. -/
theorem fold_yields {n : Nat} {f : Pair Rule → Except LowerError Expr} (hf : Reads .postfixExpression n (Expr.Formed input) f)
    (hn : 2 * d ≤ n) : ∀ (x : Pratt.Tree (Pair Rule)) {lo hi : Nat}, Pratt.Grouped role x → InOrder (Token d) lo x.flatten hi →
      Yields (x.flatten.all readable) (Expr.Formed input lo · hi) (x.fold f (mapPrefix input) mapInfix)
  | .leaf t, lo, hi, hg, hx => by
    cases hx with
    | cons ht hrest =>
      cases hrest with
      | nil hle =>
        rw [Pratt.Tree.flatten, List.all_cons, List.all_nil, Bool.and_true]
        rcases ht with ht | ht | ⟨operator, ht⟩
        · exact (hf ht hn).mono fun e he => he.widen (Nat.le_refl _) hle
        · rw [Pratt.Grouped, role_before ht] at hg
          cases hg
        · rw [Pratt.Grouped, role_between ht] at hg
          cases hg
  | .pre t x, lo, hi, hg, hx => by
    obtain ⟨⟨power, hrole⟩, hg, -⟩ := hg
    rw [Pratt.Tree.flatten, List.all_cons]
    cases hx with
    | cons ht hrest =>
      rcases ht with ht | ht | ⟨operator, ht⟩
      · rw [role_operand ht] at hrole
        cases hrole
      · exact mapPrefix_yields ht (fold_yields hf hn x hg hrest)
      · rw [role_between ht] at hrole
        cases hrole
  | .bin l t r, lo, hi, hg, hx => by
    obtain ⟨⟨power, hrole⟩, hgl, hgr, -⟩ := hg
    rw [Pratt.Tree.flatten, List.all_append, List.all_cons]
    obtain ⟨mid, hl, htr⟩ := hx.split
    cases htr with
    | cons ht hrest =>
      rcases ht with ht | ht | ⟨operator, ht⟩
      · rw [role_operand ht] at hrole
        cases hrole
      · rw [role_before ht] at hrole
        cases hrole
      · exact mapInfix_yields (fold_yields hf hn l hgl hl) ht (fold_yields hf hn r hgr hrest)

end

/-! ## The functions of the builder -/

/-- The rules of `primary`. -/
def primaryRules : List Rule :=
  [.borrowExpression, .awaitExpression, .matchExpression, .arrayExpression, .string, .boolean, .float, .integer, .pathExpression,
    .parenthesized, .block]

theorem primary_kind : ∀ r ∈ primaryRules, sylGrammar.kind r ≠ .silent := by decide

theorem primary_meaningful : ∀ r ∈ primaryRules, isKeyword r = false := by decide

def Suffix (d lo : Nat) (p : Pair Rule) (hi : Nat) : Prop := Built d .callSuffix lo p hi ∨ Built d .fieldSuffix lo p hi

def IsStatement (d lo : Nat) (p : Pair Rule) (hi : Nat) : Prop :=
  Built d .letStatement lo p hi ∨ Built d .returnStatement lo p hi ∨ Built d .expressionStatement lo p hi

/-- What the functions make of the pairs of the grammar, with this much fuel. -/
structure Builds (input : List Char) (n : Nat) : Prop where
  expression : Reads .expression n (Expr.Formed input) (parseExpression input n)
  operand : Reads .postfixExpression n (Expr.Formed input) (parsePostfix input n)
  suffix : ∀ {d lo mid hi : Nat} {e : Expr} {p : Pair Rule}, Expr.Formed input lo e mid → Suffix d mid p hi → 2 * d ≤ n →
    Yields (readable p) (Expr.Formed input lo · hi) (parseSuffix input n e p)
  primary : ∀ r ∈ primaryRules, Reads r n (Expr.Formed input) (parsePrimary input n)
  argument : Reads .callArgument n (CallArgument.Formed input) (parseCallArgument input n)
  match_ : ∀ {d lo hi : Nat} {p : Pair Rule}, Built d .matchExpression lo p hi → 2 * d ≤ n + 1 →
    Yields (readable p) (Expr.Formed input lo · hi) (parseMatch input n p)
  arm : Reads .matchArm n (MatchArm.Formed input) (parseMatchArm input n)
  block : ∀ {d lo hi : Nat} {p : Pair Rule}, Built d .block lo p hi → 2 * d ≤ n + 1 →
    Yields (readable p) (fun b : Block => b.Formed input p.start p.stop) (parseBlock input n p)
  statement : ∀ {d lo hi : Nat} {p : Pair Rule}, IsStatement d lo p hi → 2 * d ≤ n →
    Yields (readable p) (Statement.Formed input lo · hi) (parseStatement input n p)

theorem IsStatement.earlier {d lo lo' hi : Nat} {p : Pair Rule} (hle : lo' ≤ lo) (h : IsStatement d lo p hi) :
    IsStatement d lo' p hi := by
  rcases h with h | h | h
  · exact .inl (h.earlier hle)
  · exact .inr (.inl (h.earlier hle))
  · exact .inr (.inr (h.earlier hle))

theorem fits_primary {d lo hi : Nat} {ps : List (Pair Rule)} (h : Fits sylGrammar mayBeEmpty d (.rule .primary) lo ps hi) :
    ∃ p r, ps = [p] ∧ r ∈ primaryRules ∧ Built d r lo p hi := by
  rw [fits_silent rfl, body_eq] at h
  simp (disch := decide) only [ruleBody, Exp.any, fits_alt, fits_rule] at h
  rcases h with ⟨p, hp, rfl⟩ | ⟨p, hp, rfl⟩ | ⟨p, hp, rfl⟩ | ⟨p, hp, rfl⟩ | h | ⟨p, hp, rfl⟩ | ⟨p, hp, rfl⟩ | ⟨p, hp, rfl⟩
  all_goals first | exact ⟨p, _, rfl, by decide, hp⟩ | skip
  obtain ⟨p, r, rfl, hp, hr⟩ := fits_literal h
  have hmem : ∀ r ∈ [Rule.string, .boolean, .float, .integer], r ∈ primaryRules := by decide
  exact ⟨p, r, rfl, hmem r hr, hp⟩

theorem fits_suffix {d lo hi : Nat} {ps : List (Pair Rule)} (h : Fits sylGrammar mayBeEmpty d (.rule .postfixSuffix) lo ps hi) :
    ∃ p, Suffix d lo p hi ∧ ps = [p] := by
  rw [fits_silent rfl, body_eq] at h
  simp (disch := decide) only [ruleBody, fits_alt, fits_rule] at h
  rcases h with ⟨p, hp, rfl⟩ | ⟨p, hp, rfl⟩
  · exact ⟨p, .inl hp, rfl⟩
  · exact ⟨p, .inr hp, rfl⟩

theorem fits_statement {d lo hi : Nat} {ps : List (Pair Rule)} (h : Fits sylGrammar mayBeEmpty d (.rule .statement) lo ps hi) :
    ∃ p, IsStatement d lo p hi ∧ ps = [p] := by
  rw [fits_silent rfl, body_eq] at h
  simp (disch := decide) only [ruleBody, Exp.any, fits_alt, fits_rule] at h
  rcases h with ⟨p, hp, rfl⟩ | ⟨p, hp, rfl⟩ | ⟨p, hp, rfl⟩
  · exact ⟨p, .inl hp, rfl⟩
  · exact ⟨p, .inr (.inl hp), rfl⟩
  · exact ⟨p, .inr (.inr hp), rfl⟩

section
variable {input : List Char} {n d lo hi : Nat} {p : Pair Rule} (ih : Builds input n)
include ih

theorem parseExpression_step : Reads .expression (n + 1) (Expr.Formed input) (parseExpression input (n + 1)) := by
  intro d lo hi p h hn
  obtain ⟨d, s, t, inner, rfl, rfl, hlo, hhi, -, hinner⟩ := h.inner rfl
  obtain ⟨htokens, hsequence⟩ := fits_expression hinner
  obtain ⟨x, hparse, hgrouped, hflat⟩ := Pratt.parse_of_sequence role_pos hsequence
  rw [readable_node, parseExpression, if_neg (fun h => h rfl)]
  simp only [Pair.inner_node, hparse]
  rw [← hflat] at htokens ⊢
  exact (fold_yields ih.operand (by omega) x hgrouped htokens).mono fun e he => he.widen hlo hhi

/-- Suffixes, from left to right. -/
theorem suffixes_yield (hn : 2 * d ≤ n) : ∀ {ps : List (Pair Rule)} {mid : Nat} {e : Expr}, Expr.Formed input lo e mid →
    InOrder (Suffix d) mid ps hi →
      Yields (ps.all readable) (Expr.Formed input lo · hi) (ps.foldlM (parseSuffix input n) e)
  | [], mid, e, he, hps => by
    cases hps with
    | nil hle => exact .pure (he.widen (Nat.le_refl _) hle)
  | p :: ps, mid, e, he, hps => by
    cases hps with
    | cons hp hps =>
      rw [List.foldlM_cons, List.all_cons]
      exact (ih.suffix he hp hn).bind fun e' he' => suffixes_yield hn he' hps

theorem parsePostfix_step : Reads .postfixExpression (n + 1) (Expr.Formed input) (parsePostfix input (n + 1)) := by
  intro d lo hi p h hn
  obtain ⟨d, s, t, inner, rfl, rfl, hlo, hhi, -, hinner⟩ := h.inner rfl
  obtain ⟨_, mid, suffixes, hprimary, hsuffixes, rfl⟩ := fits_seq.mp hinner
  obtain ⟨q, r, rfl, hr, hq⟩ := fits_primary hprimary
  have hsuffixes := fits_star (fun _ _ _ => fits_suffix) hsuffixes
  have hinner : meaningfulInner (.node .postfixExpression s t ([q] ++ suffixes)) = q :: suffixes := by
    refine meaningful_all fun p hp => ?_
    rw [List.singleton_append, List.mem_cons] at hp
    rcases hp with rfl | hp
    · rw [hq.rule_eq (primary_kind r hr)]
      exact primary_meaningful r hr
    · obtain ⟨lo, hi, hp | hp⟩ := hsuffixes.exists_of_mem hp
      · rw [hp.rule_eq (by decide)]; rfl
      · rw [hp.rule_eq (by decide)]; rfl
  rw [readable_node, parsePostfix, hinner, List.singleton_append, List.all_cons]
  refine (ih.primary r hr hq (by omega)).bind fun e he => ?_
  exact (suffixes_yield ih (by omega) he hsuffixes).mono fun e he => he.widen hlo hhi

theorem parseSuffix_step {mid : Nat} {e : Expr} (he : Expr.Formed input lo e mid) (hp : Suffix d mid p hi)
    (hn : 2 * d ≤ n + 1) : Yields (readable p) (Expr.Formed input lo · hi) (parseSuffix input (n + 1) e p) := by
  obtain ⟨a, b, ⟨ha, hab, hb, hspan⟩, htight⟩ := formed_tight he
  rcases hp with hp | hp
  · obtain ⟨hlo, hlt, hhi, -⟩ := built_placed input (by decide) rfl hp
    obtain ⟨d, s, t, inner, rfl, rfl, -, -, -, hinner⟩ := hp.inner rfl
    simp (disch := decide) [body_eq, ruleBody, Exp.all, lit, fits_seq, fits_text] at hinner
    obtain ⟨first, hopen, last, hitems, hclose⟩ := hinner
    simp only [Pair.start_node, Pair.stop_node] at hlo hlt hhi
    have hitems : InOrder (Built d .callArgument) first inner last := by
      rw [fits_opt, fits_silent rfl] at hitems
      rcases hitems with hitems | ⟨rfl, hle⟩
      · exact fits_listed (by decide) hitems
      · exact .nil hle
    have hitems := (hitems.later (by omega : last ≤ s + t.length)).earlier (by omega : b + 1 ≤ first)
      fun _ _ _ _ hle h => h.earlier hle
    rw [readable_node]
    refine (Yields.mapM hitems fun _ _ _ h => ih.argument h (by omega)).map fun as has => ?_
    refine ⟨a, s + t.length, ⟨ha, by omega, hhi, ?_⟩, b, htight, by omega, formedArguments_iff.mpr has⟩
    rw [hspan]
    rfl
  · obtain ⟨hlo, hlt, hhi, -⟩ := built_placed input (by decide) rfl hp
    obtain ⟨d, s, t, inner, rfl, rfl, -, -, -, hinner⟩ := hp.inner rfl
    simp (disch := decide) [body_eq, ruleBody, lit, fits_seq, fits_text, fits_rule] at hinner
    obtain ⟨first, hdot, name, hname, rfl⟩ := hinner
    simp only [Pair.start_node, Pair.stop_node] at hlo hlt hhi
    rw [readable_node, List.all_cons, List.all_nil, Bool.and_true, readable_atomic rfl (by decide) (by decide) hname]
    refine .pure ⟨a, s + t.length, ⟨ha, by omega, hhi, ?_⟩, built_identifier hname, b, htight, by omega⟩
    rw [hspan]
    rfl

theorem parseCallArgument_step : Reads .callArgument (n + 1) (CallArgument.Formed input) (parseCallArgument input (n + 1)) := by
  intro d lo hi p h hn
  have hplaced := built_placed input (by decide) rfl h
  obtain ⟨d, s, t, inner, rfl, rfl, -, -, -, hinner⟩ := h.inner rfl
  simp (disch := decide) only [body_eq, ruleBody, fits_alt, fits_rule] at hinner
  rw [readable_node]
  rcases hinner with ⟨q, hq, rfl⟩ | ⟨q, hq, rfl⟩
  · obtain ⟨d, s', t', inner, rfl, rfl, hlo', hhi', -, hinner⟩ := hq.inner rfl
    simp (disch := decide) [body_eq, ruleBody, Exp.all, lit, fits_seq, fits_text, fits_rule] at hinner
    obtain ⟨mid, name, hname, mid', value, ⟨hcolon, hvalue⟩, rfl⟩ := hinner
    have hmid := hname.le
    rw [List.all_cons, List.all_nil, Bool.and_true, readable_node, List.all_cons, List.all_cons, List.all_nil, Bool.and_true,
      readable_atomic rfl (by decide) (by decide) hname]
    refine (ih.expression hvalue (by omega)).map fun e he => ⟨?_, s, s + t.length, hplaced, he.widen (by omega) (by omega)⟩
    intro name hmem
    cases hmem
    exact built_identifier hname
  · rw [List.all_cons, List.all_nil, Bool.and_true]
    have hrule := hq.rule_eq (by decide)
    unfold parseCallArgument
    simp only [Pair.inner_node, nextPart, ok_bind, hrule, reduceCtorEq, if_false]
    exact (ih.expression hq (by omega)).map fun e he => ⟨(fun _ h => by cases h), s, s + t.length, hplaced, he⟩

theorem parseMatch_step (h : Built d .matchExpression lo p hi) (hn : 2 * d ≤ n + 1 + 1) :
    Yields (readable p) (Expr.Formed input lo · hi) (parseMatch input (n + 1) p) := by
  have hplaced := built_placed input (by decide) rfl h
  obtain ⟨d, s, t, inner, rfl, rfl, -, -, -, hinner⟩ := h.inner rfl
  simp (disch := decide) [body_eq, ruleBody, Exp.all, lit, Keyword.rule, fits_seq, fits_text, fits_rule, fits_star_rule] at hinner
  obtain ⟨mid, word, hword, mid', value, arms, ⟨hvalue, first, hopen, last, harms, hclose⟩, rfl⟩ := hinner
  have hmeaningful : meaningfulInner (.node .matchExpression s t (word :: value :: arms)) = value :: arms := by
    refine (meaningful_keyword (by rw [hword.rule_eq (by decide)]; rfl)).trans (meaningful_all fun p hp => ?_)
    rcases List.mem_cons.mp hp with rfl | hp
    · rw [hvalue.rule_eq (by decide)]; rfl
    · obtain ⟨lo, hi, hp⟩ := harms.exists_of_mem hp
      rw [hp.rule_eq (by decide)]; rfl
  rw [readable_node, List.all_cons, List.all_cons, readable_atomic rfl (by decide) (by decide) hword, parseMatch, hmeaningful]
  refine (ih.expression hvalue (by omega)).bind fun e he => ?_
  have harms := (harms.later (by omega : last ≤ s + t.length)).earlier (by omega : mid' ≤ first)
    fun _ _ _ _ hle h => h.earlier hle
  refine (Yields.mapM harms fun _ _ _ h => ih.arm h (by omega)).map fun as has => ?_
  have hstart := (built_placed input (by decide) rfl hword).lt
  exact ⟨s, s + t.length, hplaced, mid', he.widen (by omega) (Nat.le_refl _), formedArms_iff.mpr has⟩

/-- The condition of a guard. -/
theorem guard_yields (h : Built d .matchGuard lo p hi) (hn : 2 * d ≤ n + 1) :
    Yields (readable p) (Expr.Formed input lo · hi) (do
      let (condition, _) ← nextPart (meaningfulInner p) "match guard is empty"
      parseExpression input n condition) := by
  obtain ⟨d, s, t, inner, rfl, rfl, hlo, hhi, -, hinner⟩ := h.inner rfl
  simp (disch := decide) [body_eq, ruleBody, Keyword.rule, fits_seq, fits_rule] at hinner
  obtain ⟨mid, word, hword, condition, hcondition, rfl⟩ := hinner
  have hmeaningful : meaningfulInner (.node .matchGuard s t [word, condition]) = [condition] := by
    refine (meaningful_keyword (by rw [hword.rule_eq (by decide)]; rfl)).trans (meaningful_all fun p hp => ?_)
    rw [List.mem_singleton.mp hp, hcondition.rule_eq (by decide)]
    rfl
  have hmid := hword.le
  rw [readable_node, List.all_cons, List.all_cons, List.all_nil, Bool.and_true,
    readable_atomic rfl (by decide) (by decide) hword, hmeaningful]
  exact (ih.expression hcondition (by omega)).mono fun e he => he.widen (by omega) hhi

theorem parseMatchArm_step : Reads .matchArm (n + 1) (MatchArm.Formed input) (parseMatchArm input (n + 1)) := by
  intro d lo hi p h hn
  have hplaced := built_placed input (by decide) rfl h
  obtain ⟨d, s, t, inner, rfl, rfl, -, -, -, hinner⟩ := h.inner rfl
  simp (disch := decide) [body_eq, ruleBody, Exp.all, lit, fits_seq, fits_text, fits_rule, fits_opt_rule,
    fits_separator] at hinner
  obtain ⟨mid, pattern, hpattern, mid', guardPart, mid'', last, body, ⟨⟨hguard, hle⟩, harrow, hbody, hlast⟩, rfl⟩ := hinner
  have hg := fun p h => (hguard p h).rule_eq (by decide)
  have hmeaningful : meaningfulInner (.node .matchArm s t (pattern :: (guardPart.toList ++ [body]))) =
      pattern :: (guardPart.toList ++ [body]) := by
    refine meaningful_all fun p hp => ?_
    simp only [List.mem_cons, List.mem_append, Option.mem_toList, List.not_mem_nil, or_false] at hp
    rcases hp with rfl | hp | rfl
    · rw [hpattern.rule_eq (by decide)]; rfl
    · rw [hg p hp]; rfl
    · rw [hbody.rule_eq (by decide)]; rfl
  have hhead : ∀ p, [body].head? = some p → p.rule ≠ .matchGuard := by simp [hbody.rule_eq (by decide)]
  rw [readable_node, List.all_cons, List.all_append, List.all_cons, List.all_nil, Bool.and_true, parseMatchArm, hmeaningful]
  refine (parsePattern_yields n hpattern (by omega)).bind fun pattern hpattern => ?_
  simp only [takePart_toList hg hhead]
  refine (Yields.option fun p h => guard_yields ih (hguard p h) (by omega)).bind fun guard hguard => ?_
  refine (ih.expression hbody (by omega)).map fun e he => ?_
  exact ⟨s, s + t.length, hplaced, mid, hpattern, mid', formedOption_of hle hguard, he.widen (by omega) (by omega)⟩

theorem parseBlock_step (h : Built d .block lo p hi) (hn : 2 * d ≤ n + 1 + 1) :
    Yields (readable p) (fun b : Block => b.Formed input p.start p.stop) (parseBlock input (n + 1) p) := by
  obtain ⟨d, s, t, inner, rfl, rfl, -, -, -, hinner⟩ := h.inner rfl
  simp (disch := decide) [body_eq, ruleBody, Exp.all, lit, fits_seq, fits_text] at hinner
  obtain ⟨first, hopen, last, hitems, hclose⟩ := hinner
  have hitems := ((fits_star (fun _ _ _ => fits_statement) hitems).later (by omega : last ≤ s + t.length)).earlier hopen
    fun _ _ _ _ hle h => IsStatement.earlier hle h
  rw [readable_node]
  exact (Yields.mapM hitems fun _ _ _ h => ih.statement h (by omega)).map fun ss hss => ⟨rfl, formedStatements_iff.mpr hss⟩

theorem parseLet_yields (h : Built d .letStatement lo p hi) (hn : 2 * d ≤ n + 1) :
    Yields (readable p) (Statement.Formed input lo · hi) (parseStatement input (n + 1) p) := by
  have hplaced := built_placed input (by decide) rfl h
  obtain ⟨d, s, t, inner, rfl, rfl, -, -, -, hinner⟩ := h.inner rfl
  simp (disch := decide) [body_eq, ruleBody, Exp.all, lit, Keyword.rule, fits_seq, fits_text, fits_rule, fits_separator] at hinner
  obtain ⟨mid, word, hword, mid', name, _, mid'', first, last, value, ⟨hname, hdeclared, hequals, hvalue, hlast⟩, rfl⟩ := hinner
  obtain ⟨declared, rfl, hle, hdeclared⟩ := fits_opt_behind (by decide) hdeclared
  have ha := fun p h => (hdeclared p h).rule_eq (by decide)
  have hmeaningful : meaningfulInner (.node .letStatement s t (word :: name :: (declared.toList ++ [value]))) =
      name :: (declared.toList ++ [value]) := by
    refine (meaningful_keyword (by rw [hword.rule_eq (by decide)]; rfl)).trans (meaningful_all fun p hp => ?_)
    simp only [List.mem_cons, List.mem_append, Option.mem_toList, List.not_mem_nil, or_false] at hp
    rcases hp with rfl | hp | rfl
    · rw [hname.rule_eq (by decide)]; rfl
    · rw [ha p hp]; rfl
    · rw [hvalue.rule_eq (by decide)]; rfl
  have hhead : ∀ p, [value].head? = some p → p.rule ≠ .typeExpr := by simp [hvalue.rule_eq (by decide)]
  have hmid := hword.le
  have hmid' := hname.le
  rw [readable_node, List.all_cons, List.all_cons, List.all_append, List.all_cons, List.all_nil, Bool.and_true,
    readable_atomic rfl (by decide) (by decide) hword, readable_atomic rfl (by decide) (by decide) hname]
  unfold parseStatement
  simp only [Pair.rule_node, hmeaningful, takeIdentifier_cons (hname.rule_eq (by decide)), ok_bind, takePart_toList ha hhead]
  refine (Yields.option fun p h => parseType_yields n (hdeclared p h) (by omega)).bind fun ty hty => ?_
  refine (ih.expression hvalue (by omega)).map fun e he => ?_
  exact ⟨built_identifier hname, s, s + t.length, hplaced, mid'', by omega,
    fun t ht => (hty t ht).widen (by omega) (Nat.le_refl _),
    he.widen (by omega) (by omega)⟩

theorem parseStatement_step (h : IsStatement d lo p hi) (hn : 2 * d ≤ n + 1) :
    Yields (readable p) (Statement.Formed input lo · hi) (parseStatement input (n + 1) p) := by
  rcases h with h | h | h
  · exact parseLet_yields ih h hn
  · have hplaced := built_placed input (by decide) rfl h
    obtain ⟨d, s, t, inner, rfl, rfl, -, -, -, hinner⟩ := h.inner rfl
    simp (disch := decide) [body_eq, ruleBody, Exp.all, Keyword.rule, fits_seq, fits_rule, fits_opt_rule,
      fits_separator] at hinner
    obtain ⟨mid, word, hword, mid', value, ⟨⟨hvalue, hle⟩, hlast⟩, rfl⟩ := hinner
    have hmeaningful : meaningfulInner (.node .returnStatement s t (word :: value.toList)) = value.toList := by
      refine (meaningful_keyword (by rw [hword.rule_eq (by decide)]; rfl)).trans (meaningful_all fun p hp => ?_)
      rw [(hvalue p (Option.mem_toList.mp hp)).rule_eq (by decide)]
      rfl
    have hmid := hword.le
    rw [readable_node, List.all_cons, readable_atomic rfl (by decide) (by decide) hword]
    unfold parseStatement
    simp only [Pair.rule_node, hmeaningful, Option.head?_toList]
    refine (Yields.option fun p h => ih.expression (hvalue p h) (by omega)).map fun e he => ?_
    exact ⟨s, s + t.length, hplaced, formedOption_of (by omega) fun e he' => (he e he').widen (by omega) (by omega)⟩
  · have hplaced := built_placed input (by decide) rfl h
    obtain ⟨d, s, t, inner, rfl, rfl, -, -, -, hinner⟩ := h.inner rfl
    simp (disch := decide) [body_eq, ruleBody, fits_seq, fits_rule, fits_separator] at hinner
    obtain ⟨mid, e, he, hle, rfl⟩ := hinner
    rw [readable_node, List.all_cons, List.all_nil, Bool.and_true]
    exact (ih.expression he (by omega)).map fun e he => ⟨s, s + t.length, hplaced, he.widen (Nat.le_refl _) hle⟩

omit ih in
/-- A path alone is a name or a path. -/
theorem parsePrimary_path (h : Built d .pathExpression lo p hi) :
    Yields (readable p) (Expr.Formed input lo · hi) (parsePrimary input (n + 1) p) := by
  have hplaced := built_placed input (by decide) rfl h
  obtain ⟨d, s, t, inner, rfl, rfl, -, -, -, hinner⟩ := h.inner rfl
  simp (disch := decide) only [body_eq, ruleBody, fits_rule] at hinner
  obtain ⟨path, hpath, rfl⟩ := hinner
  rw [readable_node, List.all_cons, List.all_nil, Bool.and_true, ← Bool.and_true (readable path)]
  refine (parsePath_yields hpath).bind fun segments hsegments => ?_
  cases segments with
  | nil => exact absurd rfl hsegments.1
  | cons name rest =>
    cases rest with
    | nil => exact .pure ⟨s, s + t.length, hplaced, hsegments.2 name List.mem_cons_self⟩
    | cons _ _ => exact .pure ⟨s, s + t.length, hplaced, hsegments⟩

omit ih in
theorem parsePrimary_literal {r : Rule} (hr : r ∈ [Rule.string, .boolean, .float, .integer]) (h : Built d r lo p hi) :
    Yields (readable p) (Expr.Formed input lo · hi) (parsePrimary input (n + 1) p) := by
  have hmem : ∀ r ∈ [Rule.string, .boolean, .float, .integer], sylGrammar.kind r ≠ .silent ∧ mayBeEmpty r = false := by decide
  have hplaced := built_placed input (hmem r hr).1 (hmem r hr).2 h
  have hrule := h.rule_eq (hmem r hr).1
  have heq : parsePrimary input (n + 1) p = parseLiteral p >>= fun l => .ok (.mk (.literal l) (pairSpan input p)) := by
    unfold parsePrimary
    simp only [List.mem_cons, List.not_mem_nil, or_false] at hr
    rcases hr with rfl | rfl | rfl | rfl <;> simp only [hrule] <;> rfl
  rw [heq]
  exact (parseLiteral_yields h hr).map fun l hl => ⟨p.start, p.stop, hplaced, hl⟩

theorem parsePrimary_borrow (h : Built d .borrowExpression lo p hi) (hn : 2 * d ≤ n + 1) :
    Yields (readable p) (Expr.Formed input lo · hi) (parsePrimary input (n + 1) p) := by
  have hplaced := built_placed input (by decide) rfl h
  obtain ⟨d, s, t, inner, rfl, rfl, -, -, -, hinner⟩ := h.inner rfl
  simp (disch := decide) [body_eq, ruleBody, Exp.all, lit, Keyword.rule, fits_seq, fits_text, fits_rule, fits_opt_rule] at hinner
  obtain ⟨first, hamp, mid, mark, operand, ⟨⟨hmark, hle⟩, hoperand⟩, rfl⟩ := hinner
  have hm := fun p h => (hmark p h).rule_eq (by decide)
  have hmeaningful : meaningfulInner (.node .borrowExpression s t (mark.toList ++ [operand])) = mark.toList ++ [operand] := by
    refine meaningful_all fun p hp => ?_
    simp only [List.mem_append, Option.mem_toList, List.mem_singleton] at hp
    rcases hp with hp | rfl
    · rw [hm p hp]; rfl
    · rw [hoperand.rule_eq (by decide)]; rfl
  have hhead : ∀ p, [operand].head? = some p → p.rule ≠ .kw .mut := by simp [hoperand.rule_eq (by decide)]
  rw [readable_node, List.all_append, List.all_cons, List.all_nil, Bool.and_true,
    readable_option rfl (by decide) (by decide) hmark]
  unfold parsePrimary
  simp only [Pair.rule_node, hmeaningful, takeMarker_toList hm hhead, popFront_cons, ok_bind]
  exact (ih.expression hoperand (by omega)).map fun e he =>
    ⟨s, s + t.length, hplaced, he.widen (by omega) (Nat.le_refl _)⟩

theorem parsePrimary_await (h : Built d .awaitExpression lo p hi) (hn : 2 * d ≤ n + 1) :
    Yields (readable p) (Expr.Formed input lo · hi) (parsePrimary input (n + 1) p) := by
  have hplaced := built_placed input (by decide) rfl h
  obtain ⟨d, s, t, inner, rfl, rfl, -, -, -, hinner⟩ := h.inner rfl
  simp (disch := decide) [body_eq, ruleBody, Keyword.rule, fits_seq, fits_rule] at hinner
  obtain ⟨mid, word, hword, operand, hoperand, rfl⟩ := hinner
  have hfind : [word, operand].find? (fun part => part.rule = .expression) = some operand := by
    simp [hword.rule_eq (by decide), hoperand.rule_eq (by decide)]
  have hmid := (built_placed input (by decide) rfl hword).lt
  rw [readable_node, List.all_cons, List.all_cons, List.all_nil, Bool.and_true, readable_atomic rfl (by decide) (by decide) hword]
  unfold parsePrimary
  simp only [Pair.rule_node, Pair.inner_node, hfind]
  exact (ih.expression hoperand (by omega)).map fun e he =>
    ⟨s, s + t.length, hplaced, he.widen (by omega) (Nat.le_refl _)⟩

theorem parsePrimary_array (h : Built d .arrayExpression lo p hi) (hn : 2 * d ≤ n + 1) :
    Yields (readable p) (Expr.Formed input lo · hi) (parsePrimary input (n + 1) p) := by
  have hplaced := built_placed input (by decide) rfl h
  obtain ⟨d, s, t, inner, rfl, rfl, -, -, -, hinner⟩ := h.inner rfl
  simp (disch := decide) [body_eq, ruleBody, Exp.all, lit, fits_seq, fits_text] at hinner
  obtain ⟨first, hopen, last, hitems, hclose⟩ := hinner
  have hitems := ((fits_listed_opt (by decide) hitems).later (by omega : last ≤ s + t.length)).earlier hopen
    fun _ _ _ _ hle h => h.earlier hle
  rw [readable_node]
  exact (Yields.mapM hitems fun _ _ _ h => ih.expression h (by omega)).map fun es hes =>
    ⟨s, s + t.length, hplaced, formedItems_iff.mpr hes⟩

/-- What is in parentheses is the expression in them. -/
theorem parsePrimary_parenthesized (h : Built d .parenthesized lo p hi) (hn : 2 * d ≤ n + 1) :
    Yields (readable p) (Expr.Formed input lo · hi) (parsePrimary input (n + 1) p) := by
  obtain ⟨d, s, t, inner, rfl, rfl, hlo, hhi, -, hinner⟩ := h.inner rfl
  simp (disch := decide) [body_eq, ruleBody, Exp.all, lit, fits_seq, fits_text, fits_rule] at hinner
  obtain ⟨first, hopen, last, e, ⟨he, hclose⟩, rfl⟩ := hinner
  rw [readable_node, List.all_cons, List.all_nil, Bool.and_true]
  exact (ih.expression he (by omega)).mono fun e he => he.widen (by omega) (by omega)

theorem parsePrimary_step : ∀ r ∈ primaryRules, Reads r (n + 1) (Expr.Formed input) (parsePrimary input (n + 1)) := by
  intro r hr d lo hi p h hn
  simp only [primaryRules, List.mem_cons, List.not_mem_nil, or_false] at hr
  rcases hr with rfl | rfl | rfl | rfl | rfl | rfl | rfl | rfl | rfl | rfl | rfl
  · exact parsePrimary_borrow ih h hn
  · exact parsePrimary_await ih h hn
  · have hrule := h.rule_eq (by decide)
    unfold parsePrimary
    simp only [hrule]
    exact ih.match_ h hn
  · exact parsePrimary_array ih h hn
  · exact parsePrimary_literal (by decide) h
  · exact parsePrimary_literal (by decide) h
  · exact parsePrimary_literal (by decide) h
  · exact parsePrimary_literal (by decide) h
  · exact parsePrimary_path h
  · exact parsePrimary_parenthesized ih h hn
  · have hrule := h.rule_eq (by decide)
    have hplaced := built_placed input (by decide) rfl h
    unfold parsePrimary
    simp only [hrule]
    exact (ih.block h hn).map fun b hb => ⟨p.start, p.stop, hplaced, hb⟩

end

/-- A pair is one level deep at least. -/
theorem built_pos {d lo hi : Nat} {r : Rule} {p : Pair Rule} (hkind : sylGrammar.kind r ≠ .silent) (h : Built d r lo p hi) :
    0 < d := by
  cases h with
  | normal => exact Nat.succ_pos _
  | atomic => exact Nat.succ_pos _
  | silent hk => exact absurd hk hkind

/-- **Every function of the builder makes of its pairs what the grammar lets them be.** -/
theorem builds (input : List Char) : ∀ n, Builds input n
  | 0 => by
    have never : ∀ {d lo hi : Nat} {r : Rule} {p : Pair Rule}, sylGrammar.kind r ≠ .silent → Built d r lo p hi → ¬2 * d ≤ 1 := by
      intro d lo hi r p hkind h hn
      have hpos := built_pos hkind h
      omega
    refine ⟨fun _ _ _ _ h hn => absurd (Nat.le_succ_of_le hn) (never (by decide) h),
      fun _ _ _ _ h hn => absurd (Nat.le_succ_of_le hn) (never (by decide) h), fun _ h hn => ?_,
      fun r hr _ _ _ _ h hn => absurd (Nat.le_succ_of_le hn) (never (primary_kind r hr) h),
      fun _ _ _ _ h hn => absurd (Nat.le_succ_of_le hn) (never (by decide) h), fun h hn => absurd hn (never (by decide) h),
      fun _ _ _ _ h hn => absurd (Nat.le_succ_of_le hn) (never (by decide) h), fun h hn => absurd hn (never (by decide) h),
      fun h hn => ?_⟩
    · rcases h with h | h <;> exact absurd (Nat.le_succ_of_le hn) (never (by decide) h)
    · rcases h with h | h | h <;> exact absurd (Nat.le_succ_of_le hn) (never (by decide) h)
  | n + 1 => by
    have ih := builds input n
    exact ⟨parseExpression_step ih, parsePostfix_step ih, parseSuffix_step ih, parsePrimary_step ih, parseCallArgument_step ih,
      parseMatch_step ih, parseMatchArm_step ih, parseBlock_step ih, parseStatement_step ih⟩

end Syl
end Syllog
