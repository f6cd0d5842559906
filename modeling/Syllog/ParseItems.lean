import Syllog.ParseExprs
/-!
# ParseItems — items and files are built as the grammar says

The items go the same way, and with them the whole file: it is built unless a literal is at fault, and lies in the text as `Formed`
says.
-/
namespace Syllog
namespace Syl

open Hir Peg Ast

section
variable {r : Rule} {start : Nat} {text : List Char} {visibility : Option (Pair Rule)} {word name : Pair Rule} {rest : List (Pair Rule)}

/-- An item begins with its visibility, its keyword and its name. -/
theorem item_head (hvisibility : ∀ p, visibility = some p → p.rule = .visibility) (hword : isKeyword word.rule = true)
    (hname : name.rule = .identifier) (hrest : ∀ p ∈ rest, isKeyword p.rule = false) :
    takeMarker (meaningfulInner (.node r start text (visibility.toList ++ word :: name :: rest))) .visibility =
      (visibility.isSome, name :: rest) := by
  have hmeaningful : meaningfulInner (.node r start text (visibility.toList ++ word :: name :: rest)) =
      visibility.toList ++ name :: rest := by
    rw [meaningfulInner, Pair.inner_node, List.filter_append, meaningful_toList fun p h => by rw [hvisibility p h]; rfl,
      List.filter_cons, hword, List.filter_eq_self.mpr fun p hp => ?_]
    · rfl
    · rcases List.mem_cons.mp hp with rfl | hp
      · rw [hname]; rfl
      · rw [hrest p hp]; rfl
  rw [hmeaningful]
  refine takeMarker_toList hvisibility fun p hp => ?_
  cases hp
  rw [hname]
  decide

end

section
variable {input : List Char} {n d lo hi : Nat} {p : Pair Rule}

/-- A name, a type and nothing else of note. -/
theorem parseParameter_yields : Reads .parameter n (Parameter.Formed input) (parseParameter input n) := by
  intro d lo hi p h hn
  have hplaced := built_placed input (by decide) rfl h
  obtain ⟨d, s, t, inner, rfl, rfl, -, -, -, hinner⟩ := h.inner rfl
  simp (disch := decide) [body_eq, ruleBody, Exp.all, lit, fits_seq, fits_text, fits_rule] at hinner
  obtain ⟨mid, name, hname, mid', ty, ⟨hcolon, hty⟩, rfl⟩ := hinner
  have hmeaningful : meaningfulInner (.node .parameter s t [name, ty]) = [name, ty] := by
    refine meaningful_all fun p hp => ?_
    simp only [List.mem_cons, List.not_mem_nil, or_false] at hp
    rcases hp with rfl | rfl
    · rw [hname.rule_eq (by decide)]; rfl
    · rw [hty.rule_eq (by decide)]; rfl
  have hmid := hname.le
  rw [readable_node, List.all_cons, List.all_cons, List.all_nil, Bool.and_true, readable_atomic rfl (by decide) (by decide) hname]
  unfold parseParameter
  simp only [hmeaningful, takeIdentifier_cons (hname.rule_eq (by decide)), popFront_cons, ok_bind]
  exact (parseType_yields n hty (by omega)).map fun t ht =>
    ⟨built_identifier hname, s, _, hplaced, ht.widen (by omega) (Nat.le_refl _)⟩

theorem parseParameters_yields (h : Built d .parameters lo p hi) (hn : 2 * d ≤ n) :
    Yields (readable p) (InOrder (Parameter.Formed input) lo · hi) (parseParameters input n p) := by
  obtain ⟨d, s, t, inner, rfl, rfl, hlo, hhi, -, hinner⟩ := h.inner rfl
  simp (disch := decide) [body_eq, ruleBody, Exp.all, lit, fits_seq, fits_text] at hinner
  obtain ⟨first, hopen, last, hitems, hclose⟩ := hinner
  have hitems : InOrder (Built d .parameter) first inner last := by
    rw [fits_opt, fits_silent rfl] at hitems
    rcases hitems with hitems | ⟨rfl, hle⟩
    · exact fits_listed (by decide) hitems
    · exact .nil hle
  have hitems := (hitems.later (by omega : last ≤ hi)).earlier (by omega : lo ≤ first) fun _ _ _ _ hle h => h.earlier hle
  rw [readable_node]
  exact Yields.mapM hitems fun _ _ _ h => parseParameter_yields h (by omega)

theorem parseReturnType_yields : Reads .returnType n (TypeNode.Formed input) (parseReturnType input n) := by
  intro d lo hi p h hn
  obtain ⟨d, s, t, inner, rfl, rfl, hlo, hhi, -, hinner⟩ := h.inner rfl
  simp (disch := decide) [body_eq, ruleBody, lit, fits_seq, fits_text, fits_rule] at hinner
  obtain ⟨mid, harrow, ty, hty, rfl⟩ := hinner
  rw [readable_node, List.all_cons, List.all_nil, Bool.and_true]
  exact (parseType_yields n hty (by omega)).mono fun t ht => ht.widen (by omega) hhi

/-- The pairs of an item behind its name are no keywords. -/
theorem meaningful_of_rule {P : Nat → Pair Rule → Nat → Prop} {ps : List (Pair Rule)} {r : Rule} (hr : isKeyword r = false)
    (hP : ∀ lo p hi, P lo p hi → p.rule = r) (h : InOrder P lo ps hi) : ∀ p ∈ ps, isKeyword p.rule = false := by
  intro p hp
  obtain ⟨lo, hi, hp⟩ := h.exists_of_mem hp
  rw [hP lo p hi hp, hr]

theorem parseProperty_yields : Reads .property n (Property.Formed input) (parseProperty input n) := by
  intro d lo hi p h hn
  have hplaced := built_placed input (by decide) rfl h
  obtain ⟨d, s, t, inner, rfl, rfl, -, -, -, hinner⟩ := h.inner rfl
  simp (disch := decide) [body_eq, ruleBody, Exp.all, lit, fits_seq, fits_text, fits_rule, fits_alt, fits_separator] at hinner
  obtain ⟨mid, name, hname, _, ⟨mid', hcolon, last, hpair, hlast⟩, rfl⟩ := hinner
  have hmid := hname.le
  rw [← exists_or] at hpair
  simp only [← or_and_right] at hpair
  obtain ⟨value, hvalue, rfl⟩ := hpair
  have hmeaningful : meaningfulInner (.node .property s t [name, value]) = [name, value] := by
    refine meaningful_all fun p hp => ?_
    simp only [List.mem_cons, List.not_mem_nil, or_false] at hp
    rcases hp with rfl | rfl
    · rw [hname.rule_eq (by decide)]; rfl
    · rcases hvalue with hvalue | hvalue <;> rw [hvalue.rule_eq (by decide)] <;> rfl
  rw [readable_node, List.all_cons, List.all_cons, List.all_nil, Bool.and_true, readable_atomic rfl (by decide) (by decide) hname]
  unfold parseProperty
  simp only [hmeaningful, takeIdentifier_cons (hname.rule_eq (by decide)), popFront_cons, ok_bind]
  rcases hvalue with hvalue | hvalue
  · obtain ⟨d, s', t', inner, rfl, rfl, hlo, hhi, -, hinner⟩ := hvalue.inner rfl
    simp (disch := decide) [body_eq, ruleBody, Exp.all, lit, fits_seq, fits_text, fits_rule] at hinner
    obtain ⟨mid'', ty, hty, first, operand, ⟨hequals, hoperand⟩, rfl⟩ := hinner
    have hmid'' := hty.le
    rw [readable_node, List.all_cons, List.all_cons, List.all_nil, Bool.and_true]
    simp only [Pair.rule_node, if_true, Pair.inner_node, nextPart, ok_bind]
    refine (parseType_yields n hty (by omega)).bind fun t ht => ?_
    refine ((builds input n).expression hoperand (by omega)).map fun e he => ?_
    refine ⟨built_identifier hname, s, _, hplaced, mid'', by omega, fun u hu => ?_, he.widen (by omega) ?_⟩
    · cases hu
      exact ht.widen (by omega) (Nat.le_refl _)
    · rw [Pair.stop_node]
      omega
  · simp only [hvalue.rule_eq (by decide), reduceCtorEq, if_false]
    refine ((builds input n).expression hvalue (by omega)).map fun e he => ?_
    exact ⟨built_identifier hname, s, _, hplaced, mid', by omega, (fun _ h => by cases h), he.widen (Nat.le_refl _) hlast⟩

theorem parsePropertyBlock_yields (h : Built d .propertyBlock lo p hi) (hn : 2 * d ≤ n) :
    Yields (readable p) (InOrder (Property.Formed input) lo · hi) (parsePropertyBlock input n p) := by
  obtain ⟨d, s, t, inner, rfl, rfl, hlo, hhi, -, hinner⟩ := h.inner rfl
  simp (disch := decide) [body_eq, ruleBody, Exp.all, lit, fits_seq, fits_text, fits_star_rule] at hinner
  obtain ⟨first, hopen, last, hitems, hclose⟩ := hinner
  have hitems := (hitems.later (by omega : last ≤ hi)).earlier (by omega : lo ≤ first) fun _ _ _ _ hle h => h.earlier hle
  rw [readable_node]
  exact Yields.mapM hitems fun _ _ _ h => parseProperty_yields h (by omega)

theorem parseStructField_yields : Reads .structField n (StructField.Formed input) (parseStructField input n) := by
  intro d lo hi p h hn
  have hplaced := built_placed input (by decide) rfl h
  obtain ⟨d, s, t, inner, rfl, rfl, -, -, -, hinner⟩ := h.inner rfl
  simp (disch := decide) [body_eq, ruleBody, Exp.all, lit, fits_seq, fits_text, fits_rule, fits_opt_rule,
    fits_separator] at hinner
  obtain ⟨mid, visibility, ⟨hvisibility, hle⟩, mid', name, first, last, ty, ⟨hname, hcolon, hty, hlast⟩, rfl⟩ := hinner
  have hv := fun p h => (hvisibility p h).rule_eq (by decide)
  have hmeaningful : meaningfulInner (.node .structField s t (visibility.toList ++ [name, ty])) =
      visibility.toList ++ [name, ty] := by
    refine meaningful_all fun p hp => ?_
    simp only [List.mem_append, List.mem_cons, Option.mem_toList, List.not_mem_nil, or_false] at hp
    rcases hp with hp | rfl | rfl
    · rw [hv p hp]; rfl
    · rw [hname.rule_eq (by decide)]; rfl
    · rw [hty.rule_eq (by decide)]; rfl
  have hhead : ∀ p, [name, ty].head? = some p → p.rule ≠ .visibility := by simp [hname.rule_eq (by decide)]
  have hmid := hname.le
  rw [readable_node, List.all_append, readable_option rfl (by decide) (by decide) hvisibility, List.all_cons, List.all_cons,
    List.all_nil, Bool.and_true, readable_atomic rfl (by decide) (by decide) hname]
  unfold parseStructField
  simp only [hmeaningful, takeMarker_toList hv hhead, takeIdentifier_cons (hname.rule_eq (by decide)), popFront_cons, ok_bind]
  exact (parseType_yields n hty (by omega)).map fun t ht =>
    ⟨built_identifier hname, s, _, hplaced, ht.widen (by omega) hlast⟩

theorem parseStruct_yields (h : Built d .structDecl lo p hi) (hn : 2 * d ≤ n) :
    Yields (readable p) (fun node => Item.Formed input lo (.struct node) hi) (parseStruct input n p) := by
  have hplaced := built_placed input (by decide) rfl h
  obtain ⟨d, s, t, inner, rfl, rfl, -, -, -, hinner⟩ := h.inner rfl
  simp (disch := decide) [body_eq, ruleBody, Exp.all, lit, Keyword.rule, fits_seq, fits_text, fits_rule, fits_opt_rule,
    fits_star_rule] at hinner
  obtain ⟨mid, visibility, ⟨hvisibility, hle⟩, mid', word, mid'', name, fields, ⟨hword, hname, first, hopen, last, hfields,
    hclose⟩,
    rfl⟩ := hinner
  have hmid := hword.le
  have hmid' := hname.le
  have hfields := (hfields.later (by omega : last ≤ s + t.length)).earlier (by omega : s ≤ first)
    fun _ _ _ _ hle h => h.earlier hle
  rw [readable_node, List.all_append, readable_option rfl (by decide) (by decide) hvisibility, List.all_cons, List.all_cons,
    readable_atomic rfl (by decide) (by decide) hword, readable_atomic rfl (by decide) (by decide) hname]
  unfold parseStruct
  simp only [item_head (fun p h => (hvisibility p h).rule_eq (by decide)) (by rw [hword.rule_eq (by decide)]; rfl)
      (hname.rule_eq (by decide)) (meaningful_of_rule rfl (fun _ _ _ h => h.rule_eq (by decide)) hfields),
    takeIdentifier_cons (hname.rule_eq (by decide)), ok_bind]
  exact (Yields.mapM hfields fun _ _ _ h => parseStructField_yields h (by omega)).map fun fs hfs =>
    ⟨built_identifier hname, s, _, hplaced, hfs⟩

/-- The types of a variant, where it has some. -/
theorem fits_payload {ps : List (Pair Rule)}
    (h : Fits sylGrammar mayBeEmpty d (.opt (.all [lit "(", .opt (.rule .typeList), lit ")"])) lo ps hi) :
    InOrder (Built d .typeExpr) lo ps hi := by
  rw [fits_opt] at h
  rcases h with h | ⟨rfl, hle⟩
  · simp only [Exp.all, lit, fits_seq, fits_text] at h
    obtain ⟨_, mid, _, ⟨rfl, hopen⟩, ⟨types, mid', _, htypes, ⟨rfl, hclose⟩, rfl⟩, rfl⟩ := h
    rw [List.nil_append, List.append_nil]
    exact ((fits_typeList_opt htypes).later (Nat.le_trans (Nat.le_add_right _ _) hclose)).earlier
      (Nat.le_trans (Nat.le_add_right _ _) hopen) fun _ _ _ _ hle h => h.earlier hle
  · exact .nil hle

theorem parseEnumVariant_yields : Reads .enumVariant n (EnumVariant.Formed input) (parseEnumVariant input n) := by
  intro d lo hi p h hn
  have hplaced := built_placed input (by decide) rfl h
  obtain ⟨d, s, t, inner, rfl, rfl, -, -, -, hinner⟩ := h.inner rfl
  simp (disch := decide) [body_eq, ruleBody, Exp.all, fits_seq, fits_rule, fits_separator] at hinner
  obtain ⟨mid, name, hname, types, ⟨last, htypes, hlast⟩, rfl⟩ := hinner
  have hmid := hname.le
  have htypes := ((fits_payload htypes).later hlast).earlier hmid fun _ _ _ _ hle h => h.earlier hle
  have hmeaningful : meaningfulInner (.node .enumVariant s t (name :: types)) = name :: types := by
    refine meaningful_all fun p hp => ?_
    rcases List.mem_cons.mp hp with rfl | hp
    · rw [hname.rule_eq (by decide)]; rfl
    · exact meaningful_of_rule rfl (fun _ _ _ h => h.rule_eq (by decide)) htypes p hp
  rw [readable_node, List.all_cons, readable_atomic rfl (by decide) (by decide) hname]
  unfold parseEnumVariant
  simp only [hmeaningful, takeIdentifier_cons (hname.rule_eq (by decide)), ok_bind]
  exact (types_yield (parseType_yields n) htypes (by omega)).map fun ts hts => ⟨built_identifier hname, s, _, hplaced, hts⟩

theorem parseEnum_yields (h : Built d .enumDecl lo p hi) (hn : 2 * d ≤ n) :
    Yields (readable p) (fun node => Item.Formed input lo (.enum node) hi) (parseEnum input n p) := by
  have hplaced := built_placed input (by decide) rfl h
  obtain ⟨d, s, t, inner, rfl, rfl, -, -, -, hinner⟩ := h.inner rfl
  simp (disch := decide) [body_eq, ruleBody, Exp.all, lit, Keyword.rule, fits_seq, fits_text, fits_rule, fits_opt_rule,
    fits_star_rule] at hinner
  obtain ⟨mid, visibility, ⟨hvisibility, hle⟩, mid', word, mid'', name, fields, ⟨hword, hname, first, hopen, last, hfields,
    hclose⟩,
    rfl⟩ := hinner
  have hmid := hword.le
  have hmid' := hname.le
  have hfields := (hfields.later (by omega : last ≤ s + t.length)).earlier (by omega : s ≤ first)
    fun _ _ _ _ hle h => h.earlier hle
  rw [readable_node, List.all_append, readable_option rfl (by decide) (by decide) hvisibility, List.all_cons, List.all_cons,
    readable_atomic rfl (by decide) (by decide) hword, readable_atomic rfl (by decide) (by decide) hname]
  unfold parseEnum
  simp only [item_head (fun p h => (hvisibility p h).rule_eq (by decide)) (by rw [hword.rule_eq (by decide)]; rfl)
      (hname.rule_eq (by decide)) (meaningful_of_rule rfl (fun _ _ _ h => h.rule_eq (by decide)) hfields),
    takeIdentifier_cons (hname.rule_eq (by decide)), ok_bind]
  exact (Yields.mapM hfields fun _ _ _ h => parseEnumVariant_yields h (by omega)).map fun fs hfs =>
    ⟨built_identifier hname, s, _, hplaced, hfs⟩

theorem parseStateField_yields : Reads .stateField n (StateField.Formed input) (parseStateField input n) := by
  intro d lo hi p h hn
  have hplaced := built_placed input (by decide) rfl h
  obtain ⟨d, s, t, inner, rfl, rfl, -, -, -, hinner⟩ := h.inner rfl
  simp (disch := decide) [body_eq, ruleBody, Exp.all, lit, fits_seq, fits_text, fits_rule, fits_separator] at hinner
  obtain ⟨mid, name, hname, first, mid', ty, _, ⟨hcolon, hty, last, hvalue, hlast⟩, rfl⟩ := hinner
  obtain ⟨value, rfl, hle, hvalue⟩ := fits_opt_behind (by decide) hvalue
  have hmeaningful : meaningfulInner (.node .stateField s t (name :: ty :: value.toList)) = name :: ty :: value.toList := by
    refine meaningful_all fun p hp => ?_
    simp only [List.mem_cons, Option.mem_toList] at hp
    rcases hp with rfl | rfl | hp
    · rw [hname.rule_eq (by decide)]; rfl
    · rw [hty.rule_eq (by decide)]; rfl
    · rw [(hvalue p hp).rule_eq (by decide)]; rfl
  have hmid := hname.le
  rw [readable_node, List.all_cons, List.all_cons, readable_atomic rfl (by decide) (by decide) hname]
  unfold parseStateField
  simp only [hmeaningful, takeIdentifier_cons (hname.rule_eq (by decide)), popFront_cons, ok_bind, Option.head?_toList]
  refine (parseType_yields n hty (by omega)).bind fun t ht => ?_
  refine (Yields.option fun p h => (builds input n).expression (hvalue p h) (by omega)).map fun e he => ?_
  exact ⟨built_identifier hname, s, _, hplaced, mid', ht.widen (by omega) (Nat.le_refl _),
    formedOption_of (Nat.le_trans hle hlast) fun e he' => (he e he').widen (Nat.le_refl _) hlast⟩

theorem parseState_yields (h : Built d .stateDecl lo p hi) (hn : 2 * d ≤ n) :
    Yields (readable p) (fun node => Item.Formed input lo (.state node) hi) (parseState input n p) := by
  have hplaced := built_placed input (by decide) rfl h
  obtain ⟨d, s, t, inner, rfl, rfl, -, -, -, hinner⟩ := h.inner rfl
  simp (disch := decide) [body_eq, ruleBody, Exp.all, lit, Keyword.rule, fits_seq, fits_text, fits_rule, fits_opt_rule,
    fits_star_rule] at hinner
  obtain ⟨mid, visibility, ⟨hvisibility, hle⟩, mid', word, mid'', name, fields, ⟨hword, hname, first, hopen, last, hfields,
    hclose⟩,
    rfl⟩ := hinner
  have hmid := hword.le
  have hmid' := hname.le
  have hfields := (hfields.later (by omega : last ≤ s + t.length)).earlier (by omega : s ≤ first)
    fun _ _ _ _ hle h => h.earlier hle
  rw [readable_node, List.all_append, readable_option rfl (by decide) (by decide) hvisibility, List.all_cons, List.all_cons,
    readable_atomic rfl (by decide) (by decide) hword, readable_atomic rfl (by decide) (by decide) hname]
  unfold parseState
  simp only [item_head (fun p h => (hvisibility p h).rule_eq (by decide)) (by rw [hword.rule_eq (by decide)]; rfl)
      (hname.rule_eq (by decide)) (meaningful_of_rule rfl (fun _ _ _ h => h.rule_eq (by decide)) hfields),
    takeIdentifier_cons (hname.rule_eq (by decide)), ok_bind]
  exact (Yields.mapM hfields fun _ _ _ h => parseStateField_yields h (by omega)).map fun fs hfs =>
    ⟨built_identifier hname, s, _, hplaced, hfs⟩

theorem parseAgent_yields (h : Built d .agentDecl lo p hi) (hn : 2 * d ≤ n) :
    Yields (readable p) (fun node => Item.Formed input lo (.agent node) hi) (parseAgent input n p) := by
  have hplaced := built_placed input (by decide) rfl h
  obtain ⟨d, s, t, inner, rfl, rfl, -, -, -, hinner⟩ := h.inner rfl
  simp (disch := decide) [body_eq, ruleBody, Exp.all, Keyword.rule, fits_seq, fits_rule, fits_opt_rule] at hinner
  obtain ⟨mid, visibility, ⟨hvisibility, hle⟩, mid', word, mid'', name, body, ⟨hword, hname, hbody⟩, rfl⟩ := hinner
  have hmid := hword.le
  have hmid' := hname.le
  have hrest : ∀ p ∈ [body], isKeyword p.rule = false := by simp [hbody.rule_eq (by decide), isKeyword]
  rw [readable_node, List.all_append, readable_option rfl (by decide) (by decide) hvisibility, List.all_cons, List.all_cons,
    List.all_cons, List.all_nil, Bool.and_true, readable_atomic rfl (by decide) (by decide) hword,
    readable_atomic rfl (by decide) (by decide) hname]
  unfold parseAgent
  simp only [item_head (fun p h => (hvisibility p h).rule_eq (by decide)) (by rw [hword.rule_eq (by decide)]; rfl)
      (hname.rule_eq (by decide)) hrest, takeIdentifier_cons (hname.rule_eq (by decide)), popFront_cons, ok_bind]
  exact (parsePropertyBlock_yields hbody (by omega)).map fun fs hfs =>
    ⟨built_identifier hname, s, _, hplaced, s, .nil (Nat.le_refl _), mid'', by omega, (fun _ h => by cases h), hfs⟩

/-- Parameters, where there are some. -/
theorem optionalParameters_yields {o : Option (Pair Rule)} (ho : ∀ p, o = some p → Built d .parameters lo p hi) (hle : lo ≤ hi)
    (hn : 2 * d ≤ n) :
    Yields (o.toList.all readable) (InOrder (Parameter.Formed input) lo · hi) (optionalParameters input n o) := by
  cases o with
  | none => exact .pure (.nil hle)
  | some p =>
    rw [Option.toList_some, List.all_cons, List.all_nil, Bool.and_true]
    exact parseParameters_yields (ho p rfl) hn

theorem parsePipeline_yields (h : Built d .pipelineDecl lo p hi) (hn : 2 * d ≤ n) :
    Yields (readable p) (fun node => Item.Formed input lo (.pipeline node) hi) (parsePipeline input n p) := by
  have hplaced := built_placed input (by decide) rfl h
  obtain ⟨d, s, t, inner, rfl, rfl, -, -, -, hinner⟩ := h.inner rfl
  simp (disch := decide) [body_eq, ruleBody, Exp.all, Keyword.rule, fits_seq, fits_rule, fits_opt_rule] at hinner
  obtain ⟨mid, visibility, ⟨hvisibility, hle⟩, mid', word, mid'', name, last, parameters, last', result, body,
    ⟨hword, hname, ⟨hparameters, hle'⟩, ⟨hresult, hle''⟩, hbody⟩, rfl⟩ := hinner
  have hp := fun p h => (hparameters p h).rule_eq (by decide)
  have hr := fun p h => (hresult p h).rule_eq (by decide)
  have hb := hbody.rule_eq (by decide)
  have hmid := hword.le
  have hmid' := hname.le
  have hrest : ∀ p ∈ parameters.toList ++ (result.toList ++ [body]), isKeyword p.rule = false := by
    intro p hp'
    simp only [List.mem_append, Option.mem_toList, List.mem_singleton] at hp'
    rcases hp' with hp' | hp' | rfl
    · rw [hp p hp']; rfl
    · rw [hr p hp']; rfl
    · rw [hb]; rfl
  have hhead : ∀ p, [body].head? = some p → p.rule ≠ .returnType := by simp [hb]
  have hhead' : ∀ p, (result.toList ++ [body]).head? = some p → p.rule ≠ .parameters :=
    head_toList (fun p h => by simp [hr p h]) (by simp [hb])
  rw [readable_node, List.all_append, readable_option rfl (by decide) (by decide) hvisibility, List.all_cons, List.all_cons,
    List.all_append, List.all_append, List.all_cons, List.all_nil, Bool.and_true,
    readable_atomic rfl (by decide) (by decide) hword,
    readable_atomic rfl (by decide) (by decide) hname]
  unfold parsePipeline
  simp only [item_head (fun p h => (hvisibility p h).rule_eq (by decide)) (by rw [hword.rule_eq (by decide)]; rfl)
      (hname.rule_eq (by decide)) hrest, takeIdentifier_cons (hname.rule_eq (by decide)), takePart_toList hp hhead',
    takePart_toList hr hhead, popFront_cons, ok_bind]
  refine (optionalParameters_yields hparameters hle' (by omega)).bind fun ps hps => ?_
  refine (Yields.option fun p h => parseReturnType_yields (hresult p h) (by omega)).bind fun ty hty => ?_
  refine (parsePropertyBlock_yields hbody (by omega)).map fun fs hfs => ?_
  exact ⟨built_identifier hname, s, _, hplaced, last, hps.earlier (by omega) fun _ _ _ _ hle h => h.earlier hle,
    last', hle'', hty, hfs⟩

theorem parseSafetyBound_yields (h : Built d .safetyBoundDecl lo p hi) (hn : 2 * d ≤ n) :
    Yields (readable p) (fun node => Item.Formed input lo (.safetyBound node) hi) (parseSafetyBound input n p) := by
  have hplaced := built_placed input (by decide) rfl h
  obtain ⟨d, s, t, inner, rfl, rfl, -, -, -, hinner⟩ := h.inner rfl
  simp (disch := decide) [body_eq, ruleBody, Exp.all, Keyword.rule, fits_seq, fits_rule, fits_opt_rule] at hinner
  obtain ⟨mid, visibility, ⟨hvisibility, hle⟩, mid', word, mid'', name, last, parameters, body,
    ⟨hword, hname, ⟨hparameters, hle'⟩, hbody⟩, rfl⟩ := hinner
  have hp := fun p h => (hparameters p h).rule_eq (by decide)
  have hb := hbody.rule_eq (by decide)
  have hmid := hword.le
  have hmid' := hname.le
  have hrest : ∀ p ∈ parameters.toList ++ [body], isKeyword p.rule = false := by
    intro p hp'
    simp only [List.mem_append, Option.mem_toList, List.mem_singleton] at hp'
    rcases hp' with hp' | rfl
    · rw [hp p hp']; rfl
    · rw [hb]; rfl
  have hhead : ∀ p, [body].head? = some p → p.rule ≠ .parameters := by simp [hb]
  rw [readable_node, List.all_append, readable_option rfl (by decide) (by decide) hvisibility, List.all_cons, List.all_cons,
    List.all_append, List.all_cons, List.all_nil, Bool.and_true, readable_atomic rfl (by decide) (by decide) hword,
    readable_atomic rfl (by decide) (by decide) hname]
  unfold parseSafetyBound
  simp only [item_head (fun p h => (hvisibility p h).rule_eq (by decide)) (by rw [hword.rule_eq (by decide)]; rfl)
      (hname.rule_eq (by decide)) hrest, takeIdentifier_cons (hname.rule_eq (by decide)), takePart_toList hp hhead, popFront_cons,
    ok_bind]
  refine (optionalParameters_yields hparameters hle' (by omega)).bind fun ps hps => ?_
  refine (parsePropertyBlock_yields hbody (by omega)).map fun fs hfs => ?_
  exact ⟨built_identifier hname, s, _, hplaced, last, hps.earlier (by omega) fun _ _ _ _ hle h => h.earlier hle,
    last, Nat.le_refl _, (fun _ h => by cases h), hfs⟩

theorem parseAttribute_yields : Reads .attribute n (fun _ _ _ => True) parseAttribute := by
  intro d lo hi p h hn
  obtain ⟨d, s, t, inner, rfl, rfl, -, -, -, hinner⟩ := h.inner rfl
  simp (disch := decide) [body_eq, ruleBody, Exp.all, lit, fits_seq, fits_text, fits_rule] at hinner
  obtain ⟨first, hopen, last, name, ⟨hname, hclose⟩, rfl⟩ := hinner
  have hmeaningful : meaningfulInner (.node .attribute s t [name]) = [name] := by
    refine meaningful_all fun p hp => ?_
    rw [List.mem_singleton.mp hp, hname.rule_eq (by decide)]
    rfl
  rw [readable_node, List.all_cons, List.all_nil, Bool.and_true, readable_atomic rfl (by decide) (by decide) hname]
  unfold parseAttribute
  simp only [hmeaningful, takeIdentifier_cons (hname.rule_eq (by decide)), ok_bind]
  exact .pure trivial

theorem parseEffectName_yields : Reads .effectName n (fun _ name _ => isIdentifier name = true) parseEffectName := by
  intro d lo hi p h hn
  obtain ⟨d, s, t, inner, rfl, rfl, -, -, -, hinner⟩ := h.inner rfl
  simp (disch := decide) only [body_eq, ruleBody, fits_rule] at hinner
  obtain ⟨name, hname, rfl⟩ := hinner
  rw [readable_node, List.all_cons, List.all_nil, Bool.and_true, readable_atomic rfl (by decide) (by decide) hname]
  exact .pure (built_identifier hname)

theorem parseEffectSet_yields :
    Reads .effectSet n (fun _ names _ => ∀ name ∈ names, isIdentifier name = true) parseEffectSet := by
  intro d lo hi p h hn
  obtain ⟨d, s, t, inner, rfl, rfl, -, -, -, hinner⟩ := h.inner rfl
  simp (disch := decide) [body_eq, ruleBody, Exp.all, lit, fits_seq, fits_text] at hinner
  obtain ⟨first, hbang, mid, hopen, last, hnames, hclose⟩ := hinner
  rw [readable_node]
  refine (Yields.mapM (fits_listed_opt (by decide) hnames) fun _ _ _ h => parseEffectName_yields (n := n) h (by omega)).mono ?_
  intro names hall name hname
  obtain ⟨_, _, h⟩ := hall.exists_of_mem hname
  exact h

/-- The attributes are those in front. -/
theorem attributes_split {qs ps : List (Pair Rule)} (hqs : ∀ p ∈ qs, p.rule = .attribute)
    (hps : ∀ p, ps.head? = some p → p.rule ≠ .attribute) :
    (qs ++ ps).takeWhile (fun part => part.rule = .attribute) = qs ∧
      (qs ++ ps).dropWhile (fun part => part.rule = .attribute) = ps := by
  have hall : ∀ p ∈ qs, decide (p.rule = .attribute) = true := fun p hp => decide_eq_true (hqs p hp)
  rw [List.takeWhile_append_of_pos hall, List.dropWhile_append_of_pos hall]
  cases ps with
  | nil => simp
  | cons p ps =>
    have hne := hps p rfl
    rw [List.takeWhile_cons_of_neg (by simpa using hne), List.dropWhile_cons_of_neg (by simpa using hne), List.append_nil]
    exact ⟨rfl, rfl⟩

theorem parseFunction_yields (h : Built d .functionDecl lo p hi) (hn : 2 * d ≤ n) :
    Yields (readable p) (fun node => Item.Formed input lo (.function node) hi) (parseFunction input n p) := by
  have hplaced := built_placed input (by decide) rfl h
  obtain ⟨d, s, t, inner, rfl, rfl, -, -, -, hinner⟩ := h.inner rfl
  simp (disch := decide) [body_eq, ruleBody, Exp.all, Keyword.rule, fits_seq, fits_rule, fits_opt_rule, fits_star_rule] at hinner
  obtain ⟨attributes, m₀, hattributes, m₁, visibility, m₂, marker, m₃, word, m₄, name, m₅, parameters, m₆, result, m₇,
    effects, body,
    ⟨⟨hvisibility, h₁⟩, ⟨hmarker, h₂⟩, hword, hname, hparameters, ⟨hresult, h₃⟩, ⟨heffects, h₄⟩, hbody⟩, rfl⟩ := hinner
  have hv := fun p h => (hvisibility p h).rule_eq (by decide)
  have hm := fun p h => (hmarker p h).rule_eq (by decide)
  have hr := fun p h => (hresult p h).rule_eq (by decide)
  have he := fun p h => (heffects p h).rule_eq (by decide)
  have hn' := hname.rule_eq (by decide)
  have hp := hparameters.rule_eq (by decide)
  have hb := hbody.rule_eq (by decide)
  have hw := hword.rule_eq (by decide)
  have ha : ∀ p ∈ attributes, p.rule = .attribute := by
    intro p hp
    obtain ⟨lo, hi, hp⟩ := hattributes.exists_of_mem hp
    exact hp.rule_eq (by decide)
  have hmeaningful : meaningfulInner (.node .functionDecl s t (attributes ++ (visibility.toList ++ (marker.toList ++
      word :: name :: parameters :: (result.toList ++ (effects.toList ++ [body])))))) =
        attributes ++ (visibility.toList ++ (marker.toList ++ name :: parameters ::
          (result.toList ++ (effects.toList ++ [body])))) := by
    have hattr : (attributes.filter fun inner => !isKeyword inner.rule) = attributes :=
      List.filter_eq_self.mpr fun p hp => by rw [ha p hp]; rfl
    simp only [meaningfulInner, Pair.inner_node, List.filter_append, List.filter_cons, List.filter_nil, hattr,
      meaningful_toList fun p h => by rw [hv p h]; rfl, meaningful_toList fun p h => by rw [hm p h]; rfl,
      meaningful_toList fun p h => by rw [hr p h]; rfl, meaningful_toList fun p h => by rw [he p h]; rfl, hn', hp, hb, hw]
    rfl
  have hhead₁ : ∀ p, (marker.toList ++ name :: parameters :: (result.toList ++ (effects.toList ++ [body]))).head? = some p →
      p.rule ≠ .visibility := head_toList (fun p h => by simp [hm p h]) (by simp [hn'])
  have hhead₀ : ∀ p, (visibility.toList ++ (marker.toList ++ name :: parameters :: (result.toList ++ (effects.toList ++
      [body])))).head? = some p → p.rule ≠ .attribute :=
    head_toList (fun p h => by simp [hv p h]) (head_toList (fun p h => by simp [hm p h]) (by simp [hn']))
  have hhead₂ : ∀ p, (name :: parameters :: (result.toList ++ (effects.toList ++ [body]))).head? = some p →
      p.rule ≠ .asyncMarker := by simp [hn']
  have hhead₃ : ∀ p, (effects.toList ++ [body]).head? = some p → p.rule ≠ .returnType :=
    head_toList (fun p h => by simp [he p h]) (by simp [hb])
  have hhead₄ : ∀ p, [body].head? = some p → p.rule ≠ .effectSet := by simp [hb]
  have hsplit := attributes_split ha hhead₀
  have hl₀ := hattributes.le fun _ _ _ h => h.le
  have hl₁ := hword.le
  have hl₂ := hname.le
  rw [readable_node, List.all_append, List.all_append, List.all_append, List.all_cons, List.all_cons, List.all_cons,
    List.all_append,
    List.all_append, List.all_cons, List.all_nil, Bool.and_true, readable_option rfl (by decide) (by decide) hvisibility,
    readable_option rfl (by decide) (by decide) hmarker, readable_atomic rfl (by decide) (by decide) hword,
    readable_atomic rfl (by decide) (by decide) hname]
  unfold parseFunction
  simp only [hmeaningful, hsplit.1, hsplit.2, takeMarker_toList hv hhead₁, takeMarker_toList hm hhead₂, takeIdentifier_cons hn',
    popFront_cons, ok_bind, takePart_toList hr hhead₃, takePart_toList he hhead₄]
  refine (Yields.mapM hattributes fun _ _ _ h => parseAttribute_yields (n := n) h (by omega)).bind fun _ _ => ?_
  refine (parseParameters_yields hparameters (by omega)).bind fun ps hps => ?_
  refine (Yields.option fun p h => parseReturnType_yields (hresult p h) (by omega)).bind fun ty hty => ?_
  refine (Yields.option fun p h => parseEffectSet_yields (n := n) (heffects p h) (by omega)).bind fun names hnames => ?_
  refine ((builds input n).block hbody (by omega)).map fun b hblock => ?_
  obtain ⟨hb₁, hb₂, hb₃, -⟩ := built_placed input (by decide) rfl hbody
  refine ⟨built_identifier hname, s, _, hplaced, fun names hn => hnames names hn, m₅, hps.earlier (by omega) fun _ _ _ _ hle h =>
    h.earlier hle, m₆, h₃, hty, body.start, body.stop, by omega, hb₂, hb₃, hblock⟩

/-- The rules of `item`. -/
def itemRules : List Rule := [.structDecl, .enumDecl, .functionDecl, .stateDecl, .agentDecl, .pipelineDecl, .safetyBoundDecl]

theorem fits_item {ps : List (Pair Rule)} (h : Fits sylGrammar mayBeEmpty d (.rule .item) lo ps hi) :
    ∃ p, (∃ r ∈ itemRules, Built d r lo p hi) ∧ ps = [p] := by
  rw [fits_silent rfl, body_eq] at h
  simp (disch := decide) only [ruleBody, Exp.any, fits_alt, fits_rule] at h
  rcases h with ⟨p, hp, rfl⟩ | ⟨p, hp, rfl⟩ | ⟨p, hp, rfl⟩ | ⟨p, hp, rfl⟩ | ⟨p, hp, rfl⟩ | ⟨p, hp, rfl⟩ | ⟨p, hp, rfl⟩ <;>
    exact ⟨p, ⟨_, by decide, hp⟩, rfl⟩

theorem parseItem_yields (h : ∃ r ∈ itemRules, Built d r lo p hi) (hn : 2 * d ≤ n) :
    Yields (readable p) (Item.Formed input lo · hi) (parseItem input n p) := by
  obtain ⟨r, hr, h⟩ := h
  simp only [itemRules, List.mem_cons, List.not_mem_nil, or_false] at hr
  unfold parseItem
  rcases hr with rfl | rfl | rfl | rfl | rfl | rfl | rfl
  · rw [h.rule_eq (by decide)]
    exact (parseStruct_yields h hn).fmap fun _ h => h
  · rw [h.rule_eq (by decide)]
    exact (parseEnum_yields h hn).fmap fun _ h => h
  · rw [h.rule_eq (by decide)]
    exact (parseFunction_yields h hn).fmap fun _ h => h
  · rw [h.rule_eq (by decide)]
    exact (parseState_yields h hn).fmap fun _ h => h
  · rw [h.rule_eq (by decide)]
    exact (parseAgent_yields h hn).fmap fun _ h => h
  · rw [h.rule_eq (by decide)]
    exact (parsePipeline_yields h hn).fmap fun _ h => h
  · rw [h.rule_eq (by decide)]
    exact (parseSafetyBound_yields h hn).fmap fun _ h => h

theorem parseModule_yields (h : Built d .moduleDecl lo p hi) :
    Yields (readable p) (ModuleNode.Formed input lo · hi) (parseModule input p) := by
  have hplaced := built_placed input (by decide) rfl h
  obtain ⟨d, s, t, inner, rfl, rfl, -, -, -, hinner⟩ := h.inner rfl
  simp (disch := decide) [body_eq, ruleBody, Exp.all, Keyword.rule, fits_seq, fits_rule] at hinner
  obtain ⟨mid, word, hword, mid', path, _, ⟨hpath, hseparator⟩, rfl⟩ := hinner
  obtain ⟨rfl, -⟩ := fits_separator_one hseparator
  have hmeaningful : meaningfulInner (.node .moduleDecl s t [word, path]) = [path] := by
    refine (meaningful_keyword (by rw [hword.rule_eq (by decide)]; rfl)).trans (meaningful_all fun p hp => ?_)
    rw [List.mem_singleton.mp hp, hpath.rule_eq (by decide)]
    rfl
  rw [readable_node, List.all_cons, List.all_cons, List.all_nil, Bool.and_true, readable_atomic rfl (by decide) (by decide) hword,
    parseModule, hmeaningful]
  exact (parsePath_yields hpath).map fun path hpath => ⟨hpath, s, _, hplaced⟩

theorem parseUse_yields (h : Built d .useDecl lo p hi) :
    Yields (readable p) (UseNode.Formed input lo · hi) (parseUse input p) := by
  have hplaced := built_placed input (by decide) rfl h
  obtain ⟨d, s, t, inner, rfl, rfl, -, -, -, hinner⟩ := h.inner rfl
  simp (disch := decide) [body_eq, ruleBody, Exp.all, Keyword.rule, fits_seq, fits_rule, fits_opt] at hinner
  obtain ⟨mid, word, hword, mid', path, _, mid'', _, ⟨hpath, halias, hseparator⟩, rfl⟩ := hinner
  obtain ⟨rfl, -⟩ := fits_separator_one hseparator
  have hskip : ∀ ps, meaningfulInner (.node .useDecl s t (word :: path :: ps)) =
      meaningfulInner (.node .useDecl s t (path :: ps)) :=
    fun _ => meaningful_keyword (by rw [hword.rule_eq (by decide)]; rfl)
  rcases halias with ⟨_, as_, has, name, hname, rfl⟩ | ⟨rfl, -⟩
  · have hmeaningful : meaningfulInner (.node .useDecl s t (word :: path :: ([as_, name] ++ []))) = [path, name] := by
      rw [hskip, meaningfulInner, Pair.inner_node]
      simp [hpath.rule_eq (by decide), has.rule_eq (by decide), hname.rule_eq (by decide), isKeyword]
    rw [readable_node, List.all_cons, List.all_cons, List.append_nil, List.all_cons, List.all_cons, List.all_nil,
      readable_atomic rfl (by decide) (by decide) hword, readable_atomic rfl (by decide) (by decide) has,
      readable_atomic rfl (by decide) (by decide) hname, Bool.and_true, Bool.and_true, Bool.and_true]
    rw [List.append_nil] at hmeaningful
    rw [parseUse, hmeaningful]
    refine (parsePath_yields hpath).map fun path hpath => ⟨hpath, fun aliasName h => ?_, s, _, hplaced⟩
    cases h
    exact built_identifier hname
  · have hmeaningful : meaningfulInner (.node .useDecl s t [word, path]) = [path] := by
      refine (hskip []).trans (meaningful_all fun p hp => ?_)
      rw [List.mem_singleton.mp hp, hpath.rule_eq (by decide)]
      rfl
    rw [List.append_nil, readable_node, List.all_cons, List.all_cons, List.all_nil, Bool.and_true,
      readable_atomic rfl (by decide) (by decide) hword, parseUse, hmeaningful]
    exact (parsePath_yields hpath).map fun path hpath => ⟨hpath, (fun _ h => by cases h), s, _, hplaced⟩

/-! ## The file -/

/-- A loop that adds what it makes of every pair is a loop that makes them, with the adding behind it. -/
theorem foldlM_eq {α : Type} {f : Pair Rule → Except LowerError α} {add : SourceFile → α → SourceFile}
    {step : SourceFile → Pair Rule → Except LowerError SourceFile} {ps : List (Pair Rule)}
    (hstep : ∀ file, ∀ p ∈ ps, step file p = f p >>= fun a => .ok (add file a)) (file : SourceFile) :
    ps.foldlM step file = ps.mapM f >>= fun as => .ok (as.foldl add file) := by
  induction ps generalizing file with
  | nil => rfl
  | cons p ps ih =>
    rw [List.foldlM_cons, List.mapM_cons, hstep file p List.mem_cons_self]
    cases f p with
    | error e => rfl
    | ok a =>
      change List.foldlM step (add file a) ps = _
      rw [ih fun file p hp => hstep file p (List.mem_cons_of_mem _ hp)]
      cases ps.mapM f with
      | error e => rfl
      | ok as => rfl

theorem foldl_imports (file : SourceFile) (nodes : List UseNode) :
    nodes.foldl (fun (file : SourceFile) node => { file with imports := file.imports ++ [node] }) file =
      { file with imports := file.imports ++ nodes } := by
  induction nodes generalizing file with
  | nil => simp
  | cons node nodes ih => rw [List.foldl_cons, ih]; simp

theorem foldl_items (file : SourceFile) (items : List Item) :
    items.foldl (fun (file : SourceFile) item => { file with items := file.items ++ [item] }) file =
      { file with items := file.items ++ items } := by
  induction items generalizing file with
  | nil => simp
  | cons item items ih => rw [List.foldl_cons, ih]; simp

/-- The pairs of a file, in their order. -/
theorem fits_program {ps : List (Pair Rule)} (h : Fits sylGrammar mayBeEmpty d (ruleBody .program) lo ps hi) :
    ∃ (module : Option (Pair Rule)) (uses items : List (Pair Rule)) (eoi : Pair Rule) (c e : Nat),
      ps = module.toList ++ (uses ++ (items ++ [eoi])) ∧ (∀ p, module = some p → Built d .moduleDecl lo p c) ∧ lo ≤ c ∧
        InOrder (Built d .useDecl) c uses e ∧ InOrder (fun lo p hi => ∃ r ∈ itemRules, Built d r lo p hi) e items hi ∧
          eoi.rule = .eoi ∧ readable eoi = true := by
  simp (disch := decide) only [ruleBody, Exp.all, fits_seq, fits_start, fits_opt_rule, fits_star_rule, fits_rule] at h
  obtain ⟨_, m₀, _, ⟨rfl, h₀⟩, ⟨_, c, _, ⟨module, hmodule, hle, rfl⟩, ⟨uses, e, _, huses, ⟨items, m, _, hitems, ⟨eoi, heoi, rfl⟩,
    rfl⟩, rfl⟩, rfl⟩, rfl⟩ := h
  have hitems := (fits_star (fun _ _ _ => fits_item) hitems).later heoi.le
  refine ⟨module, uses, items, eoi, c, e, rfl, fun p hp => (hmodule p hp).earlier h₀, Nat.le_trans h₀ hle, huses, hitems,
    heoi.rule_eq (by decide), ?_⟩
  obtain ⟨d, s, t, inner, rfl, rfl, -, -, -, hinner⟩ := heoi.inner rfl
  cases hinner
  rfl

/-- The loop over the pairs of a file. -/
theorem parts_yield {module : Option (Pair Rule)} {uses items : List (Pair Rule)} {eoi : Pair Rule} {c e : Nat} (span : Span)
    (hmodule : ∀ p, module = some p → Built d .moduleDecl 0 p c) (huses : InOrder (Built d .useDecl) c uses e)
    (hitems : InOrder (fun lo p hi => ∃ r ∈ itemRules, Built d r lo p hi) e items input.length) (heoi : eoi.rule = .eoi)
    (hn : 2 * d ≤ n) :
    Yields (module.toList.all readable && (uses.all readable && items.all readable)) (SourceFile.Formed input)
      ((module.toList ++ (uses ++ (items ++ [eoi]))).foldlM (lowerPart input n) ⟨none, [], [], span⟩) := by
  have hfirst : module.toList.foldlM (lowerPart input n) ⟨none, [], [], span⟩ =
      module.mapM (parseModule input) >>= fun m => .ok ⟨m, [], [], span⟩ := by
    cases module with
    | none => rfl
    | some p =>
      rw [Option.toList_some, List.foldlM_cons, lowerPart, (hmodule p rfl).rule_eq (by decide)]
      change (parseModule input p >>= _) >>= _ = (some <$> parseModule input p) >>= _
      cases parseModule input p with
      | error e => rfl
      | ok m => rfl
  have hmiddle : ∀ file : SourceFile, uses.foldlM (lowerPart input n) file =
      uses.mapM (parseUse input) >>= fun nodes => .ok { file with imports := file.imports ++ nodes } := by
    intro file
    have hstep : ∀ file : SourceFile, ∀ p ∈ uses, lowerPart input n file p =
        parseUse input p >>= fun node => .ok { file with imports := file.imports ++ [node] } := by
      intro file p hp
      obtain ⟨lo, hi, hp⟩ := huses.exists_of_mem hp
      rw [lowerPart, hp.rule_eq (by decide)]
      rfl
    rw [foldlM_eq hstep file]
    simp only [foldl_imports]
  have hlast : ∀ file : SourceFile, items.foldlM (lowerPart input n) file =
      items.mapM (parseItem input n) >>= fun nodes => .ok { file with items := file.items ++ nodes } := by
    intro file
    have hstep : ∀ file : SourceFile, ∀ p ∈ items, lowerPart input n file p =
        parseItem input n p >>= fun item => .ok { file with items := file.items ++ [item] } := by
      intro file p hp
      obtain ⟨lo, hi, r, hr, hp⟩ := hitems.exists_of_mem hp
      simp only [itemRules, List.mem_cons, List.not_mem_nil, or_false] at hr
      rcases hr with rfl | rfl | rfl | rfl | rfl | rfl | rfl <;> (rw [lowerPart, hp.rule_eq (by decide)]; rfl)
    rw [foldlM_eq hstep file]
    simp only [foldl_items]
  rw [List.foldlM_append, hfirst]
  simp only [List.foldlM_append, hmiddle, hlast, bind_assoc, List.foldlM_cons, List.foldlM_nil, ok_bind]
  refine (Yields.option fun p h => parseModule_yields (hmodule p h)).bind fun m hm => ?_
  refine (Yields.mapM huses fun _ _ _ h => parseUse_yields h).bind fun us hus => ?_
  have heoi' : ∀ file, lowerPart input n file eoi = .ok file := fun file => by rw [lowerPart, heoi]; rfl
  simp only [heoi', ok_bind]
  exact (Yields.mapM hitems fun _ _ _ h => parseItem_yields h hn).map fun is his => ⟨c, e, hm, hus, his⟩

/-- **The tree of a file is built unless a literal cannot be represented, and lies in the text as it should.** -/
theorem lowerProgram_yields {c : Cursor} {ps : List (Pair Rule)}
    (h : Parses sylGrammar false (.rule .program) ⟨0, input⟩ (some (ps, c))) :
    ∃ p, ps = [p] ∧ Yields (readable p) (SourceFile.Formed input) (lowerProgram input p) := by
  have hend : c.pos ≤ input.length := by
    obtain ⟨s, hs, hpos⟩ := h.reads _ _ rfl
    rw [hpos, show input = s ++ c.rest from hs, List.length_append, Nat.zero_add]
    exact Nat.le_add_right _ _
  have hfits := h.fits sylLayering.known_body ps c rfl rfl (Pair.heights ps) (Nat.le_refl _)
  rw [fits_rule (by decide)] at hfits
  obtain ⟨p, hp, rfl⟩ := hfits
  refine ⟨p, rfl, ?_⟩
  have hheight : Pair.heights [p] = p.height := by simp [Pair.heights]
  rw [hheight] at hp
  obtain ⟨d, s, t, inner, hd, rfl, hlo, hhi, -, hinner⟩ := hp.inner rfl
  obtain ⟨module, uses, items, eoi, c', e, rfl, hmodule, hle, huses, hitems, heoi, hreads⟩ := fits_program hinner
  have hn : 2 * d ≤ 2 * (Pair.node Rule.program s t (module.toList ++ (uses ++ (items ++ [eoi])))).height := by omega
  rw [readable_node, List.all_append, List.all_append, List.all_append, List.all_cons, List.all_nil, hreads, Bool.and_true,
    Bool.and_true]
  exact parts_yield _ (fun p hp => (hmodule p hp).earlier (Nat.zero_le _)) huses
    (hitems.later (Nat.le_trans hhi hend)) heoi hn

end

end Syl
end Syllog
