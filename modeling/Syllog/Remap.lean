import Syllog.Database
import Syllog.AstLower
/-!
# Remap — what moving a module changes

`remap_module` is read through two views of a module: the identities at all its positions, in order, and the module with
every identity blanked out.  The two determine a module (`HirModule.eq_of_ids`), and remapping maps the first and keeps the
second (`remapModule_ids`, `remapModule_erased`).
-/
namespace Syllog
namespace Hir

/-! ## The identities of a tree -/

mutual
def HirPattern.ids : HirPattern → List DefId
  | .binding definition        => [definition]
  | .variant definition fields => definition :: patternIds fields
  | .wildcard                  => []
  | .literal _                 => []
def patternIds : List HirPattern → List DefId
  | []      => []
  | p :: ps => p.ids ++ patternIds ps
end

mutual
def TypedExpr.ids : TypedExpr → List DefId
  | .mk kind _ _ => kind.ids
def HirExprKind.ids : HirExprKind → List DefId
  | .reference definition  => [definition]
  | .array items           => itemIds items
  | .call callee arguments => callee.ids ++ itemIds arguments
  | .field base field      => base.ids ++ [field]
  | .await operand         => operand.ids
  | .borrow _ operand      => operand.ids
  | .unary _ operand       => operand.ids
  | .binary _ left right   => left.ids ++ right.ids
  | .match_ value arms     => value.ids ++ armIds arms
  | .block statements      => statementIds statements
  | .literal _             => []
def itemIds : List TypedExpr → List DefId
  | []      => []
  | e :: es => e.ids ++ itemIds es
def armIds : List HirMatchArm → List DefId
  | []                                        => []
  | .mk pattern (some guard) body _ :: arms => pattern.ids ++ (guard.ids ++ (body.ids ++ armIds arms))
  | .mk pattern none body _ :: arms         => pattern.ids ++ (body.ids ++ armIds arms)
def statementIds : List HirStatement → List DefId
  | []                              => []
  | .let_ definition _ value :: ss => definition :: (value.ids ++ statementIds ss)
  | .return_ (some value) :: ss    => value.ids ++ statementIds ss
  | .return_ none :: ss            => statementIds ss
  | .expression value :: ss        => value.ids ++ statementIds ss
end

def HirDefinitionKind.ids : HirDefinitionKind → List DefId
  | .struct fields     => fields.map (·.id)
  | .state fields      => fields.map (·.id)
  | .enum variants     => variants.map (·.id)
  | .function f        => f.parameters.map (·.id) ++ statementIds f.body
  | .pipeline p        => p.parameters.map (·.id) ++ (p.agent.toList ++ itemIds p.body.toList)
  | .agent             => []
  | .safetyBound       => []

/-- **The identities of a module**, at every position where one occurs, in order. -/
def HirModule.ids (m : HirModule) : List DefId := m.definitions.flatMap fun d => d.id :: d.kind.ids

/-! ## The tree without its identities -/

def blank : DefId := ⟨0, 0⟩

mutual
def HirPattern.erased : HirPattern → HirPattern
  | .binding _        => .binding blank
  | .variant _ fields => .variant blank (erasedPatterns fields)
  | .wildcard         => .wildcard
  | .literal value    => .literal value
def erasedPatterns : List HirPattern → List HirPattern
  | []      => []
  | p :: ps => p.erased :: erasedPatterns ps
end

mutual
def TypedExpr.erased : TypedExpr → TypedExpr
  | .mk kind ty span => .mk kind.erased ty span
def HirExprKind.erased : HirExprKind → HirExprKind
  | .reference _                => .reference blank
  | .array items                => .array (erasedItems items)
  | .call callee arguments      => .call callee.erased (erasedItems arguments)
  | .field base _               => .field base.erased blank
  | .await operand              => .await operand.erased
  | .borrow mutable operand     => .borrow mutable operand.erased
  | .unary operator operand     => .unary operator operand.erased
  | .binary operator left right => .binary operator left.erased right.erased
  | .match_ value arms          => .match_ value.erased (erasedArms arms)
  | .block statements           => .block (erasedStatements statements)
  | .literal value              => .literal value
def erasedItems : List TypedExpr → List TypedExpr
  | []      => []
  | e :: es => e.erased :: erasedItems es
def erasedArms : List HirMatchArm → List HirMatchArm
  | [] => []
  | .mk pattern (some guard) body span :: arms =>
    .mk pattern.erased (some guard.erased) body.erased span :: erasedArms arms
  | .mk pattern none body span :: arms => .mk pattern.erased none body.erased span :: erasedArms arms
def erasedStatements : List HirStatement → List HirStatement
  | []                              => []
  | .let_ _ ty value :: ss         => .let_ blank ty value.erased :: erasedStatements ss
  | .return_ (some value) :: ss    => .return_ (some value.erased) :: erasedStatements ss
  | .return_ none :: ss            => .return_ none :: erasedStatements ss
  | .expression value :: ss        => .expression value.erased :: erasedStatements ss
end

def HirParameter.erased (p : HirParameter) : HirParameter := { p with id := blank }

def HirMember.erased (field : HirMember) : HirMember := { field with id := blank }

def HirVariant.erased (v : HirVariant) : HirVariant := { v with id := blank }

def HirDefinitionKind.erased : HirDefinitionKind → HirDefinitionKind
  | .struct fields     => .struct (fields.map (·.erased))
  | .state fields      => .state (fields.map (·.erased))
  | .enum variants     => .enum (variants.map (·.erased))
  | .function f        => .function { f with
      parameters := f.parameters.map (·.erased), body := erasedStatements f.body }
  | .pipeline p        => .pipeline { p with
      parameters := p.parameters.map (·.erased)
      agent := p.agent.map fun _ => blank
      body := p.body.map (·.erased) }
  | .agent             => .agent
  | .safetyBound       => .safetyBound

def HirDefinition.erased (d : HirDefinition) : HirDefinition := { d with id := blank, kind := d.kind.erased }

/-- **A module without its identities**: everything but what `ids` lists is kept. -/
def HirModule.erased (m : HirModule) : HirModule := { m with definitions := m.definitions.map (·.erased) }

/-! ## The two views determine the tree -/

mutual
theorem HirPattern.eq_of_ids : ∀ {p q : HirPattern} {rest rest' : List DefId},
    p.erased = q.erased → p.ids ++ rest = q.ids ++ rest' → p = q ∧ rest = rest'
  | .binding _, q, rest, rest', he, hi => by
    cases q <;> simp_all [HirPattern.erased, HirPattern.ids]
  | .variant _ fields, q, rest, rest', he, hi => by
    cases q with
    | variant _ others =>
      simp only [HirPattern.erased, HirPattern.ids, HirPattern.variant.injEq, List.cons_append, List.cons.injEq] at he hi
      obtain ⟨rfl, rfl⟩ := patterns_eq_of_ids he.2 hi.2
      exact ⟨by rw [hi.1], rfl⟩
    | _ => simp [HirPattern.erased] at he
  | .wildcard, q, rest, rest', he, hi => by
    cases q <;> simp_all [HirPattern.erased, HirPattern.ids]
  | .literal _, q, rest, rest', he, hi => by
    cases q <;> simp_all [HirPattern.erased, HirPattern.ids]
theorem patterns_eq_of_ids : ∀ {ps qs : List HirPattern} {rest rest' : List DefId},
    erasedPatterns ps = erasedPatterns qs → patternIds ps ++ rest = patternIds qs ++ rest' → ps = qs ∧ rest = rest'
  | [], qs, rest, rest', he, hi => by
    cases qs <;> simp_all [erasedPatterns, patternIds]
  | p :: ps, qs, rest, rest', he, hi => by
    cases qs with
    | nil => simp [erasedPatterns] at he
    | cons q qs =>
      simp only [erasedPatterns, patternIds, List.cons.injEq, List.append_assoc] at he hi
      obtain ⟨rfl, hrest⟩ := HirPattern.eq_of_ids he.1 hi
      obtain ⟨rfl, rfl⟩ := patterns_eq_of_ids he.2 hrest
      exact ⟨rfl, rfl⟩
end

mutual
theorem TypedExpr.eq_of_ids : ∀ {e f : TypedExpr} {rest rest' : List DefId},
    e.erased = f.erased → e.ids ++ rest = f.ids ++ rest' → e = f ∧ rest = rest'
  | .mk kind ty span, .mk kind' ty' span', rest, rest', he, hi => by
    simp only [TypedExpr.erased, TypedExpr.mk.injEq] at he
    obtain ⟨hkind, rfl, rfl⟩ := he
    obtain ⟨rfl, rfl⟩ := HirExprKind.eq_of_ids hkind hi
    exact ⟨rfl, rfl⟩
theorem HirExprKind.eq_of_ids : ∀ {k k' : HirExprKind} {rest rest' : List DefId},
    k.erased = k'.erased → k.ids ++ rest = k'.ids ++ rest' → k = k' ∧ rest = rest'
  | .reference _, k', rest, rest', he, hi => by
    cases k' <;> simp_all [HirExprKind.erased, HirExprKind.ids]
  | .literal _, k', rest, rest', he, hi => by
    cases k' <;> simp_all [HirExprKind.erased, HirExprKind.ids]
  | .array items, k', rest, rest', he, hi => by
    cases k' with
    | array items' =>
      obtain ⟨rfl, rfl⟩ := items_eq_of_ids (HirExprKind.array.inj he) hi
      exact ⟨rfl, rfl⟩
    | _ => simp [HirExprKind.erased] at he
  | .call callee arguments, k', rest, rest', he, hi => by
    cases k' with
    | call callee' arguments' =>
      simp only [HirExprKind.erased, HirExprKind.ids, HirExprKind.call.injEq, List.append_assoc] at he hi
      obtain ⟨rfl, hrest⟩ := TypedExpr.eq_of_ids he.1 hi
      obtain ⟨rfl, rfl⟩ := items_eq_of_ids he.2 hrest
      exact ⟨rfl, rfl⟩
    | _ => simp [HirExprKind.erased] at he
  | .field base field, k', rest, rest', he, hi => by
    cases k' with
    | field base' field' =>
      simp only [HirExprKind.erased, HirExprKind.ids, HirExprKind.field.injEq, List.append_assoc] at he hi
      obtain ⟨rfl, hrest⟩ := TypedExpr.eq_of_ids he.1 hi
      obtain ⟨rfl, rfl⟩ := List.cons.inj hrest
      exact ⟨rfl, rfl⟩
    | _ => simp [HirExprKind.erased] at he
  | .await operand, k', rest, rest', he, hi => by
    cases k' with
    | await operand' =>
      obtain ⟨rfl, rfl⟩ := TypedExpr.eq_of_ids (HirExprKind.await.inj he) hi
      exact ⟨rfl, rfl⟩
    | _ => simp [HirExprKind.erased] at he
  | .borrow mutable operand, k', rest, rest', he, hi => by
    cases k' with
    | borrow mutable' operand' =>
      obtain ⟨rfl, hoperand⟩ := HirExprKind.borrow.inj he
      obtain ⟨rfl, rfl⟩ := TypedExpr.eq_of_ids hoperand hi
      exact ⟨rfl, rfl⟩
    | _ => simp [HirExprKind.erased] at he
  | .unary operator operand, k', rest, rest', he, hi => by
    cases k' with
    | unary operator' operand' =>
      obtain ⟨rfl, hoperand⟩ := HirExprKind.unary.inj he
      obtain ⟨rfl, rfl⟩ := TypedExpr.eq_of_ids hoperand hi
      exact ⟨rfl, rfl⟩
    | _ => simp [HirExprKind.erased] at he
  | .binary operator left right, k', rest, rest', he, hi => by
    cases k' with
    | binary operator' left' right' =>
      simp only [HirExprKind.erased, HirExprKind.ids, HirExprKind.binary.injEq, List.append_assoc] at he hi
      obtain ⟨rfl, hleft, hright⟩ := he
      obtain ⟨rfl, hrest⟩ := TypedExpr.eq_of_ids hleft hi
      obtain ⟨rfl, rfl⟩ := TypedExpr.eq_of_ids hright hrest
      exact ⟨rfl, rfl⟩
    | _ => simp [HirExprKind.erased] at he
  | .match_ value arms, k', rest, rest', he, hi => by
    cases k' with
    | match_ value' arms' =>
      simp only [HirExprKind.erased, HirExprKind.ids, HirExprKind.match_.injEq, List.append_assoc] at he hi
      obtain ⟨rfl, hrest⟩ := TypedExpr.eq_of_ids he.1 hi
      obtain ⟨rfl, rfl⟩ := arms_eq_of_ids he.2 hrest
      exact ⟨rfl, rfl⟩
    | _ => simp [HirExprKind.erased] at he
  | .block statements, k', rest, rest', he, hi => by
    cases k' with
    | block statements' =>
      obtain ⟨rfl, rfl⟩ := statements_eq_of_ids (HirExprKind.block.inj he) hi
      exact ⟨rfl, rfl⟩
    | _ => simp [HirExprKind.erased] at he
theorem items_eq_of_ids : ∀ {es fs : List TypedExpr} {rest rest' : List DefId},
    erasedItems es = erasedItems fs → itemIds es ++ rest = itemIds fs ++ rest' → es = fs ∧ rest = rest'
  | [], fs, rest, rest', he, hi => by
    cases fs <;> simp_all [erasedItems, itemIds]
  | e :: es, fs, rest, rest', he, hi => by
    cases fs with
    | nil => simp [erasedItems] at he
    | cons f fs =>
      simp only [erasedItems, itemIds, List.cons.injEq, List.append_assoc] at he hi
      obtain ⟨rfl, hrest⟩ := TypedExpr.eq_of_ids he.1 hi
      obtain ⟨rfl, rfl⟩ := items_eq_of_ids he.2 hrest
      exact ⟨rfl, rfl⟩
theorem arms_eq_of_ids : ∀ {as bs : List HirMatchArm} {rest rest' : List DefId},
    erasedArms as = erasedArms bs → armIds as ++ rest = armIds bs ++ rest' → as = bs ∧ rest = rest'
  | [], bs, rest, rest', he, hi => by
    match bs with
    | []                       => exact ⟨rfl, hi⟩
    | .mk _ none _ _ :: _      => simp [erasedArms] at he
    | .mk _ (some _) _ _ :: _  => simp [erasedArms] at he
  | .mk pattern none body span :: as, bs, rest, rest', he, hi => by
    match bs with
    | []                                   => simp [erasedArms] at he
    | .mk _ (some _) _ _ :: _              => simp [erasedArms] at he
    | .mk pattern' none body' span' :: bs =>
      simp only [erasedArms, armIds, List.cons.injEq, HirMatchArm.mk.injEq, List.append_assoc] at he hi
      obtain ⟨⟨hpattern, -, hbody, rfl⟩, harms⟩ := he
      obtain ⟨rfl, hrest⟩ := HirPattern.eq_of_ids hpattern hi
      obtain ⟨rfl, hrest₁⟩ := TypedExpr.eq_of_ids hbody hrest
      obtain ⟨rfl, rfl⟩ := arms_eq_of_ids harms hrest₁
      exact ⟨rfl, rfl⟩
  | .mk pattern (some guard) body span :: as, bs, rest, rest', he, hi => by
    match bs with
    | []                                            => simp [erasedArms] at he
    | .mk _ none _ _ :: _                           => simp [erasedArms] at he
    | .mk pattern' (some guard') body' span' :: bs =>
      simp only [erasedArms, armIds, List.cons.injEq, HirMatchArm.mk.injEq, Option.some.injEq, List.append_assoc] at he hi
      obtain ⟨⟨hpattern, hguard, hbody, rfl⟩, harms⟩ := he
      obtain ⟨rfl, hrest⟩ := HirPattern.eq_of_ids hpattern hi
      obtain ⟨rfl, hrest₁⟩ := TypedExpr.eq_of_ids hguard hrest
      obtain ⟨rfl, hrest₂⟩ := TypedExpr.eq_of_ids hbody hrest₁
      obtain ⟨rfl, rfl⟩ := arms_eq_of_ids harms hrest₂
      exact ⟨rfl, rfl⟩
theorem statements_eq_of_ids : ∀ {ss ts : List HirStatement} {rest rest' : List DefId},
    erasedStatements ss = erasedStatements ts → statementIds ss ++ rest = statementIds ts ++ rest' →
      ss = ts ∧ rest = rest'
  | [], ts, rest, rest', he, hi => by
    match ts with
    | []                      => exact ⟨rfl, hi⟩
    | .let_ _ _ _ :: _        => simp [erasedStatements] at he
    | .return_ none :: _      => simp [erasedStatements] at he
    | .return_ (some _) :: _  => simp [erasedStatements] at he
    | .expression _ :: _      => simp [erasedStatements] at he
  | .let_ definition ty value :: ss, ts, rest, rest', he, hi => by
    match ts with
    | []                                  => simp [erasedStatements] at he
    | .return_ none :: _                  => simp [erasedStatements] at he
    | .return_ (some _) :: _              => simp [erasedStatements] at he
    | .expression _ :: _                  => simp [erasedStatements] at he
    | .let_ definition' ty' value' :: ts =>
      simp only [erasedStatements, statementIds, List.cons.injEq, HirStatement.let_.injEq, true_and, List.cons_append,
        List.append_assoc] at he hi
      obtain ⟨⟨rfl, hvalue⟩, hstatements⟩ := he
      obtain ⟨rfl, hi⟩ := hi
      obtain ⟨rfl, hrest⟩ := TypedExpr.eq_of_ids hvalue hi
      obtain ⟨rfl, rfl⟩ := statements_eq_of_ids hstatements hrest
      exact ⟨rfl, rfl⟩
  | .return_ (some value) :: ss, ts, rest, rest', he, hi => by
    match ts with
    | []                             => simp [erasedStatements] at he
    | .return_ none :: _             => simp [erasedStatements] at he
    | .let_ _ _ _ :: _               => simp [erasedStatements] at he
    | .expression _ :: _             => simp [erasedStatements] at he
    | .return_ (some value') :: ts =>
      simp only [erasedStatements, statementIds, List.cons.injEq, HirStatement.return_.injEq, Option.some.injEq,
        List.append_assoc] at he hi
      obtain ⟨rfl, hrest⟩ := TypedExpr.eq_of_ids he.1 hi
      obtain ⟨rfl, rfl⟩ := statements_eq_of_ids he.2 hrest
      exact ⟨rfl, rfl⟩
  | .return_ none :: ss, ts, rest, rest', he, hi => by
    match ts with
    | []                      => simp [erasedStatements] at he
    | .return_ (some _) :: _  => simp [erasedStatements] at he
    | .let_ _ _ _ :: _        => simp [erasedStatements] at he
    | .expression _ :: _      => simp [erasedStatements] at he
    | .return_ none :: ts    =>
      simp only [erasedStatements, statementIds, List.cons.injEq, true_and] at he hi
      obtain ⟨rfl, rfl⟩ := statements_eq_of_ids he hi
      exact ⟨rfl, rfl⟩
  | .expression value :: ss, ts, rest, rest', he, hi => by
    match ts with
    | []                         => simp [erasedStatements] at he
    | .return_ none :: _         => simp [erasedStatements] at he
    | .return_ (some _) :: _     => simp [erasedStatements] at he
    | .let_ _ _ _ :: _           => simp [erasedStatements] at he
    | .expression value' :: ts =>
      simp only [erasedStatements, statementIds, List.cons.injEq, HirStatement.expression.injEq, List.append_assoc] at he hi
      obtain ⟨rfl, hrest⟩ := TypedExpr.eq_of_ids he.1 hi
      obtain ⟨rfl, rfl⟩ := statements_eq_of_ids he.2 hrest
      exact ⟨rfl, rfl⟩
end

theorem map_id_eq_of_ids {α : Type} {id : α → DefId} {erased : α → α}
    (hone : ∀ {x y : α}, erased x = erased y → id x = id y → x = y) : ∀ {xs ys : List α} {rest rest' : List DefId},
      xs.map erased = ys.map erased → xs.map id ++ rest = ys.map id ++ rest' → xs = ys ∧ rest = rest'
  | [], ys, rest, rest', he, hi => by
    cases ys <;> simp_all
  | x :: xs, ys, rest, rest', he, hi => by
    cases ys with
    | nil => simp at he
    | cons y ys =>
      simp only [List.map_cons, List.cons.injEq, List.cons_append] at he hi
      obtain rfl := hone he.1 hi.1
      obtain ⟨rfl, rfl⟩ := map_id_eq_of_ids hone he.2 hi.2
      exact ⟨rfl, rfl⟩

theorem HirParameter.eq_of_id {p q : HirParameter} (he : p.erased = q.erased) (hi : p.id = q.id) : p = q := by
  cases p
  cases q
  simp_all [erased]

theorem HirMember.eq_of_id {p q : HirMember} (he : p.erased = q.erased) (hi : p.id = q.id) : p = q := by
  cases p
  cases q
  simp_all [erased]

theorem HirVariant.eq_of_id {p q : HirVariant} (he : p.erased = q.erased) (hi : p.id = q.id) : p = q := by
  cases p
  cases q
  simp_all [erased]

theorem HirDefinitionKind.eq_of_ids : ∀ {k k' : HirDefinitionKind} {rest rest' : List DefId},
    k.erased = k'.erased → k.ids ++ rest = k'.ids ++ rest' → k = k' ∧ rest = rest'
  | .struct fields, k', rest, rest', he, hi => by
    cases k' with
    | struct fields' =>
      obtain ⟨rfl, rfl⟩ := map_id_eq_of_ids HirMember.eq_of_id (HirDefinitionKind.struct.inj he) hi
      exact ⟨rfl, rfl⟩
    | _ => simp [erased] at he
  | .state fields, k', rest, rest', he, hi => by
    cases k' with
    | state fields' =>
      obtain ⟨rfl, rfl⟩ := map_id_eq_of_ids HirMember.eq_of_id (HirDefinitionKind.state.inj he) hi
      exact ⟨rfl, rfl⟩
    | _ => simp [erased] at he
  | .enum variants, k', rest, rest', he, hi => by
    cases k' with
    | enum variants' =>
      obtain ⟨rfl, rfl⟩ := map_id_eq_of_ids HirVariant.eq_of_id (HirDefinitionKind.enum.inj he) hi
      exact ⟨rfl, rfl⟩
    | _ => simp [erased] at he
  | .function f, k', rest, rest', he, hi => by
    cases k' with
    | function f' =>
      obtain ⟨parameters, result, body, asynchronous, declaredEffects⟩ := f
      obtain ⟨parameters', result', body', asynchronous', declaredEffects'⟩ := f'
      simp only [erased, ids, HirDefinitionKind.function.injEq, HirFunction.mk.injEq, List.append_assoc] at he hi
      obtain ⟨hparameters, rfl, hbody, rfl, rfl⟩ := he
      obtain ⟨rfl, hrest⟩ := map_id_eq_of_ids HirParameter.eq_of_id hparameters hi
      obtain ⟨rfl, rfl⟩ := statements_eq_of_ids hbody hrest
      exact ⟨rfl, rfl⟩
    | _ => simp [erased] at he
  | .pipeline p, k', rest, rest', he, hi => by
    cases k' with
    | pipeline p' =>
      obtain ⟨parameters, result, agent, body⟩ := p
      obtain ⟨parameters', result', agent', body'⟩ := p'
      simp only [erased, ids, HirDefinitionKind.pipeline.injEq, HirPipeline.mk.injEq, List.append_assoc] at he hi
      obtain ⟨hparameters, rfl, hagent, hbody⟩ := he
      obtain ⟨rfl, hrest⟩ := map_id_eq_of_ids HirParameter.eq_of_id hparameters hi
      obtain ⟨rfl, hrest₁⟩ : agent = agent' ∧ itemIds body.toList ++ rest = itemIds body'.toList ++ rest' := by
        cases agent <;> cases agent' <;> simp_all
      have hitems : erasedItems body.toList = erasedItems body'.toList := by
        cases body <;> cases body' <;> simp_all [erasedItems]
      obtain ⟨heq, rfl⟩ := items_eq_of_ids hitems hrest₁
      obtain rfl : body = body' := by
        cases body <;> cases body' <;> simp_all
      exact ⟨rfl, rfl⟩
    | _ => simp [erased] at he
  | .agent, k', rest, rest', he, hi => by
    cases k' <;> simp_all [erased, ids]
  | .safetyBound, k', rest, rest', he, hi => by
    cases k' <;> simp_all [erased, ids]

theorem definitions_eq_of_ids : ∀ {ds es : List HirDefinition},
    ds.map (·.erased) = es.map (·.erased) →
      ds.flatMap (fun d => d.id :: d.kind.ids) = es.flatMap (fun d => d.id :: d.kind.ids) → ds = es
  | [], es, he, _ => by
    cases es <;> simp_all
  | ⟨id, name, kind, span⟩ :: ds, es, he, hi => by
    match es with
    | []                                => simp at he
    | ⟨id', name', kind', span'⟩ :: es =>
      simp only [List.map_cons, HirDefinition.erased, List.cons.injEq, HirDefinition.mk.injEq, List.flatMap_cons,
        List.cons_append, true_and] at he hi
      obtain ⟨⟨rfl, hkind, rfl⟩, hds⟩ := he
      obtain ⟨rfl, hi⟩ := hi
      obtain ⟨rfl, hrest⟩ := HirDefinitionKind.eq_of_ids hkind hi
      rw [definitions_eq_of_ids hds hrest]

/-- **A module is determined by its identities and the rest.** -/
theorem HirModule.eq_of_ids {m m' : HirModule} (he : m.erased = m'.erased) (hi : m.ids = m'.ids) : m = m' := by
  obtain ⟨id, definitions⟩ := m
  obtain ⟨id', definitions'⟩ := m'
  simp only [erased, HirModule.mk.injEq] at he
  obtain ⟨rfl, hdefinitions⟩ := he
  rw [definitions_eq_of_ids hdefinitions hi]

end Hir

namespace Database

open Hir

/-! ## What remapping does to the two views -/

mutual
theorem remapPattern_views (target : Nat) : ∀ p : HirPattern,
    (remapPattern target p).ids = p.ids.map (remapId target) ∧ (remapPattern target p).erased = p.erased
  | .binding _ => ⟨rfl, rfl⟩
  | .variant _ fields => by
    obtain ⟨hids, herased⟩ := remapPatterns_views target fields
    simp [remapPattern, HirPattern.ids, HirPattern.erased, hids, herased]
  | .wildcard => ⟨rfl, rfl⟩
  | .literal _ => ⟨rfl, rfl⟩
theorem remapPatterns_views (target : Nat) : ∀ ps : List HirPattern,
    patternIds (remapPatterns target ps) = (patternIds ps).map (remapId target) ∧
      erasedPatterns (remapPatterns target ps) = erasedPatterns ps
  | [] => ⟨rfl, rfl⟩
  | p :: ps => by
    obtain ⟨hids, herased⟩ := remapPattern_views target p
    obtain ⟨hids', herased'⟩ := remapPatterns_views target ps
    simp [remapPatterns, patternIds, erasedPatterns, hids, herased, hids', herased']
end

mutual
theorem remapExpression_views (target : Nat) : ∀ e : TypedExpr,
    (remapExpression target e).ids = e.ids.map (remapId target) ∧ (remapExpression target e).erased = e.erased
  | .mk kind _ _ => by
    obtain ⟨hids, herased⟩ := remapKind_views target kind
    simp [remapExpression, TypedExpr.ids, TypedExpr.erased, hids, herased]
theorem remapKind_views (target : Nat) : ∀ k : HirExprKind,
    (remapKind target k).ids = k.ids.map (remapId target) ∧ (remapKind target k).erased = k.erased
  | .reference _ => ⟨rfl, rfl⟩
  | .literal _ => ⟨rfl, rfl⟩
  | .array items => by
    obtain ⟨hids, herased⟩ := remapExpressions_views target items
    simp [remapKind, HirExprKind.ids, HirExprKind.erased, hids, herased]
  | .call callee arguments => by
    obtain ⟨hids, herased⟩ := remapExpression_views target callee
    obtain ⟨hids', herased'⟩ := remapExpressions_views target arguments
    simp [remapKind, HirExprKind.ids, HirExprKind.erased, hids, herased, hids', herased']
  | .field base _ => by
    obtain ⟨hids, herased⟩ := remapExpression_views target base
    simp [remapKind, HirExprKind.ids, HirExprKind.erased, hids, herased]
  | .await operand => by
    obtain ⟨hids, herased⟩ := remapExpression_views target operand
    simp [remapKind, HirExprKind.ids, HirExprKind.erased, hids, herased]
  | .borrow _ operand => by
    obtain ⟨hids, herased⟩ := remapExpression_views target operand
    simp [remapKind, HirExprKind.ids, HirExprKind.erased, hids, herased]
  | .unary _ operand => by
    obtain ⟨hids, herased⟩ := remapExpression_views target operand
    simp [remapKind, HirExprKind.ids, HirExprKind.erased, hids, herased]
  | .binary _ left right => by
    obtain ⟨hids, herased⟩ := remapExpression_views target left
    obtain ⟨hids', herased'⟩ := remapExpression_views target right
    simp [remapKind, HirExprKind.ids, HirExprKind.erased, hids, herased, hids', herased']
  | .match_ value arms => by
    obtain ⟨hids, herased⟩ := remapExpression_views target value
    obtain ⟨hids', herased'⟩ := remapArms_views target arms
    simp [remapKind, HirExprKind.ids, HirExprKind.erased, hids, herased, hids', herased']
  | .block statements => by
    obtain ⟨hids, herased⟩ := remapBlock_views target statements
    simp [remapKind, HirExprKind.ids, HirExprKind.erased, hids, herased]
theorem remapExpressions_views (target : Nat) : ∀ es : List TypedExpr,
    itemIds (remapExpressions target es) = (itemIds es).map (remapId target) ∧
      erasedItems (remapExpressions target es) = erasedItems es
  | [] => ⟨rfl, rfl⟩
  | e :: es => by
    obtain ⟨hids, herased⟩ := remapExpression_views target e
    obtain ⟨hids', herased'⟩ := remapExpressions_views target es
    simp [remapExpressions, itemIds, erasedItems, hids, herased, hids', herased']
theorem remapArms_views (target : Nat) : ∀ arms : List HirMatchArm,
    armIds (remapArms target arms) = (armIds arms).map (remapId target) ∧
      erasedArms (remapArms target arms) = erasedArms arms
  | [] => ⟨rfl, rfl⟩
  | .mk pattern (some guard) body _ :: arms => by
    obtain ⟨hpattern, hpattern'⟩ := remapPattern_views target pattern
    obtain ⟨hguard, hguard'⟩ := remapExpression_views target guard
    obtain ⟨hbody, hbody'⟩ := remapExpression_views target body
    obtain ⟨harms, harms'⟩ := remapArms_views target arms
    simp [remapArms, armIds, erasedArms, hpattern, hpattern', hguard, hguard', hbody, hbody', harms, harms']
  | .mk pattern none body _ :: arms => by
    obtain ⟨hpattern, hpattern'⟩ := remapPattern_views target pattern
    obtain ⟨hbody, hbody'⟩ := remapExpression_views target body
    obtain ⟨harms, harms'⟩ := remapArms_views target arms
    simp [remapArms, armIds, erasedArms, hpattern, hpattern', hbody, hbody', harms, harms']
theorem remapBlock_views (target : Nat) : ∀ ss : List HirStatement,
    statementIds (remapBlock target ss) = (statementIds ss).map (remapId target) ∧
      erasedStatements (remapBlock target ss) = erasedStatements ss
  | [] => ⟨rfl, rfl⟩
  | .let_ _ _ value :: ss => by
    obtain ⟨hids, herased⟩ := remapExpression_views target value
    obtain ⟨hids', herased'⟩ := remapBlock_views target ss
    simp [remapBlock, statementIds, erasedStatements, hids, herased, hids', herased']
  | .return_ (some value) :: ss => by
    obtain ⟨hids, herased⟩ := remapExpression_views target value
    obtain ⟨hids', herased'⟩ := remapBlock_views target ss
    simp [remapBlock, statementIds, erasedStatements, hids, herased, hids', herased']
  | .return_ none :: ss => by
    obtain ⟨hids, herased⟩ := remapBlock_views target ss
    simp [remapBlock, statementIds, erasedStatements, hids, herased]
  | .expression value :: ss => by
    obtain ⟨hids, herased⟩ := remapExpression_views target value
    obtain ⟨hids', herased'⟩ := remapBlock_views target ss
    simp [remapBlock, statementIds, erasedStatements, hids, herased, hids', herased']
end

theorem remapDefinition_ids (target : Nat) (d : HirDefinition) :
    (remapDefinition target d).id = remapId target d.id ∧
      (remapDefinition target d).kind.ids = d.kind.ids.map (remapId target) := by
  refine ⟨rfl, ?_⟩
  obtain ⟨id, name, kind, span⟩ := d
  cases kind with
  | struct fields | state fields | enum variants =>
    simp [remapDefinition, HirDefinitionKind.ids, remapMember]
  | function f => simp [remapDefinition, HirDefinitionKind.ids, remapParameter, (remapBlock_views target f.body).1]
  | pipeline p =>
    have hbody : itemIds (p.body.map (remapExpression target)).toList = (itemIds p.body.toList).map (remapId target) := by
      cases p.body with
      | none => rfl
      | some body => simp [itemIds, (remapExpression_views target body).1]
    have hagent : (p.agent.map (remapId target)).toList = p.agent.toList.map (remapId target) := by
      cases p.agent <;> rfl
    simp [remapDefinition, HirDefinitionKind.ids, remapParameter, hbody, hagent]
  | agent | safetyBound => rfl

theorem remapDefinition_erased (target : Nat) (d : HirDefinition) : (remapDefinition target d).erased = d.erased := by
  obtain ⟨id, name, kind, span⟩ := d
  cases kind with
  | struct fields | state fields =>
    simp [remapDefinition, HirDefinition.erased, HirDefinitionKind.erased, remapMember, HirMember.erased]
  | enum variants => simp [remapDefinition, HirDefinition.erased, HirDefinitionKind.erased, HirVariant.erased]
  | function f =>
    simp [remapDefinition, HirDefinition.erased, HirDefinitionKind.erased, remapParameter, HirParameter.erased,
      (remapBlock_views target f.body).2]
  | pipeline p =>
    have hbody : (p.body.map (remapExpression target)).map (·.erased) = p.body.map (·.erased) := by
      cases p.body with
      | none => rfl
      | some body => simp [(remapExpression_views target body).2]
    simp only [remapDefinition, HirDefinition.erased, HirDefinitionKind.erased, hbody, Option.map_map]
    simp [remapParameter, HirParameter.erased, Function.comp_def]
  | agent | safetyBound => rfl

/-- **Every identity is remapped**, at every position. -/
theorem remapModule_ids (target : Nat) (m : HirModule) : (remapModule target m).ids = m.ids.map (remapId target) := by
  have hone : ∀ d ∈ m.definitions, (remapDefinition target d).id :: (remapDefinition target d).kind.ids =
      (d.id :: d.kind.ids).map (remapId target) := by
    intro d _
    rw [(remapDefinition_ids target d).1, (remapDefinition_ids target d).2, List.map_cons]
  unfold HirModule.ids remapModule
  rw [List.flatMap_map, List.map_flatMap]
  exact List.flatMap_congr hone

/-- **Nothing but the identities changes**, and the module is the target. -/
theorem remapModule_erased (target : Nat) (m : HirModule) :
    (remapModule target m).erased = { m.erased with id := target } := by
  simp [remapModule, HirModule.erased, remapDefinition_erased]

/-! ## References stay attached -/

open AstLower (builtinModule)

/-- As lowering leaves a module: every identity is in module 0 or builtin. -/
def Unplaced (m : HirModule) : Prop := ∀ id ∈ m.ids, id.module = 0 ∨ id.module = builtinModule

/-- Off the target, `remap_id` is injective on the identities of an unplaced module. -/
theorem remapId_inj {target : Nat} (htarget : target ≠ builtinModule) {a b : DefId}
    (ha : a.module = 0 ∨ a.module = builtinModule) (hb : b.module = 0 ∨ b.module = builtinModule)
    (h : remapId target a = remapId target b) : a = b := by
  obtain ⟨module, index⟩ := a
  obtain ⟨module', index'⟩ := b
  dsimp only at ha hb
  have hne : builtinModule ≠ 0 := by decide
  rcases ha with rfl | rfl <;> rcases hb with rfl | rfl <;>
    simp only [remapId, ↓reduceIte, hne, DefId.mk.injEq, true_and] at h
  · rw [h]
  · exact absurd h.1 htarget
  · exact absurd h.1.symm htarget
  · rw [h]

theorem remapId_module {target : Nat} {id : DefId} (h : id.module = 0 ∨ id.module = builtinModule) :
    (remapId target id).module = target ∨ (remapId target id).module = builtinModule := by
  rcases h with h | h
  · exact .inl (by simp [remapId, h])
  · exact .inr (by simp [remapId, h, builtinModule])

/-- **Remapping keeps references attached to declarations.**  The remapped module is the one that differs in the module
component of the identities of module 0, wherever one occurs, and is the target; two occurrences are equal after it exactly
when they were before, and modules with different targets share builtin identities only. -/
theorem remapModule_attached (target : Nat) (htarget : target ≠ builtinModule) (m : HirModule) (hm : Unplaced m) :
    (∀ placed, placed = remapModule target m ↔
      placed.ids = m.ids.map (fun id => if id.module = 0 then ⟨target, id.index⟩ else id) ∧
        placed.erased = { m.erased with id := target }) ∧
    (∀ i j : Nat, (remapModule target m).ids[i]? = (remapModule target m).ids[j]? ↔ m.ids[i]? = m.ids[j]?) ∧
    ∀ other ≠ target, other ≠ builtinModule → ∀ m', Unplaced m' →
      ∀ id ∈ (remapModule target m).ids, id ∈ (remapModule other m').ids → id.module = builtinModule := by
  refine ⟨fun placed => ⟨?_, ?_⟩, fun i j => ?_, fun other hother hbuiltin m' hm' id hid hid' => ?_⟩
  · rintro rfl
    exact ⟨remapModule_ids target m, remapModule_erased target m⟩
  · rintro ⟨hids, herased⟩
    exact HirModule.eq_of_ids (herased.trans (remapModule_erased target m).symm)
      (hids.trans (remapModule_ids target m).symm)
  · rw [remapModule_ids, List.getElem?_map, List.getElem?_map]
    refine ⟨fun h => ?_, fun h => by rw [h]⟩
    cases hi : m.ids[i]? with
    | none =>
      rw [hi, Option.map_none] at h
      exact (Option.map_eq_none_iff.mp h.symm).symm
    | some a =>
      rw [hi, Option.map_some] at h
      obtain ⟨b, hj, heq⟩ := Option.map_eq_some_iff.mp h.symm
      rw [hj, remapId_inj htarget (hm a (List.mem_of_getElem? hi)) (hm b (List.mem_of_getElem? hj)) heq.symm]
  · rw [remapModule_ids] at hid hid'
    obtain ⟨a, ha, rfl⟩ := List.mem_map.mp hid
    obtain ⟨b, hb, heq⟩ := List.mem_map.mp hid'
    have hmodule : (remapId other b).module = (remapId target a).module := by rw [heq]
    rcases @remapId_module target a (hm a ha) with hplaced | hplaced
    · rcases @remapId_module other b (hm' b hb) with hplaced' | hplaced'
      · exact absurd (hplaced'.symm.trans (hmodule.trans hplaced)) hother
      · exact hmodule ▸ hplaced'
    · exact hplaced

/-- A pipeline over one agent, whose body reads the parameter and `Option::none`. -/
def onePipeline : HirModule where
  id := 0
  definitions := [
    ⟨⟨0, 0⟩, "agent", .agent, default⟩,
    ⟨⟨0, 1⟩, "ask", .pipeline {
      parameters := [⟨⟨0, 2⟩, .unit, default⟩]
      result := .unit
      agent := some ⟨0, 0⟩
      body := some (.mk (.call (.mk (.reference ⟨0, 2⟩) .unit default)
        [.mk (.reference ⟨builtinModule, 1⟩) .unit default]) .unit default) }, default⟩]

theorem onePipeline_attached :
    (∀ placed, placed = remapModule 3 onePipeline ↔
      placed.ids = [⟨3, 0⟩, ⟨3, 1⟩, ⟨3, 2⟩, ⟨3, 0⟩, ⟨3, 2⟩, ⟨builtinModule, 1⟩] ∧
        placed.erased = { onePipeline.erased with id := 3 }) ∧
    ∀ id ∈ (remapModule 3 onePipeline).ids, id ∈ (remapModule 4 onePipeline).ids → id.module = builtinModule := by
  have hunplaced : Unplaced onePipeline := by
    unfold Unplaced
    decide
  obtain ⟨hexact, -, hshared⟩ := remapModule_attached 3 (by decide) onePipeline hunplaced
  exact ⟨hexact, hshared 4 (by decide) (by decide) onePipeline hunplaced⟩

end Database
end Syllog
