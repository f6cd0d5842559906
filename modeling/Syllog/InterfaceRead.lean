import Syllog.Interface
/-!
# InterfaceRead — an importing file reads an item by its interface

An item that is imported is entered with its kind and the types of its signature.  Two items that are the same but for
positions leave the same tables, but for the positions of the symbols, and report the same at corresponding positions; and
nothing that is checked afterwards reads the position of a symbol.  So the analysis of the file is the same
(`analyzeWithImports_like`).
-/
namespace Syllog
namespace Ast

open Hir

mutual
/-- The positions of the names in a type. -/
def TypeNode.positions : TypeNode → List Span
  | .reference _ _ inner _ => inner.positions
  | .path _ arguments span => span :: positionsAll arguments
  | .array inner _         => inner.positions
  | .tuple items _         => positionsAll items
def positionsAll : List TypeNode → List Span
  | []      => []
  | t :: ts => t.positions ++ positionsAll ts
end

/-- The positions in an item that a file importing it may be told of. -/
def Item.positions (item : Item) : List Span := item.span :: positionsAll item.signatureTypes

theorem positionsAll_append : ∀ ts us : List TypeNode, positionsAll (ts ++ us) = positionsAll ts ++ positionsAll us
  | [], _       => rfl
  | t :: ts, us => by rw [List.cons_append, positionsAll, positionsAll, positionsAll_append ts us, List.append_assoc]

end Ast

namespace Modules

open Hir Ast Semantic

/-! ## Corresponding positions -/

/-- A name with as many arguments as it takes. -/
def takes (segments : List String) (count : Nat) : Bool :=
  segments = ["Option"] && count = 1 || segments = ["Result"] && count = 2

section
variable (Q : Span → Span → Prop)

mutual
/-- Types that resolve alike, where the positions of the names correspond: the arguments of a name are read where it takes
them, and otherwise counted. -/
def LikeType : TypeNode → TypeNode → Prop
  | .reference lifetime mutable inner _, .reference lifetime' mutable' inner' _ =>
    lifetime = lifetime' ∧ mutable = mutable' ∧ LikeType inner inner'
  | .path segments arguments span, .path segments' arguments' span' =>
    segments = segments' ∧ Q span span' ∧ (segments.length = 1 → arguments.length = arguments'.length) ∧
      (takes segments arguments.length = true → LikeTypes arguments arguments')
  | .array inner _, .array inner' _ => LikeType inner inner'
  | .tuple items _, .tuple items' _ => LikeTypes items items'
  | .tuple items _, .path segments arguments _ => items = [] ∧ segments = ["Unit"] ∧ arguments = []
  | .path segments arguments _, .tuple items _ => items = [] ∧ segments = ["Unit"] ∧ arguments = []
  | _, _ => False
def LikeTypes : List TypeNode → List TypeNode → Prop
  | [], []             => True
  | t :: ts, t' :: ts' => LikeType t t' ∧ LikeTypes ts ts'
  | _, _               => False
end

/-- The same item for a file that imports it. -/
def LikeItem : Item → Item → Prop
  | .struct node, .struct node'     => Q node.span node'.span ∧ node.fields.map (·.name) = node'.fields.map (·.name) ∧
    LikeTypes Q (node.fields.map (·.ty)) (node'.fields.map (·.ty))
  | .enum node, .enum node'         => Q node.span node'.span ∧
    List.Forall₂ (fun v v' => v.name = v'.name ∧ LikeTypes Q v.fields v'.fields) node.variants node'.variants
  | .state node, .state node'       => Q node.span node'.span ∧ LikeTypes Q (node.fields.map (·.ty)) (node'.fields.map (·.ty))
  | .function node, .function node' => Q node.span node'.span ∧
    LikeTypes Q (node.parameters.map (·.ty)) (node'.parameters.map (·.ty)) ∧
      LikeType Q (returned node.returnType) (returned node'.returnType)
  | .pipeline node, .pipeline node' => Q node.span node'.span ∧
    LikeTypes Q (node.parameters.map (·.ty)) (node'.parameters.map (·.ty)) ∧
      LikeType Q (returned node.returnType) (returned node'.returnType)
  | .agent node, .agent node'       => Q node.span node'.span ∧
    Option.Rel (LikeType Q) ((property node.fields "input").bind (·.ty)) ((property node'.fields "input").bind (·.ty)) ∧
      Option.Rel (LikeType Q) ((property node.fields "output").bind (·.ty)) ((property node'.fields "output").bind (·.ty))
  | .safetyBound node, .safetyBound node' => Q node.span node'.span
  | _, _ => False

/-- The same diagnostic, at a corresponding position. -/
def LikeDiagnostic (d d' : Diagnostic) : Prop :=
  d.code = d'.code ∧ d.severity = d'.severity ∧ d.message = d'.message ∧ d.file = d'.file ∧ Q d.span d'.span

def LikeNote : Note → Note → Prop
  | .diagnostic d, .diagnostic d'   => LikeDiagnostic Q d d'
  | .typed span ty, .typed span' ty' => span = span' ∧ ty = ty'
  | _, _                            => False

/-- Two runs with results that are related and notes that correspond. -/
def LikeRun {α : Type} (R : α → α → Prop) (x x' : Checked α) : Prop :=
  R x.value x'.value ∧ List.Forall₂ (LikeNote Q) x.log x'.log

variable {Q}

theorem likeRun_pure {α : Type} {R : α → α → Prop} {a a' : α} (h : R a a') : LikeRun Q R (pure a) (pure a') := ⟨h, .nil⟩

theorem LikeRun.bind {α β : Type} {R : α → α → Prop} {S : β → β → Prop} {x x' : Checked α} {f f' : α → Checked β}
    (hx : LikeRun Q R x x') (hf : ∀ a a', R a a' → LikeRun Q S (f a) (f' a')) : LikeRun Q S (x >>= f) (x' >>= f') := by
  obtain ⟨hvalue, hlog⟩ := hx
  obtain ⟨hresult, hmore⟩ := hf _ _ hvalue
  exact ⟨hresult, List.rel_append hlog hmore⟩

/-- A run is like itself, positions being like themselves. -/
theorem likeRun_refl {α : Type} {R : α → α → Prop} (hR : ∀ a, R a a) (hQ : ∀ s, Q s s) (x : Checked α) : LikeRun Q R x x := by
  refine ⟨hR _, List.forall₂_same.mpr fun n _ => ?_⟩
  cases n with
  | diagnostic d => exact ⟨rfl, rfl, rfl, rfl, hQ _⟩
  | typed span ty => exact ⟨rfl, rfl⟩

theorem likeRun_error (a : Analyzer) (code message : String) {span span' : Span} (h : Q span span') :
    LikeRun Q (fun _ _ => True) (a.error code message span) (a.error code message span') :=
  ⟨trivial, .cons ⟨rfl, rfl, rfl, rfl, h⟩ .nil⟩

/-! ## Types -/

theorem resolveType_unit (a : Analyzer) (span : Span) : resolveType a (.path ["Unit"] [] span) = pure .unit := by
  simp [resolveType]

theorem resolveNamed_like (a : Analyzer) (name : String) (arity : Nat) {span span' : Span} (h : Q span span') :
    LikeRun Q (· = ·) (resolveNamed a name arity span) (resolveNamed a name arity span') := by
  unfold resolveNamed
  split
  · exact (likeRun_error a _ _ h).bind fun _ _ _ => likeRun_pure rfl
  · split
    · exact likeRun_pure rfl
    · exact (likeRun_error a _ _ h).bind fun _ _ _ => likeRun_pure rfl

mutual
/-- **A type resolves to the same, and reports the same at corresponding positions.** -/
theorem resolveType_like (a : Analyzer) : ∀ t t' : TypeNode, LikeType Q t t' →
    LikeRun Q (· = ·) (resolveType a t) (resolveType a t')
  | .reference lifetime mutable inner span, t', h => by
    cases t' with
    | reference lifetime' mutable' inner' span' =>
      obtain ⟨rfl, rfl, hinner⟩ := h
      simp only [resolveType]
      exact (resolveType_like a inner inner' hinner).bind fun _ _ heq => likeRun_pure (heq ▸ rfl)
    | path => exact h.elim
    | array => exact h.elim
    | tuple => exact h.elim
  | .array inner span, t', h => by
    cases t' with
    | array inner' span' =>
      simp only [resolveType]
      exact (resolveType_like a inner inner' h).bind fun _ _ heq => likeRun_pure (heq ▸ rfl)
    | reference => exact h.elim
    | path => exact h.elim
    | tuple => exact h.elim
  | .tuple items span, t', h => by
    cases t' with
    | tuple items' span' =>
      match items, items', h with
      | [], [], _ =>
        simp only [resolveType]
        exact likeRun_pure rfl
      | t :: ts, t' :: ts', h =>
        simp only [resolveType]
        exact (resolveTypes_like a (t :: ts) (t' :: ts') h).bind fun _ _ heq => likeRun_pure (heq ▸ rfl)
    | path segments' arguments' span' =>
      obtain ⟨rfl, rfl, rfl⟩ := h
      rw [resolveType_unit, resolveType]
      exact likeRun_pure rfl
    | reference => exact h.elim
    | array => exact h.elim
  | .path segments arguments span, t', h => by
    cases t' with
    | path segments' arguments' span' =>
      obtain ⟨rfl, hspan, hcount, htaken⟩ := h
      match segments with
      | [] =>
        simp only [resolveType]
        exact (likeRun_error a _ _ hspan).bind fun _ _ _ => likeRun_pure rfl
      | _ :: _ :: _ =>
        simp only [resolveType]
        exact (likeRun_error a _ _ hspan).bind fun _ _ _ => likeRun_pure rfl
      | [name] =>
        have harity : ∀ expected actual, LikeRun Q (· = ·)
            (do
              a.typeArityError name expected actual span
              return ResolvedType.error)
            (do
              a.typeArityError name expected actual span'
              return ResolvedType.error) := fun _ _ =>
          (likeRun_error a _ _ hspan).bind fun _ _ _ => likeRun_pure rfl
        have hsome : ∀ (t : TypeNode) (ts : List TypeNode), ¬ (name = "Unit" ∧ (t :: ts).isEmpty = true) :=
          fun _ _ h => nomatch h.2
        match arguments, arguments', hcount rfl, htaken with
        | [], [], _, _ =>
          simp only [resolveType]
          split
          · exact harity 1 0
          split
          · exact harity 2 0
          split
          · exact likeRun_pure rfl
          · exact resolveNamed_like a name _ hspan
        | [item], [item'], _, htaken =>
          simp only [resolveType]
          split
          · next hname =>
            obtain ⟨hitem, -⟩ := htaken (by rw [hname]; rfl)
            exact (resolveType_like a item item' hitem).bind fun _ _ heq => likeRun_pure (heq ▸ rfl)
          split
          · exact harity 2 1
          rw [if_neg (hsome _ _), if_neg (hsome _ _)]
          exact resolveNamed_like a name _ hspan
        | [ok, err], [ok', err'], _, htaken =>
          simp only [resolveType]
          split
          · exact harity 1 2
          split
          · next hname =>
            obtain ⟨hok, herr, -⟩ := htaken (by rw [hname]; rfl)
            refine (resolveType_like a ok ok' hok).bind fun _ _ hok => ?_
            exact (resolveType_like a err err' herr).bind fun _ _ herr => likeRun_pure (hok ▸ herr ▸ rfl)
          rw [if_neg (hsome _ _), if_neg (hsome _ _)]
          exact resolveNamed_like a name _ hspan
        | t :: u :: v :: ts, t' :: u' :: v' :: ts', hsame, _ =>
          simp only [resolveType, hsame]
          split
          · exact harity 1 _
          split
          · exact harity 2 _
          rw [if_neg (hsome _ _), if_neg (hsome _ _)]
          exact resolveNamed_like a name _ hspan
    | tuple items' span' =>
      obtain ⟨rfl, rfl, rfl⟩ := h
      rw [resolveType_unit, resolveType]
      exact likeRun_pure rfl
    | reference => exact h.elim
    | array => exact h.elim
theorem resolveTypes_like (a : Analyzer) : ∀ ts ts' : List TypeNode, LikeTypes Q ts ts' →
    LikeRun Q (· = ·) (resolveTypes a ts) (resolveTypes a ts')
  | [], [], _ => likeRun_pure rfl
  | t :: ts, t' :: ts', h => by
    simp only [resolveTypes]
    refine (resolveType_like a t t' h.1).bind fun _ _ ht => ?_
    exact (resolveTypes_like a ts ts' h.2).bind fun _ _ hts => likeRun_pure (ht ▸ hts ▸ rfl)
  | [], _ :: _, h => h.elim
  | _ :: _, [], h => h.elim
end

theorem resolveOption_like (a : Analyzer) {ty ty' : Option TypeNode} (h : Option.Rel (LikeType Q) ty ty') :
    LikeRun Q (· = ·) (resolveOption a ty) (resolveOption a ty') := by
  cases h with
  | none => exact likeRun_pure rfl
  | some h => exact (resolveType_like a _ _ h).bind fun _ _ heq => likeRun_pure (heq ▸ rfl)

end

/-! ## Positions of symbols -/

/-- The same kinds under the same names. -/
structure SameKinds (s s' : SymbolTable) : Prop where
  types : ∀ name, (s.types.get? name).map (·.kind) = (s'.types.get? name).map (·.kind)
  values : ∀ name, (s.values.get? name).map (·.kind) = (s'.values.get? name).map (·.kind)

def withSymbols (a : Analyzer) (s : SymbolTable) : Analyzer := { a with symbols := s }

section
variable {a : Analyzer} {s : SymbolTable}

theorem withSymbols_states : (withSymbols a s).states = a.states := rfl
theorem withSymbols_functions : (withSymbols a s).functions = a.functions := rfl
theorem withSymbols_agents : (withSymbols a s).agents = a.agents := rfl

theorem resolveNamed_symbols (h : SameKinds a.symbols s) (name : String) (arity : Nat) (span : Span) :
    resolveNamed (withSymbols a s) name arity span = resolveNamed a name arity span := by
  have hkind := h.types name
  unfold resolveNamed
  rw [show (withSymbols a s).symbols = s from rfl]
  cases hget : a.symbols.types.get? name with
  | none =>
    rw [hget] at hkind
    rw [Option.map_eq_none_iff.mp hkind.symm]
    rfl
  | some symbol =>
    rw [hget] at hkind
    obtain ⟨symbol', hget', hsame⟩ := Option.map_eq_some_iff.mp hkind.symm
    rw [hget']
    dsimp only
    rw [hsame]
    rfl

mutual
theorem resolveType_symbols (h : SameKinds a.symbols s) : ∀ t : TypeNode, resolveType (withSymbols a s) t = resolveType a t
  | .reference lifetime mutable inner span => by simp only [resolveType, resolveType_symbols h inner]
  | .array inner span => by simp only [resolveType, resolveType_symbols h inner]
  | .tuple [] span => by simp only [resolveType]
  | .tuple (t :: ts) span => by simp only [resolveType, resolveTypes_symbols h (t :: ts)]
  | .path [] arguments span => by
    simp only [resolveType]
    rfl
  | .path (_ :: _ :: _) arguments span => by
    simp only [resolveType]
    rfl
  | .path [name] [] span => by
    simp only [resolveType, resolveNamed_symbols h]
    rfl
  | .path [name] [item] span => by
    simp only [resolveType, resolveNamed_symbols h, resolveType_symbols h item]
    rfl
  | .path [name] [ok, err] span => by
    simp only [resolveType, resolveNamed_symbols h, resolveType_symbols h ok, resolveType_symbols h err]
    rfl
  | .path [name] (_ :: _ :: _ :: _) span => by
    simp only [resolveType, resolveNamed_symbols h]
    rfl
theorem resolveTypes_symbols (h : SameKinds a.symbols s) : ∀ ts : List TypeNode,
    resolveTypes (withSymbols a s) ts = resolveTypes a ts
  | []      => rfl
  | t :: ts => by simp only [resolveTypes, resolveType_symbols h t, resolveTypes_symbols h ts]
end

theorem resolveOption_symbols (h : SameKinds a.symbols s) (ty : Option TypeNode) :
    resolveOption (withSymbols a s) ty = resolveOption a ty := by
  cases ty with
  | none => rfl
  | some ty => simp only [resolveOption, resolveType_symbols h]

/-! ### Bodies -/

mutual
theorem checkPattern_symbols : ∀ (p : Pattern) (expected : ResolvedType) (scope : Scope),
    checkPattern (withSymbols a s) p expected scope = checkPattern a p expected scope
  | .wildcard _, _, _ => rfl
  | .literal _ _, _, _ => rfl
  | .path [] _, _, _ => rfl
  | .path [_] _, _, _ => rfl
  | .path (_ :: _ :: _) _, _, _ => rfl
  | .constructor segments fields span, expected, scope => by
    simp only [checkPattern, checkPatterns_symbols fields]
    rfl
theorem checkPatterns_symbols : ∀ (ps : List Pattern) (types : List ResolvedType) (scope : Scope),
    checkPatterns (withSymbols a s) ps types scope = checkPatterns a ps types scope
  | [], _, _ => rfl
  | _ :: _, [], _ => rfl
  | p :: ps, ty :: types, scope => by simp only [checkPatterns, checkPattern_symbols p, checkPatterns_symbols ps]
end

mutual
/-- **What an expression is inferred to be does not read the position of a symbol.** -/
theorem inferExpr_symbols (h : SameKinds a.symbols s) (asyncContext : Bool) : ∀ (e : Expr) (scope : Scope)
    (expected : Option ResolvedType),
    inferExpr (withSymbols a s) asyncContext e scope expected = inferExpr a asyncContext e scope expected
  | .mk kind span, scope, expected => by simp only [inferExpr, inferExprKind_symbols h asyncContext kind]
theorem inferExprKind_symbols (h : SameKinds a.symbols s) (asyncContext : Bool) : ∀ (kind : ExprKind) (span : Span)
    (scope : Scope) (expected : Option ResolvedType),
    inferExprKind (withSymbols a s) asyncContext kind span scope expected =
      inferExprKind a asyncContext kind span scope expected
  | .borrow mutable operand, span, scope, expected => by
    simp only [inferExprKind, inferExpr_symbols h asyncContext operand]
    rfl
  | .await operand, span, scope, expected => by
    simp only [inferExprKind, inferExpr_symbols h asyncContext operand]
    rfl
  | .literal literal, span, scope, expected => rfl
  | .path segments, span, scope, expected => rfl
  | .array items, span, scope, expected => by simp only [inferExprKind, inferItems_symbols h asyncContext items]
  | .call (.mk kind span') arguments, span, scope, expected => by
    rcases ExprKind.path_or kind span' with ⟨segments, rfl⟩ | hne
    · simp only [inferExprKind, inferFirst_symbols h asyncContext arguments, checkArguments_symbols h asyncContext arguments]
      rfl
    · rw [inferExprKind, inferExprKind]
      · simp only [inferExpr_symbols h asyncContext (.mk kind span'), checkArguments_symbols h asyncContext arguments,
          inferArguments_symbols h asyncContext arguments]
        rfl
      · exact hne
      · exact hne
  | .field base name, span, scope, expected => by
    simp only [inferExprKind, inferExpr_symbols h asyncContext base]
    rfl
  | .unary operator operand, span, scope, expected => by
    simp only [inferExprKind, inferExpr_symbols h asyncContext operand]
    rfl
  | .binary operator left right, span, scope, expected => by
    simp only [inferExprKind, inferExpr_symbols h asyncContext left, inferExpr_symbols h asyncContext right]
    rfl
  | .match_ value arms, span, scope, expected => by
    simp only [inferExprKind, inferExpr_symbols h asyncContext value, inferArms_symbols h asyncContext arms]
    rfl
  | .block (.mk statements span'), span, scope, expected => by
    simp only [inferExprKind, checkStatements_symbols h asyncContext statements]
    rfl
theorem inferItems_symbols (h : SameKinds a.symbols s) (asyncContext : Bool) : ∀ (es : List Expr) (scope : Scope)
    (expected : Option ResolvedType) (itemType : ResolvedType),
    inferItems (withSymbols a s) asyncContext es scope expected itemType = inferItems a asyncContext es scope expected itemType
  | [], _, _, _ => rfl
  | e :: es, scope, expected, itemType => by
    simp only [inferItems, inferExpr_symbols h asyncContext e, inferItems_symbols h asyncContext es]
    rfl
theorem inferFirst_symbols (h : SameKinds a.symbols s) (asyncContext : Bool) : ∀ (as : List CallArgument) (scope : Scope),
    inferFirst (withSymbols a s) asyncContext as scope = inferFirst a asyncContext as scope
  | [], _ => rfl
  | .mk _ value _ :: _, scope => by simp only [inferFirst, inferExpr_symbols h asyncContext value]
theorem inferArguments_symbols (h : SameKinds a.symbols s) (asyncContext : Bool) : ∀ (as : List CallArgument) (scope : Scope),
    inferArguments (withSymbols a s) asyncContext as scope = inferArguments a asyncContext as scope
  | [], _ => rfl
  | .mk _ value _ :: as, scope => by
    simp only [inferArguments, inferExpr_symbols h asyncContext value, inferArguments_symbols h asyncContext as]
theorem checkArguments_symbols (h : SameKinds a.symbols s) (asyncContext : Bool) : ∀ (as : List CallArgument)
    (types : List ResolvedType) (scope : Scope) (context : String),
    checkArguments (withSymbols a s) asyncContext as types scope context = checkArguments a asyncContext as types scope context
  | [], _, _, _ => rfl
  | .mk _ _ _ :: _, [], _, _ => rfl
  | .mk _ value span :: as, ty :: types, scope, context => by
    simp only [checkArguments, inferExpr_symbols h asyncContext value, checkArguments_symbols h asyncContext as]
    rfl
theorem inferArms_symbols (h : SameKinds a.symbols s) (asyncContext : Bool) : ∀ (arms : List MatchArm) (valueType : ResolvedType)
    (scope : Scope) (expected : Option ResolvedType) (result : ResolvedType),
    inferArms (withSymbols a s) asyncContext arms valueType scope expected result =
      inferArms a asyncContext arms valueType scope expected result
  | [], _, _, _, _ => rfl
  | .mk pattern guard body _ :: arms, valueType, scope, expected, result => by
    simp only [inferArms, checkPattern_symbols pattern, inferGuard_symbols h asyncContext guard,
      inferExpr_symbols h asyncContext body, inferArms_symbols h asyncContext arms]
    rfl
theorem inferGuard_symbols (h : SameKinds a.symbols s) (asyncContext : Bool) : ∀ (guard : Option Expr) (scope : Scope),
    inferGuard (withSymbols a s) asyncContext guard scope = inferGuard a asyncContext guard scope
  | none, _ => rfl
  | some guard, scope => by
    simp only [inferGuard, inferExpr_symbols h asyncContext guard]
    rfl
theorem checkStatements_symbols (h : SameKinds a.symbols s) (asyncContext : Bool) : ∀ (ss : List Statement) (scope : Scope)
    (expectedResult result : ResolvedType),
    checkStatements (withSymbols a s) asyncContext ss scope expectedResult result =
      checkStatements a asyncContext ss scope expectedResult result
  | [], _, _, _ => rfl
  | .let_ name ty value _ :: rest, scope, expectedResult, result => by
    simp only [checkStatements, resolveOption_symbols h, inferExpr_symbols h asyncContext value,
      checkStatements_symbols h asyncContext rest]
  | .return_ value span :: rest, scope, expectedResult, result => by
    simp only [checkStatements, inferReturned_symbols h asyncContext value, checkStatements_symbols h asyncContext rest]
    rfl
  | .expression e _ :: rest, scope, expectedResult, result => by
    simp only [checkStatements, inferExpr_symbols h asyncContext e, checkStatements_symbols h asyncContext rest]
    rfl
theorem inferReturned_symbols (h : SameKinds a.symbols s) (asyncContext : Bool) : ∀ (value : Option Expr) (scope : Scope)
    (expectedResult : ResolvedType),
    inferReturned (withSymbols a s) asyncContext value scope expectedResult =
      inferReturned a asyncContext value scope expectedResult
  | none, _, _ => rfl
  | some value, scope, expectedResult => by simp only [inferReturned, inferExpr_symbols h asyncContext value]
end

theorem checkBlock_symbols (h : SameKinds a.symbols s) (asyncContext : Bool) (block : Block) (scope : Scope)
    (expectedResult : ResolvedType) :
    checkBlock (withSymbols a s) asyncContext block scope expectedResult = checkBlock a asyncContext block scope expectedResult := by
  obtain ⟨statements, span⟩ := block
  simp only [checkBlock, checkStatements_symbols h]
  rfl

/-! ### Declarations -/

theorem hasTypeKind_symbols (h : SameKinds a.symbols s) (name : String) (kind : TypeSymbolKind) :
    (withSymbols a s).hasTypeKind name kind = a.hasTypeKind name kind := by
  rw [Analyzer.hasTypeKind, Analyzer.hasTypeKind, h.types name]
  rfl

theorem hasValueKind_symbols (h : SameKinds a.symbols s) (name : String) (kind : ValueSymbolKind) :
    (withSymbols a s).hasValueKind name kind = a.hasValueKind name kind := by
  rw [Analyzer.hasValueKind, Analyzer.hasValueKind, h.values name]
  rfl

theorem resolveVariants_symbols (h : SameKinds a.symbols s) : ∀ variants : List EnumVariant,
    (withSymbols a s).resolveVariants variants = a.resolveVariants variants
  | []                  => rfl
  | variant :: variants => by
    simp only [Analyzer.resolveVariants, resolveTypes_symbols h, resolveVariants_symbols h variants]

theorem resolveSignature_symbols (h : SameKinds a.symbols s) (parameters : List Parameter) (returnType : Option TypeNode) :
    (withSymbols a s).resolveSignature parameters returnType = a.resolveSignature parameters returnType := by
  simp only [Analyzer.resolveSignature, resolveTypes_symbols h, resolveOption_symbols h]

theorem resolveAnnotations_symbols (h : SameKinds a.symbols s) (fields : List Property) :
    (withSymbols a s).resolveAnnotations fields = a.resolveAnnotations fields := by
  simp only [Analyzer.resolveAnnotations, resolveTypes_symbols h]

/-- A declaration resolves to the same. -/
theorem resolveDeclaration_withSymbols (h : SameKinds a.symbols s) (item : Item) : (withSymbols a s).resolveDeclaration item =
    ⟨withSymbols (a.resolveDeclaration item).value s, (a.resolveDeclaration item).log⟩ := by
  cases item with
  | struct node =>
    simp only [Analyzer.resolveDeclaration, Analyzer.resolveFields, hasTypeKind_symbols h, resolveTypes_symbols h]
    split <;> rfl
  | enum node =>
    simp only [Analyzer.resolveDeclaration, hasTypeKind_symbols h, resolveVariants_symbols h]
    split <;> rfl
  | state node =>
    simp only [Analyzer.resolveDeclaration, resolveTypes_symbols h, withSymbols_states]
    by_cases hin : a.states.contains node.name = true
    · simp only [hin, if_true]
      rfl
    · simp only [hin, Bool.false_eq_true, if_false]
      rfl
  | function node =>
    simp only [Analyzer.resolveDeclaration, hasValueKind_symbols h, resolveSignature_symbols h, withSymbols_functions]
    split <;> rfl
  | agent node =>
    simp only [Analyzer.resolveDeclaration, Analyzer.resolveContract, resolveOption_symbols h, resolveAnnotations_symbols h,
      withSymbols_agents]
    split <;> rfl
  | pipeline node =>
    simp only [Analyzer.resolveDeclaration, resolveSignature_symbols h, resolveAnnotations_symbols h, withSymbols_functions]
    by_cases hin : a.functions.contains node.name = true
    · simp only [hin, if_true]
      rfl
    · simp only [hin, Bool.false_eq_true, if_false]
      rfl
  | safetyBound node =>
    simp only [Analyzer.resolveDeclaration, resolveTypes_symbols h, resolveAnnotations_symbols h]
    rfl

theorem checkInitializers_symbols (h : SameKinds a.symbols s) : ∀ (fields : List StateField) (types : List ResolvedType),
    (withSymbols a s).checkInitializers fields types = a.checkInitializers fields types
  | [], _ => rfl
  | _ :: _, [] => rfl
  | field :: fields, expected :: types => by
    simp only [Analyzer.checkInitializers, inferExpr_symbols h, checkInitializers_symbols h fields types]
    rfl

theorem checkBody_symbols (h : SameKinds a.symbols s) (item : Item) : (withSymbols a s).checkBody item = a.checkBody item := by
  cases item with
  | function node =>
    simp only [Analyzer.checkBody, Analyzer.checkFunction, checkBlock_symbols h]
    rfl
  | state node => exact checkInitializers_symbols h _ _
  | pipeline node =>
    simp only [Analyzer.checkBody, Analyzer.checkPipeline, resolveOption_symbols h, inferExpr_symbols h]
    rfl
  | struct node => rfl
  | enum node => rfl
  | agent node => rfl
  | safetyBound node => rfl

/-- **Bodies are checked the same.** -/
theorem checkBodies_symbols (h : SameKinds a.symbols s) : ∀ items : List Item,
    (withSymbols a s).checkBodies items = a.checkBodies items
  | []            => rfl
  | item :: items => by simp only [Analyzer.checkBodies, checkBody_symbols h item, checkBodies_symbols h items]

end

/-! ## Imports -/

section
variable {Q : Span → Span → Prop} {a a' : Analyzer}

/-- The same tables, but for the positions of the symbols. -/
def SameTables (a a' : Analyzer) : Prop := ∃ s, SameKinds a.symbols s ∧ a' = withSymbols a s

theorem SameTables.refl (a : Analyzer) : SameTables a a := ⟨a.symbols, ⟨fun _ => rfl, fun _ => rfl⟩, rfl⟩

theorem contains_of_kinds {κ α β : Type} [LinearOrder κ] {m m' : OrdMap κ α} {kind : α → β} {name : κ}
    (h : (m.get? name).map kind = (m'.get? name).map kind) : m'.contains name = m.contains name := by
  have hsome := congrArg Option.isSome h
  rw [Option.isSome_map, Option.isSome_map] at hsome
  exact hsome.symm

theorem kinds_insert {κ α β : Type} [LinearOrder κ] {m m' : OrdMap κ α} {kind : α → β}
    (h : ∀ name, (m.get? name).map kind = (m'.get? name).map kind) (name : κ) {v v' : α} (hv : kind v = kind v') (k : κ) :
    ((m.insert name v).get? k).map kind = ((m'.insert name v').get? k).map kind := by
  rw [OrdMap.get?_insert, OrdMap.get?_insert]
  split
  · exact congrArg some hv
  · exact h k

theorem insertType_like (h : SameTables a a') (name : String) (kind : TypeSymbolKind) {span span' : Span} (hspan : Q span span') :
    LikeRun Q SameTables (a.insertType name kind span) (a'.insertType name kind span') := by
  obtain ⟨s, hkinds, rfl⟩ := h
  have hcontains : (withSymbols a s).symbols.types.contains name = a.symbols.types.contains name :=
    contains_of_kinds (hkinds.types name)
  unfold Analyzer.insertType
  rw [hcontains]
  split
  · exact (likeRun_error a _ _ hspan).bind fun _ _ _ => likeRun_pure ⟨s, hkinds, rfl⟩
  · refine likeRun_pure ⟨{ s with types := s.types.insert name ⟨name, kind, span'⟩ }, ⟨?_, hkinds.values⟩, rfl⟩
    exact kinds_insert hkinds.types name rfl

theorem insertValue_like (h : SameTables a a') (name : String) (kind : ValueSymbolKind) {span span' : Span} (hspan : Q span span') :
    LikeRun Q SameTables (a.insertValue name kind span) (a'.insertValue name kind span') := by
  obtain ⟨s, hkinds, rfl⟩ := h
  have hcontains : (withSymbols a s).symbols.values.contains name = a.symbols.values.contains name :=
    contains_of_kinds (hkinds.values name)
  unfold Analyzer.insertValue
  rw [hcontains]
  split
  · exact (likeRun_error a _ _ hspan).bind fun _ _ _ => likeRun_pure ⟨s, hkinds, rfl⟩
  · refine likeRun_pure ⟨{ s with values := s.values.insert name ⟨name, kind, span'⟩ }, ⟨hkinds.types, ?_⟩, rfl⟩
    exact kinds_insert hkinds.values name rfl

theorem insertSymbol_like (h : SameTables a a') (name : String) {item item' : Item} (hitem : LikeItem Q item item') :
    LikeRun Q SameTables (a.insertSymbol name item) (a'.insertSymbol name item') := by
  cases item <;> cases item' <;> first
    | exact hitem.elim
    | exact insertType_like h name _ hitem.1
    | exact insertValue_like h name _ hitem.1
    | exact insertValue_like h name _ hitem

theorem resolveVariants_like (a : Analyzer) {variants variants' : List EnumVariant}
    (h : List.Forall₂ (fun v v' => v.name = v'.name ∧ LikeTypes Q v.fields v'.fields) variants variants') :
    LikeRun Q (· = ·) (a.resolveVariants variants) (a.resolveVariants variants') := by
  induction h with
  | nil => exact likeRun_pure rfl
  | cons hv _ ih =>
    simp only [Analyzer.resolveVariants, ← hv.1]
    refine (resolveTypes_like a _ _ hv.2).bind fun _ _ hfields => ?_
    exact ih.bind fun _ _ hmore => likeRun_pure (hfields ▸ hmore ▸ rfl)

theorem resolveReturned (a : Analyzer) (ty : Option TypeNode) : (resolveOption a ty).value.getD .unit =
    (resolveType a (returned ty)).value ∧ (resolveOption a ty).log = (resolveType a (returned ty)).log := by
  cases ty with
  | none => exact ⟨by simp [resolveOption, returned, resolveType], by simp [resolveOption, returned, resolveType]⟩
  | some ty => exact ⟨rfl, by simp [resolveOption, returned]⟩

theorem resolveSignature_like (a : Analyzer) {parameters parameters' : List Parameter} {ret ret' : Option TypeNode}
    (hparameters : LikeTypes Q (parameters.map (·.ty)) (parameters'.map (·.ty)))
    (hret : LikeType Q (returned ret) (returned ret')) :
    LikeRun Q (· = ·) (a.resolveSignature parameters ret) (a.resolveSignature parameters' ret') := by
  obtain ⟨hvalue, hlog⟩ := resolveType_like a _ _ hret
  rw [← (resolveReturned a ret).1, ← (resolveReturned a ret').1] at hvalue
  rw [← (resolveReturned a ret).2, ← (resolveReturned a ret').2] at hlog
  refine (resolveTypes_like a _ _ hparameters).bind fun _ _ htypes => ?_
  have hresult : LikeRun Q (fun r r' : Option ResolvedType => r.getD .unit = r'.getD .unit) (resolveOption a ret)
      (resolveOption a ret') := ⟨hvalue, hlog⟩
  exact hresult.bind fun _ _ hsame => likeRun_pure (htypes ▸ hsame ▸ rfl)

/-- The signature of an item is entered with the same types. -/
theorem record_like (h : SameTables a a') (name : String) {item item' : Item} (hitem : LikeItem Q item item') :
    LikeRun Q SameTables (a.record name item) (a'.record name item') := by
  obtain ⟨s, hkinds, rfl⟩ := h
  cases item with
  | struct node =>
    cases item' with
    | struct node' =>
      obtain ⟨-, hnames, htypes⟩ := hitem
      simp only [Analyzer.record, Analyzer.resolveFields, resolveTypes_symbols hkinds, ← hnames]
      refine ((resolveTypes_like a _ _ htypes).bind fun _ _ hsame => likeRun_pure (R := (· = ·)) (hsame ▸ rfl)).bind
        fun _ _ hsame => likeRun_pure ⟨s, hkinds, ?_⟩
      rw [hsame]
      rfl
    | _ => exact hitem.elim
  | enum node =>
    cases item' with
    | enum node' =>
      simp only [Analyzer.record, resolveVariants_symbols hkinds]
      refine (resolveVariants_like a hitem.2).bind fun _ _ hsame => likeRun_pure ⟨s, hkinds, ?_⟩
      rw [hsame]
      rfl
    | _ => exact hitem.elim
  | state node =>
    cases item' with
    | state node' =>
      simp only [Analyzer.record, resolveTypes_symbols hkinds]
      refine (resolveTypes_like a _ _ hitem.2).bind fun _ _ hsame => likeRun_pure ⟨s, hkinds, ?_⟩
      rw [hsame]
      rfl
    | _ => exact hitem.elim
  | function node =>
    cases item' with
    | function node' =>
      simp only [Analyzer.record, resolveSignature_symbols hkinds]
      refine (resolveSignature_like a hitem.2.1 hitem.2.2).bind fun _ _ hsame => likeRun_pure ⟨s, hkinds, ?_⟩
      rw [hsame]
      rfl
    | _ => exact hitem.elim
  | pipeline node =>
    cases item' with
    | pipeline node' =>
      simp only [Analyzer.record, resolveSignature_symbols hkinds]
      refine (resolveSignature_like a hitem.2.1 hitem.2.2).bind fun _ _ hsame => likeRun_pure ⟨s, hkinds, ?_⟩
      rw [hsame]
      rfl
    | _ => exact hitem.elim
  | agent node =>
    cases item' with
    | agent node' =>
      simp only [Analyzer.record, Analyzer.resolveContract, resolveOption_symbols hkinds]
      refine LikeRun.bind (R := (· = ·)) ?_ fun _ _ hsame => likeRun_pure ⟨s, hkinds, ?_⟩
      · refine (resolveOption_like a hitem.2.1).bind fun _ _ hinput => ?_
        exact (resolveOption_like a hitem.2.2).bind fun _ _ houtput => likeRun_pure (hinput ▸ houtput ▸ rfl)
      · rw [hsame]
        rfl
    | _ => exact hitem.elim
  | safetyBound node =>
    cases item' with
    | safetyBound node' => exact likeRun_pure ⟨s, hkinds, rfl⟩
    | _ => exact hitem.elim

theorem installImport_like (h : SameTables a a') (name : String) {item item' : Item} (hitem : LikeItem Q item item') :
    LikeRun Q SameTables (a.installImport name item) (a'.installImport name item') :=
  (insertSymbol_like h name hitem).bind fun _ _ h => record_like h name hitem

/-- Two loops over items that correspond. -/
theorem foldlM_like {α : Type} {step : Analyzer → α → Checked Analyzer} {S : α → α → Prop}
    (hstep : ∀ {a a' : Analyzer}, SameTables a a' → ∀ {x x' : α}, S x x' → LikeRun Q SameTables (step a x) (step a' x')) :
    ∀ {l l' : List α} {a a' : Analyzer}, List.Forall₂ S l l' → SameTables a a' →
      LikeRun Q SameTables (l.foldlM step a) (l'.foldlM step a')
  | [], [], _, _, .nil, h => likeRun_pure h
  | x :: l, x' :: l', _, _, .cons hx hl, h => by
    rw [List.foldlM_cons, List.foldlM_cons]
    exact (hstep h hx).bind fun _ _ h => foldlM_like hstep hl h

theorem resolveDeclaration_like (hQ : ∀ s, Q s s) (h : SameTables a a') (item : Item) :
    LikeRun Q SameTables (a.resolveDeclaration item) (a'.resolveDeclaration item) := by
  obtain ⟨s, hkinds, rfl⟩ := h
  rw [resolveDeclaration_withSymbols hkinds item]
  refine ⟨⟨s, ?_, rfl⟩, (likeRun_refl (R := fun _ _ => True) (fun _ => trivial) hQ _).2⟩
  rw [resolveDeclaration_symbols]
  exact hkinds

/-- What a file sees of others, by local name. -/
abbrev LikeImports (Q : Span → Span → Prop) (imports imports' : List (String × Item)) : Prop :=
  List.Forall₂ (fun i i' => i.1 = i'.1 ∧ LikeItem Q i.2 i'.2) imports imports'

/-- **A file with imports that correspond is analyzed the same: what it notes corresponds.** -/
theorem analyzed_like (hQ : ∀ s, Q s s) (file : String) (ast : SourceFile) {imports imports' : List (String × Item)}
    (h : LikeImports Q imports imports') : LikeRun Q SameTables (analyzed file ast imports) (analyzed file ast imports') := by
  have hdeclared : LikeRun Q SameTables (declared file ast imports) (declared file ast imports') := by
    refine (likeRun_refl SameTables.refl hQ _).bind fun a a' htables => LikeRun.bind (R := SameTables) ?_ fun a a' htables => ?_
    · refine foldlM_like (S := fun i i' => i.1 = i'.1 ∧ LikeItem Q i.2 i'.2) (fun h i i' hi => ?_) h htables
      rw [← hi.1]
      exact installImport_like h i.1 hi.2
    · refine foldlM_like (S := (· = ·)) (fun h i i' hi => ?_) (List.forall₂_same.mpr fun _ _ => rfl) htables
      rw [← hi]
      exact resolveDeclaration_like hQ h i
  refine hdeclared.bind fun a a' htables => ?_
  obtain ⟨s, hkinds, rfl⟩ := htables
  rw [checkBodies_symbols hkinds]
  exact (likeRun_refl (R := fun _ _ => True) (fun _ => trivial) hQ _).bind fun _ _ _ => likeRun_pure ⟨s, hkinds, rfl⟩

/-- The analyses of a file: the same types, and diagnostics that correspond. -/
structure LikeAnalysis (Q : Span → Span → Prop) (r r' : Analysis) : Prop where
  diagnostics : List.Forall₂ (LikeDiagnostic Q) r.diagnostics r'.diagnostics
  expressionTypes : r.expressionTypes = r'.expressionTypes

theorem analyzeWithImports_like (hQ : ∀ s, Q s s) (file : String) (ast : SourceFile) {imports imports' : List (String × Item)}
    (h : LikeImports Q imports imports') :
    LikeAnalysis Q (analyzeWithImports file ast imports) (analyzeWithImports file ast imports') := by
  obtain ⟨-, hlog⟩ := analyzed_like hQ file ast h
  refine ⟨List.rel_append ?_ (List.forall₂_same.mpr fun d _ => ⟨rfl, rfl, rfl, rfl, hQ _⟩), congrArg OrdMap.ofList ?_⟩
  · refine List.rel_filterMap (fun n n' hn => ?_) hlog
    cases n <;> cases n' <;> first
      | exact hn.elim
      | exact .some hn
      | exact .none
  · refine List.forall₂_eq_eq_eq ▸ List.rel_filterMap (R := LikeNote Q) (fun n n' hn => ?_) hlog
    cases n <;> cases n' <;> first
      | exact hn.elim
      | exact .some (Prod.ext hn.1 hn.2)
      | exact .none

end

/-! ## Items that are read alike -/

/-- A file that imports either item reads the same, whatever the positions. -/
abbrev ReadAlike (item item' : Item) : Prop := LikeItem (fun _ _ => True) item item'

section
variable {Q : Span → Span → Prop}

mutual
theorem likeType_refl (hQ : ∀ s, Q s s) : ∀ t : TypeNode, LikeType Q t t
  | .reference _ _ inner _ => ⟨rfl, rfl, likeType_refl hQ inner⟩
  | .path _ arguments span => ⟨rfl, hQ span, fun _ => rfl, fun _ => likeTypes_refl hQ arguments⟩
  | .array inner _         => likeType_refl hQ inner
  | .tuple items _         => likeTypes_refl hQ items
theorem likeTypes_refl (hQ : ∀ s, Q s s) : ∀ ts : List TypeNode, LikeTypes Q ts ts
  | []      => trivial
  | t :: ts => ⟨likeType_refl hQ t, likeTypes_refl hQ ts⟩
end

theorem likeOption_refl (hQ : ∀ s, Q s s) : ∀ t : Option TypeNode, Option.Rel (LikeType Q) t t
  | none   => .none
  | some t => .some (likeType_refl hQ t)

theorem likeItem_refl (hQ : ∀ s, Q s s) : ∀ item : Item, LikeItem Q item item
  | .function _    => ⟨hQ _, likeTypes_refl hQ _, likeType_refl hQ _⟩
  | .struct _      => ⟨hQ _, rfl, likeTypes_refl hQ _⟩
  | .enum _        => ⟨hQ _, List.forall₂_same.mpr fun v _ => ⟨rfl, likeTypes_refl hQ v.fields⟩⟩
  | .state _       => ⟨hQ _, likeTypes_refl hQ _⟩
  | .agent _       => ⟨hQ _, likeOption_refl hQ _, likeOption_refl hQ _⟩
  | .pipeline _    => ⟨hQ _, likeTypes_refl hQ _, likeType_refl hQ _⟩
  | .safetyBound _ => hQ _

/-! ### Items with one signature -/

mutual
theorem likeType_of_same : ∀ t t' : TypeNode, SameType t t' → LikeType (fun _ _ => True) t t'
  | .reference lifetime mutable inner span, t', h => by
    cases t' with
    | reference lifetime' mutable' inner' span' =>
      simp only [SameType, TypeNode.bare, TypeNode.reference.injEq] at h
      exact ⟨h.1, h.2.1, likeType_of_same inner inner' h.2.2.1⟩
    | _ => simp [SameType, TypeNode.bare] at h
  | .path segments arguments span, t', h => by
    cases t' with
    | path segments' arguments' span' =>
      simp only [SameType, TypeNode.bare, TypeNode.path.injEq] at h
      obtain ⟨hcount, hsame⟩ := likeTypes_of_same arguments arguments' h.2.1
      exact ⟨h.1, trivial, fun _ => hcount, fun _ => hsame⟩
    | _ => simp [SameType, TypeNode.bare] at h
  | .array inner span, t', h => by
    cases t' with
    | array inner' span' =>
      simp only [SameType, TypeNode.bare, TypeNode.array.injEq] at h
      exact likeType_of_same inner inner' h.1
    | _ => simp [SameType, TypeNode.bare] at h
  | .tuple items span, t', h => by
    cases t' with
    | tuple items' span' =>
      simp only [SameType, TypeNode.bare, TypeNode.tuple.injEq] at h
      exact (likeTypes_of_same items items' h.1).2
    | _ => simp [SameType, TypeNode.bare] at h
theorem likeTypes_of_same : ∀ ts ts' : List TypeNode, bareAll ts = bareAll ts' →
    ts.length = ts'.length ∧ LikeTypes (fun _ _ => True) ts ts'
  | [], [], _ => ⟨rfl, trivial⟩
  | [], _ :: _, h => by simp [bareAll] at h
  | _ :: _, [], h => by simp [bareAll] at h
  | t :: ts, t' :: ts', h => by
    simp only [bareAll, List.cons.injEq] at h
    obtain ⟨hcount, hsame⟩ := likeTypes_of_same ts ts' h.2
    exact ⟨congrArg Nat.succ hcount, likeType_of_same t t' h.1, hsame⟩
end

theorem likeVariants_of_same : ∀ {variants variants' : List EnumVariant},
    List.Forall₂ (fun v v' => v.name = v'.name ∧ List.Forall₂ SameType v.fields v'.fields) variants variants' →
      List.Forall₂ (fun v v' => v.name = v'.name ∧ LikeTypes (fun _ _ => True) v.fields v'.fields) variants variants'
  | [], [], .nil => .nil
  | _ :: _, _ :: _, .cons hv hvariants =>
    .cons ⟨hv.1, (likeTypes_of_same _ _ (bareAll_eq hv.2)).2⟩ (likeVariants_of_same hvariants)

theorem likeOption_of_same {t t' : Option TypeNode} (h : Option.Rel SameType t t') :
    Option.Rel (LikeType fun _ _ => True) t t' := by
  cases h with
  | none => exact .none
  | some h => exact .some (likeType_of_same _ _ h)

theorem readAlike_of_same {item item' : Item} (h : SameInterface item item') : ReadAlike item item' := by
  cases item with
  | struct node =>
    cases item' with
    | struct node' =>
      refine ⟨trivial, ?_, (likeTypes_of_same _ _ (bareAll_eq ?_)).2⟩
      · refine List.forall₂_eq_eq_eq ▸ ?_
        exact List.forall₂_map_left_iff.mpr (List.forall₂_map_right_iff.mpr (h.imp fun _ _ hfield => hfield.1))
      · exact List.forall₂_map_left_iff.mpr (List.forall₂_map_right_iff.mpr (h.imp fun _ _ hfield => hfield.2))
    | _ => exact h.elim
  | enum node =>
    cases item' with
    | enum node' => exact ⟨trivial, likeVariants_of_same h⟩
    | _ => exact h.elim
  | state node =>
    cases item' with
    | state node' => exact ⟨trivial, (likeTypes_of_same _ _ (bareAll_eq h)).2⟩
    | _ => exact h.elim
  | function node =>
    cases item' with
    | function node' => exact ⟨trivial, (likeTypes_of_same _ _ (bareAll_eq h.1)).2, likeType_of_same _ _ h.2⟩
    | _ => exact h.elim
  | pipeline node =>
    cases item' with
    | pipeline node' => exact ⟨trivial, (likeTypes_of_same _ _ (bareAll_eq h.1)).2, likeType_of_same _ _ h.2⟩
    | _ => exact h.elim
  | agent node =>
    cases item' with
    | agent node' => exact ⟨trivial, likeOption_of_same h.1, likeOption_of_same h.2⟩
    | _ => exact h.elim
  | safetyBound node =>
    cases item' with
    | safetyBound node' => trivial
    | _ => exact h.elim

/-! ### Their positions -/

mutual
theorem likeType_moved : ∀ t t' : TypeNode, LikeType (fun _ _ => True) t t' →
    (∀ s ∈ t.positions, ∀ s' ∈ t'.positions, Q s s') → LikeType Q t t'
  | .reference lifetime mutable inner span, t', h, hQ => by
    cases t' with
    | reference lifetime' mutable' inner' span' => exact ⟨h.1, h.2.1, likeType_moved inner inner' h.2.2 hQ⟩
    | _ => exact h.elim
  | .path segments arguments span, t', h, hQ => by
    cases t' with
    | path segments' arguments' span' =>
      obtain ⟨hname, -, hcount, htaken⟩ := h
      refine ⟨hname, hQ _ List.mem_cons_self _ List.mem_cons_self, hcount, fun h => ?_⟩
      exact likeTypes_moved arguments arguments' (htaken h) fun s hs s' hs' =>
        hQ s (List.mem_cons_of_mem _ hs) s' (List.mem_cons_of_mem _ hs')
    | tuple => exact h
    | _ => exact h.elim
  | .array inner span, t', h, hQ => by
    cases t' with
    | array inner' span' => exact likeType_moved inner inner' h hQ
    | _ => exact h.elim
  | .tuple items span, t', h, hQ => by
    cases t' with
    | tuple items' span' => exact likeTypes_moved items items' h hQ
    | path => exact h
    | _ => exact h.elim
theorem likeTypes_moved : ∀ ts ts' : List TypeNode, LikeTypes (fun _ _ => True) ts ts' →
    (∀ s ∈ positionsAll ts, ∀ s' ∈ positionsAll ts', Q s s') → LikeTypes Q ts ts'
  | [], [], _, _ => trivial
  | [], _ :: _, h, _ => h.elim
  | _ :: _, [], h, _ => h.elim
  | t :: ts, t' :: ts', h, hQ =>
    ⟨likeType_moved t t' h.1 fun s hs s' hs' => hQ s (List.mem_append_left _ hs) s' (List.mem_append_left _ hs'),
      likeTypes_moved ts ts' h.2 fun s hs s' hs' => hQ s (List.mem_append_right _ hs) s' (List.mem_append_right _ hs')⟩
end

theorem likeOption_moved {t t' : Option TypeNode} (h : Option.Rel (LikeType fun _ _ => True) t t')
    (hQ : ∀ s ∈ positionsAll t.toList, ∀ s' ∈ positionsAll t'.toList, Q s s') : Option.Rel (LikeType Q) t t' := by
  cases h with
  | none => exact .none
  | some h =>
    refine .some (likeType_moved _ _ h fun s hs s' hs' => hQ s ?_ s' ?_)
    · exact List.mem_append_left _ hs
    · exact List.mem_append_left _ hs'

theorem mem_returned {ret : Option TypeNode} {s : Span} (h : s ∈ (returned ret).positions) : s ∈ positionsAll ret.toList := by
  cases ret with
  | none => exact (List.not_mem_nil h).elim
  | some t => exact List.mem_append_left _ h

theorem likeVariants_moved : ∀ {variants variants' : List EnumVariant},
    List.Forall₂ (fun v v' => v.name = v'.name ∧ LikeTypes (fun _ _ => True) v.fields v'.fields) variants variants' →
      (∀ s ∈ positionsAll (variants.flatMap (·.fields)), ∀ s' ∈ positionsAll (variants'.flatMap (·.fields)), Q s s') →
        List.Forall₂ (fun v v' => v.name = v'.name ∧ LikeTypes Q v.fields v'.fields) variants variants'
  | [], [], .nil, _ => .nil
  | v :: variants, v' :: variants', .cons hv hvariants, hQ => by
    rw [List.flatMap_cons, List.flatMap_cons, positionsAll_append, positionsAll_append] at hQ
    refine .cons ⟨hv.1, likeTypes_moved _ _ hv.2 fun s hs s' hs' => ?_⟩ (likeVariants_moved hvariants fun s hs s' hs' => ?_)
    · exact hQ s (List.mem_append_left _ hs) s' (List.mem_append_left _ hs')
    · exact hQ s (List.mem_append_right _ hs) s' (List.mem_append_right _ hs')

theorem likeSignature_moved {ps ps' : List Parameter} {ret ret' : Option TypeNode}
    (h : LikeTypes (fun _ _ => True) (ps.map (·.ty)) (ps'.map (·.ty)) ∧ LikeType (fun _ _ => True) (returned ret) (returned ret'))
    (hQ : ∀ s ∈ positionsAll (ps.map (·.ty) ++ ret.toList), ∀ s' ∈ positionsAll (ps'.map (·.ty) ++ ret'.toList), Q s s') :
    LikeTypes Q (ps.map (·.ty)) (ps'.map (·.ty)) ∧ LikeType Q (returned ret) (returned ret') := by
  rw [positionsAll_append, positionsAll_append] at hQ
  refine ⟨likeTypes_moved _ _ h.1 fun s hs s' hs' => ?_, likeType_moved _ _ h.2 fun s hs s' hs' => ?_⟩
  · exact hQ s (List.mem_append_left _ hs) s' (List.mem_append_left _ hs')
  · exact hQ s (List.mem_append_right _ (mem_returned hs)) s' (List.mem_append_right _ (mem_returned hs'))

/-- **Items that are read alike correspond, at the positions in them.** -/
theorem ReadAlike.moved {item item' : Item} (h : ReadAlike item item')
    (hQ : ∀ s ∈ item.positions, ∀ s' ∈ item'.positions, Q s s') : LikeItem Q item item' := by
  have hspan : Q item.span item'.span := hQ _ List.mem_cons_self _ List.mem_cons_self
  have htypes : ∀ s ∈ positionsAll item.signatureTypes, ∀ s' ∈ positionsAll item'.signatureTypes, Q s s' :=
    fun s hs s' hs' => hQ s (List.mem_cons_of_mem _ hs) s' (List.mem_cons_of_mem _ hs')
  cases item with
  | struct node =>
    cases item' with
    | struct node' => exact ⟨hspan, h.2.1, likeTypes_moved _ _ h.2.2 htypes⟩
    | _ => exact h.elim
  | enum node =>
    cases item' with
    | enum node' => exact ⟨hspan, likeVariants_moved h.2 htypes⟩
    | _ => exact h.elim
  | state node =>
    cases item' with
    | state node' => exact ⟨hspan, likeTypes_moved _ _ h.2 htypes⟩
    | _ => exact h.elim
  | function node =>
    cases item' with
    | function node' => exact ⟨hspan, likeSignature_moved h.2 htypes⟩
    | _ => exact h.elim
  | pipeline node =>
    cases item' with
    | pipeline node' => exact ⟨hspan, likeSignature_moved h.2 htypes⟩
    | _ => exact h.elim
  | agent node =>
    cases item' with
    | agent node' =>
      simp only [Item.signatureTypes, positionsAll_append, List.mem_append] at htypes
      exact ⟨hspan, likeOption_moved h.2.1 fun s hs s' hs' => htypes s (.inl hs) s' (.inl hs'),
        likeOption_moved h.2.2 fun s hs s' hs' => htypes s (.inr hs) s' (.inr hs')⟩
    | _ => exact h.elim
  | safetyBound node =>
    cases item' with
    | safetyBound node' => exact hspan
    | _ => exact h.elim

end

end Modules
end Syllog
