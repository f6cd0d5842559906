import Syllog.AstLower
/-!
# AstUses — the names a body uses and the identities its lowering carries

Both trees are read in the order in which lowering meets them: what the source uses by name, and whether a parameter or a
binding shadows it there; what the typed tree refers to, and what it binds.
-/
namespace Syllog

namespace Ast

open Hir (Literal)

/-- A use of a name in a body. -/
inductive Use where
  | value (name : String) (bound : Bool)
  | path (segments : List String)
  | pattern (segments : List String)
deriving DecidableEq, Repr

mutual
/-- The names a pattern binds. -/
def Pattern.names : Pattern → List String
  | .wildcard _             => []
  | .literal _ _            => []
  | .path [name] _          => [name]
  | .path _ _               => []
  | .constructor _ fields _ => patternNames fields
def patternNames : List Pattern → List String
  | []      => []
  | p :: ps => p.names ++ patternNames ps
end

mutual
def Pattern.uses : Pattern → List Use
  | .wildcard _                    => []
  | .literal _ _                   => []
  | .path [_] _                    => []
  | .path segments _               => [.pattern segments]
  | .constructor segments fields _ => .pattern segments :: patternUses fields
def patternUses : List Pattern → List Use
  | []      => []
  | p :: ps => p.uses ++ patternUses ps
end

mutual
/-- The uses of an expression, where `bound` are the names of the parameters and bindings around it. -/
def Expr.uses : Expr → List String → List Use
  | .mk kind _, bound => kind.uses bound
def ExprKind.uses : ExprKind → List String → List Use
  | .borrow _ operand, bound            => operand.uses bound
  | .await operand, bound               => operand.uses bound
  | .literal (.identifier name), bound  => if name = "none" then [] else [.value name (name ∈ bound)]
  | .literal _, _                       => []
  | .path segments, _                   => [.path segments]
  | .array items, bound                 => itemUses items bound
  | .call callee arguments, bound       => callee.uses bound ++ argumentUses arguments bound
  | .field base _, bound                => base.uses bound
  | .unary _ operand, bound             => operand.uses bound
  | .binary _ left right, bound         => left.uses bound ++ right.uses bound
  | .match_ value arms, bound           => value.uses bound ++ armUses arms bound
  | .block (.mk statements _), bound    => statementUses statements bound
def itemUses : List Expr → List String → List Use
  | [], _          => []
  | e :: es, bound => e.uses bound ++ itemUses es bound
def argumentUses : List CallArgument → List String → List Use
  | [], _                      => []
  | .mk _ value _ :: as, bound => value.uses bound ++ argumentUses as bound
def armUses : List MatchArm → List String → List Use
  | [], _                                  => []
  | .mk pattern guard body _ :: arms, bound =>
    pattern.uses ++ optionUses guard (pattern.names ++ bound) ++ body.uses (pattern.names ++ bound) ++ armUses arms bound
def optionUses : Option Expr → List String → List Use
  | none, _           => []
  | some value, bound => value.uses bound
def statementUses : List Statement → List String → List Use
  | [], _                               => []
  | .let_ name _ value _ :: rest, bound => value.uses bound ++ statementUses rest (name :: bound)
  | .return_ value _ :: rest, bound     => optionUses value bound ++ statementUses rest bound
  | .expression e _ :: rest, bound      => e.uses bound ++ statementUses rest bound
end

/-- The uses of an item's body; a pipeline is lowered from its last `result`. -/
def Item.uses : Item → List Use
  | .function node => match node.body with
    | .mk statements _ => statementUses statements (node.parameters.map (·.name))
  | .pipeline node =>
    optionUses ((lastProperty node.fields "result").map (·.value)) (node.parameters.map (·.name))
  | _              => []

mutual
/-- The names of the `let`s and pattern bindings inside an expression, in the order lowering meets them. -/
def Expr.binders : Expr → List String
  | .mk kind _ => kind.binders
def ExprKind.binders : ExprKind → List String
  | .borrow _ operand         => operand.binders
  | .await operand            => operand.binders
  | .literal _                => []
  | .path _                   => []
  | .array items              => itemBinders items
  | .call callee arguments    => callee.binders ++ argumentBinders arguments
  | .field base _             => base.binders
  | .unary _ operand          => operand.binders
  | .binary _ left right      => left.binders ++ right.binders
  | .match_ value arms        => value.binders ++ armBinders arms
  | .block (.mk statements _) => statementBinders statements
def itemBinders : List Expr → List String
  | []      => []
  | e :: es => e.binders ++ itemBinders es
def argumentBinders : List CallArgument → List String
  | []                  => []
  | .mk _ value _ :: as => value.binders ++ argumentBinders as
def armBinders : List MatchArm → List String
  | []                               => []
  | .mk pattern guard body _ :: arms => pattern.names ++ (optionBinders guard ++ (body.binders ++ armBinders arms))
def optionBinders : Option Expr → List String
  | none       => []
  | some value => value.binders
def statementBinders : List Statement → List String
  | []                           => []
  | .let_ name _ value _ :: rest => value.binders ++ name :: statementBinders rest
  | .return_ value _ :: rest     => optionBinders value ++ statementBinders rest
  | .expression e _ :: rest      => e.binders ++ statementBinders rest
end

/-- The names of an item's parameters and of what its lowered body binds. -/
def Item.binders : Item → List String
  | .function node => match node.body with
    | .mk statements _ => node.parameters.map (·.name) ++ statementBinders statements
  | .pipeline node =>
    node.parameters.map (·.name) ++ optionBinders ((lastProperty node.fields "result").map (·.value))
  | _              => []

/-- A struct, an enum or a state. -/
def Item.isType : Item → Bool
  | .struct _ => true
  | .enum _   => true
  | .state _  => true
  | _         => false

end Ast

namespace Hir

/-- What a body refers to. -/
inductive Referent where
  | reference (definition : DefId)
  | variant (definition : DefId)
deriving DecidableEq, Repr

mutual
def HirPattern.bindings : HirPattern → List DefId
  | .wildcard           => []
  | .literal _          => []
  | .binding definition => [definition]
  | .variant _ fields   => patternBindings fields
def patternBindings : List HirPattern → List DefId
  | []      => []
  | p :: ps => p.bindings ++ patternBindings ps
end

mutual
def HirPattern.referents : HirPattern → List Referent
  | .wildcard                  => []
  | .literal _                 => []
  | .binding _                 => []
  | .variant definition fields => .variant definition :: patternReferents fields
def patternReferents : List HirPattern → List Referent
  | []      => []
  | p :: ps => p.referents ++ patternReferents ps
end

mutual
/-- The bindings made inside an expression. -/
def TypedExpr.bindings : TypedExpr → List DefId
  | .mk kind _ _ => kind.bindings
def HirExprKind.bindings : HirExprKind → List DefId
  | .borrow _ operand      => operand.bindings
  | .await operand         => operand.bindings
  | .literal _             => []
  | .reference _           => []
  | .array items           => itemBindings items
  | .call callee arguments => callee.bindings ++ itemBindings arguments
  | .field base _          => base.bindings
  | .unary _ operand       => operand.bindings
  | .binary _ left right   => left.bindings ++ right.bindings
  | .match_ value arms     => value.bindings ++ armBindings arms
  | .block statements      => statementBindings statements
def itemBindings : List TypedExpr → List DefId
  | []      => []
  | e :: es => e.bindings ++ itemBindings es
def armBindings : List HirMatchArm → List DefId
  | []                                => []
  | .mk pattern guard body _ :: arms =>
    pattern.bindings ++ (optionBindings guard ++ (body.bindings ++ armBindings arms))
def optionBindings : Option TypedExpr → List DefId
  | none       => []
  | some value => value.bindings
def statementBindings : List HirStatement → List DefId
  | []                              => []
  | .let_ definition _ value :: rest => value.bindings ++ definition :: statementBindings rest
  | .return_ value :: rest           => optionBindings value ++ statementBindings rest
  | .expression e :: rest            => e.bindings ++ statementBindings rest
end

mutual
/-- What an expression refers to. -/
def TypedExpr.referents : TypedExpr → List Referent
  | .mk kind _ _ => kind.referents
def HirExprKind.referents : HirExprKind → List Referent
  | .borrow _ operand      => operand.referents
  | .await operand         => operand.referents
  | .literal _             => []
  | .reference definition  => [.reference definition]
  | .array items           => itemReferents items
  | .call callee arguments => callee.referents ++ itemReferents arguments
  | .field base _          => base.referents
  | .unary _ operand       => operand.referents
  | .binary _ left right   => left.referents ++ right.referents
  | .match_ value arms     => value.referents ++ armReferents arms
  | .block statements      => statementReferents statements
def itemReferents : List TypedExpr → List Referent
  | []      => []
  | e :: es => e.referents ++ itemReferents es
def armReferents : List HirMatchArm → List Referent
  | []                               => []
  | .mk pattern guard body _ :: arms =>
    pattern.referents ++ optionReferents guard ++ body.referents ++ armReferents arms
def optionReferents : Option TypedExpr → List Referent
  | none       => []
  | some value => value.referents
def statementReferents : List HirStatement → List Referent
  | []                      => []
  | .let_ _ _ value :: rest => value.referents ++ statementReferents rest
  | .return_ value :: rest  => optionReferents value ++ statementReferents rest
  | .expression e :: rest   => e.referents ++ statementReferents rest
end

/-- The parameters, `let`s and pattern bindings of a definition. -/
def HirDefinition.bindings (d : HirDefinition) : List DefId :=
  match d.kind with
  | .function f        => f.parameters.map (·.id) ++ statementBindings f.body
  | .pipeline pipeline => pipeline.parameters.map (·.id) ++ optionBindings pipeline.body
  | _                  => []

def HirDefinition.referents (d : HirDefinition) : List Referent :=
  match d.kind with
  | .function f        => statementReferents f.body
  | .pipeline pipeline => optionReferents pipeline.body
  | _                  => []

def HirDefinitionKind.isType : HirDefinitionKind → Bool
  | .struct _ => true
  | .enum _   => true
  | .state _  => true
  | _         => false

/-- The ids of the fields or variants of a definition. -/
def HirDefinition.memberIds (d : HirDefinition) : List DefId :=
  match d.kind with
  | .struct fields | .state fields => fields.map (·.id)
  | .enum variants                 => variants.map (·.id)
  | _                              => []

end Hir
end Syllog
