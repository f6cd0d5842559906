import Syllog.Hir
/-!
# HirBlocks — where nested blocks keep their meaning

`lower_block` serves function bodies and nested blocks alike: it leaves the block's value in the function's return slot
and ends the current MIR block with a return.  What is lowered next may replace that return (a call, a match, the jump at
the end of an arm) or stop at it.  `seals` follows whether the current block is ended, and `placed` accepts the positions
in which nothing is lost: no block is lowered into an ended one, no statement but the last leaves one behind, no two
blocks need the return slot at once, and `return` occurs where the slot goes on to the caller.
-/
namespace Syllog
namespace Hir

def TypedExpr.isBlock (e : TypedExpr) : Bool :=
  match e.kind with
  | .block _ => true
  | _        => false

/-- A block occurs in the expression, at any depth. -/
def TypedExpr.hasBlock (e : TypedExpr) : Bool := e.walk.any TypedExpr.isBlock

def statementsHaveBlock (statements : List HirStatement) : Bool := (walkStatements statements).any TypedExpr.isBlock

/-- The value is read from the return slot. -/
def TypedExpr.viaResult : TypedExpr → Bool
  | .mk (.block _) _ _       => true
  | .mk (.await operand) _ _ => operand.viaResult
  | _                        => false

/-- The statements always leave the function: by a `return` of their own, or of a block that is one of them. -/
def leaves : List HirStatement → Bool
  | []                                              => false
  | .return_ _ :: _                                 => true
  | .let_ _ _ _ :: rest                             => leaves rest
  | .expression (.mk (.block statements) _ _) :: rest => leaves statements || leaves rest
  | .expression _ :: rest                           => leaves rest

/-- The last statement is an expression, or none is reached. -/
def valued : List HirStatement → Bool
  | []                   => false
  | [.expression _]      => true
  | [.return_ _]         => true
  | [.let_ _ _ _]        => false
  | _ :: next :: rest    => valued (next :: rest)

mutual
/-- Whether the current block is ended behind an expression. -/
def TypedExpr.seals : TypedExpr → Bool → Bool
  | .mk (.await operand) _ _, ended       => operand.seals ended
  | .mk (.binary _ left right) _ _, ended => right.seals (left.seals ended)
  | .mk (.call _ _) _ _, _                => false
  | .mk (.match_ _ _) _ _, _              => false
  | .mk (.block statements) _ _, ended    => sealsBlock statements ended
  | .mk (.borrow _ _) _ _, ended          => ended
  | .mk (.literal _) _ _, ended           => ended
  | .mk (.reference _) _ _, ended         => ended
  | .mk (.array _) _ _, ended             => ended
  | .mk (.field _ _) _ _, ended           => ended
  | .mk (.unary _ _) _ _, ended           => ended
def sealsBlock : List HirStatement → Bool → Bool
  | [], ended                              => ended
  | .let_ _ _ value :: rest, ended         => ended || sealsBlock rest (value.seals false)
  | .return_ _ :: _, _                     => true
  | [.expression _], _                     => true
  | .expression e :: next :: rest, ended   => ended || sealsBlock (next :: rest) (e.seals false)
end

/-- What the placement depends on: whether the function returns unit, and whether it has no nested block at all. -/
structure Site where
  unit : Bool
  plain : Bool

mutual
/-- `tail`: the value becomes the function's result; `used`: it is read; `ended`: the current block is. -/
def TypedExpr.placed (site : Site) : TypedExpr → (tail used ended : Bool) → Bool
  | .mk (.await operand) _ _, tail, used, ended => operand.placed site tail used ended
  | .mk (.binary _ left right) _ _, _, _, ended =>
    left.placed site false true ended && right.placed site false true (left.seals ended) &&
      !(left.viaResult && right.hasBlock)
  | .mk (.call _ arguments) _ _, _, _, ended    => placedArguments site arguments ended
  | .mk (.match_ value arms) _ _, tail, _, ended => value.placed site false true ended && placedArms site arms tail
  | .mk (.block statements) _ _, tail, used, ended =>
    !ended && placedBlock site statements tail && (!used || site.unit || valued statements || leaves statements)
  | .mk (.borrow _ _) _ _, _, _, _              => true
  | .mk (.literal _) _ _, _, _, _               => true
  | .mk (.reference _) _ _, _, _, _             => true
  | .mk (.array _) _ _, _, _, _                 => true
  | .mk (.field _ _) _ _, _, _, _               => true
  | .mk (.unary _ _) _ _, _, _, _               => true
def placedArguments (site : Site) : List TypedExpr → (ended : Bool) → Bool
  | [], _          => true
  | e :: es, ended =>
    e.placed site false true ended && placedArguments site es (e.seals ended) &&
      !(e.viaResult && es.any TypedExpr.hasBlock)
def placedArms (site : Site) : List HirMatchArm → (tail : Bool) → Bool
  | [], _                        => true
  | .mk _ _ body _ :: arms, tail => body.placed site tail true false && placedArms site arms tail
/-- `returns`: the function's result may be decided here. -/
def placedBlock (site : Site) : List HirStatement → (returns : Bool) → Bool
  | [], _                                => true
  | .let_ _ _ value :: rest, returns     =>
    value.placed site false true false && (rest.isEmpty || !value.seals false) && placedBlock site rest returns
  | .return_ (some value) :: _, returns  => returns && value.placed site true true false
  | .return_ none :: _, returns          => returns && (site.unit || site.plain)
  | [.expression e], returns             => e.placed site returns true false
  | .expression (.mk (.block statements) _ _) :: next :: rest, returns =>
    if leaves statements then returns && placedBlock site statements true
    else placedBlock site statements false && !sealsBlock statements false && placedBlock site (next :: rest) returns
  | .expression e :: next :: rest, returns =>
    e.placed site false false false && !e.seals false && placedBlock site (next :: rest) returns
end

end Hir
end Syllog
