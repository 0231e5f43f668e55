/-
What an expression is made of, and what a plan refers to.

`Expr.nodes` lists an expression and all its parts, each before its own parts; subplans count as a single node and are
not entered. The references of an expression are read off that list. Aliases stand for the annotation of that name:
those that come from the outside world may name nothing or each other in a circle, so every search through them is cut
off after one step more than there are annotations, which no chain without repetition can need.
-/
import RelQuery.Plan.Expr

namespace RelQuery

namespace Expr

/-- the two sides of each arm in turn -/
def armSides : List (Expr × Expr) → List Expr
  | [] => []
  | (test, result) :: rest => test :: result :: armSides rest

/-- the direct parts of an expression -/
def children : Expr → List Expr
  | .binary _ left right => [left, right]
  | .and operands | .or operands => operands
  | .not operand | .isNull operand _ => [operand]
  | .inList operand values _ => operand :: values
  | .case arms otherwise => armSides arms ++ otherwise.toList
  | .aggregate _ arg _ => arg.toList
  | .field _ | .aliasRef _ | .literal _ | .outer _ | .correlated _ | .existsRow .. => []

mutual

/-- an expression and all its parts -/
def nodes : Expr → List Expr
  | .field ref => [.field ref]
  | .aliasRef name => [.aliasRef name]
  | .literal value => [.literal value]
  | .binary op left right => .binary op left right :: (nodes left ++ nodes right)
  | .and operands => .and operands :: nodesOfList operands
  | .or operands => .or operands :: nodesOfList operands
  | .not operand => .not operand :: nodes operand
  | .isNull operand negated => .isNull operand negated :: nodes operand
  | .inList operand values negated => .inList operand values negated :: (nodes operand ++ nodesOfList values)
  | .case arms otherwise =>
    .case arms otherwise :: (nodesOfArms arms ++ (match otherwise with
      | none => []
      | some e => nodes e))
  | .aggregate function arg distinct =>
    .aggregate function arg distinct :: (match arg with
      | none => []
      | some e => nodes e)
  | .outer name => [.outer name]
  | .correlated plan => [.correlated plan]
  | .existsRow plan negated => [.existsRow plan negated]
termination_by structural e => e

def nodesOfList : List Expr → List Expr
  | [] => []
  | e :: rest => nodes e ++ nodesOfList rest
termination_by structural es => es

def nodesOfArms : List (Expr × Expr) → List Expr
  | [] => []
  | (test, result) :: rest => nodes test ++ nodes result ++ nodesOfArms rest
termination_by structural arms => arms

end

def isAggregate : Expr → Bool
  | .aggregate .. => true
  | _ => false

def containsAggregate (e : Expr) : Bool := e.nodes.any isAggregate

/-- the fields an expression reads -/
def fieldRefs (e : Expr) : List FieldRef :=
  e.nodes.filterMap fun
    | .field ref => some ref
    | _ => none

/-- the fields of an enclosing row that an expression reads -/
def outerRefs (e : Expr) : List String :=
  e.nodes.filterMap fun
    | .outer name => some name
    | _ => none

/-- the annotations an expression names -/
def aliases (e : Expr) : List String :=
  e.nodes.filterMap fun
    | .aliasRef name => some name
    | _ => none

/-- the subplans of an expression -/
def subplans (e : Expr) : List Plan :=
  e.nodes.filterMap fun
    | .correlated plan | .existsRow plan _ => some plan
    | _ => none

end Expr

namespace Plan

/-- the expression of an annotation; of two with one alias the first counts -/
def annotationOf (p : Plan) (aliasName : String) : Option Expr :=
  (p.annotations.find? (·.aliasName = aliasName)).map (·.expr)

/-- how many alias steps a search may take -/
def aliasBudget (p : Plan) : Nat := p.annotations.length + 1

/-- whether an aggregate is reached from an alias within a number of steps -/
def aliasAggregates (p : Plan) : Nat → String → Bool
  | 0, _ => false
  | budget + 1, aliasName =>
    match p.annotationOf aliasName with
    | none => false
    | some e => e.containsAggregate || e.aliases.any (p.aliasAggregates budget)

def isAggregateAlias (p : Plan) (aliasName : String) : Bool := p.aliasAggregates p.aliasBudget aliasName

/-- whether the value of an expression depends on a whole group of rows -/
def exprAggregates (p : Plan) (e : Expr) : Bool :=
  e.containsAggregate || e.aliases.any p.isAggregateAlias

/-- whether some annotation is an aggregate -/
def hasAggregates (p : Plan) : Bool := p.annotations.any fun a => p.isAggregateAlias a.aliasName

/-- filters, annotations and order keys -/
def expressions (p : Plan) : List Expr :=
  p.filters ++ p.annotations.map (·.expr) ++ p.ordering.map (·.expr)

/-- the different fields of an enclosing row that a plan reads, its own subplans left out -/
def outerRefs (p : Plan) : List String := (p.expressions.flatMap Expr.outerRefs).eraseDups

/-- whether a filter, annotation or order key depends on a whole group of rows -/
def isGrouped (p : Plan) : Bool :=
  p.hasAggregates || p.filters.any p.exprAggregates || p.ordering.any fun key => p.exprAggregates key.expr

/-- whether a part of the rows is asked for -/
def isPaged (p : Plan) : Bool := p.limit.isSome || p.offset.isSome

/-- how a relation is loaded, if it is -/
def loading (p : Plan) (relation : String) : Option Loading := p.loadings.get? relation

end Plan

end RelQuery
