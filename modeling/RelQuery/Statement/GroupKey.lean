/-
Whether the result of a grouped statement is definite.

Rows are grouped by all outputs that are no aggregates. Whatever else is computed for a group may read a field outside
an aggregate only when the field is in that key; otherwise it would depend on which row of the group it is read from.
-/
import RelQuery.Statement.Output

namespace RelQuery

namespace Expr

mutual

/-- the fields that an expression reads outside any aggregate; `expand` says what an alias reads -/
def bareFields (root : Entity) (expand : String → List String) : Expr → List String
  | .field ref => [ref.key]
  | .aliasRef name => expand name
  | .literal _ => []
  | .binary _ left right => bareFields root expand left ++ bareFields root expand right
  | .and operands => bareFieldsOfList root expand operands
  | .or operands => bareFieldsOfList root expand operands
  | .not operand => bareFields root expand operand
  | .isNull operand _ => bareFields root expand operand
  | .inList operand values _ => bareFields root expand operand ++ bareFieldsOfList root expand values
  | .case arms otherwise =>
    bareFieldsOfArms root expand arms ++ (match otherwise with
      | none => []
      | some e => bareFields root expand e)
  | .aggregate .. => []
  | .outer _ => []
  | .correlated plan => plan.outerRefs.filterMap fun name => (root.field name).map (·.name)
  | .existsRow plan _ => plan.outerRefs.filterMap fun name => (root.field name).map (·.name)
termination_by structural e => e

def bareFieldsOfList (root : Entity) (expand : String → List String) : List Expr → List String
  | [] => []
  | e :: rest => bareFields root expand e ++ bareFieldsOfList root expand rest
termination_by structural es => es

def bareFieldsOfArms (root : Entity) (expand : String → List String) : List (Expr × Expr) → List String
  | [] => []
  | (test, result) :: rest =>
    bareFields root expand test ++ bareFields root expand result ++ bareFieldsOfArms root expand rest
termination_by structural arms => arms

end

/-- whether an order key is an annotation of the group key itself -/
def isAliasIn (aliases : List String) : Expr → Bool
  | .aliasRef name => aliases.contains name
  | _ => false

end Expr

namespace Plan

/-- the fields that an alias reads outside any aggregate, within a number of alias steps -/
def aliasBareFields (p : Plan) : Nat → String → List String
  | 0, _ => []
  | budget + 1, aliasName =>
    match p.annotationOf aliasName with
    | none => []
    | some e => e.bareFields p.root (p.aliasBareFields budget)

def bareFields (p : Plan) (e : Expr) : List String := e.bareFields p.root (p.aliasBareFields p.aliasBudget)

/-- the field that an expression is, aliases followed a number of steps -/
def plainField (p : Plan) : Nat → Expr → Option FieldRef
  | _, .field ref => some ref
  | budget + 1, .aliasRef name =>
    match p.annotationOf name with
    | none => none
    | some e => p.plainField budget e
  | _, _ => none

/-- the outputs that rows are grouped by -/
def groupOutputs (p : Plan) (outputs : List Output) : List Output :=
  outputs.filter fun output => !p.exprAggregates output.term.expr

/-- the fields in the group key -/
def groupFields (p : Plan) (outputs : List Output) : List String :=
  (p.groupOutputs outputs).filterMap fun output =>
    (p.plainField p.aliasBudget output.term.expr).map FieldRef.key

/-- the annotations in the group key -/
def groupAliases (p : Plan) (outputs : List Output) : List String :=
  (p.groupOutputs outputs).filterMap fun output =>
    match output.term with
    | .aliasRef name => some name
    | .field _ => none

/-- the first bare field of an expression that is outside a group key -/
def ungroupedField (p : Plan) (key : List String) (e : Expr) : Option String :=
  (p.bareFields e).find? fun field => !key.contains field

/-- an error for the first bare field outside the key, if there is one -/
def checkDefinite (p : Plan) (key : List String) (e : Expr) (fault : String → GroupingFault) : Except QueryError Unit :=
  match p.ungroupedField key e with
  | some field => .error (.ambiguousGrouping (fault field))
  | none => .ok ()

/-- Refuses a grouped plan whose outputs, filters or order keys are not definite. -/
def checkGrouping (p : Plan) (outputs : List Output) : Except QueryError Unit := do
  let key := p.groupFields outputs
  let aliases := p.groupAliases outputs
  (outputs.filter fun output => p.exprAggregates output.term.expr).forM fun output =>
    p.checkDefinite key output.term.expr (.mixedOutput output.column.key)
  (p.filters.filter p.exprAggregates).forM fun e => p.checkDefinite key e .bareFilter
  (p.ordering.filter fun k => !k.expr.isAliasIn aliases).forM fun k => p.checkDefinite key k.expr .bareOrder

end Plan

end RelQuery
