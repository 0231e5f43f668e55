/-
Statements that change rows.

UPDATE and DELETE apply a plan's filters to the target table directly when they can: when they read fields of that
table only, aggregate nothing and no page of rows is asked for. Otherwise they change the rows whose primary key is
among those that the plan selects. INSERT gives the new key back where the dialect can.
-/
import RelQuery.Statement.Select

namespace RelQuery

namespace Plan

/-- whether an expression reads a field through a relation, within a number of alias steps -/
def reachesRelationsWithin (p : Plan) : Nat → Expr → Bool
  | 0, _ => false
  | budget + 1, e =>
    e.fieldRefs.any (fun ref => !ref.isLocal)
      || e.aliases.any fun aliasName =>
        match p.annotationOf aliasName with
        | none => false
        | some inner => p.reachesRelationsWithin budget inner

def reachesRelations (p : Plan) (e : Expr) : Bool := p.reachesRelationsWithin p.aliasBudget e

/-- whether the rows to change have to be selected by key -/
def needsKeys (p : Plan) : Bool := p.isPaged || p.filters.any fun e => p.exprAggregates e || p.reachesRelations e

/-- The plan for the keys of the rows: an order matters only to a page. -/
def keyPlan (schema : Schema) (p : Plan) : Except QueryError Plan := do
  let keyed ← p.project schema [p.root.primaryKey]
  return if p.isPaged then keyed else keyed.clearOrdering

/-- the statement that selects the keys, if one is needed, and the number of the next table name -/
def keyQuery (schema : Schema) (p : Plan) : Except QueryError (Option Sql.Query × Nat) :=
  if p.needsKeys then do
    let keyed ← p.keyPlan schema
    let (selection, next) ← keyed.select schema .rows none 0
    return (some selection.query, next)
  else return (none, 0)

/-- compiles an expression where the target table is the only one -/
def lowerInChange (schema : Schema) (p : Plan) (fragment : Fragment) : Lowering Sql.Expr :=
  let scope := Scope.ofChange schema p.root
  fragment scope (p.fragments.expansion scope) .filter

/-- one assignment: a field of the root and its new value -/
def lowerAssignment (schema : Schema) (p : Plan) (column : String) (value : Expr) : Lowering (String × Sql.Expr) := do
  let field ← orFail (.unknownPath p.root.name column) (p.root.field column)
  if p.exprAggregates value then throw (.ambiguousGrouping (.aggregateAssignment column))
  let e ← p.lowerInChange schema value.lower
  return (field.name, e)

/-- the condition on the rows to change -/
def lowerCondition (schema : Schema) (p : Plan) (keys : Option Sql.Query) : Lowering (Option Sql.Expr) :=
  match keys with
  | some q => return some (.inQuery (.column none p.root.primaryKey) q false)
  | none => do
    let conditions ← p.fragments.filters.mapM fun filter => p.lowerInChange schema filter.2
    return Sql.Expr.conjunction conditions

/-- the UPDATE of every row that a plan selects -/
def update (schema : Schema) (p : Plan) (assignments : List (String × Expr)) : Except QueryError Sql.Update := do
  let (keys, next) ← p.keyQuery schema
  let steps : Lowering Sql.Update := do
    let assigned ← assignments.mapM fun a => p.lowerAssignment schema a.1 a.2
    let condition ← p.lowerCondition schema keys
    return ⟨p.root.table, assigned, condition⟩
  steps.run' { next }

/-- the DELETE of every row that a plan selects -/
def delete (schema : Schema) (p : Plan) : Except QueryError Sql.Delete := do
  let (keys, next) ← p.keyQuery schema
  let condition ← (p.lowerCondition schema keys).run' { next }
  return ⟨p.root.table, condition⟩

end Plan

namespace Entity

/-- the INSERT of one row -/
def insert (e : Entity) (values : List (String × Value)) : Except QueryError Sql.Insert := do
  let columns ← values.mapM fun v => do
    let field ← orFail (.unknownPath e.name v.1) (e.field v.1)
    return field.name
  return ⟨e.table, columns, values.map fun v => .param v.2, [e.primaryKey]⟩

/-- the column in which an INSERT gives the new key back -/
def keyColumn (e : Entity) : OutputColumn := ⟨e.primaryKey, .root, (e.field e.primaryKey).map (·.type)⟩

end Entity

end RelQuery
