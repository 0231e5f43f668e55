/-
Plans compiled to statements of a dialect.

The dialect enters only when the finished tree is written out: whether a plan compiles, which columns it yields and
which values it binds do not depend on it.
-/
import RelQuery.Statement.Batch
import RelQuery.Statement.Change

namespace RelQuery

namespace Plan

/-- the statement that selects a plan's rows -/
def rowSelection (schema : Schema) (p : Plan) : Except QueryError Selection :=
  (p.select schema .rows none 0).map Prod.fst

/-- the statement that counts a plan's rows -/
def countQuery (schema : Schema) (p : Plan) : Except QueryError Sql.Query :=
  (p.select schema .count none 0).map fun selected => selected.1.query

/-- a query with another limit -/
def limitedTo (n : UInt64) (q : Sql.Query) : Sql.Query :=
  { q with page := some ⟨some n, q.page.bind (·.offset)⟩ }

/-- the statement that yields a row when the plan has one -/
def existsQuery (schema : Schema) (p : Plan) : Except QueryError Sql.Query :=
  (p.select schema .existence none 0).map fun selected => limitedTo 1 selected.1.query

/-- the column of a count -/
def countColumn : OutputColumn := ⟨"count", .computed, some .int⟩

/-- the statements for a plan's rows; mappings carry no records that relations could belong to -/
def compile (schema : Schema) (d : Sql.Dialect) (p : Plan) : Except QueryError CompiledQuery := do
  let selection ← p.rowSelection schema
  let batched ← if selection.shape.isMapping then pure [] else p.batches schema selection.columns
  return ⟨.ofTokens d (selection.query.tokens d) selection.columns, batched, selection.shape⟩

def compileCount (schema : Schema) (d : Sql.Dialect) (p : Plan) : Except QueryError Statement := do
  let q ← p.countQuery schema
  return .ofTokens d (q.tokens d) [countColumn]

def compileExists (schema : Schema) (d : Sql.Dialect) (p : Plan) : Except QueryError Statement := do
  let q ← p.existsQuery schema
  return .ofTokens d (q.tokens d) []

def compileUpdate (schema : Schema) (d : Sql.Dialect) (p : Plan) (assignments : List (String × Expr)) :
    Except QueryError Statement := do
  let statement ← p.update schema assignments
  return .ofTokens d (statement.tokens d) []

def compileDelete (schema : Schema) (d : Sql.Dialect) (p : Plan) : Except QueryError Statement := do
  let statement ← p.delete schema
  return .ofTokens d (statement.tokens d) []

end Plan

/-- The new key is a column of the statement only where the dialect gives it back. -/
def Entity.compileInsert (d : Sql.Dialect) (e : Entity) (values : List (String × Value)) :
    Except QueryError Statement := do
  let statement ← e.insert values
  return .ofTokens d (statement.tokens d) (if d.hasReturning then [e.keyColumn] else [])

end RelQuery
