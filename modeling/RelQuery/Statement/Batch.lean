/-
Fetching a relation for many rows at once.

The statement of a batch selects all fields of the target whose key column is among the keys bound to it, in the order
of the target's primary key; `BatchFetch.render` binds one list of keys.
-/
import RelQuery.Statement.Select

namespace RelQuery

namespace BatchFetch

/-- the name of the one table of a batch -/
def rowAlias : String := tableAlias 0

/-- all rows of an entity, by its key -/
def allRows (target : Entity) : Sql.Query :=
  { Sql.Query.selecting (target.fields.map fun f => ⟨.columnOf rowAlias f.name, none⟩) with
    source := some (.table ⟨target.table, some rowAlias⟩)
    orderBy := [⟨.columnOf rowAlias target.primaryKey, some .asc⟩] }

/-- the fetch of one relation of a plan, for primary rows with the given columns -/
def ofRelation (schema : Schema) (root : Entity) (primary : List OutputColumn) (name : String) :
    Except QueryError BatchFetch := do
  let relation ← orFail (.unknownPath root.name name) (root.relation name)
  let target ← schema.entity relation.target
  let localIndex ← orFail (.unknownPath root.name relation.localColumn)
    (primary.findIdx? fun c => c.source = .root && c.key = relation.localColumn)
  let keyIndex ← orFail (.unknownPath target.name relation.remoteColumn)
    (target.fields.findIdx? (·.name = relation.remoteColumn))
  return {
    relation := name
    cardinality := relation.cardinality
    target := target.name
    localKey := relation.localColumn
    localIndex
    remoteKey := relation.remoteColumn
    keyIndex
    columns := target.columns
    query := allRows target
    keyColumn := .columnOf rowAlias relation.remoteColumn }

/-- the statement tree for a list of keys -/
def queryFor (fetch : BatchFetch) (keys : List Value) : Sql.Query :=
  { fetch.query with condition := some (.inList fetch.keyColumn (keys.map .param) false) }

/-- the statement for a list of keys -/
def render (d : Sql.Dialect) (fetch : BatchFetch) (keys : List Value) : Statement :=
  .ofTokens d ((fetch.queryFor keys).tokens d) fetch.columns

end BatchFetch

/-- the fetches of a plan, in the order of the relations' names -/
def Plan.batches (schema : Schema) (p : Plan) (primary : List OutputColumn) : Except QueryError (List BatchFetch) :=
  (p.relationsLoaded .batched).mapM (BatchFetch.ofRelation schema p.root primary)

end RelQuery
