/-
Rows made into records and mappings.

A column belongs to the record itself, to its annotations or to a joined relation; a joined relation without a primary
key is one without a row. Rows of batched relations become records of their own. `materialize` keeps the number and
order of the rows.
-/
import RelQuery.Fetch.RowSet
import RelQuery.Record.Basic

namespace RelQuery

/-- a projected row -/
structure Mapping where
  keys : List String
  values : List Value
deriving DecidableEq, Repr

namespace Mapping

def entries (m : Mapping) : List (String × Value) := m.keys.zip m.values

/-- the value of the first key of this name -/
def get (m : Mapping) (key : String) : Except QueryError Value :=
  orFail (.notLoaded "mapping" key) ((m.keys.findIdx? (· = key)).bind fun i => m.values[i]?)

/-- of a repeated key the last value counts -/
def toJson (m : Mapping) : Json := .sorted (m.entries.map fun entry => (entry.1, entry.2.toJson))

end Mapping

/-- the outcome of a fetch -/
inductive Results where
  | records (records : List Record)
  | mappings (mappings : List Mapping)

namespace Results

def length : Results → Nat
  | .records rs => rs.length
  | .mappings ms => ms.length

def toJson : Results → Json
  | .records rs => .array (rs.map Record.toJson)
  | .mappings ms => .array (ms.map Mapping.toJson)

end Results

/-- the cells of a row, read for their columns -/
def coerceRow (columns : List OutputColumn) (row : Row) : List (OutputColumn × Value) :=
  (columns.zip row).map fun cell => (cell.1, cell.1.coerce cell.2)

namespace Record

/-- a record whose cells are all fields -/
def ofFields (entity : Entity) (cells : List (OutputColumn × Value)) : Record :=
  cells.foldl (fun r cell => r.setField cell.1.key cell.2) (.empty entity)

/-- a cell of the record itself or of its annotations -/
def setCell (r : Record) (cell : OutputColumn × Value) : Record :=
  match cell.1.source with
  | .root | .path => r.setField cell.1.key cell.2
  | .computed => r.setAnnotation cell.1.key cell.2
  | .joined _ => r

/-- the joined relations of a row, in the order of their names -/
def joinedNames (cells : List (OutputColumn × Value)) : List String :=
  (NameMap.ofList (cells.filterMap fun cell =>
    match cell.1.source with
    | .joined relation => some (relation, ())
    | _ => none)).names

/-- the cells of one joined relation -/
def joinedCells (relation : String) (cells : List (OutputColumn × Value)) : List (OutputColumn × Value) :=
  cells.filter fun cell => cell.1.source = .joined relation

/-- Adds a joined relation; an outer join that matched nothing has a null key. -/
def addJoined (schema : Schema) (cells : List (OutputColumn × Value)) (r : Record) (name : String) :
    Except QueryError Record := do
  let relation ← orFail (.unknownPath r.entity.name name) (r.entity.relation name)
  let target ← schema.entity relation.target
  let own := joinedCells name cells
  let matched := own.any fun cell => cell.1.key = target.primaryKey && !cell.2.isNull
  return r.setRelated name (.one (if matched then some (ofFields target own) else none))

/-- the record of a primary row -/
def ofRow (schema : Schema) (entity : Entity) (columns : List OutputColumn) (row : Row) : Except QueryError Record := do
  let cells := coerceRow columns row
  (joinedNames cells).foldlM (addJoined schema cells) (cells.foldl setCell (.empty entity))

/-- the related records of a batched relation -/
def ofAttached (schema : Schema) (attached : AttachedRelation) (rows : List Row) : Except QueryError Related := do
  let target ← schema.entity attached.target
  return .ofRecords attached.cardinality (rows.map fun row => ofFields target (coerceRow attached.columns row))

/-- adds a batched relation to the record of the `i`-th row -/
def addAttached (schema : Schema) (i : Nat) (r : Record) (attached : AttachedRelation) : Except QueryError Record := do
  let related ← ofAttached schema attached (attached.perRow[i]?.getD [])
  return r.setRelated attached.relation related

end Record

/-- the records of the rows from number `i` on -/
def recordsFrom (schema : Schema) (entity : Entity) (set : RowSet) : Nat → List Row → Except QueryError (List Record)
  | _, [] => return []
  | i, row :: rest => do
    let r ← Record.ofRow schema entity set.columns row
    let r ← set.relations.foldlM (Record.addAttached schema i) r
    let rs ← recordsFrom schema entity set (i + 1) rest
    return r :: rs

/-- the rows of a plan in the shape it asks for -/
def materialize (schema : Schema) (set : RowSet) : ResultShape → Except QueryError Results
  | .mapping keys => return .mappings (set.rows.map fun row => ⟨keys, (coerceRow set.columns row).map Prod.snd⟩)
  | .record entity | .narrowedRecord entity _ => do
    let root ← schema.entity entity
    let records ← recordsFrom schema root set 0 set.rows
    return .records records

end RelQuery
