/-
The output columns of a statement.

`Plan.outputs` lists what a plan's statement selects and how its rows are presented: all fields of the root, fields of
joined relations and annotations for a full record; the projected names for a mapping or a scalar subquery; and for a
narrowed record its names, its key and the columns that its relations are matched by.
-/
import RelQuery.Plan.Builder
import RelQuery.Statement.Scope

namespace RelQuery

/-- what the statement of a plan is for -/
inductive Purpose where
  | rows
  /-- the one value of a subquery -/
  | scalar
  /-- whether there is a row -/
  | existence
  /-- how many rows there are -/
  | count
deriving DecidableEq, Repr

/-- an output before it is compiled -/
inductive OutputTerm where
  | field (ref : FieldRef)
  | aliasRef (name : String)
deriving DecidableEq, Repr

def OutputTerm.expr : OutputTerm → Expr
  | .field ref => .field ref
  | .aliasRef name => .aliasRef name

structure Output where
  column : OutputColumn
  term : OutputTerm
  role : Role
  /-- the name given to the column in the statement -/
  selectAlias : Option String
deriving DecidableEq, Repr

namespace Output

/-- a field of the root entity -/
def ofRootField (schema : Schema) (root : Entity) (name : String) : Except QueryError Output := do
  let ref ← FieldRef.resolve schema root.name name
  return ⟨⟨ref.column, .root, some ref.field.type⟩, .field ref, .output, none⟩

/-- a field of a joined relation -/
def ofJoinedField (schema : Schema) (root : Entity) (relation : String) (field : Field) : Except QueryError Output := do
  let ref ← FieldRef.resolve schema root.name (relation ++ "." ++ field.name)
  return ⟨⟨field.name, .joined relation, some field.type⟩, .field ref, .loading, none⟩

/-- all fields of one joined relation -/
def ofJoinedRelation (schema : Schema) (root : Entity) (name : String) : Except QueryError (List Output) := do
  let relation ← orFail (.unknownPath root.name name) (root.relation name)
  let target ← schema.entity relation.target
  target.fields.mapM (ofJoinedField schema root name)

end Output

/-- The type of a column is known when it is directly a field. -/
def Expr.fieldType : Expr → Option ScalarType
  | .field ref => some ref.field.type
  | _ => none

/-- names without repetitions, in the order of their first occurrence -/
def distinctNames (names : List String) : List String := names.eraseDups

namespace Plan

/-- an annotation -/
def annotationOutput (p : Plan) (aliasName : String) : Except QueryError Output := do
  let e ← orFail (.unknownPath p.root.name aliasName) (p.annotationOf aliasName)
  return ⟨⟨aliasName, .computed, e.fieldType⟩, .aliasRef aliasName, .computed, some aliasName⟩

/-- a projected name: an annotation, or else a path -/
def namedOutput (schema : Schema) (p : Plan) (name : String) : Except QueryError Output :=
  if (p.annotationOf name).isSome then p.annotationOutput name
  else do
    let ref ← FieldRef.resolve schema p.root.name name
    let source := if ref.isLocal then ColumnSource.root else .path
    return ⟨⟨name, source, some ref.field.type⟩, .field ref, .output, some name⟩

/-- the relations loaded in a given way, in the order of their names -/
def relationsLoaded (p : Plan) (loading : Loading) : List String :=
  (p.loadings.entries.filter fun entry => entry.2 = loading).map Prod.fst

/-- the fields of all joined relations -/
def joinedOutputs (schema : Schema) (p : Plan) : Except QueryError (List Output) := do
  let outputs ← (p.relationsLoaded .join).mapM (Output.ofJoinedRelation schema p.root)
  return outputs.flatten

/-- The fields of a narrowed record: its key, the columns its relations are matched by, and the fields named. -/
def narrowedFields (p : Plan) (names : List String) : List String :=
  let keys := p.loadings.names.filterMap fun name => (p.root.relation name).map (·.localColumn)
  let named := names.filterMap fun name =>
    if (p.annotationOf name).isSome then none else (p.root.field name).map (·.name)
  distinctNames (p.root.primaryKey :: keys ++ named)

/-- what the statement of a plan selects, and how its rows are presented -/
def outputs (schema : Schema) (p : Plan) (purpose : Purpose) : Except QueryError (List Output × ResultShape) := do
  match purpose, p.projection with
  | .scalar, projection =>
    match (projection.map (·.names)).getD [] with
    | [name] =>
      let output ← p.namedOutput schema name
      return ([output], .mapping [name])
    | names => throw (.unsupportedCorrelation (.columnCount p.root.name names.length))
  | _, none =>
    let fields ← p.root.fields.mapM fun f => Output.ofRootField schema p.root f.name
    let joined ← p.joinedOutputs schema
    let annotations ← p.annotations.mapM fun a => p.annotationOutput a.aliasName
    return (fields ++ joined ++ annotations, .record p.root.name)
  | _, some ⟨.mapping, names⟩ =>
    let outputs ← names.mapM (p.namedOutput schema)
    return (outputs, .mapping names)
  | _, some ⟨.narrowed, names⟩ =>
    let kept := p.narrowedFields names
    let fields ← kept.mapM (Output.ofRootField schema p.root)
    let joined ← p.joinedOutputs schema
    let annotations ← (names.filter fun name => (p.annotationOf name).isSome).mapM p.annotationOutput
    return (fields ++ joined ++ annotations, .narrowedRecord p.root.name kept)

end Plan

end RelQuery
