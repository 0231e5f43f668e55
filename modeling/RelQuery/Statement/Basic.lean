/-
What a plan is compiled to.

A `Statement` is text for one dialect with its bound values and a description of the columns it yields; a
`CompiledQuery` is the statement for a plan's rows, the shape in which they are presented, and a `BatchFetch` for
every relation that is loaded by statements of its own.
-/
import RelQuery.Schema.Path
import RelQuery.Sql.Write

namespace RelQuery

/-- where the value of a column comes from -/
inductive ColumnSource where
  /-- a field of the root entity -/
  | root
  /-- an annotation of the plan -/
  | computed
  /-- a field of a relation that is joined to the row -/
  | joined (relation : String)
  /-- a field reached through relations -/
  | path
deriving DecidableEq, Repr

structure OutputColumn where
  key : String
  source : ColumnSource
  /-- the declared type, when the column is a field -/
  type : Option ScalarType
deriving DecidableEq, Repr

/-- A cell read for a column; computed columns keep it as it is. -/
def OutputColumn.coerce (column : OutputColumn) (v : Value) : Value :=
  match column.type with
  | some type => type.coerce v
  | none => v

/-- the columns of all fields of an entity -/
def Entity.columns (e : Entity) : List OutputColumn := e.fields.map fun f => ⟨f.name, .root, some f.type⟩

/-- how rows are presented -/
inductive ResultShape where
  | record (entity : String)
  /-- records that carry the given fields and the annotations only -/
  | narrowedRecord (entity : String) (fields : List String)
  | mapping (keys : List String)
deriving DecidableEq, Repr

def ResultShape.isMapping : ResultShape → Bool
  | .mapping _ => true
  | _ => false

structure Statement where
  sql : String
  params : List Value
  columns : List OutputColumn
deriving DecidableEq, Repr

/-- a statement from its tokens -/
def Statement.ofTokens (d : Sql.Dialect) (tokens : List Sql.Token) (columns : List OutputColumn) : Statement :=
  let rendered := Sql.Token.render d tokens
  ⟨rendered.sql, rendered.params, columns⟩

/-- Rows of a relation for many keys at a time. -/
structure BatchFetch where
  relation : String
  cardinality : Cardinality
  target : String
  /-- the column of the primary rows that holds the key, and its position -/
  localKey : String
  localIndex : Nat
  /-- the column of the fetched rows that they are grouped by, and its position -/
  remoteKey : String
  keyIndex : Nat
  columns : List OutputColumn
  /-- all rows of the target, in the order of its primary key -/
  query : Sql.Query
  keyColumn : Sql.Expr

structure CompiledQuery where
  primary : Statement
  /-- the fetches, in the order of the relations' names -/
  batched : List BatchFetch
  shape : ResultShape

/-- what a statement is compiled for -/
inductive StatementKind where
  | rows
  | count
  | existsRow
deriving DecidableEq, Repr

def StatementKind.name : StatementKind → String
  | .rows => "rows"
  | .count => "count"
  | .existsRow => "exists"

/-! ## Encoding -/

def ColumnSource.toJson : ColumnSource → Json
  | .root => .text "Root"
  | .computed => .text "Annotation"
  | .joined relation => .object [("Joined", .object [("relation", .text relation)])]
  | .path => .text "Path"

def OutputColumn.toJson (column : OutputColumn) : Json :=
  .object [("key", .text column.key), ("source", column.source.toJson),
    ("ty", .ofOption (fun type => .text type.name) column.type)]

def ResultShape.toJson : ResultShape → Json
  | .record entity => .object [("Record", .object [("entity", .text entity)])]
  | .narrowedRecord entity fields =>
    .object [("NarrowedRecord", .object [("entity", .text entity), ("fields", .array (fields.map Json.text))])]
  | .mapping keys => .object [("Mapping", .object [("keys", .array (keys.map Json.text))])]

end RelQuery
