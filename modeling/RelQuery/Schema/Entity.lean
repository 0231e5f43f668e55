/-
Entities, their fields and the relations between them.

An entity is found by name in three ways: `Entity.field` (with `pk` standing for the primary key), `Entity.relation`,
and `Entity.declares`, which holds when a name means anything at all. The first declaration of a name wins.
-/
import RelQuery.Value

namespace RelQuery

structure Field where
  name : String
  type : ScalarType
  nullable : Bool
deriving DecidableEq, Repr, Inhabited

inductive Cardinality where
  | toOne
  | toMany
deriving DecidableEq, Repr, Inhabited

namespace Cardinality

/-- the cardinality in encoded relations -/
def name : Cardinality → String
  | toOne => "to_one"
  | toMany => "to_many"

def all : List Cardinality := [toOne, toMany]

def ofName? (s : String) : Option Cardinality := all.find? (·.name = s)

/-- the cardinality in messages -/
def display : Cardinality → String
  | toOne => "to-one"
  | toMany => "to-many"

end Cardinality

/-- a relation whose rows match where `localColumn` of the owner equals `remoteColumn` of the target -/
structure Relation where
  name : String
  target : String
  cardinality : Cardinality
  localColumn : String
  remoteColumn : String
deriving DecidableEq, Repr, Inhabited

structure Entity where
  name : String
  table : String
  primaryKey : String
  fields : List Field
  relations : List Relation
deriving DecidableEq, Repr, Inhabited

/-- the field name that a name stands for in an entity with the given key -/
def fieldName (primaryKey name : String) : String := if name = "pk" then primaryKey else name

namespace Entity

/-- the field of a name, `pk` being the primary key -/
def field (e : Entity) (name : String) : Option Field :=
  e.fields.find? (·.name = fieldName e.primaryKey name)

def relation (e : Entity) (name : String) : Option Relation := e.relations.find? (·.name = name)

/-- whether a name is taken -/
def declares (e : Entity) (name : String) : Bool :=
  name = "pk" || (e.field name).isSome || (e.relation name).isSome

end Entity

/-! ## Encoding -/

def Field.toJson (f : Field) : Json :=
  .object [("name", .text f.name), ("ty", .text f.type.name), ("nullable", .bool f.nullable)]

def Relation.toJson (r : Relation) : Json :=
  .object [("name", .text r.name), ("target", .text r.target), ("cardinality", .text r.cardinality.name),
    ("local_column", .text r.localColumn), ("remote_column", .text r.remoteColumn)]

def Entity.toJson (e : Entity) : Json :=
  .object [("name", .text e.name), ("table", .text e.table), ("pk", .text e.primaryKey),
    ("fields", .array (e.fields.map Field.toJson)), ("relations", .array (e.relations.map Relation.toJson))]

end RelQuery
