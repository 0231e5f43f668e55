/-
Declared entities and the schema made of them.

A draft names the keys of its relations by role, so that entities can refer to each other before either is complete.
`Schema.ofDrafts` settles the roles and checks every name: entity names differ, primary keys are fields, relations
lead to entities, relation keys are fields of the two sides, and no relation hides a field.
-/
import RelQuery.Schema.Path

namespace RelQuery

/-- one side of a relation before its entities are known -/
inductive KeyRole where
  | column (name : String)
  | ownKey
  | targetKey
deriving DecidableEq, Repr

structure RelationDraft where
  name : String
  target : String
  cardinality : Cardinality
  localKey : KeyRole
  remoteKey : KeyRole
deriving DecidableEq, Repr

namespace RelationDraft

/-- a column here holds the key of one row there -/
def toOne (name target foreignKey : String) : RelationDraft :=
  ⟨name, target, .toOne, .column foreignKey, .targetKey⟩

/-- a column there holds the key of a row here -/
def toMany (name target foreignKey : String) : RelationDraft :=
  ⟨name, target, .toMany, .ownKey, .column foreignKey⟩

/-- two given columns hold equal values -/
def matching (name target : String) (cardinality : Cardinality) (localColumn remoteColumn : String) : RelationDraft :=
  ⟨name, target, cardinality, .column localColumn, .column remoteColumn⟩

end RelationDraft

structure EntityDraft where
  name : String
  table : String
  primaryKey : String
  fields : List Field
  relations : List RelationDraft
deriving DecidableEq, Repr

namespace EntityDraft

/-- An entity is stored in a table of its own name, under the key `id`, unless it says otherwise. -/
def declare (name : String) (table primaryKey : Option String) (fields : List Field) (relations : List RelationDraft) :
    EntityDraft :=
  ⟨name, table.getD name, primaryKey.getD "id", fields, relations⟩

/-- the field of a name, `pk` being the primary key -/
def field (e : EntityDraft) (name : String) : Option Field :=
  e.fields.find? (·.name = fieldName e.primaryKey name)

end EntityDraft

/-- the column that a role means between two entities -/
def KeyRole.column? (owner target : EntityDraft) : KeyRole → String
  | .column name => name
  | .ownKey => owner.primaryKey
  | .targetKey => target.primaryKey

/-- the first name that a list holds twice -/
def firstRepeated (seen : List String) : List String → Option String
  | [] => none
  | name :: rest => if name ∈ seen then some name else firstRepeated (name :: seen) rest

namespace RelationDraft

/-- A relation with its target and columns settled, or the name that is wrong with it. -/
def settle (drafts : List EntityDraft) (owner : EntityDraft) (r : RelationDraft) : Except QueryError Relation :=
  if (owner.field r.name).isSome || r.name = "pk" then .error (.duplicateAlias r.name)
  else
    match drafts.find? (·.name = r.target) with
    | none => .error (.unknownPath owner.name r.name)
    | some target =>
      let localColumn := r.localKey.column? owner target
      let remoteColumn := r.remoteKey.column? target target
      if (owner.field localColumn).isNone then .error (.unknownPath owner.name localColumn)
      else if (target.field remoteColumn).isNone then .error (.unknownPath target.name remoteColumn)
      else .ok ⟨r.name, r.target, r.cardinality, localColumn, remoteColumn⟩

end RelationDraft

namespace EntityDraft

/-- the primary key is a field -/
def checkKey (e : EntityDraft) : Except QueryError Unit :=
  if (e.field e.primaryKey).isSome then .ok () else .error (.unknownPath e.name e.primaryKey)

def settle (drafts : List EntityDraft) (e : EntityDraft) : Except QueryError Entity := do
  let relations ← e.relations.mapM (RelationDraft.settle drafts e)
  return ⟨e.name, e.table, e.primaryKey, e.fields, relations⟩

end EntityDraft

/-- the schema of a list of drafts, or the first name that is wrong -/
def Schema.ofDrafts (drafts : List EntityDraft) : Except QueryError Schema := do
  match firstRepeated [] (drafts.map (·.name)) with
  | some name => throw (.duplicateEntity name)
  | none =>
    drafts.forM EntityDraft.checkKey
    let entities ← drafts.mapM (EntityDraft.settle drafts)
    return ⟨entities⟩

end RelQuery
