/-
Records: the rows of a plan with their fields, annotations and loaded relations by name.

A record holds what was fetched and nothing else. Reading a field or relation that the entity has and the record has
not is the error `notLoaded`; reading one that the entity has not is `unknownPath`. A path is read through related
records, and is null where one of them is missing.
-/
import RelQuery.Schema.Path

namespace RelQuery

mutual

structure Record where
  entity : Entity
  fields : NameMap Value
  annotations : NameMap Value
  related : NameMap Related

inductive Related where
  /-- the one row of a to-one relation, if there is one -/
  | one (record : Option Record)
  | many (records : List Record)

end

namespace Related

def asOne : Related → Option Record
  | .one record => record
  | .many _ => none

def asMany : Related → List Record
  | .one _ => []
  | .many records => records

def length : Related → Nat
  | .one none => 0
  | .one (some _) => 1
  | .many records => records.length

/-- the rows of a relation, as many as its cardinality allows -/
def ofRecords (cardinality : Cardinality) (records : List Record) : Related :=
  match cardinality with
  | .toOne => .one records.head?
  | .toMany => .many records

end Related

namespace Record

/-- a record of which nothing is loaded -/
def empty (entity : Entity) : Record := ⟨entity, .empty, .empty, .empty⟩

def setField (r : Record) (name : String) (v : Value) : Record := { r with fields := r.fields.insert name v }

def setAnnotation (r : Record) (aliasName : String) (v : Value) : Record :=
  { r with annotations := r.annotations.insert aliasName v }

def setRelated (r : Record) (name : String) (related : Related) : Record :=
  { r with related := r.related.insert name related }

/-- a loaded relation -/
def relation (r : Record) (name : String) : Except QueryError Related :=
  if (r.entity.relation name).isNone then .error (.unknownPath r.entity.name name)
  else orFail (.notLoaded r.entity.name name) (r.related.get? name)

/-- a loaded annotation, or else a loaded field -/
def member (r : Record) (name : String) : Except QueryError Value :=
  match r.annotations.get? name with
  | some v => .ok v
  | none => do
    let field ← orFail (.unknownPath r.entity.name name) (r.entity.field name)
    orFail (.notLoaded r.entity.name name) (r.fields.get? field.name)

/-- a value read along the segments of a path -/
def getSegments : Record → List String → Except QueryError Value
  | r, [] => r.member ""
  | r, [name] => r.member name
  | r, name :: next :: rest => do
    match ← r.relation name with
    | .one none => return .null
    | .one (some related) => related.getSegments (next :: rest)
    | .many _ => throw (.unknownPath r.entity.name (joinPath (name :: next :: rest)))

/-- the value at a path -/
def get (r : Record) (path : String) : Except QueryError Value := r.getSegments (pathSegments path)

/-- the value of the primary key -/
def key (r : Record) : Except QueryError Value := r.get r.entity.primaryKey

/-- whether something of this name is loaded -/
def isLoaded (r : Record) (name : String) : Bool :=
  r.fields.contains name || r.annotations.contains name || r.related.contains name

end Record

/-! ## Encoding -/

mutual

/-- an object of everything loaded; annotations hide fields, and relations hide both -/
def Record.toJson : Record → Json
  | ⟨_, fields, annotations, ⟨related⟩⟩ =>
    .sorted (fields.entries.map (fun entry => (entry.1, entry.2.toJson))
      ++ annotations.entries.map (fun entry => (entry.1, entry.2.toJson))
      ++ relatedMembers related)
termination_by structural r => r

def Related.toJson : Related → Json
  | .one none => .null
  | .one (some record) => record.toJson
  | .many records => .array (recordsToJson records)
termination_by structural r => r

def relatedMembers : List (String × Related) → List (String × Json)
  | [] => []
  | (name, related) :: rest => (name, related.toJson) :: relatedMembers rest
termination_by structural members => members

def recordsToJson : List Record → List Json
  | [] => []
  | r :: rest => r.toJson :: recordsToJson rest
termination_by structural records => records

end

end RelQuery
