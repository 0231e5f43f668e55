/-
Paths through relations.

A path is written with dots. All segments but the last name relations, each followed to its target entity; the last
one names a field of the entity reached, or a relation, which then stands for the primary key of its target.
`Schema.resolve` gives the relations followed, the entity reached and the field there, or the whole path as unknown.
- `splitDots_append_dot`: the segments of two paths joined by a dot are the segments of one and then of the other.
- `intercalate_splitDots`: segments joined by dots are the path again.
-/
import RelQuery.Error

namespace RelQuery

/-! ## Segments -/

/-- the pieces between dots; a text without a dot is one piece -/
def splitDots : List Char → List (List Char)
  | [] => [[]]
  | c :: rest =>
    if c = '.' then [] :: splitDots rest
    else
      match splitDots rest with
      | [] => [[c]]
      | piece :: pieces => (c :: piece) :: pieces

/-- the segments of a path -/
def pathSegments (path : String) : List String := (splitDots path.toList).map String.ofList

/-- segments joined to a path -/
def joinPath (segments : List String) : String := ".".intercalate segments

theorem splitDots_ne_nil (cs : List Char) : splitDots cs ≠ [] := by
  induction cs with
  | nil => simp [splitDots]
  | cons c rest ih =>
    simp only [splitDots]
    split
    · simp
    · cases h : splitDots rest <;> simp

/-- a dot between two texts separates their pieces -/
theorem splitDots_append_dot (p q : List Char) :
    splitDots (p ++ '.' :: q) = splitDots p ++ splitDots q := by
  induction p with
  | nil => simp [splitDots]
  | cons c rest ih =>
    by_cases hc : c = '.'
    · simp [splitDots, hc, ih]
    · have hne := splitDots_ne_nil rest
      cases h : splitDots rest with
      | nil => exact absurd h hne
      | cons piece pieces =>
        rw [h] at ih
        simp [splitDots, hc, ih, h]

/-- Joining the pieces with dots gives the text back. -/
theorem intercalate_splitDots (cs : List Char) : List.intercalate ['.'] (splitDots cs) = cs := by
  induction cs with
  | nil => rfl
  | cons c rest ih =>
    have hne := splitDots_ne_nil rest
    cases h : splitDots rest with
    | nil => exact absurd h hne
    | cons piece pieces =>
      rw [h] at ih
      by_cases hc : c = '.'
      · subst hc
        simp [splitDots, h, ih]
      · cases pieces with
        | nil => simpa [splitDots, hc, h] using ih
        | cons next more => simpa [splitDots, hc, h] using ih

/-! ## Schemas -/

/-- the entities of a program, relations resolved -/
structure Schema where
  entities : List Entity
deriving DecidableEq, Repr, Inhabited

namespace Schema

def entity? (schema : Schema) (name : String) : Option Entity := schema.entities.find? (·.name = name)

def entity (schema : Schema) (name : String) : Except QueryError Entity :=
  match schema.entity? name with
  | some e => .ok e
  | none => .error (.unknownPath name "")

/-- the relation of this name on an entity -/
def relation (schema : Schema) (root name : String) : Except QueryError Relation := do
  let e ← schema.entity root
  match e.relation name with
  | some r => .ok r
  | none => .error (.unknownPath root name)

end Schema

/-- where a path leads -/
structure ResolvedPath where
  /-- the relations followed, in order -/
  hops : List Relation
  /-- the entity that declares the field -/
  owner : Entity
  field : Field
deriving DecidableEq, Repr

namespace ResolvedPath

def hopNames (p : ResolvedPath) : List String := p.hops.map (·.name)

/-- whether one row of the root can lead to several -/
def isToMany (p : ResolvedPath) : Bool := p.hops.any (·.cardinality = .toMany)

end ResolvedPath

/-- an option's value, or an error -/
def orFail {α : Type} (failure : QueryError) : Option α → Except QueryError α
  | some a => .ok a
  | none => .error failure

namespace Schema

/-- Follows segments from an entity; a segment that leads nowhere fails with the given error. -/
def follow (schema : Schema) (failure : QueryError) : Entity → List String → Except QueryError ResolvedPath
  | _, [] => .error failure
  | current, [segment] =>
    match current.relation segment with
    | some relation => do
      let target ← schema.entity relation.target
      let field ← orFail failure (target.field target.primaryKey)
      return ⟨[relation], target, field⟩
    | none => do
      let field ← orFail failure (current.field segment)
      return ⟨[], current, field⟩
  | current, segment :: next :: rest =>
    match current.relation segment with
    | some relation => do
      let target ← schema.entity relation.target
      let path ← schema.follow failure target (next :: rest)
      return { path with hops := relation :: path.hops }
    | none => .error failure

/-- where a path from an entity leads -/
def resolve (schema : Schema) (root path : String) : Except QueryError ResolvedPath := do
  let start ← schema.entity root
  schema.follow (.unknownPath root path) start (pathSegments path)

end Schema

/-- a path that has been resolved from its root entity -/
structure FieldRef where
  root : String
  path : String
  hops : List Relation
  field : Field
deriving DecidableEq, Repr

namespace FieldRef

def resolve (schema : Schema) (root path : String) : Except QueryError FieldRef := do
  let resolved ← schema.resolve root path
  return ⟨root, path, resolved.hops, resolved.field⟩

/-- a field of the root entity itself -/
def isLocal (r : FieldRef) : Bool := r.hops.isEmpty

def column (r : FieldRef) : String := r.field.name

/-- the relations followed and the column, which together identify what is read -/
def key (r : FieldRef) : String := joinPath (r.hops.map (·.name) ++ [r.column])

def toJson (r : FieldRef) : Json :=
  .object [("root", .text r.root), ("path", .text r.path), ("hops", .array (r.hops.map Relation.toJson)),
    ("field", r.field.toJson)]

end FieldRef

end RelQuery
