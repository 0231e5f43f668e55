/-
Building expressions and plans.

Every step makes a new plan and leaves the old one as it was. Names are checked when they are used: a path has to lead
somewhere, an alias must not mean anything yet, and a relation has to exist on the root entity.
-/
import RelQuery.Plan.Nodes

namespace RelQuery

/-! ## Expressions -/

namespace Expr

/-- one more operand of a conjunction, which is not nested -/
def conjoin : Expr → Expr → Expr
  | .and operands, e => .and (operands ++ [e])
  | left, e => .and [left, e]

/-- one more operand of a disjunction, which is not nested -/
def disjoin : Expr → Expr → Expr
  | .or operands, e => .or (operands ++ [e])
  | left, e => .or [left, e]

/-- all of the conditions; a single one stands for itself -/
def allOf : List Expr → Expr
  | [e] => e
  | operands => .and operands

/-- one of the conditions; a single one stands for itself -/
def anyOf : List Expr → Expr
  | [e] => e
  | operands => .or operands

def like (e : Expr) (pattern : String) : Expr := .binary .like e (.literal (.text pattern))

def contains (e : Expr) (part : String) : Expr := e.like ("%" ++ part ++ "%")

def startsWith (e : Expr) (start : String) : Expr := e.like (start ++ "%")

/-- a comparison for equality -/
def equals (left right : Expr) : Expr := .binary .eq left right

end Expr

/-! ## Plans -/

/-- a projection with one more name -/
def Projection.adding (aliasName : String) (projection : Projection) : Projection :=
  { projection with names := projection.names ++ [aliasName] }

namespace Plan

/-- the plan for all rows of an entity -/
def ofEntity (root : Entity) : Plan :=
  { root, filters := [], annotations := [], projection := none, ordering := [], limit := none, offset := none,
    distinct := false, loadings := .empty }

/-- the plan for all rows of the entity of this name -/
def start (schema : Schema) (entity : String) : Except QueryError Plan :=
  (schema.entity entity).map ofEntity

/-- the expression a name stands for: an annotation, or else a path from the root -/
def named (schema : Schema) (p : Plan) (path : String) : Except QueryError Expr :=
  if (p.annotationOf path).isSome then .ok (.aliasRef path)
  else (FieldRef.resolve schema p.root.name path).map .field

def filter (p : Plan) (e : Expr) : Plan := { p with filters := p.filters ++ [e] }

def exclude (p : Plan) (e : Expr) : Plan := p.filter (.not e)

/-- Adds a computed value; it joins a projection that was chosen before. -/
def annotate (p : Plan) (aliasName : String) (e : Expr) : Except QueryError Plan :=
  if (p.annotationOf aliasName).isSome || p.root.declares aliasName then .error (.duplicateAlias aliasName)
  else .ok { p with
    annotations := p.annotations ++ [⟨aliasName, e⟩]
    projection := p.projection.map (Projection.adding aliasName) }

/-- Presents rows as mappings from the given names. -/
def project (schema : Schema) (p : Plan) (names : List String) : Except QueryError Plan := do
  names.forM fun name => do
    let _ ← p.named schema name
    return ()
  return { p with projection := some ⟨.mapping, names⟩ }

/-- Presents rows as records that carry the given fields and annotations only. -/
def only (p : Plan) (names : List String) : Except QueryError Plan :=
  match names.find? fun name => (p.annotationOf name).isNone && (p.root.field name).isNone with
  | some name => .error (.unknownPath p.root.name name)
  | none => .ok { p with projection := some ⟨.narrowed, names⟩ }

def orderByExpr (p : Plan) (e : Expr) (direction : Direction) : Plan :=
  { p with ordering := p.ordering ++ [⟨e, direction⟩] }

/-- Orders by a name, after the keys already there. -/
def orderBy (schema : Schema) (p : Plan) (key : String) (direction : Direction) : Except QueryError Plan :=
  (p.named schema key).map fun e => p.orderByExpr e direction

def clearOrdering (p : Plan) : Plan := { p with ordering := [] }

def withLimit (p : Plan) (n : UInt64) : Plan := { p with limit := some n }

def withOffset (p : Plan) (n : UInt64) : Plan := { p with offset := some n }

def asDistinct (p : Plan) : Plan := { p with distinct := true }

/-- Loads a relation along in a given way, or no longer; several rows cannot be joined to one. -/
def withRelation (p : Plan) (name : String) (loading : Option Loading) : Except QueryError Plan :=
  match p.root.relation name with
  | none => .error (.unknownPath p.root.name name)
  | some relation =>
    match loading with
    | none => .ok { p with loadings := p.loadings.erase name }
    | some .join =>
      if relation.cardinality = .toMany then .error (.invalidStrategy name relation.cardinality)
      else .ok { p with loadings := p.loadings.insert name .join }
    | some .batched => .ok { p with loadings := p.loadings.insert name .batched }

end Plan

end RelQuery
