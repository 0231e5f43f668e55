/-
The tables of one statement.

A statement has a root table and, for each relation path that it refers to, one join; a path referred to several times
is joined once. Whether a join is inner or outer follows from why the path is needed (`Role`): a condition that must
hold drops rows without a match, everything else keeps them, and below an outer join every join is outer. Names of
tables come from one supply for a statement and all statements nested in it.
-/
import RelQuery.Plan.Nodes
import RelQuery.Statement.Basic

namespace RelQuery

/-- why a relation path is referred to -/
inductive Role where
  /-- by a condition that every row must meet -/
  | filter
  /-- inside a condition, where a row without a match may still meet it -/
  | guarded
  /-- by an annotation, or inside an aggregate -/
  | computed
  /-- by an output or an order key -/
  | output
  /-- only because the relation is loaded by a join -/
  | loading
deriving DecidableEq, Repr

namespace Role

/-- the role of a part that need not hold for the whole to hold -/
def weakened : Role → Role
  | filter => guarded
  | role => role

/-- the role of an aggregated expression: it must not drop rows before they are grouped -/
def aggregated : Role → Role
  | filter | guarded => computed
  | role => role

end Role

/-- Which join one hop of a path asks for. A key that is never null always has its match. -/
def joinKind (role : Role) (relation : Relation) (owner : Entity) : Sql.JoinKind :=
  match relation.cardinality, role with
  | _, .filter => .inner
  | .toOne, .computed | .toOne, .output | .toOne, .guarded =>
    match owner.field relation.localColumn with
    | some f => if f.nullable then .left else .inner
    | none => .inner
  | _, _ => .left

/-- the row that a nested statement can refer to -/
structure Outer where
  /-- the name of its table in the enclosing statement -/
  name : String
  entity : Entity
deriving DecidableEq, Repr

/-- the fixed part of a statement's tables -/
structure Scope where
  schema : Schema
  root : Entity
  /-- the name of the root table; without one its columns stand alone and nothing can be joined -/
  qualifier : Option String
  outer : Option Outer

namespace Scope

/-- the scope of a SELECT -/
def ofSelect (schema : Schema) (root : Entity) (aliasName : String) (outer : Option Outer) : Scope :=
  ⟨schema, root, some aliasName, outer⟩

/-- the scope of an UPDATE or DELETE -/
def ofChange (schema : Schema) (root : Entity) : Scope := ⟨schema, root, none, none⟩

/-- the row of this scope, for statements nested in it -/
def asOuter (scope : Scope) : Outer := ⟨scope.qualifier.getD scope.root.table, scope.root⟩

/-- a column of the root table -/
def rootColumn (scope : Scope) (column : String) : Sql.Expr := .column scope.qualifier column

def rootTable (scope : Scope) : Sql.TableRef := ⟨scope.root.table, scope.qualifier⟩

end Scope

/-- one joined table -/
structure JoinNode where
  /-- the names of the relations from the root to it -/
  path : List String
  aliasName : String
  /-- the name of the table it is joined to -/
  parent : String
  kind : Sql.JoinKind
  relation : Relation
  table : String
deriving DecidableEq, Repr

/-- the part of a statement's tables that grows while its expressions are compiled -/
structure JoinState where
  /-- the joins, in the order of their first reference -/
  nodes : List JoinNode := []
  /-- the number of the next table name -/
  next : Nat
deriving DecidableEq, Repr

/-- the table name of a number -/
def tableAlias (n : Nat) : String := "t" ++ toString n

/-- a step of compilation inside one statement -/
abbrev Lowering := StateT JoinState (Except QueryError)

namespace JoinState

/-- the join of a path asked for once more: an inner join it stays or becomes -/
def strengthen (path : List String) (kind : Sql.JoinKind) (nodes : List JoinNode) : List JoinNode :=
  nodes.map fun node => if node.path = path && kind = .inner then { node with kind := .inner } else node

/-- the name of the table at a path, joined to its parent unless it is there already -/
def touch (state : JoinState) (path : List String) (kind : Sql.JoinKind) (parent : String) (relation : Relation)
    (table : String) : String × JoinState :=
  match state.nodes.find? (·.path = path) with
  | some node => (node.aliasName, { state with nodes := strengthen path kind state.nodes })
  | none =>
    let aliasName := tableAlias state.next
    (aliasName, ⟨state.nodes ++ [⟨path, aliasName, parent, kind, relation, table⟩], state.next + 1⟩)

/-- the JOIN clauses -/
def joins (state : JoinState) : List Sql.Join :=
  state.nodes.map fun node =>
    ⟨node.kind, ⟨node.table, some node.aliasName⟩,
      .eq (.columnOf node.parent node.relation.localColumn) (.columnOf node.aliasName node.relation.remoteColumn)⟩

end JoinState

namespace Scope

/-- Joins the hops that remain of a path: `parent` is the table reached, `path` the way to it. -/
def joinHops (scope : Scope) (role : Role) :
    List Relation → (owner : Entity) → (parent : String) → (path : List String) → (outerJoined : Bool) → Lowering String
  | [], _, parent, _, _ => return parent
  | relation :: rest, owner, parent, path, outerJoined => do
    let target ← scope.schema.entity relation.target
    let kind := if outerJoined then .left else joinKind role relation owner
    let path := path ++ [relation.name]
    let aliasName ← modifyGet fun state => state.touch path kind parent relation target.table
    scope.joinHops role rest target aliasName path (outerJoined || kind = .left)

/-- the name of the last table of a path, every hop joined -/
def joinPath (scope : Scope) (hops : List Relation) (role : Role) : Lowering String :=
  match scope.qualifier with
  | some aliasName => scope.joinHops role hops scope.root aliasName [] false
  | none => throw (.unknownPath scope.root.name (RelQuery.joinPath (hops.map (·.name))))

/-- the column of a field reference -/
def column (scope : Scope) (ref : FieldRef) (role : Role) : Lowering Sql.Expr :=
  if ref.root ≠ scope.root.name then throw (.unknownPath scope.root.name ref.path)
  else if ref.isLocal then return scope.rootColumn ref.column
  else do
    let aliasName ← scope.joinPath ref.hops role
    return .columnOf aliasName ref.column

/-- the column of the enclosing row that a reference means -/
def outerColumn (scope : Scope) (name : String) : Lowering Sql.Expr :=
  match scope.outer with
  | none => throw (.unsupportedCorrelation (.strayReference name))
  | some outer =>
    match outer.entity.field name with
    | none => throw (.unknownPath outer.entity.name name)
    | some f => return .columnOf outer.name f.name

end Scope

end RelQuery
