/-
Statement trees: what a plan is compiled to, before it is written in a dialect.

`Expr` and `Query` contain each other. Constants of the compiler (`int`) are written inline, values from outside are
always `param`. `Insert`, `Update` and `Delete` name their columns without a table.
-/
import RelQuery.Value

namespace RelQuery.Sql

inductive BinaryOp where
  | eq | ne | lt | gt | lte | gte
  | and | or
  | plus | minus | times | divide
  | concat | like
deriving DecidableEq, Repr

inductive JoinKind where
  | inner
  | left
deriving DecidableEq, Repr

inductive SortDirection where
  | asc
  | desc
deriving DecidableEq, Repr

structure TableRef where
  table : String
  aliasName : Option String := none
deriving DecidableEq, Repr

/-- the rows asked for, counted from the first -/
structure Page where
  limit : Option UInt64 := none
  offset : Option UInt64 := none
deriving DecidableEq, Repr

mutual

inductive Expr where
  | column (table : Option String) (name : String)
  | int (n : Int64)
  | param (v : Value)
  | binary (op : BinaryOp) (left right : Expr)
  | not (e : Expr)
  | call (function : String) (args : List Expr) (distinct : Bool)
  | case (arms : List (Expr × Expr)) (otherwise : Option Expr)
  | subquery (q : Query)
  | existsRow (q : Query) (negated : Bool)
  | inList (e : Expr) (values : List Expr) (negated : Bool)
  | inQuery (e : Expr) (q : Query) (negated : Bool)
  | isNull (e : Expr) (negated : Bool)
  | star (table : Option String)
  | paren (e : Expr)

structure SelectItem where
  expr : Expr
  aliasName : Option String

inductive Source where
  | table (t : TableRef)
  | derived (q : Query) (aliasName : String)

structure Join where
  kind : JoinKind
  table : TableRef
  on : Expr

structure OrderKey where
  expr : Expr
  direction : Option SortDirection

structure Query where
  select : List SelectItem
  distinct : Bool
  source : Option Source
  joins : List Join
  condition : Option Expr
  groupBy : List Expr
  having : Option Expr
  orderBy : List OrderKey
  page : Option Page

end

instance : Inhabited Expr := ⟨.int 0⟩

namespace Expr

/-- a column of a named table -/
def columnOf (table name : String) : Expr := .column (some table) name

/-- the number of rows -/
def countRows : Expr := .call "COUNT" [.star none] false

/-- two sides joined by a comparison or connective -/
def eq (left right : Expr) : Expr := .binary .eq left right

def and (left right : Expr) : Expr := .binary .and left right

/-- the conditions as one, nested to the left; no condition at all when the list is empty -/
def conjunction : List Expr → Option Expr
  | [] => none
  | e :: rest => some (rest.foldl Expr.and e)

end Expr

/-- a query with a select list and nothing else -/
def Query.selecting (items : List SelectItem) : Query :=
  { select := items, distinct := false, source := none, joins := [], condition := none, groupBy := [], having := none,
    orderBy := [], page := none }

/-! ## Statements that change rows -/

/-- one new row -/
structure Insert where
  table : String
  columns : List String
  values : List Expr
  returning : List String

structure Update where
  table : String
  assignments : List (String × Expr)
  condition : Option Expr

structure Delete where
  table : String
  condition : Option Expr

end RelQuery.Sql
