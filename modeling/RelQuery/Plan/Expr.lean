/-
Expressions and plans.

A plan describes a query without running it: what to filter by, what to compute beside the fields, how to order, page
and present the rows, and which relations to load along. An expression reads fields, earlier annotations and literals;
it may hold whole plans as subqueries, so the two types contain each other.
-/
import RelQuery.Schema.Path

namespace RelQuery

inductive BinaryOp where
  | eq | ne | lt | lte | gt | gte
  | add | sub | mul | div
  | like | concat
deriving DecidableEq, Repr

inductive AggregateFunction where
  | count
  | avg
  | sum
  | min
  | max
deriving DecidableEq, Repr

inductive Direction where
  | asc
  | desc
deriving DecidableEq, Repr

/-- how a relation is loaded along with the rows -/
inductive Loading where
  /-- in the same statement -/
  | join
  /-- in statements of its own, many keys at a time -/
  | batched
deriving DecidableEq, Repr

inductive ProjectionKind where
  /-- rows are plain mappings from the projected names -/
  | mapping
  /-- rows are records that carry the projected names only -/
  | narrowed
deriving DecidableEq, Repr

structure Projection where
  kind : ProjectionKind
  names : List String
deriving DecidableEq, Repr

mutual

inductive Expr where
  | field (ref : FieldRef)
  /-- the value of an annotation -/
  | aliasRef (name : String)
  | literal (value : Value)
  | binary (op : BinaryOp) (left right : Expr)
  | and (operands : List Expr)
  | or (operands : List Expr)
  | not (operand : Expr)
  | isNull (operand : Expr) (negated : Bool)
  | inList (operand : Expr) (values : List Expr) (negated : Bool)
  | case (arms : List (Expr × Expr)) (otherwise : Option Expr)
  /-- a function of all rows of a group; without an argument it counts them -/
  | aggregate (function : AggregateFunction) (arg : Option Expr) (distinct : Bool)
  /-- a field of the row that encloses a subplan -/
  | outer (field : String)
  /-- the single value of a subplan -/
  | correlated (plan : Plan)
  /-- whether a subplan has a row -/
  | existsRow (plan : Plan) (negated : Bool)

structure Annotation where
  aliasName : String
  expr : Expr

structure OrderKey where
  expr : Expr
  direction : Direction

structure Plan where
  root : Entity
  filters : List Expr
  annotations : List Annotation
  projection : Option Projection
  ordering : List OrderKey
  limit : Option UInt64
  offset : Option UInt64
  distinct : Bool
  loadings : NameMap Loading

end

instance : Inhabited Expr := ⟨.literal .null⟩

namespace BinaryOp

/-- the operator in encoded plans -/
def name : BinaryOp → String
  | eq => "Eq"
  | ne => "Ne"
  | lt => "Lt"
  | lte => "Lte"
  | gt => "Gt"
  | gte => "Gte"
  | add => "Add"
  | sub => "Sub"
  | mul => "Mul"
  | div => "Div"
  | like => "Like"
  | concat => "Concat"

end BinaryOp

namespace AggregateFunction

/-- the function in encoded plans -/
def name : AggregateFunction → String
  | count => "Count"
  | avg => "Avg"
  | sum => "Sum"
  | min => "Min"
  | max => "Max"

/-- the function in statements -/
def sqlName : AggregateFunction → String
  | count => "COUNT"
  | avg => "AVG"
  | sum => "SUM"
  | min => "MIN"
  | max => "MAX"

end AggregateFunction

def Direction.name : Direction → String
  | .asc => "asc"
  | .desc => "desc"

def Loading.name : Loading → String
  | .join => "join"
  | .batched => "batched"

def ProjectionKind.name : ProjectionKind → String
  | .mapping => "mapping"
  | .narrowed => "narrowed"

end RelQuery
