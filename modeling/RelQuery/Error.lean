/-
What can go wrong between a plan and its records.

`QueryError` holds causes, not texts; `QueryError.message` is the one place where a cause is worded, and
`QueryError.phase` says at which stage of a query it arises.
-/
import RelQuery.Schema.Entity

namespace RelQuery

/-- a failure of the storage behind the engine -/
inductive StorageError where
  | backend (message : String)
  | conversion (index : Nat) (reason : String)
  | taskFailed (message : String)
deriving DecidableEq, Repr

/-- why a grouped statement has no definite result -/
inductive GroupingFault where
  /-- an output holds an aggregate and a bare field outside the group key -/
  | mixedOutput (key field : String)
  /-- an aggregate filter reads a bare field outside the group key -/
  | bareFilter (field : String)
  /-- an order key reads a bare field outside the group key -/
  | bareOrder (field : String)
  /-- a value assigned to a column holds an aggregate -/
  | aggregateAssignment (column : String)
deriving DecidableEq, Repr

/-- why a subplan cannot be nested -/
inductive CorrelationFault where
  /-- a scalar subplan has another number of columns than one -/
  | columnCount (entity : String) (count : Nat)
  /-- there is no enclosing row to refer to -/
  | strayReference (field : String)
  /-- more than one field of the enclosing row is referred to -/
  | severalReferences (entity : String) (fields : List String)
deriving DecidableEq, Repr

inductive QueryError where
  | unknownPath (entity path : String)
  /-- a relation of this cardinality cannot be loaded by a join -/
  | invalidStrategy (relation : String) (cardinality : Cardinality)
  | lateRegistration (entity : String)
  | duplicateEntity (entity : String)
  | duplicateAlias (aliasName : String)
  | ambiguousGrouping (fault : GroupingFault)
  | unsupportedCorrelation (fault : CorrelationFault)
  | storage (fault : StorageError)
  | cancelled
  | notLoaded (entity name : String)
deriving DecidableEq, Repr

/-- the stage at which an error arises -/
inductive Phase where
  | build
  | compile
  | execution
  | materialization
deriving DecidableEq, Repr

def QueryError.phase : QueryError → Phase
  | .unknownPath .. | .invalidStrategy .. | .lateRegistration .. | .duplicateEntity .. | .duplicateAlias .. => .build
  | .ambiguousGrouping .. | .unsupportedCorrelation .. => .compile
  | .storage .. | .cancelled => .execution
  | .notLoaded .. => .materialization

/-- a name between backticks -/
def ticked (s : String) : String := "`" ++ s ++ "`"

def StorageError.message : StorageError → String
  | .backend message => "storage error: " ++ message
  | .conversion index reason => "cannot convert column " ++ toString index ++ ": " ++ reason
  | .taskFailed message => "storage task failed: " ++ message

def GroupingFault.message : GroupingFault → String
  | .mixedOutput key field =>
    ticked key ++ " mixes an aggregate with " ++ ticked field ++ ", which is not in the group key"
  | .bareFilter field => "aggregate filter references " ++ ticked field ++ ", which is not in the group key"
  | .bareOrder field => "order key " ++ ticked field ++ " is neither aggregated nor in the group key"
  | .aggregateAssignment column => "assignment to " ++ ticked column ++ " uses an aggregate"

def CorrelationFault.message : CorrelationFault → String
  | .columnCount entity count =>
    "subquery on " ++ ticked entity ++ " must project exactly one column, found " ++ toString count
  | .strayReference field => "outer reference " ++ ticked field ++ " used outside a correlated subquery"
  | .severalReferences entity fields =>
    "subquery on " ++ ticked entity ++ " binds " ++ toString fields.length ++ " outer fields ("
      ++ ", ".intercalate fields ++ "); at most one is supported"

def QueryError.message : QueryError → String
  | .unknownPath entity path => "unknown path " ++ ticked path ++ " on entity " ++ ticked entity
  | .invalidStrategy relation cardinality =>
    "invalid load strategy for relation " ++ ticked relation ++ ": join loading needs a to-one relation, "
      ++ ticked relation ++ " is " ++ cardinality.display
  | .lateRegistration entity => "entity " ++ ticked entity ++ " registered after the schema registry was sealed"
  | .duplicateEntity entity => "entity " ++ ticked entity ++ " is already registered"
  | .duplicateAlias aliasName => "alias " ++ ticked aliasName ++ " conflicts with an existing annotation, field or relation"
  | .ambiguousGrouping fault => "ambiguous grouping: " ++ fault.message
  | .unsupportedCorrelation fault => "unsupported correlation: " ++ fault.message
  | .storage fault => fault.message
  | .cancelled => "query cancelled"
  | .notLoaded entity name => ticked name ++ " is not loaded on " ++ ticked entity

end RelQuery
