/-
SELECT statements.

Each expression of a plan is compiled to a `Fragment`, which awaits the tables of its statement; a plan is compiled by
running the fragments of its outputs, filters and order keys in that order, so that joins and table names appear in
the order of their first reference. A subplan is compiled inside the expression that holds it, with names from the
same supply. Statements are trees here; no dialect is involved.
-/
import RelQuery.Statement.GroupKey

namespace RelQuery

/-- the compiled statement of a plan -/
structure Selection where
  query : Sql.Query
  columns : List OutputColumn
  shape : ResultShape

/-- what an alias means in a statement -/
abbrev Expansion := Role → String → Lowering Sql.Expr

/-- a compiled expression that awaits the tables of its statement -/
abbrev Fragment := Scope → Expansion → Role → Lowering Sql.Expr

/-- the compiled expressions of a plan -/
structure Fragments where
  annotations : List (String × Fragment)
  filters : List (Expr × Fragment)
  ordering : List (Direction × Fragment)

namespace Fragments

/-- An alias is its annotation's expression in place; a chain longer than the budget goes in a circle. -/
def expand (fragments : Fragments) (scope : Scope) : Nat → Expansion
  | 0, _, name => throw (.unknownPath scope.root.name name)
  | budget + 1, role, name =>
    match fragments.annotations.lookup name with
    | none => throw (.unknownPath scope.root.name name)
    | some fragment => fragment scope (fragments.expand scope budget) role

/-- what aliases mean when an expression of the plan is compiled -/
def expansion (fragments : Fragments) (scope : Scope) : Expansion :=
  fragments.expand scope (fragments.annotations.length + 1)

end Fragments

def BinaryOp.toSql : BinaryOp → Sql.BinaryOp
  | .eq => .eq
  | .ne => .ne
  | .lt => .lt
  | .lte => .lte
  | .gt => .gt
  | .gte => .gte
  | .add => .plus
  | .sub => .minus
  | .mul => .times
  | .div => .divide
  | .like => .like
  | .concat => .concat

def Direction.toSql : Direction → Sql.SortDirection
  | .asc => .asc
  | .desc => .desc

/-- operands joined by a connective, nested to the left; without operands the connective's neutral truth value -/
def connect (op : Sql.BinaryOp) (neutral : Int64) : List Sql.Expr → Sql.Expr
  | [] => .eq (.int 1) (.int neutral)
  | e :: rest => rest.foldl (.binary op) e

/-- compiles an output -/
def OutputTerm.lower (scope : Scope) (expand : Expansion) (role : Role) : OutputTerm → Lowering Sql.Expr
  | .field ref => scope.column ref role
  | .aliasRef name => expand role name

/-- a query as the only thing its rows are needed for: a constant or a count -/
def reduceTo (column : Sql.Expr) (wrap paged : Bool) (query : Sql.Query) (next : Nat) : Sql.Query :=
  let query := if paged then query else { query with orderBy := [] }
  if wrap then { Sql.Query.selecting [⟨column, none⟩] with source := some (.derived query (tableAlias next)) }
  else { query with select := [⟨column, none⟩] }

namespace Plan

/-- the clauses of a statement, compiled in order -/
def lowerClauses (p : Plan) (fragments : Fragments) (scope : Scope) (outputs : List Output) : Lowering Sql.Query := do
  let expand := fragments.expansion scope
  let items ← outputs.mapM fun output => do
    let e ← output.term.lower scope expand output.role
    return (output, e)
  let conditions ← fragments.filters.mapM fun filter => do
    let grouped := p.exprAggregates filter.1
    let e ← filter.2 scope expand (if grouped then .computed else .filter)
    return (grouped, e)
  let keys ← fragments.ordering.mapM fun key => do
    let e ← key.2 scope expand .output
    return (⟨e, some key.1.toSql⟩ : Sql.OrderKey)
  let state ← get
  return {
    select := items.map fun item => ⟨item.2, item.1.selectAlias⟩
    distinct := p.distinct
    source := some (.table scope.rootTable)
    joins := state.joins
    condition := Sql.Expr.conjunction ((conditions.filter fun c => !c.1).map Prod.snd)
    groupBy := if p.isGrouped then
        (items.filter fun item => !p.exprAggregates item.1.term.expr).map Prod.snd
      else []
    having := Sql.Expr.conjunction ((conditions.filter fun c => c.1).map Prod.snd)
    orderBy := keys
    page := if p.isPaged then some ⟨p.limit, p.offset⟩ else none }

/-- The statement of a plan from its compiled expressions; `next` is the number of the next table name. -/
def assemble (schema : Schema) (p : Plan) (fragments : Fragments) (purpose : Purpose) (outer : Option Outer)
    (next : Nat) : Except QueryError (Selection × Nat) := do
  let (outputs, shape) ← p.outputs schema purpose
  if p.isGrouped then p.checkGrouping outputs
  let scope := Scope.ofSelect schema p.root (tableAlias next) outer
  let (query, state) ← (p.lowerClauses fragments scope outputs).run { next := next + 1 }
  let columns := outputs.map (·.column)
  let wrap := p.isGrouped || p.distinct || p.isPaged
  match purpose with
  | .rows | .scalar => return (⟨query, columns, shape⟩, state.next)
  | .existence =>
    return (⟨reduceTo (.int 1) wrap p.isPaged query state.next, columns, shape⟩, state.next + wrap.toNat)
  | .count =>
    return (⟨reduceTo .countRows wrap p.isPaged query state.next, columns, shape⟩, state.next + wrap.toNat)

/-- A plan may be nested when it reads at most one field of the enclosing row. -/
def checkCorrelation (p : Plan) : Except QueryError Unit :=
  if p.outerRefs.length > 1 then .error (.unsupportedCorrelation (.severalReferences p.root.name p.outerRefs))
  else .ok ()

end Plan

/-- Runs the compilation of a nested plan with table names from the supply of the statement around it. -/
def Lowering.nested (plan : Plan) (scope : Scope)
    (select : Schema → Option Outer → Nat → Except QueryError (Selection × Nat)) : Lowering Sql.Query := do
  plan.checkCorrelation
  let state ← get
  let (selection, next) ← select scope.schema (some scope.asOuter) state.next
  set { state with next := next }
  return selection.query

mutual

def Expr.lower : Expr → Fragment
  | .field ref => fun scope _ role => scope.column ref role
  | .aliasRef name => fun _ expand role => expand role name
  | .literal v => fun _ _ _ => return .param v
  | .binary op left right => fun scope expand role => do
    let l ← left.lower scope expand role
    let r ← right.lower scope expand role
    return .binary op.toSql l r
  | .and operands => fun scope expand role => do
    let es ← lowerList operands scope expand role
    return connect .and 1 es
  | .or operands => fun scope expand role => do
    let es ← lowerList operands scope expand role.weakened
    return connect .or 0 es
  | .not operand => fun scope expand role => do
    let e ← operand.lower scope expand role.weakened
    return .not e
  | .isNull operand negated => fun scope expand role => do
    let e ← operand.lower scope expand role.weakened
    return .isNull e negated
  | .inList operand values negated => fun scope expand role => do
    let role := if negated then role.weakened else role
    let e ← operand.lower scope expand role
    let es ← lowerList values scope expand role
    return .inList e es negated
  | .case [] none => fun _ _ _ => return .param .null
  | .case [] (some otherwise) => fun scope expand role => otherwise.lower scope expand role.weakened
  | .case (arm :: arms) otherwise => fun scope expand role => do
    let ws ← lowerArms (arm :: arms) scope expand role.weakened
    match otherwise with
    | none => return .case ws none
    | some e =>
      let e ← e.lower scope expand role.weakened
      return .case ws (some e)
  | .aggregate function none distinct => fun _ _ _ => return .call function.sqlName [.star none] distinct
  | .aggregate function (some arg) distinct => fun scope expand role => do
    let e ← arg.lower scope expand role.aggregated
    return .call function.sqlName [e] distinct
  | .outer name => fun scope _ _ => scope.outerColumn name
  | .correlated plan => fun scope _ _ => do
    let q ← Lowering.nested plan scope fun schema outer next => plan.select schema .scalar outer next
    return .subquery q
  | .existsRow plan negated => fun scope _ _ => do
    let q ← Lowering.nested plan scope fun schema outer next => plan.select schema .existence outer next
    return .existsRow q negated
termination_by structural e => e

def lowerList : List Expr → Scope → Expansion → Role → Lowering (List Sql.Expr)
  | [] => fun _ _ _ => return []
  | e :: rest => fun scope expand role => do
    let e ← e.lower scope expand role
    let es ← lowerList rest scope expand role
    return e :: es
termination_by structural es => es

def lowerArms : List (Expr × Expr) → Scope → Expansion → Role → Lowering (List (Sql.Expr × Sql.Expr))
  | [] => fun _ _ _ => return []
  | (test, result) :: rest => fun scope expand role => do
    let t ← test.lower scope expand role
    let r ← result.lower scope expand role
    let arms ← lowerArms rest scope expand role
    return (t, r) :: arms
termination_by structural arms => arms

def annotationFragments : List Annotation → List (String × Fragment)
  | [] => []
  | ⟨aliasName, e⟩ :: rest => (aliasName, e.lower) :: annotationFragments rest
termination_by structural annotations => annotations

def filterFragments : List Expr → List (Expr × Fragment)
  | [] => []
  | e :: rest => (e, e.lower) :: filterFragments rest
termination_by structural filters => filters

def orderFragments : List OrderKey → List (Direction × Fragment)
  | [] => []
  | ⟨e, direction⟩ :: rest => (direction, e.lower) :: orderFragments rest
termination_by structural keys => keys

/-- the statement of a plan, and the number of the next table name after it -/
def Plan.select : Plan → Schema → Purpose → Option Outer → Nat → Except QueryError (Selection × Nat)
  | ⟨root, filters, annotations, projection, ordering, limit, offset, distinct, loadings⟩ =>
    fun schema purpose outer next =>
      Plan.assemble schema ⟨root, filters, annotations, projection, ordering, limit, offset, distinct, loadings⟩
        ⟨annotationFragments annotations, filterFragments filters, orderFragments ordering⟩ purpose outer next
termination_by structural p => p

end

/-- the compiled expressions of a plan -/
def Plan.fragments (p : Plan) : Fragments :=
  ⟨annotationFragments p.annotations, filterFragments p.filters, orderFragments p.ordering⟩

theorem Plan.select_eq (p : Plan) (schema : Schema) (purpose : Purpose) (outer : Option Outer) (next : Nat) :
    p.select schema purpose outer next = p.assemble schema p.fragments purpose outer next := by
  cases p; rfl

end RelQuery
