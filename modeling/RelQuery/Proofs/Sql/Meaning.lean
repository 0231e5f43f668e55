/-
What statements mean.

A query is read for a database and the tables of the queries around it (`Frame`). Its tables are joined row by row; rows
that meet the condition are grouped where the query groups them; groups are ordered, presented, freed of repetitions and
paged. An aggregate is a function of all rows of the group. A name that no table has, and a column of a table without a
row, are null.
- `Clauses.rows`: what a query makes of its joined rows.
- `Query.eval_plain`: without groups, distinct and page, the joined rows that meet the condition, in some order.
- `joinFrames_flatMap`: tables are joined to each row by itself.
-/
import RelQuery.Proofs.Plan.Meaning

namespace RelQuery.Sql

/-! ## Databases and tables -/

/-- the rows of each table, and what the operators do -/
structure Database extends Operators where
  rows : String → List Tuple

/-- the row of each table in scope; the table that a query starts from has its columns without a name as well -/
abbrev Frame := Option String → Option Tuple

namespace Frame

def empty : Frame := fun _ => none

/-- a joined table -/
def bind (frame : Frame) (name : String) (row : Option Tuple) : Frame :=
  fun n => if n = some name then row else frame n

/-- the table that a query starts from -/
def enter (frame : Frame) (name : String) (row : Tuple) : Frame :=
  fun n => if n = none ∨ n = some name then some row else frame n

end Frame

/-- the name that columns of a table are qualified by -/
def TableRef.name (t : TableRef) : String := t.aliasName.getD t.table

/-- what expressions are read from: the rows in scope, and the rows of the group for aggregates -/
structure Context where
  frame : Frame
  group : List Frame

def Context.ofFrame (frame : Frame) : Context := ⟨frame, []⟩

/-- the rows of a join: those found, or one without a row on the right -/
def JoinKind.keep (kind : JoinKind) (missing : Frame) (found : List Frame) : List Frame :=
  match kind, found with
  | .left, [] => [missing]
  | _, found => found

/-! ## Clauses -/

/-- the rows of a page -/
def Page.slice {α : Type} (page : Page) (rows : List α) : List α :=
  let rest := rows.drop ((page.offset.map UInt64.toNat).getD 0)
  match page.limit with
  | some n => rest.take n.toNat
  | none => rest

/-- whether sort keys may stand in this order -/
def sortsBefore (ops : Operators) : List SortDirection → List Value → List Value → Bool
  | direction :: directions, a :: as, b :: bs =>
    let ahead := match direction with
      | .asc => ops.before a b
      | .desc => ops.before b a
    let behind := match direction with
      | .asc => ops.before b a
      | .desc => ops.before a b
    if ahead && behind then sortsBefore ops directions as bs else ahead
  | _, _, _ => true

/-- the clauses of a query, as functions of the rows in scope -/
structure Clauses where
  /-- the joined rows -/
  frames : List Frame
  condition : Context → Truth
  grouped : Bool
  groupKey : Context → List Value
  having : Context → Truth
  sortKey : Context → List Value
  directions : List SortDirection
  items : Context → List Value
  distinct : Bool
  page : Option Page

namespace Clauses

variable (c : Clauses)

/-- the joined rows that meet the condition -/
def kept : List Frame := c.frames.filter fun frame => c.condition (.ofFrame frame) = .yes

/-- the different keys of the rows kept, in the order of their first occurrence -/
def keys : List (List Value) := (c.kept.map fun frame => c.groupKey (.ofFrame frame)).eraseDups

/-- The groups, or each row by itself; rows that are grouped by nothing are one group, even without a row. -/
def contexts (outer : Frame) (wholeTable : Bool) : List Context :=
  if !c.grouped then c.kept.map .ofFrame
  else if wholeTable then [⟨c.kept.headD outer, c.kept⟩]
  else c.keys.map fun key =>
    let group := c.kept.filter fun frame => c.groupKey (.ofFrame frame) = key
    ⟨group.headD outer, group⟩

/-- contexts in the order asked for -/
def sorted (ops : Operators) (contexts : List Context) : List Context :=
  contexts.mergeSort fun a b => sortsBefore ops c.directions (c.sortKey a) (c.sortKey b)

/-- the rows of the query -/
def rows (ops : Operators) (outer : Frame) (wholeTable : Bool) : List (List Value) :=
  let contexts := (c.contexts outer wholeTable).filter fun context => c.having context = .yes
  let rows := (c.sorted ops contexts).map c.items
  let rows := if c.distinct then rows.eraseDups else rows
  match c.page with
  | some page => page.slice rows
  | none => rows

/-- Without groups, repetitions to remove and a page, the rows are those that meet the condition, in some order. -/
theorem rows_plain {c : Clauses} (hgrouped : c.grouped = false) (hhaving : ∀ context, c.having context = .yes)
    (hdistinct : c.distinct = false) (hpage : c.page = none) (ops : Operators) (outer : Frame) (wholeTable : Bool) :
    (c.rows ops outer wholeTable).Perm (c.kept.map fun frame => c.items (.ofFrame frame)) := by
  have hall : (c.kept.map Context.ofFrame).filter (fun context => c.having context = .yes)
      = c.kept.map Context.ofFrame :=
    List.filter_eq_self.2 fun context _ => by simp [hhaving]
  simp only [rows, contexts, hgrouped, Bool.not_false, if_true, hall, hdistinct, Bool.false_eq_true, if_false, hpage]
  have hsorted : (c.sorted ops (c.kept.map Context.ofFrame)).Perm (c.kept.map Context.ofFrame) :=
    List.mergeSort_perm _ _
  have hrows := hsorted.map c.items
  rw [List.map_map] at hrows
  exact hrows

end Clauses

/-! ## Queries -/

namespace Expr

mutual

/-- whether an aggregate is computed, subqueries apart -/
def aggregates : Expr → Bool
  | .call .. => true
  | .binary _ left right => left.aggregates || right.aggregates
  | .not e | .isNull e _ | .inQuery e _ _ | .paren e => e.aggregates
  | .case arms none => armsAggregate arms
  | .case arms (some e) => armsAggregate arms || e.aggregates
  | .inList e values _ => e.aggregates || listAggregates values
  | .column .. | .int _ | .param _ | .subquery _ | .existsRow .. | .star _ => false
termination_by structural e => e

def listAggregates : List Expr → Bool
  | [] => false
  | e :: rest => e.aggregates || listAggregates rest
termination_by structural es => es

def armsAggregate : List (Expr × Expr) → Bool
  | [] => false
  | (test, result) :: rest => test.aggregates || result.aggregates || armsAggregate rest
termination_by structural arms => arms

end

end Expr

namespace Query

/-- whether rows are grouped -/
def isGrouped (q : Query) : Bool :=
  !q.groupBy.isEmpty || q.having.isSome || q.select.any (·.expr.aggregates) || q.orderBy.any (·.expr.aggregates)

end Query

/-- the name of a column of a derived table -/
def SelectItem.columnName : SelectItem → Option String
  | ⟨_, some aliasName⟩ => some aliasName
  | ⟨.column _ name, none⟩ => some name
  | _ => none

/-- a row of a derived table -/
def namedRow (names : List (Option String)) (values : List Value) : Tuple :=
  fun column => ((names.zip values).lookup (some column)).getD .null

/-- the first value of a row -/
def firstValue (row : List Value) : Value := row.headD .null

variable (db : Database)

mutual

def Expr.eval : Expr → Context → Value
  | .column table name => fun context => cell (context.frame table) name
  | .int n => fun _ => .int n
  | .param v => fun _ => v
  | .binary op left right => fun context => op.apply db.toOperators (left.eval context) (right.eval context)
  | .not e => fun context => (db.truth (e.eval context)).not.toValue
  | .call function args distinct => fun context =>
    db.call function distinct (context.group.map fun frame => evalList args (.ofFrame frame))
  | .case arms none => fun context => evalArms arms context .null
  | .case arms (some e) => fun context => evalArms arms context (e.eval context)
  | .subquery q => fun context => ((q.eval context.frame).head?.map firstValue).getD .null
  | .existsRow q negated => fun context => .bool ((q.eval context.frame).isEmpty == negated)
  | .inList e values negated => fun context =>
    ((db.member (e.eval context) (evalList values context)).negateIf negated).toValue
  | .inQuery e q negated => fun context =>
    ((db.member (e.eval context) ((q.eval context.frame).map firstValue)).negateIf negated).toValue
  | .isNull e negated => fun context => .bool ((e.eval context).isNull != negated)
  | .star _ => fun _ => .bool true
  | .paren e => fun context => e.eval context
termination_by structural e => e

def evalList : List Expr → Context → List Value
  | [] => fun _ => []
  | e :: rest => fun context => e.eval context :: evalList rest context
termination_by structural es => es

def evalArms : List (Expr × Expr) → Context → Value → Value
  | [] => fun _ otherwise => otherwise
  | (test, result) :: rest => fun context otherwise =>
    (db.truth (test.eval context)).choose (result.eval context) (evalArms rest context otherwise)
termination_by structural arms => arms

/-- a condition; one that is not there always holds -/
def evalCondition : Option Expr → Context → Truth
  | none => fun _ => .yes
  | some e => fun context => db.truth (e.eval context)
termination_by structural e => e

def evalItems : List SelectItem → Context → List Value
  | [] => fun _ => []
  | ⟨e, _⟩ :: rest => fun context => e.eval context :: evalItems rest context
termination_by structural items => items

def evalKeys : List OrderKey → Context → List Value
  | [] => fun _ => []
  | ⟨e, _⟩ :: rest => fun context => e.eval context :: evalKeys rest context
termination_by structural keys => keys

/-- the rows that a query starts from -/
def sourceFrames : Option Source → Frame → List Frame
  | none => fun outer => [outer]
  | some (.table t) => fun outer => (db.rows t.table).map (outer.enter t.name)
  | some (.derived ⟨select, distinct, source, joins, condition, groupBy, having, orderBy, page⟩ aliasName) =>
    fun outer =>
      ((Query.mk select distinct source joins condition groupBy having orderBy page).eval outer).map fun values =>
        outer.enter aliasName (namedRow (select.map (·.columnName)) values)
termination_by structural source => source

/-- the rows after joining one table after another -/
def joinFrames : List Join → List Frame → List Frame
  | [] => fun frames => frames
  | ⟨kind, table, on⟩ :: rest => fun frames =>
    joinFrames rest (frames.flatMap fun frame =>
      kind.keep (frame.bind table.name none)
        (((db.rows table.table).map fun row => frame.bind table.name (some row)).filter fun joined =>
          db.truth (on.eval (.ofFrame joined)) = .yes))
termination_by structural joins => joins

/-- the rows of a query, read with the tables of the queries around it -/
def Query.eval : Query → Frame → List (List Value)
  | ⟨select, distinct, source, joins, condition, groupBy, having, orderBy, page⟩ => fun outer =>
    Clauses.rows {
      frames := joinFrames joins (sourceFrames source outer)
      condition := evalCondition condition
      grouped := (Query.mk select distinct source joins condition groupBy having orderBy page).isGrouped
      groupKey := evalList groupBy
      having := evalCondition having
      sortKey := evalKeys orderBy
      directions := orderBy.map fun key => key.direction.getD .asc
      items := evalItems select
      distinct
      page } db.toOperators outer groupBy.isEmpty
termination_by structural q => q

end

variable {db}

theorem evalItems_eq_map : (items : List SelectItem) → (context : Context) →
    evalItems db items context = items.map fun item => item.expr.eval db context
  | [], _ => rfl
  | ⟨_, _⟩ :: rest, context => by simp only [evalItems, evalItems_eq_map rest, List.map_cons]

/-- A conjunction holds when all of its conditions hold. -/
theorem evalCondition_conjunction (es : List Expr) (context : Context) :
    evalCondition db (Expr.conjunction es) context = .yes ↔ ∀ e ∈ es, db.truth (e.eval db context) = .yes := by
  have hfold : ∀ (rest : List Expr) (e : Expr), db.truth ((rest.foldl Expr.and e).eval db context) = .yes ↔
      db.truth (e.eval db context) = .yes ∧ ∀ other ∈ rest, db.truth (other.eval db context) = .yes := by
    intro rest
    induction rest with
    | nil => simp
    | cons next rest ih =>
      intro e
      rw [List.foldl_cons, ih]
      simp [Expr.and, Expr.eval, BinaryOp.apply, Truth.and_eq_yes, and_assoc]
  cases es with
  | nil => simp [Expr.conjunction, evalCondition]
  | cons e rest => simp only [Expr.conjunction, evalCondition, hfold, List.forall_mem_cons]

/-- the clauses of a query for a database and the tables around it -/
def Query.clauses (db : Database) (q : Query) (outer : Frame) : Clauses where
  frames := joinFrames db q.joins (sourceFrames db q.source outer)
  condition := evalCondition db q.condition
  grouped := q.isGrouped
  groupKey := evalList db q.groupBy
  having := evalCondition db q.having
  sortKey := evalKeys db q.orderBy
  directions := q.orderBy.map fun key => key.direction.getD .asc
  items := evalItems db q.select
  distinct := q.distinct
  page := q.page

theorem Query.eval_eq (q : Query) (outer : Frame) :
    q.eval db outer = (q.clauses db outer).rows db.toOperators outer q.groupBy.isEmpty := by
  cases q; rfl

/-- A query that neither groups, thins out nor pages its rows gives its joined rows that meet the condition, in some
order. -/
theorem Query.eval_plain {q : Query} (hgrouped : q.isGrouped = false) (hhaving : q.having = none)
    (hdistinct : q.distinct = false) (hpage : q.page = none) (outer : Frame) :
    (q.eval db outer).Perm
      (((joinFrames db q.joins (sourceFrames db q.source outer)).filter fun frame =>
        evalCondition db q.condition (.ofFrame frame) = .yes).map fun frame =>
          q.select.map fun item => item.expr.eval db (.ofFrame frame)) := by
  have hkept : ∀ context, (q.clauses db outer).having context = .yes := fun context => by
    simp [clauses, hhaving, evalCondition]
  have hplain : (q.clauses db outer).grouped = false := hgrouped
  have hrows := Clauses.rows_plain hplain hkept hdistinct hpage db.toOperators outer q.groupBy.isEmpty
  rw [← Query.eval_eq] at hrows
  refine hrows.trans (List.Perm.of_eq (List.map_congr_left fun frame _ => ?_))
  exact evalItems_eq_map q.select (.ofFrame frame)

/-! ## Joins -/

/-- the rows that joining one table makes of a row -/
def Join.extend (db : Database) (join : Join) (frame : Frame) : List Frame :=
  join.kind.keep (frame.bind join.table.name none)
    (((db.rows join.table.table).map fun row => frame.bind join.table.name (some row)).filter fun joined =>
      db.truth (join.on.eval db (.ofFrame joined)) = .yes)

theorem joinFrames_cons (join : Join) (rest : List Join) (frames : List Frame) :
    joinFrames db (join :: rest) frames = joinFrames db rest (frames.flatMap (join.extend db)) := by
  cases join; rfl

theorem joinFrames_append (joins more : List Join) (frames : List Frame) :
    joinFrames db (joins ++ more) frames = joinFrames db more (joinFrames db joins frames) := by
  induction joins generalizing frames with
  | nil => rfl
  | cons join rest ih => rw [List.cons_append, joinFrames_cons, joinFrames_cons, ih]

/-- Each row is joined by itself. -/
theorem joinFrames_flatMap (joins : List Join) (frames : List Frame) :
    joinFrames db joins frames = frames.flatMap fun frame => joinFrames db joins [frame] := by
  induction joins generalizing frames with
  | nil => simp [joinFrames]
  | cons join rest ih =>
    have hone : ∀ frame, joinFrames db (join :: rest) [frame] = (join.extend db frame).flatMap fun joined =>
        joinFrames db rest [joined] := by
      intro frame
      rw [joinFrames_cons, ih, List.flatMap_singleton]
    simp only [hone]
    rw [joinFrames_cons, ih, List.flatMap_assoc]

end RelQuery.Sql
