/-
Queries that count rows, or ask whether there is one.

A query of one column and no more than tables and a condition (`Query.Presents`) counts the rows that it keeps, or
gives a row when it keeps one. Such a query stands around another as its derived table, or is that query with its
outputs replaced. Either way the order of the other query does not matter, unless a page is cut out of it or its order
keys are what makes it a grouped one.
- `Query.eval_countRows`, `Query.eval_first`: what the two queries give.
- `Query.eval_unordered`: leaving out an ORDER BY permutes the rows.
-/
import RelQuery.Proofs.Lists
import RelQuery.Proofs.Sql.Meaning

namespace RelQuery.Sql

/-- As long as no page is cut out of them, sorting the rows another way changes their order only. -/
theorem Clauses.rows_reordered {c : Clauses} (hpage : c.page = none) (sortKey : Context → List Value)
    (directions : List SortDirection) (ops : Operators) (outer : Frame) (wholeTable : Bool) :
    ({ c with sortKey, directions }.rows ops outer wholeTable).Perm (c.rows ops outer wholeTable) := by
  obtain ⟨frames, condition, grouped, groupKey, having, oldKey, oldDirections, items, distinct, page⟩ := c
  obtain rfl : page = none := hpage
  have hsorted : ∀ (c' c : Clauses) (contexts : List Context), ((c'.sorted ops contexts).map items).Perm
      ((c.sorted ops contexts).map items) := fun c' c contexts =>
    ((List.mergeSort_perm _ _).trans (List.mergeSort_perm _ _).symm).map items
  cases distinct with
  | false => exact hsorted _ _ _
  | true => exact perm_eraseDups (hsorted _ _ _)

/-- Rows that are grouped by nothing give one row. -/
theorem Clauses.rows_whole {c : Clauses} (hgrouped : c.grouped = true) (hhaving : ∀ context, c.having context = .yes)
    (hpage : c.page = none) (ops : Operators) (outer : Frame) :
    c.rows ops outer true = [c.items ⟨c.kept.headD outer, c.kept⟩] := by
  cases hdistinct : c.distinct <;>
    simp [Clauses.rows, Clauses.contexts, Clauses.sorted, hgrouped, hhaving, hpage, hdistinct, List.eraseDups_cons]

namespace Query

variable {db : Database}

theorem eval_whole {q : Query} (hgrouped : q.isGrouped = true) (hgroupBy : q.groupBy = []) (hhaving : q.having = none)
    (hpage : q.page = none) (outer : Frame) :
    q.eval db outer = [evalItems db q.select ⟨(q.clauses db outer).kept.headD outer, (q.clauses db outer).kept⟩] := by
  have hholds : ∀ context, (q.clauses db outer).having context = .yes := by
    simp only [clauses, hhaving]
    exact fun _ => rfl
  rw [Query.eval_eq, hgroupBy]
  exact Clauses.rows_whole hgrouped hholds hpage _ _

/-- the query without its order -/
def unordered (q : Query) : Query := { q with orderBy := [] }

/-- a query that is grouped by nothing but an aggregate in its order -/
def GroupsByOrderOnly (q : Query) : Prop := q.isGrouped ∧ ¬q.unordered.isGrouped

theorem isGrouped_unordered {q : Query} (h : ¬q.GroupsByOrderOnly) : q.unordered.isGrouped = q.isGrouped := by
  have hmore : q.unordered.isGrouped = true → q.isGrouped = true := by
    simp only [unordered, isGrouped, List.any_nil, Bool.or_false]
    intro hgrouped
    rw [hgrouped, Bool.true_or]
  exact Bool.eq_iff_iff.2 ⟨hmore, fun hgrouped => by_contra fun hnot => h ⟨hgrouped, hnot⟩⟩

/-- Without its order a query gives the same rows, in some order, unless the order makes it a grouped one. -/
theorem eval_unordered {q : Query} (hpage : q.page = none) (h : ¬q.GroupsByOrderOnly) (outer : Frame) :
    (q.unordered.eval db outer).Perm (q.eval db outer) := by
  have hclauses : q.unordered.clauses db outer =
      { q.clauses db outer with sortKey := evalKeys db [], directions := [] } := by
    rw [clauses, isGrouped_unordered h]
    rfl
  rw [Query.eval_eq, Query.eval_eq, hclauses]
  exact Clauses.rows_reordered hpage _ _ _ _ _

/-- A database without rows tells the two apart: an aggregate in the order makes one row out of no rows. -/
theorem GroupsByOrderOnly.eval_of_empty {q : Query} (h : q.GroupsByOrderOnly) (hpage : q.page = none) {outer : Frame}
    (hkept : (q.clauses db outer).kept = []) :
    (q.eval db outer).length = 1 ∧ q.unordered.eval db outer = [] := by
  obtain ⟨hgrouped, hunordered⟩ := h
  have hnot : q.unordered.isGrouped = false := by simpa using hunordered
  obtain ⟨hgroupBy, hhaving⟩ : q.groupBy = [] ∧ q.having = none := by
    simp only [unordered, isGrouped, Bool.or_eq_false_iff] at hnot
    exact ⟨by simpa using hnot.1.1.1, by simpa using hnot.1.1.2⟩
  constructor
  · rw [eval_whole hgrouped hgroupBy hhaving hpage, List.length_singleton]
  · have hnoRows : (q.unordered.clauses db outer).kept = [] := hkept
    have heach : (q.unordered.clauses db outer).grouped = false := hnot
    have hnoPage : (q.unordered.clauses db outer).page = none := hpage
    rw [Query.eval_eq]
    cases hdistinct : (q.unordered.clauses db outer).distinct <;>
      simp [Clauses.rows, Clauses.contexts, Clauses.sorted, heach, hnoPage, hnoRows, hdistinct]

/-- Without a row in its first table a query keeps none. -/
theorem kept_of_empty {q : Query} {table : TableRef} (hsource : q.source = some (.table table))
    (hrows : db.rows table.table = []) (outer : Frame) : (q.clauses db outer).kept = [] := by
  simp only [clauses, Clauses.kept, hsource, sourceFrames, hrows, List.map_nil]
  rw [joinFrames_flatMap]
  rfl

/-! ## One column of the rows kept -/

/-- a query that gives one column of the rows it keeps, or one value for all of them -/
structure Presents (q : Query) (column : Expr) : Prop where
  select : q.select = [⟨column, none⟩]
  groupBy : q.groupBy = []
  having : q.having = none
  orderBy : q.orderBy = []
  distinct : q.distinct = false

variable {q : Query} {column : Expr}

theorem Presents.isGrouped (h : q.Presents column) : q.isGrouped = column.aggregates := by
  simp [Query.isGrouped, h.select, h.groupBy, h.having, h.orderBy]

/-- A query for the number of rows gives the number of rows kept. -/
theorem eval_countRows (h : q.Presents .countRows) (hpage : q.page = none) (outer : Frame) :
    q.eval db outer = [[.int (Int64.ofNat (q.clauses db outer).kept.length)]] := by
  have hall : ((q.clauses db outer).kept.map fun _ => [Value.bool true]).countP
      (fun values => values.all fun v => !v.isNull) = (q.clauses db outer).kept.length := by
    rw [List.countP_eq_length.2, List.length_map]
    intro values hvalues
    obtain ⟨_, -, rfl⟩ := List.mem_map.1 hvalues
    rfl
  rw [eval_whole h.isGrouped h.groupBy h.having hpage, h.select]
  simp only [evalItems, Expr.countRows, Expr.eval, db.call_count, evalList, hall]

/-- A query for the first row gives one when it keeps a row. -/
theorem eval_first (h : q.Presents (.int 1)) (hpage : q.page = some ⟨some 1, none⟩) (outer : Frame) :
    q.eval db outer ≠ [] ↔ (q.clauses db outer).kept ≠ [] := by
  have hgrouped : (q.clauses db outer).grouped = false := h.isGrouped
  have hhaving : (q.clauses db outer).having = fun _ => .yes := by
    simp only [clauses, h.having]
    rfl
  have hdistinct : (q.clauses db outer).distinct = false := h.distinct
  have hfirst : (q.clauses db outer).page = some ⟨some 1, none⟩ := hpage
  have hlength : (q.eval db outer).length = min 1 (q.clauses db outer).kept.length := by
    rw [Query.eval_eq]
    simp [Clauses.rows, Clauses.contexts, Clauses.sorted, Page.slice, hgrouped, hhaving, hdistinct, hfirst]
  rw [← List.length_pos_iff, ← List.length_pos_iff, hlength]
  omega

/-! ## Derived tables -/

theorem sourceFrames_derived (q : Query) (name : String) (outer : Frame) :
    sourceFrames db (some (.derived q name)) outer =
      (q.eval db outer).map fun values => outer.enter name (namedRow (q.select.map (·.columnName)) values) := by
  cases q
  rfl

/-- one column of the rows of another query -/
def around (column : Expr) (q : Query) (name : String) : Query :=
  { selecting [⟨column, none⟩] with source := some (.derived q name) }

theorem around_presents (column : Expr) (q : Query) (name : String) : (around column q name).Presents column :=
  ⟨rfl, rfl, rfl, rfl, rfl⟩

/-- Around another query all of its rows are kept. -/
theorem around_kept (column : Expr) (q : Query) (name : String) (outer : Frame) :
    ((around column q name).clauses db outer).kept.length = (q.eval db outer).length := by
  simp [around, selecting, clauses, Clauses.kept, joinFrames, evalCondition, sourceFrames_derived]

end Query

end RelQuery.Sql
