/-
The statements that count a plan's rows or look for one.

Both are the statement of the rows, reduced: a plan that is grouped, thinned out or paged is counted from the outside,
any other has its outputs replaced (`reduceTo`). The order is left out unless a page depends on it.
- `reduced_kept`: the reduced statement keeps as many rows as the plan's statement gives.
- `count_exists_agree_iff`: the count and the test for a row agree with the rows themselves, but for a plan without any
  output that is not paged and grouped by nothing but an aggregate among its order keys.
-/
import RelQuery.Proofs.Sql.Reducing
import RelQuery.Proofs.Statement.JoinedRows

namespace RelQuery.Plan

variable {p : Plan} {outputs : List Output} {results conditions keys : List Sql.Expr}

/-! ## Plans that are not grouped -/

theorem isAggregateAlias_eq_false (h : p.hasAggregates = false) (name : String) : p.isAggregateAlias name = false := by
  cases hannotation : p.annotationOf name with
  | none => simp [isAggregateAlias, aliasBudget, aliasAggregates, hannotation]
  | some e =>
    obtain ⟨a, ha, -⟩ := Option.map_eq_some_iff.1 hannotation
    have hname : a.aliasName = name := by simpa using List.find?_some ha
    have hplain := List.any_eq_false.1 h a (List.mem_of_find?_eq_some ha)
    simpa [hname] using hplain

/-- In a plan that is not grouped nothing depends on a group. -/
theorem items_aggregateless (h : p.isGrouped = false) (outputs : List Output) :
    ∀ item ∈ p.items outputs, p.exprAggregates item.1 = false := by
  simp only [isGrouped, Bool.or_eq_false_iff] at h
  obtain ⟨⟨hannotations, hfilters⟩, hordering⟩ := h
  intro item hitem
  simp only [items, List.mem_append, List.mem_map] at hitem
  rcases hitem with (⟨o, -, rfl⟩ | ⟨e, he, rfl⟩) | ⟨key, hkey, rfl⟩
  · cases o.term with
    | field ref => rfl
    | aliasRef name =>
      simp [OutputTerm.expr, exprAggregates, Expr.containsAggregate, Expr.aliases, Expr.nodes, Expr.isAggregate,
        isAggregateAlias_eq_false hannotations]
  · simpa using List.any_eq_false.1 hfilters e he
  · simpa using List.any_eq_false.1 hordering key hkey

/-- what the outputs, filters and order keys of a plan are compiled to, as far as grouping is concerned -/
structure Compiled (p : Plan) (outputs : List Output) (results conditions keys : List Sql.Expr) : Prop where
  outputsLength : results.length = outputs.length
  filtersLength : conditions.length = p.filters.length
  aggregates : (results ++ conditions ++ keys).map Sql.Expr.aggregates =
    (p.items outputs).map fun item => p.exprAggregates item.1

namespace Compiled

variable (h : p.Compiled outputs results conditions keys) (scope : Scope) (joins : List Sql.Join)

include h

/-- the statement of a plan that is not grouped -/
theorem ungrouped (hgrouped : p.isGrouped = false) :
    let q := p.query scope outputs joins results conditions keys
    q.isGrouped = false ∧ q.having = none ∧ q.groupBy = [] := by
  have hplain : ∀ x ∈ results ++ conditions ++ keys, x.aggregates = false := by
    intro x hx
    have hmem : x.aggregates ∈ (results ++ conditions ++ keys).map Sql.Expr.aggregates := List.mem_map_of_mem hx
    rw [h.aggregates] at hmem
    obtain ⟨item, hitem, heq⟩ := List.mem_map.1 hmem
    exact heq.symm.trans (items_aggregateless hgrouped outputs item hitem)
  have hfilters : ∀ e ∈ p.filters, p.exprAggregates e = false := fun e he =>
    items_aggregateless hgrouped outputs (e, p.filterRole e)
      (List.mem_append_left _ (List.mem_append_right _ (List.mem_map_of_mem he)))
  obtain ⟨hq, hhaving, -, -⟩ := query_ungrouped hgrouped hfilters h.outputsLength h.filtersLength hplain
  exact ⟨hq, hhaving, by simp [query, hgrouped]⟩

/-- An output makes a grouped statement one that is grouped without its order: it is in the key or an aggregate. -/
theorem grouped_unordered (hgrouped : p.isGrouped = true) (houtputs : outputs ≠ []) :
    (p.query scope outputs joins results conditions keys).unordered.isGrouped = true := by
  have hresults : results.map Sql.Expr.aggregates = outputs.map fun o => p.exprAggregates o.term.expr := by
    have haggregates := h.aggregates
    simp only [items, List.map_append, List.append_assoc, List.map_map] at haggregates
    exact (List.append_inj haggregates (by simp [h.outputsLength])).1
  obtain ⟨o, rest, rfl⟩ := List.exists_cons_of_ne_nil houtputs
  obtain ⟨x, more, rfl⟩ := List.exists_cons_of_length_eq_add_one h.outputsLength
  have hfirst : x.aggregates = p.exprAggregates o.term.expr := (List.cons.inj hresults).1
  cases ho : p.exprAggregates o.term.expr with
  | false => simp [Sql.Query.unordered, Sql.Query.isGrouped, query, hgrouped, ho]
  | true => simp [Sql.Query.unordered, Sql.Query.isGrouped, query, hgrouped, hfirst, ho]

/-- Only a plan without outputs can have a statement that is grouped by its order alone. -/
theorem not_groupsByOrderOnly (houtputs : outputs ≠ []) :
    ¬(p.query scope outputs joins results conditions keys).GroupsByOrderOnly := by
  rintro ⟨hq, hunordered⟩
  cases hgrouped : p.isGrouped with
  | false => simp [(h.ungrouped scope joins hgrouped).1] at hq
  | true => exact hunordered (h.grouped_unordered scope joins hgrouped houtputs)

end Compiled

/-! ## Reduced statements -/

section Reduced

variable (h : p.Compiled outputs results conditions keys) (scope : Scope) (joins : List Sql.Join)

include h

theorem reduceTo_presents (column : Sql.Expr) (next : Nat) :
    let r := reduceTo column p.isWrapped p.isPaged (p.query scope outputs joins results conditions keys) next
    r.Presents column ∧ r.page = none := by
  intro r
  cases hwrapped : p.isWrapped with
  | true =>
    have hr : r = .around column (if p.isPaged then p.query scope outputs joins results conditions keys else
        (p.query scope outputs joins results conditions keys).unordered) (tableAlias next) := by
      simp only [r, reduceTo, hwrapped, if_true]
      rfl
    exact ⟨hr ▸ Sql.Query.around_presents _ _ _, hr ▸ rfl⟩
  | false =>
    obtain ⟨⟨hgrouped, hdistinct⟩, hpaged⟩ : (p.isGrouped = false ∧ p.distinct = false) ∧ p.isPaged = false := by
      simpa [isWrapped] using hwrapped
    obtain ⟨-, hhaving, hgroupBy⟩ := h.ungrouped scope joins hgrouped
    have hr : r =
        { (p.query scope outputs joins results conditions keys).unordered with select := [⟨column, none⟩] } := by
      simp only [r, reduceTo, hwrapped, hpaged, Bool.false_eq_true, if_false]
      rfl
    rw [hr]
    exact ⟨⟨rfl, hgroupBy, hhaving, rfl, hdistinct⟩, by simp [Sql.Query.unordered, query, hpaged]⟩

/-- The reduced statement keeps as many rows as the statement of the rows gives. -/
theorem reduced_kept (column : Sql.Expr) (next : Nat) (db : Sql.Database) (outer : Sql.Frame) :
    let q := p.query scope outputs joins results conditions keys
    (p.isPaged ∨ ¬q.GroupsByOrderOnly) →
    ((reduceTo column p.isWrapped p.isPaged q next).clauses db outer).kept.length = (q.eval db outer).length := by
  intro q hordered
  cases hwrapped : p.isWrapped with
  | true =>
    have hr : reduceTo column true p.isPaged q next =
        .around column (if p.isPaged then q else q.unordered) (tableAlias next) := rfl
    rw [hr, Sql.Query.around_kept]
    cases hpaged : p.isPaged with
    | true => rfl
    | false =>
      have hpage : q.page = none := by simp [q, query, hpaged]
      exact (Sql.Query.eval_unordered hpage (hordered.resolve_left (by simp [hpaged])) outer).length_eq
  | false =>
    obtain ⟨⟨hgrouped, hdistinct⟩, hpaged⟩ : (p.isGrouped = false ∧ p.distinct = false) ∧ p.isPaged = false := by
      simpa [isWrapped] using hwrapped
    obtain ⟨hq, hhaving, -⟩ := h.ungrouped scope joins hgrouped
    have hplain : (q.eval db outer).Perm _ :=
      Sql.Query.eval_plain hq hhaving hdistinct (by simp [query, hpaged]) outer
    have hr : reduceTo column false p.isPaged q next = { q.unordered with select := [⟨column, none⟩] } := by
      simp only [reduceTo, hpaged, Bool.false_eq_true, if_false]
      rfl
    rw [hplain.length_eq, List.length_map, hr]
    rfl

/-- When one row is asked for whose grouping is in its order, a database without rows gives a wrong count. -/
theorem reduced_kept_of_empty (next : Nat) (outer : Sql.Frame) (hpaged : p.isPaged = false) :
    let q := p.query scope outputs joins results conditions keys
    q.GroupsByOrderOnly →
    (q.eval ⟨.exact, fun _ => []⟩ outer).length = 1 ∧
      ((reduceTo .countRows p.isWrapped p.isPaged q next).clauses ⟨.exact, fun _ => []⟩ outer).kept.length = 0 := by
  intro q horder
  have hpage : q.page = none := by simp [q, query, hpaged]
  have hkept : (q.clauses ⟨.exact, fun _ => []⟩ outer).kept = [] := Sql.Query.kept_of_empty rfl rfl outer
  obtain ⟨hone, hnone⟩ := horder.eval_of_empty hpage hkept
  have hgrouped : p.isGrouped = true := by
    by_contra hnot
    have hq := (h.ungrouped scope joins (by simpa using hnot)).1
    exact absurd horder.1 (by simp [q, hq])
  have hr : reduceTo .countRows p.isWrapped p.isPaged q next = .around .countRows q.unordered (tableAlias next) := by
    simp only [reduceTo, isWrapped, hgrouped, hpaged, Bool.true_or, Bool.false_eq_true, if_true, if_false]
    rfl
  exact ⟨hone, by rw [hr, Sql.Query.around_kept, hnone, List.length_nil]⟩

end Reduced

/-! ## Count and existence -/

/-- On a database, one query gives the number of rows of another, and a third gives a row when there is one. -/
structure AgreeOn (db : Sql.Database) (rows counting testing : Sql.Query) : Prop where
  count : counting.eval db .empty = [[.int (Int64.ofNat (rows.eval db .empty).length)]]
  existence : testing.eval db .empty ≠ [] ↔ rows.eval db .empty ≠ []

theorem reduced_agreeOn (h : p.Compiled outputs results conditions keys) (scope : Scope) (joins : List Sql.Join)
    (next : Nat) (db : Sql.Database) :
    let q := p.query scope outputs joins results conditions keys
    (p.isPaged ∨ ¬q.GroupsByOrderOnly) →
    AgreeOn db q (reduceTo .countRows p.isWrapped p.isPaged q next)
      (limitedTo 1 (reduceTo (.int 1) p.isWrapped p.isPaged q next)) := by
  intro q hordered
  obtain ⟨hcounts, hpage⟩ := reduceTo_presents h scope joins .countRows next
  obtain ⟨htests, htestsPage⟩ := reduceTo_presents h scope joins (.int 1) next
  have hlimited : (limitedTo 1 (reduceTo (.int 1) p.isWrapped p.isPaged q next)).Presents (.int 1) :=
    ⟨htests.select, htests.groupBy, htests.having, htests.orderBy, htests.distinct⟩
  have hfirst : (limitedTo 1 (reduceTo (.int 1) p.isWrapped p.isPaged q next)).page = some ⟨some 1, none⟩ := by
    simp only [limitedTo]
    rw [htestsPage]
    rfl
  constructor
  · rw [Sql.Query.eval_countRows hcounts hpage, reduced_kept h scope joins .countRows next db .empty hordered]
  · have hkept : ((limitedTo 1 (reduceTo (.int 1) p.isWrapped p.isPaged q next)).clauses db .empty).kept.length =
        (q.eval db .empty).length := reduced_kept h scope joins (.int 1) next db .empty hordered
    rw [Sql.Query.eval_first hlimited hfirst, ← List.length_pos_iff, ← List.length_pos_iff, hkept]

/-- A plan that compiles can be counted and tested for a row. Both agree with the rows of its statement on every
database, exactly when the plan is paged or its statement is not grouped by its order alone; and it is grouped by its
order alone only when it has no columns. -/
theorem count_exists_agree_iff (schema : Schema) (d : Sql.Dialect) (p : Plan) (compiled : CompiledQuery)
    (hcompile : p.compile schema d = .ok compiled) :
    ∃ (selection : Selection) (counting testing : Sql.Query),
      compiled.primary = .ofTokens d (selection.query.tokens d) selection.columns ∧
      p.compileCount schema d = .ok (.ofTokens d (counting.tokens d) [countColumn]) ∧
      p.compileExists schema d = .ok (.ofTokens d (testing.tokens d) []) ∧
      p.rowSelection schema = .ok selection ∧ p.countQuery schema = .ok counting ∧
      p.existsQuery schema = .ok testing ∧
      ((∀ db, AgreeOn db selection.query counting testing) ↔ p.isPaged ∨ ¬selection.query.GroupsByOrderOnly) ∧
      (selection.columns ≠ [] → ¬selection.query.GroupsByOrderOnly) := by
  obtain ⟨selection, hselection, -⟩ := ok_of_bind hcompile
  obtain ⟨next, hselect⟩ := select_of_rowSelection hselection
  obtain ⟨outputs, final, results, conditions, keys, -, hresults, hconditions, -, hlower, hcolumns, hquery⟩ :=
    rowSelection_ok hselection
  have hparts : p.Compiled outputs results conditions keys := ⟨hresults, hconditions, lowerAll_aggregates hlower⟩
  have hcount := countQuery_eq hselect
  have hexists := existsQuery_eq hselect
  refine ⟨selection, _, _, compile_primary hselection hcompile, by rw [compileCount, hcount]; rfl,
    by rw [compileExists, hexists]; rfl, hselection, hcount, hexists, ⟨fun hagree => ?_, fun hordered db => ?_⟩,
    fun hcolumn => ?_⟩
  · by_contra hnot
    obtain ⟨hpaged, horder⟩ := not_or.1 hnot
    rw [not_not, hquery] at horder
    obtain ⟨hone, hnone⟩ := reduced_kept_of_empty hparts _ _ next .empty (by simpa using hpaged) horder
    have hcounts := reduceTo_presents hparts (.ofSelect schema p.root (tableAlias 0) none) final.joins .countRows next
    have hcounted := (hagree ⟨.exact, fun _ => []⟩).count
    rw [hquery, Sql.Query.eval_countRows hcounts.1 hcounts.2, hone, hnone] at hcounted
    exact absurd hcounted (by decide)
  · rw [hquery] at hordered ⊢
    exact reduced_agreeOn hparts _ _ next db hordered
  · rw [hquery]
    exact hparts.not_groupsByOrderOnly _ _ fun hnone => hcolumn (by rw [hcolumns, hnone, List.map_nil])

/-- how many entries each blog has, for blogs that have one -/
def sampleTally : Plan :=
  { ofEntity sampleEntry with
    filters := [.binary .gt (.aliasRef "n") (.literal (.int 0))]
    annotations := [⟨"n", .aggregate .count none false⟩]
    projection := some ⟨.mapping, ["blog_id", "n"]⟩
    ordering := [⟨.aliasRef "n", .desc⟩] }

/-- The groups are counted, not the entries, and their order does not matter. -/
theorem count_exists_agree_tally :
    ∃ selection counting testing, sampleTally.rowSelection sampleSchema = .ok selection ∧
      sampleTally.countQuery sampleSchema = .ok counting ∧ sampleTally.existsQuery sampleSchema = .ok testing ∧
      ∀ db, AgreeOn db selection.query counting testing := by
  obtain ⟨selection, counting, testing, -, -, -, hrows, hcounting, htesting, hagree, hcolumns⟩ :=
    count_exists_agree_iff sampleSchema .sqlite sampleTally _ rfl
  refine ⟨selection, counting, testing, hrows, hcounting, htesting, hagree.2 (.inr (hcolumns ?_))⟩
  have hselection : (sampleTally.rowSelection sampleSchema).map (·.columns.length) = .ok 2 := rfl
  rw [hrows] at hselection
  exact List.ne_nil_of_length_eq_add_one (Except.ok.inj hselection)

/-- entries without any column, ordered by how many they are -/
def sampleColumnless : Plan :=
  { ofEntity sampleEntry with
    projection := some ⟨.mapping, []⟩
    ordering := [⟨.aggregate .count none false, .asc⟩] }

/-- its statement -/
def sampleColumnlessQuery : Sql.Query :=
  { select := [], distinct := false, source := some (.table ⟨"entries", some "t0"⟩), joins := [], condition := none,
    groupBy := [], having := none, orderBy := [⟨.countRows, some .asc⟩], page := none }

/-- The order makes one group of both entries, so the statement gives one row; the count leaves the order out and
counts two. -/
theorem count_exists_agree_columnless :
    sampleColumnless.rowSelection sampleSchema = .ok ⟨sampleColumnlessQuery, [], .mapping []⟩ ∧
      (sampleColumnless.compile sampleSchema .postgres).isOk = true ∧
      sampleColumnless.countQuery sampleSchema = .ok (.around .countRows sampleColumnlessQuery.unordered "t1") ∧
      sampleColumnlessQuery.eval sampleDatabase .empty = [[]] ∧
      (Sql.Query.around .countRows sampleColumnlessQuery.unordered "t1").eval sampleDatabase .empty = [[.int 2]] := by
  refine ⟨rfl, rfl, rfl, Sql.Query.eval_whole rfl rfl rfl rfl _, ?_⟩
  have hrows : (sampleColumnlessQuery.unordered.eval sampleDatabase .empty).Perm _ :=
    Sql.Query.eval_plain rfl rfl rfl rfl .empty
  rw [Sql.Query.eval_countRows (Sql.Query.around_presents _ _ _) rfl, Sql.Query.around_kept, hrows.length_eq]
  rfl

end RelQuery.Plan
