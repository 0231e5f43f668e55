/-
Where aggregates stand in a statement.

An aggregate is no condition on a single row: it may not stand in WHERE, in the condition of a join, in GROUP BY or in
the value of an assignment. Whether a filter is put into WHERE or into HAVING, and by which outputs the rows are
grouped, is decided on the plan by following aliases (`RelQuery.Proofs.Plan.Searches`), apart from the compilation,
which puts the annotations of aliases in place. The two agree in every query of every statement.
- `Arranges`: the filters and groups of one query are those of its plan, and its aggregates stand where they may.
- `Compilation.places_query`: what a plan is compiled to, filter by filter and output by output.
- `aggregates_placed`: all statements of a plan, and all statements nested in them.
-/
import RelQuery.Proofs.Plan.Searches
import RelQuery.Proofs.Statement.Copies
import RelQuery.Proofs.Statement.Counting
import RelQuery.Proofs.Statement.Origins

namespace RelQuery

open Sql (Leaf Query)

/-! ## Lists of expressions -/

theorem Sql.Expr.listAggregates_eq_false {es : List Sql.Expr} :
    Sql.Expr.listAggregates es = false ↔ ∀ e ∈ es, e.aggregates = false := by
  induction es with
  | nil => simp [Sql.Expr.listAggregates]
  | cons e rest ih => simp [Sql.Expr.listAggregates, ih]

theorem conjunction_aggregateless {es : List Sql.Expr} (h : ∀ e ∈ es, e.aggregates = false) :
    ∀ e ∈ Sql.Expr.conjunction es, e.aggregates = false := by
  cases es with
  | nil => simp [Sql.Expr.conjunction]
  | cons first rest =>
    intro e he
    obtain rfl := Option.some.inj he
    obtain ⟨hfirst, hrest⟩ := List.forall_mem_cons.1 h
    have hall := foldl_binary_aggregates .and rest first
    rw [hfirst, Sql.Expr.listAggregates_eq_false.2 hrest] at hall
    exact hall

/-! ## One query -/

/-- No aggregate stands where rows are joined, chosen or grouped. -/
structure Sql.Query.RowsFirst (q : Query) : Prop where
  joins : ∀ join ∈ q.joins, join.on.aggregates = false
  condition : ∀ e ∈ q.condition, e.aggregates = false
  groupBy : ∀ e ∈ q.groupBy, e.aggregates = false

/-- a query around a derived table, which neither joins nor chooses nor groups rows of its own -/
structure Sql.Query.Surrounds (q : Query) : Prop where
  source : ∃ inner name, q.source = some (.derived inner name)
  joins : q.joins = []
  condition : q.condition = none
  groupBy : q.groupBy = []
  having : q.having = none

namespace Plan

variable {schema : Schema} {p : Plan}

/-- The clauses of a query are those of a compiled plan, aggregates apart from other filters and outputs. -/
structure Compilation.Places (c : p.Compilation schema) (q : Query) : Prop where
  /-- a filter is compiled to an expression with an aggregate when it aggregates, and only then -/
  filters : ∀ f ∈ p.filters.zip c.conditions, f.2.aggregates = true ↔ p.Aggregates f.1
  /-- and so is an output -/
  outputs : ∀ o ∈ c.outputs.zip c.results, o.2.aggregates = true ↔ p.Aggregates o.1.term.expr
  condition : q.condition =
    Sql.Expr.conjunction (((p.filters.zip c.conditions).filter fun f => ¬p.Aggregates f.1).map Prod.snd)
  having : q.having =
    Sql.Expr.conjunction (((p.filters.zip c.conditions).filter fun f => p.Aggregates f.1).map Prod.snd)
  groupBy : q.groupBy =
    if p.Groups then ((c.outputs.zip c.results).filter fun o => ¬p.Aggregates o.1.term.expr).map Prod.snd else []

/-- In a query of the plan aggregates stand where they may, and the filters and groups are those of the plan, unless it
is a query around one that has them. -/
structure Arranges (schema : Schema) (p : Plan) (q : Query) : Prop where
  rowsFirst : q.RowsFirst
  clauses : (∃ c : p.Compilation schema, c.Places q) ∨ q.Surrounds

/-- Compiled expressions aggregate as what they are compiled from. -/
theorem aggregates_zip {α : Type} {f : α → Expr} : {as : List α} → {xs : List Sql.Expr} →
    xs.map (·.aggregates) = as.map (fun a => p.exprAggregates (f a)) →
    ∀ pair ∈ as.zip xs, pair.2.aggregates = true ↔ p.Aggregates (f pair.1)
  | [], _, _ => by simp
  | a :: rest, [], h => by simp at h
  | a :: rest, x :: more, h => by
    obtain ⟨hfirst, hrest⟩ := List.cons.inj h
    have hx : x.aggregates = p.exprAggregates (f a) := hfirst
    rw [List.zip_cons_cons]
    refine List.forall_mem_cons.2 ⟨?_, aggregates_zip hrest⟩
    simp only [hx, exprAggregates_iff]

namespace Compilation

variable (c : p.Compilation schema)

theorem aggregates_eq : c.results.map (·.aggregates) = c.outputs.map (fun o => p.exprAggregates o.term.expr) ∧
    c.conditions.map (·.aggregates) = p.filters.map (fun e => p.exprAggregates e) := by
  obtain ⟨s₁, s₂, hresults, hconditions, -⟩ :=
    lowerAll_parts c.lower (by simp [c.results_length]) (by simp [c.conditions_length])
  have hfirst := lowerAll_aggregates hresults
  have hsecond := lowerAll_aggregates hconditions
  rw [List.map_map] at hfirst hsecond
  exact ⟨hfirst, hsecond⟩

/-- The query of a plan puts its filters into WHERE and HAVING and groups by its outputs as the plan says. -/
theorem places_query : c.Places c.query where
  filters := aggregates_zip c.aggregates_eq.2
  outputs := aggregates_zip c.aggregates_eq.1
  condition := by
    rw [query, query_condition, testsOf]
    congr 2
    exact List.filter_congr fun f _ => by simp [← exprAggregates_iff]
  having := by
    rw [query, query_having, testsOf]
    congr 2
    exact List.filter_congr fun f _ => by simp [← exprAggregates_iff]
  groupBy := by
    simp only [query, Plan.query]
    by_cases hgroups : p.Groups
    · rw [if_pos (isGrouped_iff.2 hgroups), if_pos hgroups]
      congr 1
      exact List.filter_congr fun o _ => by simp [← exprAggregates_iff]
    · rw [if_neg (mt isGrouped_iff.1 hgroups), if_neg hgroups]

end Compilation

/-- Filters and groups in their places leave aggregates where they may stand. -/
theorem Compilation.Places.rowsFirst {c : p.Compilation schema} {q : Query} (h : c.Places q)
    (hjoins : q.joins = c.final.joins) : q.RowsFirst where
  joins join hjoin := by
    rw [hjoins] at hjoin
    obtain ⟨node, -, rfl⟩ := List.mem_map.1 hjoin
    rfl
  condition := by
    rw [h.condition]
    refine conjunction_aggregateless fun e he => ?_
    obtain ⟨f, hf, rfl⟩ := List.mem_map.1 he
    obtain ⟨hmem, hplain⟩ := List.mem_filter.1 hf
    rw [← Bool.not_eq_true, h.filters f hmem]
    simpa using hplain
  groupBy e he := by
    rw [h.groupBy] at he
    split at he
    · obtain ⟨o, ho, rfl⟩ := List.mem_map.1 he
      obtain ⟨hmem, hplain⟩ := List.mem_filter.1 ho
      rw [← Bool.not_eq_true, h.outputs o hmem]
      simpa using hplain
    · cases he

/-- With other columns, another order or another page a query has the same filters and groups. -/
theorem Arranges.of_clauses {q r : Query} (h : p.Arranges schema q) (hsource : r.source = q.source)
    (hjoins : r.joins = q.joins) (hcondition : r.condition = q.condition) (hgroupBy : r.groupBy = q.groupBy)
    (hhaving : r.having = q.having) : p.Arranges schema r where
  rowsFirst := ⟨hjoins ▸ h.rowsFirst.joins, hcondition ▸ h.rowsFirst.condition, hgroupBy ▸ h.rowsFirst.groupBy⟩
  clauses := by
    obtain ⟨c, hplaces⟩ | haround := h.clauses
    · exact .inl ⟨c, hplaces.filters, hplaces.outputs, hcondition.trans hplaces.condition,
        hhaving.trans hplaces.having, hgroupBy.trans hplaces.groupBy⟩
    · exact .inr ⟨hsource ▸ haround.source, hjoins.trans haround.joins, hcondition.trans haround.condition,
        hgroupBy.trans haround.groupBy, hhaving.trans haround.having⟩

theorem Compilation.arranges (c : p.Compilation schema) : p.Arranges schema c.query :=
  ⟨c.places_query.rowsFirst rfl, .inl ⟨c, c.places_query⟩⟩

theorem Compilation.arranges_counted (c : p.Compilation schema) : p.Arranges schema c.counted := by
  unfold counted
  split
  · exact c.arranges
  · exact c.arranges.of_clauses rfl rfl rfl rfl rfl

theorem Yields.arranges {q : Query} (h : p.Yields schema q) : p.Arranges schema q := by
  induction h with
  | own c => exact c.arranges
  | derived c => exact c.arranges_counted
  | reduced c => exact c.arranges_counted.of_clauses rfl rfl rfl rfl rfl
  | around c name =>
    exact ⟨⟨by simp [Query.around, Query.selecting], by simp [Query.around, Query.selecting],
      by simp [Query.around, Query.selecting]⟩, .inr ⟨⟨_, name, rfl⟩, rfl, rfl, rfl, rfl⟩⟩
  | limited n _ ih => exact ih.of_clauses rfl rfl rfl rfl rfl

/-! ## Changes -/

/-- The condition of a change is that of the filters, none of which aggregates, or asks for keys that a statement
selects with filters that aggregate as they do in the plan. -/
inductive ChoosesRows (schema : Schema) (p : Plan) : Option Sql.Expr → Prop
  | filters {tests : List Sql.Expr} {s s' : JoinState} :
    p.filters.mapM (fun e => p.lowerInChange schema e.lower) s = .ok (tests, s') →
    (∀ e ∈ p.filters, ¬p.Aggregates e) → (∀ x ∈ tests, x.aggregates = false) →
    ChoosesRows schema p (Sql.Expr.conjunction tests)
  | keys {selection : Selection} : p.keyed.rowSelection schema = .ok selection →
    Throughout (Arranges schema) p.keyed selection.query → (∀ e, p.keyed.Aggregates e ↔ p.Aggregates e) →
    ChoosesRows schema p (some (.inQuery (.column none p.root.primaryKey) selection.query false))

theorem aggregates_keyed (e : Expr) : p.keyed.Aggregates e ↔ p.Aggregates e := by
  have hsame : p.keyed.exprAggregates = p.exprAggregates := funext (exprAggregates_congr (p := p) rfl)
  rw [← exprAggregates_iff, ← exprAggregates_iff, hsame]

/-- What does not aggregate is compiled to an expression without an aggregate in a change, too. -/
theorem lowerInChange_aggregateless {e : Expr} (hplain : ¬p.Aggregates e) {s s' : JoinState} {x : Sql.Expr}
    (h : p.lowerInChange schema e.lower s = .ok (x, s')) : x.aggregates = false := by
  rw [lower_aggregates h, ← Bool.not_eq_true, exprAggregates_iff]
  exact hplain

theorem lowerCondition_chooses {keys : Option Query} {n : Nat} (hkeys : p.keyQuery schema = .ok (keys, n))
    {s s' : JoinState} {condition : Option Sql.Expr} (h : p.lowerCondition schema keys s = .ok (condition, s')) :
    p.ChoosesRows schema condition := by
  obtain ⟨hneeds, tests, t, htests, rfl⟩ | ⟨-, selection, hselection, rfl⟩ := lowerCondition_cases hkeys h
  · have hplain : ∀ e ∈ p.filters, ¬p.Aggregates e := fun e he haggregates => by
      simp only [needsKeys, Bool.or_eq_false_iff, List.any_eq_false, Bool.or_eq_true, not_or] at hneeds
      exact (hneeds.2 e he).1 (exprAggregates_iff.2 haggregates)
    refine .filters htests hplain fun x hx => ?_
    obtain ⟨e, he, t, t', hlower⟩ := Lowering.mem_of_mapM_ok htests hx
    exact lowerInChange_aggregateless (hplain e he) hlower
  · exact .keys hselection ((rowSelection_yields hselection).mono fun _ _ hyields => hyields.arranges) aggregates_keyed

/-- No aggregate stands in the condition of a change. -/
theorem ChoosesRows.aggregateless {condition : Option Sql.Expr} (h : p.ChoosesRows schema condition) :
    ∀ e ∈ condition, e.aggregates = false := by
  cases h with
  | filters _ _ htests => exact conjunction_aggregateless htests
  | keys => simp [Sql.Expr.aggregates]

/-- The values of an UPDATE hold no aggregate, and it chooses its rows as the plan says. -/
theorem update_arranged {assignments : List (String × Expr)} {tree : Sql.Update}
    (h : p.update schema assignments = .ok tree) :
    (∀ a ∈ tree.assignments, a.2.aggregates = false) ∧ p.ChoosesRows schema tree.condition := by
  obtain ⟨keys, next, s, s', hkeys, hcondition, hassigned⟩ := update_ok h
  refine ⟨fun a ha => ?_, lowerCondition_chooses hkeys hcondition⟩
  obtain ⟨asked, -, t, t', hplain, hlower⟩ := hassigned a ha
  exact lowerInChange_aggregateless (by simp [← exprAggregates_iff, hplain]) hlower

theorem delete_arranged {tree : Sql.Delete} (h : p.delete schema = .ok tree) : p.ChoosesRows schema tree.condition := by
  obtain ⟨keys, next, s, s', hkeys, hcondition⟩ := delete_ok h
  exact lowerCondition_chooses hkeys hcondition

end Plan

/-- The statement of a batch aggregates nothing and has no statement nested in it. -/
theorem BatchFetch.queryFor_plain {schema : Schema} {root : Entity} {primary : List OutputColumn} {name : String}
    {fetch : BatchFetch} (h : BatchFetch.ofRelation schema root primary name = .ok fetch) (keys : List Value) :
    (fetch.queryFor keys).RowsFirst ∧ (fetch.queryFor keys).groupBy = [] ∧ (fetch.queryFor keys).having = none ∧
      ∀ r, (fetch.queryFor keys).Within r → r = fetch.queryFor keys := by
  obtain ⟨target, column, hquery⟩ := queryFor_eq h
  rw [hquery]
  have hkeys : Sql.Expr.listAggregates (keys.map .param) = false :=
    Sql.Expr.listAggregates_eq_false.2 (by simp [Sql.Expr.aggregates])
  refine ⟨⟨nofun, fun e he => ?_, nofun⟩, rfl, rfl, fun r hr => ?_⟩
  · obtain rfl := Option.some.inj he
    simpa [Sql.Expr.aggregates, Sql.Expr.columnOf] using hkeys
  · cases hr with
    | refl => rfl
    | derived hsource => cases hsource
    | @nested _ inner _ hinner _ =>
      -- it reads columns and binds keys
      have hmem : .statement inner ∈ Sql.listLeaves (keys.map .param) := by
        simpa [allRows, Query.leaves, Query.expressions, Query.selecting, Sql.Expr.leaves,
          Sql.Expr.columnOf] using hinner
      obtain ⟨e, he, hleaf⟩ := mem_listLeaves.1 hmem
      obtain ⟨key, -, rfl⟩ := List.mem_map.1 he
      cases hleaf

namespace Plan

/-- **Aggregates stand where SQL has them, in every statement of every plan.** In each query at any depth no aggregate
stands in WHERE, in the condition of a join or in GROUP BY; the filters that aggregate make HAVING and the others make
WHERE; and the rows are grouped when an annotation, a filter or an order key aggregates, by the outputs that do not.
Batches aggregate nothing, and neither do the values and conditions of changes: a change whose filters aggregate asks
for the keys of its rows in a statement of the plan's keys, which is arranged in this way. -/
theorem aggregates_placed (schema : Schema) (d : Sql.Dialect) (p : Plan) (assignments : List (String × Expr)) :
    p.EveryStatement schema d assignments (Arranges schema) ∧
    (∀ compiled, p.compile schema d = .ok compiled → ∀ fetch ∈ compiled.batched, ∀ keys,
      (fetch.queryFor keys).RowsFirst ∧ (fetch.queryFor keys).groupBy = [] ∧ (fetch.queryFor keys).having = none ∧
        ∀ r, (fetch.queryFor keys).Within r → r = fetch.queryFor keys) ∧
    (∀ tree, p.update schema assignments = .ok tree →
      (∀ a ∈ tree.assignments, a.2.aggregates = false) ∧ (∀ e ∈ tree.condition, e.aggregates = false) ∧
        p.ChoosesRows schema tree.condition) ∧
    ∀ tree, p.delete schema = .ok tree →
      (∀ e ∈ tree.condition, e.aggregates = false) ∧ p.ChoosesRows schema tree.condition := by
  refine ⟨everyStatement (fun _ _ hyields => hyields.arranges) d p assignments, fun compiled h fetch hfetch keys => ?_,
    fun tree htree => ?_, fun tree htree => ?_⟩
  · obtain ⟨outputs, -, -, hnone | ⟨-, hbatches⟩⟩ := compile_ok h
    · rw [hnone] at hfetch
      cases hfetch
    · obtain ⟨name, -, hname⟩ := mem_of_mapM_ok hbatches hfetch
      exact fetch.queryFor_plain hname keys
  · obtain ⟨hassigned, hcondition⟩ := update_arranged htree
    exact ⟨hassigned, hcondition.aggregateless, hcondition⟩
  · have hcondition := delete_arranged htree
    exact ⟨hcondition.aggregateless, hcondition⟩

/-- Of the blogs with an entry the tally's filter is on groups, which the blog alone tells apart. -/
theorem aggregates_placed_tally :
    sampleTally.Aggregates (.binary .gt (.aliasRef "n") (.literal (.int 0))) ∧ sampleTally.Groups ∧
      ∃ compiled selection, sampleTally.compile sampleSchema .sqlite = .ok compiled ∧
        sampleTally.rowSelection sampleSchema = .ok selection ∧
        selection.query.condition = none ∧ selection.query.having.isSome ∧ selection.query.groupBy.length = 1 ∧
        Throughout (Arranges sampleSchema) sampleTally selection.query := by
  obtain ⟨hstatements, -⟩ := aggregates_placed sampleSchema .sqlite sampleTally []
  obtain ⟨compiled, hcompiled⟩ : ∃ compiled, sampleTally.compile sampleSchema .sqlite = .ok compiled := ⟨_, rfl⟩
  obtain ⟨selection, hselection, -, harranged⟩ := hstatements.rows compiled hcompiled
  have hclauses : (sampleTally.rowSelection sampleSchema).map (fun selection =>
      (selection.query.condition.isNone, selection.query.having.isSome, selection.query.groupBy.length)) =
      .ok (true, true, 1) := rfl
  rw [hselection] at hclauses
  have hparts : selection.query.condition = none ∧ selection.query.having.isSome = true ∧
      selection.query.groupBy.length = 1 := by simpa using Except.ok.inj hclauses
  exact ⟨by decide, by decide, compiled, selection, hcompiled, hselection, hparts.1, hparts.2.1, hparts.2.2, harranged⟩

end Plan

end RelQuery
