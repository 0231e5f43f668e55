/-
The rows that a statement without groups keeps.

A plan that aggregates nothing is compiled to outputs, conditions and order keys (`Plan.Parts`), which are read from its
joined rows one by one; the rows of the statement are a page of those that meet the conditions, in the order of the keys
(`Parts.eval_eq`). Two plans with the same annotations and filters keep the same rows, as far as both join them
(`Parts.keeps_eq`), and with the same order keys in the same order (`Parts.puts_eq`).
-/
import RelQuery.Proofs.Sql.Paging
import RelQuery.Proofs.Statement.Steady
import RelQuery.Proofs.Statement.Widening

namespace RelQuery

open Sql (Query Frame Context)

namespace Plan

/-! ## Lists of expressions -/

section Lists

variable {db : Sql.Database} {p p' : Plan} {scope : Scope}

theorem steadyNotes (db : Sql.Database) (p : Plan) : p.SteadyNotes db := fun _ _ plan _ => plan.isSteady db

/-- Compiling keeps table names in order. -/
theorem lowerAll_tidy {a : Site} {items : List (Expr × Role)} {s s' : JoinState} {xs : List Sql.Expr} (hs : a.Tidy s)
    (h : p.lowerAll a.scope items s = .ok (xs, s')) : s.Extends s' ∧ a.Tidy s' := by
  have htwins : a.Twins a := ⟨rfl, rfl, fun o o' ho ho' => by rw [Option.some.inj (ho.symm.trans ho')]⟩
  have hself := lowerAll_agrees htwins rfl (steadyNotes ⟨.exact, fun _ => []⟩ p) rfl
    (fun _ _ plan _ => plan.isSteady _) hs hs h h
  exact ⟨hself.grows, hself.tidy⟩

/-- Expressions agree with themselves in another statement, whatever is compiled before and after them. -/
theorem lowerAll_agrees_within {a b : Site} (htwins : a.Twins b) (hsame : p'.annotations = p.annotations)
    {before items after before' items' after' : List (Expr × Role)} (hitems : items.map Prod.fst = items'.map Prod.fst)
    {s s' t t' : JoinState} {xs ys zs xs' ys' zs' : List Sql.Expr} (hs : a.Tidy s) (ht : b.Tidy t)
    (h : p.lowerAll a.scope (before ++ items ++ after) s = .ok (xs ++ ys ++ zs, s'))
    (h' : p'.lowerAll b.scope (before' ++ items' ++ after') t = .ok (xs' ++ ys' ++ zs', t'))
    (hxs : xs.length = before.length) (hys : ys.length = items.length) (hxs' : xs'.length = before'.length)
    (hys' : ys'.length = items'.length) : List.Forall₂ (Sql.Expr.Alike db (MeetsIn a b s' t')) ys ys' := by
  obtain ⟨s₁, s₂, hbefore, hmiddle, hafter⟩ := lowerAll_parts h hxs hys
  obtain ⟨t₁, t₂, hbefore', hmiddle', hafter'⟩ := lowerAll_parts h' hxs' hys'
  have hagree := lowerAll_agrees htwins hsame (steadyNotes db p) hitems (fun _ _ plan _ => plan.isSteady db)
    (lowerAll_tidy hs hbefore).2 (lowerAll_tidy ht hbefore').2 hmiddle hmiddle'
  exact hagree.same s' t' (lowerAll_tidy hagree.tidy hafter).1 (lowerAll_tidy hagree.tidy' hafter').1

/-- The part of a list that each expression comes from. -/
theorem lowerAll_forall₂ {items : List (Expr × Role)} {s s' : JoinState} {xs : List Sql.Expr}
    (h : p.lowerAll scope items s = .ok (xs, s')) : List.Forall₂ (fun (item : Expr × Role) x =>
      ∃ t t', item.1.lower scope (p.fragments.expansion scope) item.2 t = .ok (x, t')) items xs :=
  Lowering.forall₂_of_mapM_ok h

end Lists

/-! ## The statement of a plan -/

/-- what the statement of a plan's rows is made of -/
structure Parts (schema : Schema) (p : Plan) (selection : Selection) where
  outputs : List Output
  final : JoinState
  results : List Sql.Expr
  conditions : List Sql.Expr
  keys : List Sql.Expr
  outputs_eq : p.outputs schema .rows = .ok (outputs, selection.shape)
  results_length : results.length = outputs.length
  conditions_length : conditions.length = p.filters.length
  keys_length : keys.length = p.ordering.length
  lower : p.lowerAll (p.site schema 0 none).scope (p.items outputs) { next := 1 } =
    .ok (results ++ conditions ++ keys, final)
  columns_eq : selection.columns = outputs.map (·.column)
  query_eq : selection.query = p.query (p.site schema 0 none).scope outputs final.joins results conditions keys

theorem exists_parts {schema : Schema} {p : Plan} {selection : Selection}
    (h : p.rowSelection schema = .ok selection) : Nonempty (p.Parts schema selection) := by
  obtain ⟨outputs, final, results, conditions, keys, houtputs, hresults, hconditions, hkeys, hlower, hcolumns, hquery⟩ :=
    rowSelection_ok h
  exact ⟨⟨outputs, final, results, conditions, keys, houtputs, hresults, hconditions, hkeys, hlower, hcolumns, hquery⟩⟩

/-- Nothing in the plan aggregates. -/
theorem exprAggregates_of_ungrouped {p : Plan} (hgrouped : p.isGrouped = false) (outputs : List Output) :
    (∀ e ∈ p.filters, p.exprAggregates e = false) ∧ ∀ item ∈ p.items outputs, p.exprAggregates item.1 = false := by
  simp only [isGrouped, Bool.or_eq_false_iff, List.any_eq_false, Bool.not_eq_true] at hgrouped
  obtain ⟨⟨hnotes, hfilters⟩, hkeys⟩ := hgrouped
  refine ⟨hfilters, fun item hitem => ?_⟩
  simp only [items, List.mem_append, List.mem_map] at hitem
  rcases hitem with (⟨o, ho, rfl⟩ | ⟨e, he, rfl⟩) | ⟨key, hkey, rfl⟩
  · cases hterm : o.term with
    | field ref => rfl
    | aliasRef name =>
      simp only [OutputTerm.expr, exprAggregates, Expr.containsAggregate, Expr.nodes, Expr.aliases, List.any_cons,
        Expr.isAggregate, List.any_nil, Bool.or_false, Bool.false_or, List.filterMap_cons, List.filterMap_nil]
      -- a name without an annotation has no expression to aggregate
      cases hnote : p.annotationOf name with
      | none => simp [isAggregateAlias, aliasBudget, aliasAggregates, hnote]
      | some e =>
        obtain ⟨note, hmem, -⟩ := Option.map_eq_some_iff.1 hnote
        have hname : note.aliasName = name := by simpa using List.find?_some hmem
        have hplain : ¬p.hasAggregates := by simpa using hnotes
        by_contra haggregate
        refine hplain (List.any_eq_true.2 ⟨note, List.mem_of_find?_eq_some hmem, ?_⟩)
        simpa [hname] using haggregate
  · exact hfilters e he
  · exact hkeys key hkey

namespace Parts

variable {db : Sql.Database} {schema : Schema} {p p' : Plan} {selection selection' : Selection}
  (parts : p.Parts schema selection) (parts' : p'.Parts schema selection')

/-- the columns that the statement refers to -/
def references : List ColumnReference := p.references parts.outputs

/-- the rows of the statement's tables, and of those around it, when each relation path has a row or none -/
def frame (around : Frame) (rows : PathRows) : Frame :=
  (p.site schema 0 none).scope.frame parts.final.nodes rows around

/-- whether a choice of rows meets the conditions -/
def keeps (db : Sql.Database) (around : Frame) (rows : PathRows) : Bool :=
  parts.conditions.all fun x => db.truth (x.eval db (.ofFrame (parts.frame around rows))) = .yes

/-- whether a choice of rows may come before another -/
def puts (db : Sql.Database) (around : Frame) (rows others : PathRows) : Bool :=
  Sql.sortsBefore db.toOperators (p.ordering.map fun key => (some key.direction.toSql).getD .asc)
    (parts.keys.map fun x => x.eval db (.ofFrame (parts.frame around rows)))
    (parts.keys.map fun x => x.eval db (.ofFrame (parts.frame around others)))

/-- the choices of rows that the statement gives, in order -/
def chosen (db : Sql.Database) (around : Frame) : List PathRows :=
  Sql.sliced selection.query.page
    (((joinedPaths db schema p.root parts.references).filter (parts.keeps db around)).mergeSort (parts.puts db around))

theorem numbered : (p.site schema 0 none).scope.Numbered 0 := ⟨rfl, nofun⟩

theorem settled : p.Settled schema 0 none parts.references parts.final := lowerAll_settled numbered parts.lower

theorem joinFrames (around : Frame) :
    Sql.joinFrames db selection.query.joins (Sql.sourceFrames db selection.query.source around) =
      (joinedPaths db schema p.root parts.references).map (parts.frame around) := by
  have hjoins : selection.query.joins = parts.final.joins := by simp [parts.query_eq, query]
  have hsource : selection.query.source = some (.table (p.site schema 0 none).scope.rootTable) := by
    simp [parts.query_eq, query]
  rw [hjoins, hsource]
  exact parts.settled.joinFrames around

theorem puts_total (h : db.toOperators.Preorders) (around : Frame) (rows others : PathRows) :
    parts.puts db around rows others = true ∨ parts.puts db around others rows = true :=
  Sql.sortsBefore_total h _ _ _

theorem puts_trans (h : db.toOperators.Preorders) (around : Frame) (a b c : PathRows)
    (hab : parts.puts db around a b = true) (hbc : parts.puts db around b c = true) :
    parts.puts db around a c = true :=
  Sql.sortsBefore_trans h _ (by simp) (by simp) hab hbc

variable (hgrouped : p.isGrouped = false)

include hgrouped

theorem ungrouped : selection.query.isGrouped = false ∧ selection.query.having = none ∧
    selection.query.condition = Sql.Expr.conjunction parts.conditions ∧
    selection.query.select.map (·.expr) = parts.results := by
  obtain ⟨hfilters, hitems⟩ := exprAggregates_of_ungrouped hgrouped parts.outputs
  rw [parts.query_eq]
  exact query_ungrouped hgrouped hfilters parts.results_length parts.conditions_length
    (lowerAll_aggregateless hitems parts.lower)

theorem keepsRow_eq (around : Frame) (rows : PathRows) :
    selection.query.keepsRow db (parts.frame around rows) = parts.keeps db around rows := by
  rw [Query.keepsRow, (parts.ungrouped hgrouped).2.2.1, Bool.eq_iff_iff, decide_eq_true_iff,
    Sql.evalCondition_conjunction]
  simp [keeps]

omit hgrouped in
theorem putsBefore_eq (around : Frame) (rows others : PathRows) :
    selection.query.putsBefore db (parts.frame around rows) (parts.frame around others) =
      parts.puts db around rows others := by
  have horder : selection.query.orderBy = List.zipWith (fun (key : OrderKey) e =>
      (⟨e, some key.direction.toSql⟩ : Sql.OrderKey)) p.ordering parts.keys := by simp [parts.query_eq, query]
  have hexprs : ∀ {ordering : List OrderKey} {keys : List Sql.Expr}, keys.length = ordering.length →
      (List.zipWith (fun (key : OrderKey) e => (⟨e, some key.direction.toSql⟩ : Sql.OrderKey)) ordering keys).map
        (·.expr) = keys ∧
      (List.zipWith (fun (key : OrderKey) e => (⟨e, some key.direction.toSql⟩ : Sql.OrderKey)) ordering keys).map
        (fun key => key.direction.getD .asc) = ordering.map fun key => (some key.direction.toSql).getD .asc := by
    intro ordering
    induction ordering with
    | nil =>
      intro keys hlength
      obtain rfl := List.length_eq_zero_iff.1 hlength
      exact ⟨rfl, rfl⟩
    | cons key rest ih =>
      intro keys hlength
      obtain ⟨x, more, rfl⟩ := List.exists_cons_of_length_eq_add_one hlength
      obtain ⟨hexprs, hdirections⟩ := ih (Nat.succ.inj hlength)
      simp [hexprs, hdirections]
  obtain ⟨hkeys, hdirections⟩ := hexprs parts.keys_length
  have heval : ∀ frame, Sql.evalKeys db selection.query.orderBy (.ofFrame frame) =
      parts.keys.map fun x => x.eval db (.ofFrame frame) := by
    intro frame
    rw [Sql.evalKeys_eq_map, horder]
    conv_rhs => rw [← hkeys]
    rw [List.map_map]
    rfl
  rw [Query.putsBefore, heval, heval, horder, hdirections]
  rfl

/-- The rows of the statement: a page of those kept, in order. -/
theorem eval_eq (hdistinct : p.distinct = false) (around : Frame) : selection.query.eval db around =
    (parts.chosen db around).map fun rows =>
      parts.results.map fun x => x.eval db (.ofFrame (parts.frame around rows)) := by
  obtain ⟨hplain, hhaving, -, hselect⟩ := parts.ungrouped hgrouped
  have hrepeats : selection.query.distinct = false := by simp [parts.query_eq, query, hdistinct]
  rw [Query.eval_kept hplain hhaving hrepeats (parts.joinFrames around)]
  have hkeeps : (fun rows => selection.query.keepsRow db (parts.frame around rows)) = parts.keeps db around :=
    funext fun rows => parts.keepsRow_eq hgrouped around rows
  have hputs : (fun rows others => selection.query.putsBefore db (parts.frame around rows) (parts.frame around others)) =
      parts.puts db around := funext fun rows => funext fun others => parts.putsBefore_eq around rows others
  rw [hkeeps, hputs, chosen]
  refine List.map_congr_left fun rows _ => ?_
  rw [← hselect, List.map_map]
  rfl

omit hgrouped in
/-- Without a page all rows kept are given. -/
theorem mem_chosen (hpaged : p.isPaged = false) {around : Frame} {rows : PathRows} :
    rows ∈ parts.chosen db around ↔
      rows ∈ joinedPaths db schema p.root parts.references ∧ parts.keeps db around rows = true := by
  have hpage : selection.query.page = none := by simp [parts.query_eq, query, hpaged]
  rw [chosen, hpage, Sql.sliced, (List.mergeSort_perm _ _).mem_iff, List.mem_filter]

omit hgrouped in
theorem chosen_subset {around : Frame} {rows : PathRows} (h : rows ∈ parts.chosen db around) :
    rows ∈ joinedPaths db schema p.root parts.references :=
  (List.mem_filter.1 ((List.mergeSort_perm _ _).mem_iff.1 (Sql.mem_of_mem_sliced h))).1

/-- A choice of rows that meets the conditions is a row kept. -/
theorem mem_kept {around : Frame} {rows : PathRows} (hrows : rows ∈ joinedPaths db schema p.root parts.references)
    (hkept : parts.keeps db around rows = true) :
    parts.frame around rows ∈ (selection.query.clauses db around).kept := by
  rw [Sql.Clauses.kept_eq (parts.joinFrames around)]
  refine List.mem_map_of_mem (List.mem_filter.2 ⟨hrows, ?_⟩)
  exact (parts.keepsRow_eq hgrouped around rows).trans hkept

omit hgrouped

/-! ## Two plans -/

theorem twins (hroot : p'.root = p.root) : (p.site schema 0 none).Twins (p'.site schema 0 none) :=
  ⟨rfl, hroot.symm, nofun⟩

variable {around around' : Frame} (haround : ∀ m, around (some (tableAlias m)) = none)
  (haround' : ∀ m, around' (some (tableAlias m)) = none)

include haround haround' in
/-- The same rows on all paths that both plans join. -/
theorem meets {rows rows' : PathRows} (hrows : rows [] = rows' [])
    (hjoined : ∀ path ∈ parts.final.nodes.map (·.path), path ∈ parts'.final.nodes.map (·.path) →
      rows path = rows' path) :
    MeetsIn (p.site schema 0 none) (p'.site schema 0 none) parts.final parts'.final
      (.ofFrame (parts.frame around rows)) (.ofFrame (parts'.frame around' rows')) :=
  ⟨parts.settled.meets parts'.settled hrows hjoined nofun (fun m _ _ => haround m) fun m _ _ => haround' m, .nil⟩

theorem map_path_final : parts.final.nodes.map (·.path) = (layout schema p.root parts.references).map (·.path) := by
  rw [← parts.settled.joins, JoinState.pathJoins, List.map_map]
  rfl

variable (hroot : p'.root = p.root) (hsame : p'.annotations = p.annotations)

include hroot hsame

theorem conditions_alike (hfilters : p'.filters = p.filters) :
    List.Forall₂ (Sql.Expr.Alike db (MeetsIn (p.site schema 0 none) (p'.site schema 0 none) parts.final parts'.final))
      parts.conditions parts'.conditions :=
  lowerAll_agrees_within (twins hroot) hsame (by simp [hfilters, Function.comp_def]) site_tidy site_tidy parts.lower
    parts'.lower (by simp [parts.results_length]) (by simp [parts.conditions_length]) (by simp [parts'.results_length])
    (by simp [parts'.conditions_length])

theorem keys_alike (hordering : p'.ordering = p.ordering) :
    List.Forall₂ (Sql.Expr.Alike db (MeetsIn (p.site schema 0 none) (p'.site schema 0 none) parts.final parts'.final))
      parts.keys parts'.keys := by
  have hlower := parts.lower
  have hlower' := parts'.lower
  rw [← List.append_nil (p.items parts.outputs), ← List.append_nil (parts.results ++ parts.conditions ++ parts.keys)]
    at hlower
  rw [← List.append_nil (p'.items parts'.outputs),
    ← List.append_nil (parts'.results ++ parts'.conditions ++ parts'.keys)] at hlower'
  exact lowerAll_agrees_within (twins hroot) hsame (by simp [hordering]) site_tidy site_tidy hlower hlower'
    (by simp [parts.results_length, parts.conditions_length]) (by simp [parts.keys_length])
    (by simp [parts'.results_length, parts'.conditions_length]) (by simp [parts'.keys_length])

include haround haround'

/-- Rows that are the same on the paths that both plans join meet the conditions of both, or of neither. -/
theorem keeps_eq (hfilters : p'.filters = p.filters) {rows rows' : PathRows} (hrows : rows [] = rows' [])
    (hjoined : ∀ path ∈ parts.final.nodes.map (·.path), path ∈ parts'.final.nodes.map (·.path) →
      rows path = rows' path) : parts.keeps db around rows = parts'.keeps db around' rows' := by
  have halike : List.Forall₂ (Sql.Expr.Alike db _) parts.conditions parts'.conditions :=
    parts.conditions_alike parts' hroot hsame hfilters
  have hvalues := Sql.map_eval_alike halike (parts.meets parts' haround haround' hrows hjoined)
  have hall : ∀ (xs : List Sql.Expr) (context : Context), (xs.all fun x => db.truth (x.eval db context) = .yes) =
      (xs.map fun x => x.eval db context).all fun v => db.truth v = .yes := by
    intro xs context
    rw [List.all_map]
    rfl
  rw [keeps, keeps, hall, hall, hvalues]

/-- With the same order keys they come in the same order. -/
theorem puts_eq (hordering : p'.ordering = p.ordering) {rows rows' others others' : PathRows}
    (hrows : rows [] = rows' []) (hothers : others [] = others' [])
    (hjoined : ∀ path ∈ parts.final.nodes.map (·.path), path ∈ parts'.final.nodes.map (·.path) →
      rows path = rows' path ∧ others path = others' path) :
    parts.puts db around rows others = parts'.puts db around' rows' others' := by
  have halike : List.Forall₂ (Sql.Expr.Alike db _) parts.keys parts'.keys :=
    parts.keys_alike parts' hroot hsame hordering
  have hfirst := Sql.map_eval_alike halike
    (parts.meets parts' haround haround' hrows fun path hpath hpath' => (hjoined path hpath hpath').1)
  have hsecond := Sql.map_eval_alike halike
    (parts.meets parts' haround haround' hothers fun path hpath hpath' => (hjoined path hpath hpath').2)
  rw [puts, puts, hfirst, hsecond, hordering]

end Parts

end Plan

end RelQuery
