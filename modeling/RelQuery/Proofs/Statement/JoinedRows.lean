/-
Whether the statement of a plan gives every row that the plan means.

Without an inner join the statement of a plan selects every root row that its filters keep, once. An inner join takes a
row away when its path leads nowhere, whether the filters keep that row or not; so the statement gives the rows meant
exactly when each row that the filters keep has a related row on every path that a reference asks to join so
(`rows_of_joins_iff`). That is not always the case: a reference inside the list of an IN test asks for an inner join
like one that the whole filter depends on (`rows_of_joins_member`).
-/
import RelQuery.Proofs.Statement.Joins
import RelQuery.Proofs.Statement.Outputs

namespace RelQuery

/-- A path has been resolved from the root, unless the output is an annotation. -/
def Output.IsResolved (schema : Schema) (root : Entity) (o : Output) : Prop :=
  ∀ ref, o.term = .field ref → ∃ path, FieldRef.resolve schema root.name path = .ok ref

namespace Plan

/-! ## The rows that a plan means -/

section Meaning

variable (db : Sql.Database) (schema : Schema) (p : Plan)

/-- what the expressions of a plan are read from for one row of its root -/
def rowView (row : Tuple) : RowView := ⟨db.follow schema p.root (some row), fun _ => .null⟩

/-- whether every filter of a plan is true on a row -/
def keeps (row : Tuple) : Bool :=
  p.filters.all fun e => db.truth (p.value db.toOperators (p.rowView db schema row) e) = .yes

/-- the values of outputs for a row -/
def present (outputs : List Output) (row : Tuple) : List Value :=
  outputs.map fun o => p.value db.toOperators (p.rowView db schema row) o.term.expr

/-- each row of the root that the filters keep, as it is presented -/
def rowsMeant (outputs : List Output) : List (List Value) :=
  ((db.rows p.root.table).filter (p.keeps db schema)).map (p.present db schema outputs)

end Meaning

/-! ## References of a statement -/

section References

variable (p : Plan)

/-- the columns that a statement with these outputs refers to -/
def references (outputs : List Output) : List ColumnReference :=
  (p.items outputs).flatMap fun item => p.columns item.1 item.2

/-- the paths that the statement joins by inner joins -/
def innerPaths (schema : Schema) (outputs : List Output) : List (List String) :=
  (p.references outputs).flatMap fun r => innerHops schema r.role r.ref.hops p.root [] false

variable {p}

/-- What is reached from an expression is in it or in an annotation. -/
theorem Reaches.node_mem {e node : Expr} (h : p.Reaches e node) :
    node ∈ e.nodes ∨ ∃ inner ∈ p.expressions, node ∈ inner.nodes := by
  induction h with
  | part hmem => exact .inl hmem
  | through _ hinner _ ih =>
    obtain ⟨a, ha, rfl⟩ := Option.map_eq_some_iff.1 hinner
    have hmem : a.expr ∈ p.expressions :=
      List.mem_append_left _ (List.mem_append_right _ (List.mem_map_of_mem (List.mem_of_find?_eq_some ha)))
    exact .inr (ih.elim (fun hnode => ⟨_, hmem, hnode⟩) id)

/-- The columns of an expression are fields reached from it. -/
theorem reaches_of_mem_columns {r : ColumnReference} : (budget : Nat) → {asked : Reference} →
    r ∈ asked.columns p budget → p.Reaches asked.node (.field r.ref)
  | budget, .column ref role, h => by
    obtain rfl : r = ⟨ref, role⟩ := by simpa [Reference.columns] using h
    exact .part (Expr.mem_nodes_self _)
  | budget + 1, .aliased name role, h => by
    simp only [Reference.columns] at h
    split at h
    · cases h
    · next e he =>
      obtain ⟨inner, hinner, hr⟩ := List.mem_flatMap.1 h
      exact .through (Expr.mem_aliases.2 (Expr.mem_nodes_self _)) he
        ((reaches_of_mem_columns budget hr).of_reference hinner)
  | 0, .aliased .., h => by cases h
  | budget, .outer _, h => by cases budget <;> cases h
  | budget, .scalar _, h => by cases budget <;> cases h
  | budget, .existence .., h => by cases budget <;> cases h

/-- The columns that a statement refers to are fields of its outputs or of the plan's expressions. -/
theorem mem_references {outputs : List Output} {r : ColumnReference} (h : r ∈ p.references outputs) :
    (∃ o ∈ outputs, o.term = .field r.ref) ∨ ∃ e ∈ p.expressions, r.ref ∈ e.fieldRefs := by
  obtain ⟨item, hitem, hr⟩ := List.mem_flatMap.1 h
  obtain ⟨asked, hasked, hcolumns⟩ := List.mem_flatMap.1 hr
  have hreach : p.Reaches item.1 (.field r.ref) := (reaches_of_mem_columns p.aliasBudget hcolumns).of_reference hasked
  have hfield : ∀ {e : Expr}, .field r.ref ∈ e.nodes → r.ref ∈ e.fieldRefs :=
    fun hnode => List.mem_filterMap.2 ⟨_, hnode, rfl⟩
  rcases hreach.node_mem with hnode | ⟨e, he, hnode⟩
  · rcases List.mem_append.1 hitem with hitem | hkey
    · rcases List.mem_append.1 hitem with houtput | hfilter
      · obtain ⟨o, ho, rfl⟩ := List.mem_map.1 houtput
        refine .inl ⟨o, ho, ?_⟩
        cases hterm : o.term with
        | field ref => simp [hterm, OutputTerm.expr, Expr.nodes] at hnode; rw [hnode]
        | aliasRef name => simp [hterm, OutputTerm.expr, Expr.nodes] at hnode
      · obtain ⟨e, he, rfl⟩ := List.mem_map.1 hfilter
        exact .inr ⟨e, List.mem_append_left _ (List.mem_append_left _ he), hfield hnode⟩
    · obtain ⟨key, hmem, rfl⟩ := List.mem_map.1 hkey
      exact .inr ⟨key.expr, List.mem_append_right _ (List.mem_map_of_mem hmem), hfield hnode⟩
  · exact .inr ⟨e, he, hfield hnode⟩

/-- What compiling expressions one after another does to the tables, reading their columns does. -/
theorem lowerAll_columns {scope : Scope} : {items : List (Expr × Role)} → (∀ item ∈ items, p.Rowwise item.1) →
    ∀ {s s' xs}, p.lowerAll scope items s = .ok (xs, s') →
    (forM (items.flatMap fun item => p.columns item.1 item.2) (ColumnReference.answer scope) : Lowering Unit) s =
      .ok ((), s')
  | [], _, s, s', xs, h => by
    obtain ⟨-, rfl⟩ := Lowering.pure_ok.1 h
    rfl
  | item :: rest, hrow, s, s', xs, h => by
    obtain ⟨x, more, s₁, -, hx, hmore⟩ := lowerAll_cons_ok h
    have hfirst := run_columns (hrow item (by simp)) hx
    have hrest := lowerAll_columns (fun item hitem => hrow item (by simp [hitem])) hmore
    rw [List.flatMap_cons, List.forM_append, Lowering.bind_eq hfirst]
    exact hrest

end References

/-! ## Rows one by one -/

section Rowwise

variable {p : Plan}

theorem Rowwise.containsAggregate {e : Expr} (h : p.Rowwise e) : e.containsAggregate = false := by
  refine List.any_eq_false.2 fun node hnode => ?_
  have hplain := h node (.part hnode)
  cases node <;> simp_all [Expr.isAggregate, Expr.needsRows]

theorem Rowwise.aliasAggregates : (budget : Nat) → {name : String} → p.Rowwise (.aliasRef name) →
    p.aliasAggregates budget name = false
  | 0, _, _ => rfl
  | budget + 1, name, h => by
    simp only [Plan.aliasAggregates]
    split
    · rfl
    · next e he =>
      have hinner := h.of_alias he
      rw [hinner.containsAggregate, Bool.false_or]
      refine List.any_eq_false.2 fun other hother => ?_
      have halias : p.Rowwise (.aliasRef other) := fun node hnode => by
        obtain ⟨asked, hasked⟩ := Expr.aliased_mem_references hother .filter
        exact hinner node (hnode.of_reference (r := .aliased other asked) hasked)
      simp [Rowwise.aliasAggregates budget halias]

/-- What a row can tell does not depend on a group. -/
theorem Rowwise.exprAggregates {e : Expr} (h : p.Rowwise e) : p.exprAggregates e = false := by
  rw [Plan.exprAggregates, h.containsAggregate, Bool.false_or]
  refine List.any_eq_false.2 fun name hname => ?_
  obtain ⟨asked, hasked⟩ := Expr.aliased_mem_references hname .filter
  have halias : p.Rowwise (.aliasRef name) := fun node hnode =>
    h node (hnode.of_reference (r := .aliased name asked) hasked)
  simp [isAggregateAlias, Rowwise.aliasAggregates p.aliasBudget halias]

theorem rowwise_term (hrow : ∀ e ∈ p.expressions, p.Rowwise e) (term : OutputTerm) : p.Rowwise term.expr := by
  intro node hreach
  rcases hreach.node_mem with hnode | ⟨inner, hinner, hnode⟩
  · cases term with
    | field ref =>
      obtain rfl : node = .field ref := by simpa [OutputTerm.expr, Expr.nodes] using hnode
      rfl
    | aliasRef name =>
      obtain rfl : node = .aliasRef name := by simpa [OutputTerm.expr, Expr.nodes] using hnode
      rfl
  · exact hrow inner hinner node (.part hnode)

theorem rowwise_items (hrow : ∀ e ∈ p.expressions, p.Rowwise e) (outputs : List Output) :
    ∀ item ∈ p.items outputs, p.Rowwise item.1 := by
  intro item hitem
  rcases List.mem_append.1 hitem with hitem | hkey
  · rcases List.mem_append.1 hitem with houtput | hfilter
    · obtain ⟨o, -, rfl⟩ := List.mem_map.1 houtput
      exact rowwise_term hrow o.term
    · obtain ⟨e, he, rfl⟩ := List.mem_map.1 hfilter
      exact hrow e (List.mem_append_left _ (List.mem_append_left _ he))
  · obtain ⟨key, hmem, rfl⟩ := List.mem_map.1 hkey
    exact hrow key.expr (List.mem_append_right _ (List.mem_map_of_mem hmem))

theorem not_isGrouped (hrow : ∀ e ∈ p.expressions, p.Rowwise e) : p.isGrouped = false := by
  have hannotations : p.hasAggregates = false := List.any_eq_false.2 fun a _ => by
    simp [isAggregateAlias, Rowwise.aliasAggregates p.aliasBudget (rowwise_term hrow (.aliasRef a.aliasName))]
  have hfilters : p.filters.any p.exprAggregates = false := List.any_eq_false.2 fun e he => by
    simp [(hrow e (List.mem_append_left _ (List.mem_append_left _ he))).exprAggregates]
  have hkeys : (p.ordering.any fun key => p.exprAggregates key.expr) = false := List.any_eq_false.2 fun key hkey => by
    simp [(hrow key.expr (List.mem_append_right _ (List.mem_map_of_mem hkey))).exprAggregates]
  rw [isGrouped, hannotations, hfilters, hkeys]
  rfl

end Rowwise

/-! ## Outputs -/

section Outputs

variable {schema : Schema} {p : Plan}

/-- The columns that a statement selects are paths of the schema. -/
theorem outputs_resolved {purpose : Purpose} {outputs : List Output} {shape : ResultShape}
    (h : p.outputs schema purpose = .ok (outputs, shape)) : ∀ o ∈ outputs, o.IsResolved schema p.root := by
  intro o ho other hterm
  cases outputs_origin h o ho with
  | path href _ =>
    obtain rfl := OutputTerm.field.inj hterm
    exact ⟨_, href⟩
  | computed _ => cases hterm

/-- What the columns of a statement are reached by leads somewhere, if the plan's own columns are paths of the schema. -/
theorem references_lead_of (hroot : schema.entity p.root.name = .ok p.root) {outputs : List Output} {shape : ResultShape}
    (houtputs : p.outputs schema .rows = .ok (outputs, shape))
    (hown : ∀ r ∈ p.references outputs, ∀ e ∈ p.expressions, r.ref ∈ e.fieldRefs →
      ∃ path, FieldRef.resolve schema p.root.name path = .ok r.ref) :
    ∀ r ∈ p.references outputs, schema.Leads p.root r.ref.hops := by
  intro r hr
  rcases mem_references hr with ⟨o, ho, hterm⟩ | ⟨e, he, href⟩
  · obtain ⟨path, hpath⟩ := outputs_resolved houtputs o ho r.ref hterm
    exact FieldRef.resolve_leads hroot hpath
  · obtain ⟨path, hpath⟩ := hown r hr e he href
    exact FieldRef.resolve_leads hroot hpath

theorem references_lead (hroot : schema.entity p.root.name = .ok p.root)
    (hresolved : ∀ e ∈ p.expressions, ∀ ref ∈ e.fieldRefs, ∃ path, FieldRef.resolve schema p.root.name path = .ok ref)
    {outputs : List Output} {shape : ResultShape} (houtputs : p.outputs schema .rows = .ok (outputs, shape)) :
    ∀ r ∈ p.references outputs, schema.Leads p.root r.ref.hops :=
  references_lead_of hroot houtputs fun r _ e he href => hresolved e he r.ref href

end Outputs

/-! ## Rows of the statement -/

section Rows

variable {db : Sql.Database} {schema : Schema} {p : Plan} {outputs : List Output}

theorem flatMap_ite {α β : Type} (P : α → Prop) [DecidablePred P] (f : α → β) (as : List α) :
    (as.flatMap fun a => if P a then [f a] else []) = (as.filter fun a => P a).map f := by
  induction as with
  | nil => rfl
  | cons a rest ih => by_cases h : P a <;> simp [h, ih]

/-- The root table in scope is the statement's scope before any join. -/
theorem enter_root (db : Sql.Database) (schema : Schema) (root : Entity) (row : Tuple) :
    Sql.Frame.empty.enter (tableAlias 0) row =
      (Scope.ofSelect schema root (tableAlias 0) none).frame [] (db.follow schema root (some row)) Sql.Frame.empty := by
  funext name
  cases name with
  | none => simp [Sql.Frame.enter, Scope.frame, Sql.Database.follow]
  | some name =>
    by_cases hname : name = tableAlias 0
    · simp [Sql.Frame.enter, Scope.frame, Scope.ofSelect, Sql.Database.follow, hname]
    · have hne : ¬tableAlias 0 = name := fun heq => hname heq.symm
      simp [Sql.Frame.enter, Scope.frame, Scope.ofSelect, Sql.Frame.empty, hname, hne]

/-- whether a row has a related row on each of the paths -/
def reachesAll (db : Sql.Database) (schema : Schema) (p : Plan) (paths : List (List String)) (row : Tuple) : Bool :=
  paths.all fun path => (db.follow schema p.root (some row) path).isSome

/-- The joined rows of a statement are the root rows that its inner joins find something for. -/
theorem frames_of_joins (href : db.Referential schema) (hroot : p.root ∈ schema.entities) {final : JoinState}
    (hlaid : Laid (.ofSelect schema p.root (tableAlias 0) none) final.nodes) (hnamed : final.Named 0)
    {paths : List (List String)} (hinner : ∀ path, final.IsInner path ↔ path ∈ paths) :
    let scope := Scope.ofSelect schema p.root (tableAlias 0) none
    Sql.joinFrames db final.joins (Sql.sourceFrames db (some (.table scope.rootTable)) Sql.Frame.empty) =
      ((db.rows p.root.table).filter (reachesAll db schema p paths)).map fun row =>
        scope.frame final.nodes (db.follow schema p.root (some row)) Sql.Frame.empty := by
  intro scope
  have hscope : scope.Numbered 0 := ⟨rfl, by intro o ho; cases ho⟩
  have hone : ∀ row ∈ db.rows p.root.table,
      Sql.joinFrames db final.joins [Sql.Frame.empty.enter (tableAlias 0) row] =
        if reachesAll db schema p paths row then
          [scope.frame final.nodes (db.follow schema p.root (some row)) Sql.Frame.empty]
        else [] := by
    intro row hrow
    have hjoins : final.joins = final.nodes.map JoinNode.join := rfl
    have hpresent : (∀ node ∈ final.nodes, node.kind = .inner →
        (db.follow schema p.root (some row) node.path).isSome) ↔ reachesAll db schema p paths row := by
      rw [reachesAll, List.all_eq_true]
      constructor
      · intro h path hpath
        obtain ⟨node, hnode, rfl, hkind⟩ := (hinner path).2 hpath
        exact h node hnode hkind
      · intro h node hnode hkind
        exact h node.path ((hinner node.path).1 ⟨node, hnode, rfl, hkind⟩)
    rw [hjoins, enter_root db schema p.root row]
    exact (joinFrames_laid href hscope hroot hlaid hnamed hrow).trans (if_congr hpresent rfl rfl)
  have hsource : Sql.sourceFrames db (some (.table scope.rootTable)) Sql.Frame.empty =
      (db.rows p.root.table).map (Sql.Frame.empty.enter (tableAlias 0)) := rfl
  rw [hsource, Sql.joinFrames_flatMap, List.flatMap_map, List.flatMap_congr hone, flatMap_ite]
  simp

/-- On a joined row the outputs have their values, and the conditions hold when the filters do. -/
theorem clauses_read (db : Sql.Database) (hrow : ∀ e ∈ p.expressions, p.Rowwise e) {final : JoinState}
    {results conditions keys : List Sql.Expr} (hresults : results.length = outputs.length)
    (hconditions : conditions.length = p.filters.length)
    (hlower : p.lowerAll (.ofSelect schema p.root (tableAlias 0) none) (p.items outputs) { next := 1 } =
      .ok (results ++ conditions ++ keys, final)) (row : Tuple) :
    let context := Sql.Context.ofFrame ((Scope.ofSelect schema p.root (tableAlias 0) none).frame final.nodes
      (db.follow schema p.root (some row)) Sql.Frame.empty)
    results.map (fun x => x.eval db context) = p.present db schema outputs row ∧
      ((∀ x ∈ conditions, db.truth (x.eval db context) = .yes) ↔ p.keeps db schema row = true) := by
  intro context
  have hscope : (Scope.ofSelect schema p.root (tableAlias 0) none).Numbered 0 := ⟨rfl, by intro o ho; cases ho⟩
  have hcompiles : Compiles (.ofSelect schema p.root (tableAlias 0) none) 0 (db.follow schema p.root (some row))
      Sql.Frame.empty { next := 1 } final
        (fun context => (results ++ conditions ++ keys).map fun x => x.eval db context)
      ((p.items outputs).map fun item => p.value db.toOperators (p.rowView db schema row) item.1) :=
    lowerAll_compiles hscope (p.items outputs) (rowwise_items hrow outputs) (.init 0) hlower
  have hread := hcompiles.reads final (.refl final) hcompiles.named []
  simp only [items, List.map_append, List.map_map] at hread
  obtain ⟨hfirst, -⟩ := List.append_inj hread (by simp [hresults, hconditions])
  obtain ⟨hvalues, htests⟩ := List.append_inj hfirst (by simp [hresults])
  refine ⟨hvalues, ?_⟩
  have htestsRead : conditions.map (fun x => x.eval db context) =
      p.filters.map fun e => p.value db.toOperators (p.rowView db schema row) e := htests
  have hall : (∀ v ∈ conditions.map (fun x => x.eval db context), db.truth v = .yes) ↔
      ∀ v ∈ p.filters.map (fun e => p.value db.toOperators (p.rowView db schema row) e), db.truth v = .yes := by
    rw [htestsRead]
  simpa [keeps] using hall

/-- The statement of a plan gives, in some order, the rows meant that have a related row for each inner join. -/
theorem rows_of_joins (href : db.Referential schema) (hroot : schema.entity p.root.name = .ok p.root)
    (hrow : ∀ e ∈ p.expressions, p.Rowwise e)
    (hresolved : ∀ e ∈ p.expressions, ∀ ref ∈ e.fieldRefs, ∃ path, FieldRef.resolve schema p.root.name path = .ok ref)
    (hdistinct : p.distinct = false) (hpaged : p.isPaged = false) {selection : Selection} {shape : ResultShape}
    (hselection : p.rowSelection schema = .ok selection) (houtputs : p.outputs schema .rows = .ok (outputs, shape))
    (hone : ∀ r ∈ p.references outputs, ∀ hop ∈ r.ref.hops, hop.cardinality = .toOne) :
    (selection.query.eval db Sql.Frame.empty).Perm
      ((((db.rows p.root.table).filter (reachesAll db schema p (p.innerPaths schema outputs))).filter
        (p.keeps db schema)).map (p.present db schema outputs)) := by
  obtain ⟨found, final, results, conditions, keys, hfound, hresults, hconditions, hkeys, hlower, -, hquery⟩ :=
    rowSelection_ok hselection
  obtain rfl : found = outputs := (Prod.mk.inj (Except.ok.inj (hfound.symm.trans houtputs))).1
  have hscope : (Scope.ofSelect schema p.root (tableAlias 0) none).Numbered 0 := ⟨rfl, by intro o ho; cases ho⟩
  have hsound : ∀ r ∈ p.references found, r.Sound (.ofSelect schema p.root (tableAlias 0) none) := fun r hr =>
    ⟨references_lead hroot hresolved houtputs r hr, hone r hr⟩
  have hcolumns := lowerAll_columns (rowwise_items hrow found) hlower
  obtain ⟨hlaid, hinner⟩ := columns_laid hscope hsound .nil hcolumns
  have hcompiles : Compiles (.ofSelect schema p.root (tableAlias 0) none) 0 (fun _ => none) Sql.Frame.empty
      { next := 1 }
      final (fun context => (results ++ conditions ++ keys).map fun x => x.eval db context) _ :=
    lowerAll_compiles hscope (p.items found) (rowwise_items hrow found) (.init 0) hlower
  have hmemRoot : p.root ∈ schema.entities := Schema.mem_of_entity hroot
  have hpaths : ∀ path, final.IsInner path ↔ path ∈ p.innerPaths schema found := by
    intro path
    rw [hinner path]
    simp [JoinState.IsInner, innerPaths, ColumnReference.innerPaths, references, Scope.ofSelect]
  have hframes := frames_of_joins href hmemRoot hlaid hcompiles.named hpaths
  have hplain := lowerAll_aggregateless (fun item hitem => (rowwise_items hrow found item hitem).exprAggregates) hlower
  have hfilters : ∀ e ∈ p.filters, p.exprAggregates e = false := fun e he =>
    (hrow e (List.mem_append_left _ (List.mem_append_left _ he))).exprAggregates
  obtain ⟨hgrouped, hhaving, hcondition, hselect⟩ :=
    query_ungrouped (not_isGrouped hrow) hfilters hresults hconditions hplain
  rw [← hquery] at hgrouped hhaving hcondition hselect
  have hpage : selection.query.page = none := by simp [hquery, query, hpaged]
  have hrepeats : selection.query.distinct = false := by simp [hquery, query, hdistinct]
  refine (Sql.Query.eval_plain hgrouped hhaving hrepeats hpage Sql.Frame.empty).trans (List.Perm.of_eq ?_)
  have hjoins : selection.query.joins = final.joins := by simp [hquery, query]
  have hsource : selection.query.source =
      some (.table (Scope.ofSelect schema p.root (tableAlias 0) none).rootTable) := by
    simp [hquery, query]
  rw [hjoins, hsource, hframes, List.filter_map, List.map_map]
  have hread := clauses_read db hrow hresults hconditions hlower
  congr 1
  · funext row
    simp only [Function.comp_apply, ← (hread row).1, ← hselect, List.map_map]
    rfl
  · congr 1
    funext row
    rw [hcondition, Bool.eq_iff_iff, Function.comp_apply, decide_eq_true_iff, Sql.evalCondition_conjunction]
    exact (hread row).2

/-- the primary statement of a compiled plan is its selection, written out -/
theorem compile_primary {selection : Selection} (hselection : p.rowSelection schema = .ok selection) {d : Sql.Dialect}
    {compiled : CompiledQuery} (h : p.compile schema d = .ok compiled) :
    compiled.primary = .ofTokens d (selection.query.tokens d) selection.columns := by
  rw [compile_eq hselection] at h
  obtain ⟨batched, -, rfl⟩ := map_ok h
  rfl

/-- The primary statement of a plan never repeats a row nor gives one that its filters do not keep; it gives all the
rows meant exactly when each of them has a related row on every path that is joined by an inner join. -/
theorem rows_of_joins_iff (db : Sql.Database) (schema : Schema) (p : Plan) (href : db.Referential schema)
    (hroot : schema.entity p.root.name = .ok p.root) (hrow : ∀ e ∈ p.expressions, p.Rowwise e)
    (hresolved : ∀ e ∈ p.expressions, ∀ ref ∈ e.fieldRefs, ∃ path, FieldRef.resolve schema p.root.name path = .ok ref)
    (hdistinct : p.distinct = false) (hpaged : p.isPaged = false) (selection : Selection)
    (hselection : p.rowSelection schema = .ok selection) (outputs : List Output) (shape : ResultShape)
    (houtputs : p.outputs schema .rows = .ok (outputs, shape))
    (hone : ∀ r ∈ p.references outputs, ∀ hop ∈ r.ref.hops, hop.cardinality = .toOne) :
    (∀ d compiled, p.compile schema d = .ok compiled →
      compiled.primary = .ofTokens d (selection.query.tokens d) selection.columns) ∧
    (selection.query.eval db Sql.Frame.empty).Subperm (p.rowsMeant db schema outputs) ∧
    ((selection.query.eval db Sql.Frame.empty).Perm (p.rowsMeant db schema outputs) ↔
      ∀ row ∈ db.rows p.root.table, p.keeps db schema row →
        reachesAll db schema p (p.innerPaths schema outputs) row) := by
  have hperm := rows_of_joins href hroot hrow hresolved hdistinct hpaged hselection houtputs hone
  rw [List.filter_comm] at hperm
  have hsublist : ((((db.rows p.root.table).filter (p.keeps db schema)).filter
      (reachesAll db schema p (p.innerPaths schema outputs))).map (p.present db schema outputs)).Sublist
      (p.rowsMeant db schema outputs) := List.filter_sublist.map _
  refine ⟨fun d compiled h => compile_primary hselection h, hperm.subperm.trans hsublist.subperm,
    fun h => ?_, fun h => ?_⟩
  · have hsame := hsublist.eq_of_length ((hperm.symm.trans h).length_eq)
    have hlength := congrArg List.length hsame
    rw [rowsMeant, List.length_map, List.length_map] at hlength
    have hfiltered := List.filter_sublist.eq_of_length hlength
    intro row hmem hkeeps
    exact List.filter_eq_self.1 hfiltered row (List.mem_filter.2 ⟨hmem, hkeeps⟩)
  · have hfiltered : ((db.rows p.root.table).filter (p.keeps db schema)).filter
        (reachesAll db schema p (p.innerPaths schema outputs)) = (db.rows p.root.table).filter (p.keeps db schema) :=
      List.filter_eq_self.2 fun row hmem => h row (List.mem_filter.1 hmem).1 (List.mem_filter.1 hmem).2
    rw [hfiltered] at hperm
    exact hperm

end Rows

/-! ## A filter that an inner join cuts short -/

/-- a blog and two entries, one of which has no blog -/
def sampleDatabase : Sql.Database where
  toOperators := .exact
  rows table :=
    if table = "blogs" then [fun column => if column = "id" then .int 1 else .int 4]
    else if table = "entries" then
      [fun _ => .int 1, fun column => if column = "id" then .int 2 else .null]
    else []

theorem sampleDatabase_referential : sampleDatabase.Referential sampleSchema := by
  intro e he name relation target hrelation _ htarget row hrow hlocal
  rcases List.mem_pair.1 he with rfl | rfl
  · simp [Entity.relation, sampleBlog] at hrelation
  · obtain rfl : relation = ⟨"blog", "blog", .toOne, "blog_id", "id"⟩ := by
      by_cases hname : "blog" = name
      · simpa [Entity.relation, sampleEntry, hname, eq_comm] using hrelation
      · simp [Entity.relation, sampleEntry, hname] at hrelation
    obtain rfl : target = sampleBlog := by
      have hblog : sampleSchema.entity? "blog" = some sampleBlog := rfl
      exact (Option.some.inj (hblog.symm.trans htarget)).symm
    have hrows : sampleDatabase.rows sampleEntry.table =
        [fun _ => .int 1, fun column => if column = "id" then .int 2 else .null] := rfl
    rw [hrows] at hrow
    rcases List.mem_pair.1 hrow with rfl | rfl
    · rfl
    · exact absurd rfl hlocal

/-- entries with one filter -/
def sampleFiltered (e : Expr) : Plan := { ofEntity sampleEntry with filters := [e] }

/-- rated above three -/
def sampleRated : Expr := .binary .gt (.field sampleRating) (.literal (.int 3))

/-- The key of the entry is its rating or two. -/
def sampleMember : Expr :=
  .inList (.field ⟨"entry", "id", [], ⟨"id", .int, false⟩⟩) [.field sampleRating, .literal (.int 2)] false

/-- the outputs of entries -/
def sampleOutputs : List Output :=
  [⟨⟨"id", .root, some .int⟩, .field ⟨"entry", "id", [], ⟨"id", .int, false⟩⟩, .output, none⟩,
    ⟨⟨"blog_id", .root, some .int⟩, .field ⟨"entry", "blog_id", [], ⟨"blog_id", .int, true⟩⟩, .output, none⟩]

theorem sampleFiltered_outputs (e : Expr) :
    (sampleFiltered e).outputs sampleSchema .rows = .ok (sampleOutputs, .record "entry") := by
  rfl

theorem sampleFiltered_rowwise {e : Expr} (h : ∀ node ∈ e.nodes, node.needsRows = false) :
    ∀ inner ∈ (sampleFiltered e).expressions, (sampleFiltered e).Rowwise inner := by
  intro inner hinner node hreach
  obtain rfl : inner = e := by simpa [sampleFiltered, ofEntity, expressions] using hinner
  cases hreach with
  | part hnode => exact h node hnode
  | through _ hannotation _ => cases hannotation

theorem sampleFiltered_resolved {e : Expr}
    (h : ∀ ref ∈ e.fieldRefs, ref = sampleRating ∨ ref = ⟨"entry", "id", [], ⟨"id", .int, false⟩⟩) :
    ∀ inner ∈ (sampleFiltered e).expressions, ∀ ref ∈ inner.fieldRefs,
      ∃ path, FieldRef.resolve sampleSchema (sampleFiltered e).root.name path = .ok ref := by
  intro inner hinner ref href
  obtain rfl : inner = e := by simpa [sampleFiltered, ofEntity, expressions] using hinner
  rcases h ref href with rfl | rfl
  · exact ⟨"blog.rating", rfl⟩
  · exact ⟨"id", rfl⟩

/-- The filter needs a rating to hold, so the inner join takes no entry away that it keeps. -/
theorem rows_of_joins_rated :
    ∃ selection, (sampleFiltered sampleRated).rowSelection sampleSchema = .ok selection ∧
      (selection.query.eval sampleDatabase Sql.Frame.empty).Perm [[.int 1, .int 1]] := by
  refine ⟨_, rfl, ?_⟩
  have h := rows_of_joins_iff sampleDatabase sampleSchema (sampleFiltered sampleRated) sampleDatabase_referential rfl
    (sampleFiltered_rowwise (by simp [sampleRated, Expr.nodes, Expr.needsRows]))
    (sampleFiltered_resolved (by simp [sampleRated, Expr.fieldRefs, Expr.nodes])) rfl rfl _ rfl sampleOutputs _
    (sampleFiltered_outputs sampleRated) (by decide)
  refine h.2.2.2 fun row hrow => ?_
  have hrows : sampleDatabase.rows sampleEntry.table =
      [fun _ => .int 1, fun column => if column = "id" then .int 2 else .null] := rfl
  rcases List.mem_pair.1 (hrows ▸ hrow) with rfl | rfl
  · decide
  · decide

/-- The second entry has no blog and its key is two, so the filter keeps it; but the statement joins the blogs by an
inner join, and gives no row. -/
theorem rows_of_joins_member :
    sampleDatabase.Referential sampleSchema ∧ ∃ selection,
      (sampleFiltered sampleMember).rowSelection sampleSchema = .ok selection ∧
      (sampleFiltered sampleMember).rowsMeant sampleDatabase sampleSchema sampleOutputs = [[.int 2, .null]] ∧
      selection.query.eval sampleDatabase Sql.Frame.empty = [] := by
  refine ⟨sampleDatabase_referential, _, rfl, rfl, ?_⟩
  have hperm := rows_of_joins sampleDatabase_referential rfl
    (sampleFiltered_rowwise (by simp [sampleMember, Expr.nodes, Expr.nodesOfList, Expr.needsRows]))
    (sampleFiltered_resolved (by simp [sampleMember, Expr.fieldRefs, Expr.nodes, Expr.nodesOfList])) rfl rfl
    (p := sampleFiltered sampleMember) rfl (sampleFiltered_outputs sampleMember) (by decide)
  exact List.Perm.eq_nil hperm

end Plan

end RelQuery
