/-
Where the queries of a statement come from.

A plan is compiled to a query of its rows or of its one value (`Plan.Compilation`), and where only the number or the
existence of rows matters to that query put to a single column, by itself or around it (`Plan.Yields`). The queries
nested in it are those of the plans nested in the plan.
- `Throughout`: what holds of each query of a statement, at any depth, and the plan that it comes from.
- `select_yields`: each query of what a plan is compiled to is yielded by its plan.
- `lower_statement`: the statements nested in an expression that is compiled by itself.
- `everyStatement`: what holds of a query whenever a plan yields it, holds throughout all statements of a plan.
-/
import RelQuery.Proofs.Statement.ChangedRows
import RelQuery.Proofs.Statement.ExactJoins

namespace RelQuery

open Sql (Leaf Query)

namespace Plan

/-- A plan holds itself and the plans nested in those that it holds. -/
inductive Holds : Plan → Plan → Prop
  | self (p : Plan) : Holds p p
  | nested {p inner part : Plan} : inner ∈ p.subplans → Holds inner part → Holds p part

/-- Something holds of a query and its plan, and so it does of the queries in it: those of derived tables come from the
same plan, the nested ones from plans that are nested in it. -/
inductive Throughout (A : Plan → Query → Prop) : Plan → Query → Prop
  | mk {p : Plan} {q : Query} (own : A p q) (sub : ∀ inner, .statement inner ∈ q.leaves → Plan)
    (nested : ∀ inner h, sub inner h ∈ p.subplans) (statements : ∀ inner h, Throughout A (sub inner h) inner)
    (derived : ∀ inner name, q.source = some (.derived inner name) → Throughout A p inner) : Throughout A p q

namespace Throughout

variable {A B : Plan → Query → Prop} {p : Plan} {q r : Query}

theorem own (h : Throughout A p q) : A p q := by
  cases h with
  | mk own => exact own

theorem mono (himp : ∀ part r, A part r → B part r) (h : Throughout A p q) : Throughout B p q := by
  induction h with
  | mk own sub nested _ _ hstatements hderived => exact .mk (himp _ _ own) sub nested hstatements hderived

/-- It holds of every query at any depth. -/
theorem within (h : Throughout A p q) (hr : q.Within r) : ∃ part, p.Holds part ∧ A part r := by
  induction hr generalizing p with
  | refl => exact ⟨p, .self p, h.own⟩
  | nested hinner _ ih =>
    cases h with
    | mk _ sub nested statements _ =>
      obtain ⟨part, hholds, hpart⟩ := ih (statements _ hinner)
      exact ⟨part, .nested (nested _ hinner) hholds, hpart⟩
  | derived hsource _ ih =>
    cases h with
    | mk _ _ _ _ derived => exact ih (derived _ _ hsource)

theorem of_statements (hown : A p q)
    (hstatements : ∀ inner, .statement inner ∈ q.leaves → ∃ plan ∈ p.subplans, Throughout A plan inner)
    (hderived : ∀ inner name, q.source = some (.derived inner name) → Throughout A p inner) : Throughout A p q := by
  choose sub hnested hthroughout using hstatements
  exact .mk hown sub hnested hthroughout hderived

end Throughout

/-- what a plan is compiled to for its rows or for its one value -/
structure Compilation (schema : Schema) (p : Plan) where
  purpose : Purpose
  outer : Option Outer
  /-- the number of the root table's name -/
  next : Nat
  outputs : List Output
  shape : ResultShape
  final : JoinState
  results : List Sql.Expr
  conditions : List Sql.Expr
  keys : List Sql.Expr
  unreduced : purpose = .rows ∨ purpose = .scalar
  outputs_eq : p.outputs schema purpose = .ok (outputs, shape)
  results_length : results.length = outputs.length
  conditions_length : conditions.length = p.filters.length
  keys_length : keys.length = p.ordering.length
  lower : p.lowerAll (.ofSelect schema p.root (tableAlias next) outer) (p.items outputs) { next := next + 1 } =
    .ok (results ++ conditions ++ keys, final)

namespace Compilation

variable {schema : Schema} {p : Plan} (c : p.Compilation schema)

/-- the query of the rows or of the value -/
def query : Query :=
  p.query (.ofSelect schema p.root (tableAlias c.next) c.outer) c.outputs c.final.joins c.results c.conditions c.keys

/-- the query where the order of the rows matters to their page only -/
def counted : Query := if p.isPaged then c.query else c.query.unordered

/-- the counted rows put to one column -/
def reduced (column : Sql.Expr) : Query := { c.counted with select := [⟨column, none⟩] }

theorem counted_part : c.counted.Part c.query := by
  unfold counted
  split
  · exact .of_expressions rfl rfl fun e he => .inr he
  · refine .of_expressions rfl rfl fun e he => .inr ?_
    rw [Query.expressions, Query.unordered, List.map_nil, List.append_nil] at he
    exact List.mem_append_left _ he

theorem reduced_part {column : Sql.Expr} (hcolumn : column.leaves = []) : (c.reduced column).Part c.query := by
  have hcounted : (c.reduced column).Part c.counted := by
    refine .of_expressions rfl rfl fun e he => ?_
    simp only [reduced, Query.expressions, List.map_cons, List.map_nil, List.mem_append, List.mem_singleton,
      or_assoc] at he
    rcases he with rfl | he
    · exact .inl hcolumn
    · exact .inr (by simp only [Query.expressions, List.mem_append, or_assoc]; exact .inr he)
  exact hcounted.trans c.counted_part

theorem source_eq : c.query.source = some (.table ⟨p.root.table, some (tableAlias c.next)⟩) := rfl

end Compilation

variable {p : Plan} {schema : Schema}

/-- the query is what the plan is compiled to somewhere -/
def States (schema : Schema) (p : Plan) (q : Query) : Prop :=
  ∃ purpose outer next selection n, p.select schema purpose outer next = .ok (selection, n) ∧ q = selection.query

/-- what the plan is compiled to where it is nested in a statement with these tables -/
def StatesIn (scope : Scope) (p : Plan) (q : Query) : Prop :=
  p.outerRefs.length ≤ 1 ∧ ∃ purpose next selection n,
    p.select scope.schema purpose (some scope.asOuter) next = .ok (selection, n) ∧ q = selection.query

/-- The forms that a query of a plan takes. -/
inductive Yields (schema : Schema) (p : Plan) : Query → Prop
  /-- its rows or its value -/
  | own (c : p.Compilation schema) : Yields schema p c.query
  /-- its rows inside a derived table -/
  | derived (c : p.Compilation schema) : c.purpose = .rows → p.isWrapped = true → Yields schema p c.counted
  /-- one column in the place of its rows -/
  | reduced (c : p.Compilation schema) {purpose : Purpose} {column : Sql.Expr} : purpose.reduced = some column →
    p.isWrapped = false → Yields schema p (c.reduced column)
  /-- one column around its rows -/
  | around (c : p.Compilation schema) {purpose : Purpose} {column : Sql.Expr} (name : String) : c.purpose = .rows →
    purpose.reduced = some column → p.isWrapped = true → Yields schema p (.around column c.counted name)
  /-- any of these with another limit -/
  | limited {q : Query} (n : UInt64) : Yields schema p q → Yields schema p (limitedTo n q)

/-- What a plan is compiled to: the query of its rows or its value, or that query reduced. -/
inductive Compilation.Gives (c : p.Compilation schema) : Query → Prop
  | own : Gives c c.query
  | reduced {purpose : Purpose} {column : Sql.Expr} : purpose.reduced = some column → p.isWrapped = false →
    Gives c (c.reduced column)
  | around {purpose : Purpose} {column : Sql.Expr} (name : String) : c.purpose = .rows →
    purpose.reduced = some column → p.isWrapped = true → Gives c (.around column c.counted name)

theorem exists_compilation {purpose : Purpose} (hpurpose : purpose = .rows ∨ purpose = .scalar) {outer : Option Outer}
    {next n : Nat} {selection : Selection} (h : p.select schema purpose outer next = .ok (selection, n)) :
    ∃ c : p.Compilation schema, c.purpose = purpose ∧ c.outer = outer ∧ c.next = next ∧ c.query = selection.query := by
  obtain ⟨outputs, final, houtputs, hclauses, -, -⟩ := select_ok hpurpose h
  obtain ⟨results, conditions, keys, hresults, hconditions, hkeys, hlower, hquery⟩ := lowerClauses_ok hclauses
  exact ⟨⟨purpose, outer, next, outputs, _, final, results, conditions, keys, hpurpose, houtputs, hresults, hconditions,
    hkeys, hlower⟩, rfl, rfl, rfl, hquery.symm⟩

theorem select_gives {purpose : Purpose} {outer : Option Outer} {next n : Nat} {selection : Selection}
    (h : p.select schema purpose outer next = .ok (selection, n)) :
    ∃ c : p.Compilation schema, c.outer = outer ∧ c.next = next ∧ c.Gives selection.query := by
  cases hreduced : purpose.reduced with
  | none =>
    have hpurpose : purpose = .rows ∨ purpose = .scalar := by cases purpose <;> simp_all [Purpose.reduced]
    obtain ⟨c, -, houter, hnext, hquery⟩ := exists_compilation hpurpose h
    exact ⟨c, houter, hnext, hquery ▸ .own⟩
  | some column =>
    rw [select_reduced schema hreduced] at h
    obtain ⟨⟨rows, m⟩, hrows, heq⟩ := map_ok h
    obtain ⟨rfl, -⟩ := Prod.mk.inj heq
    obtain ⟨c, hpurpose, houter, hnext, hquery⟩ := exists_compilation (.inl rfl) hrows
    have hcounted : (if p.isPaged then rows.query else { rows.query with orderBy := [] }) = c.counted := by
      rw [← hquery]
      rfl
    refine ⟨c, houter, hnext, ?_⟩
    unfold reduceTo
    simp only [hcounted]
    cases hwrapped : p.isWrapped with
    | false => exact .reduced hreduced hwrapped
    | true => exact .around (tableAlias m) hpurpose hreduced hwrapped

theorem States.gives {q : Query} (h : p.States schema q) : ∃ c : p.Compilation schema, c.Gives q := by
  obtain ⟨purpose, outer, next, selection, n, hselect, rfl⟩ := h
  obtain ⟨c, -, -, hgives⟩ := select_gives hselect
  exact ⟨c, hgives⟩

theorem Compilation.Gives.yields {c : p.Compilation schema} {q : Query} (h : c.Gives q) : p.Yields schema q := by
  cases h with
  | own => exact .own c
  | reduced hreduced hwrapped => exact .reduced c hreduced hwrapped
  | around name hpurpose hreduced hwrapped => exact .around c name hpurpose hreduced hwrapped

theorem StatesIn.states {scope : Scope} {q : Query} (h : p.StatesIn scope q) : p.States scope.schema q := by
  obtain ⟨-, purpose, next, selection, n, hselect, rfl⟩ := h
  exact ⟨purpose, some scope.asOuter, next, selection, n, hselect, rfl⟩

/-! ## Statements nested in expressions -/

section Expressions

variable {scope : Scope}

/-- A resolved reference brings in the statement of its subplan only. -/
theorem resolve_statement {expand : Expansion} {r : Reference} (hplain : ∀ name role, r ≠ .aliased name role)
    {s s' : JoinState} {x : Sql.Expr} (h : r.resolve scope expand s = .ok (x, s')) {q : Query}
    (hq : .statement q ∈ x.leaves) : ∃ plan ∈ r.node.subplans, plan.StatesIn scope q := by
  cases r with
  | column ref role =>
    obtain ⟨-, ⟨-, rfl, -⟩ | ⟨-, name, -, rfl⟩⟩ := Scope.column_cases h <;> cases List.mem_singleton.1 hq
  | aliased name role => exact absurd rfl (hplain name role)
  | outer name =>
    obtain ⟨-, o, f, -, -, rfl⟩ := Scope.outerColumn_ok h
    cases List.mem_singleton.1 hq
  | scalar plan | existence plan negated =>
    obtain ⟨inner, hnested, rfl⟩ := Lowering.bind_pure_ok h
    obtain ⟨hone, selection, n, hselect, rfl, -⟩ := nested_ok hnested
    cases List.mem_singleton.1 hq
    exact ⟨plan, by simp [Reference.node, Expr.subplans, Expr.nodes], hone, _, _, selection, n, hselect, rfl⟩

theorem resolves_statement {expand : Expansion} {rs : List Reference} {s s' : JoinState}
    {leaves : List Leaf} (h : Resolves scope expand rs s s' leaves)
    (hplain : ∀ r ∈ rs, ∀ name role, r ≠ .aliased name role) {q : Query} (hq : .statement q ∈ leaves) :
    ∃ r ∈ rs, ∃ plan ∈ r.node.subplans, plan.StatesIn scope q := by
  induction h with
  | nil => cases hq
  | @cons r rest s s₁ s' x leaves hr _ ih =>
    rcases List.mem_append.1 hq with hq | hq
    · exact ⟨r, by simp, resolve_statement (hplain r (by simp)) hr hq⟩
    · obtain ⟨other, hother, hplan⟩ := ih (fun r hr => hplain r (by simp [hr])) hq
      exact ⟨other, by simp [hother], hplan⟩

/-- A statement nested in a compiled expression is that of a plan nested in the expression, or in the plan. -/
theorem lower_statement {e : Expr} {role : Role} {s s' : JoinState} {x : Sql.Expr}
    (h : e.lower scope (p.fragments.expansion scope) role s = .ok (x, s')) {q : Query} (hq : .statement q ∈ x.leaves) :
    ∃ plan, (plan ∈ e.subplans ∨ plan ∈ p.subplans) ∧ plan.StatesIn scope q := by
  rw [p.expansion_eq] at h
  have hresolves := (e.lower_resolves h).flatten (fun _ name => throw (.unknownPath p.root.name name))
  obtain ⟨r, hr, plan, hplan, hstates⟩ := resolves_statement hresolves
    (fun r hr => by
      obtain ⟨asked, -, hflat⟩ := List.mem_flatMap.1 hr
      exact (Reference.of_mem_flatten _ hflat).2) hq
  refine ⟨plan, ?_, hstates⟩
  obtain ⟨asked, hasked, hflat⟩ := List.mem_flatMap.1 hr
  have hmem : ∀ inner : Expr, r.node ∈ inner.nodes → plan ∈ inner.subplans := fun inner hnode => by
    obtain ⟨node, hown, hsome⟩ := List.mem_filterMap.1 hplan
    have hsame : node = r.node := by cases r <;> simpa [Reference.node, Expr.nodes] using hown
    exact List.mem_filterMap.2 ⟨r.node, hnode, hsame ▸ hsome⟩
  rcases ((Reference.of_mem_flatten _ hflat).1.of_reference hasked).node_mem with hnode | ⟨inner, hinner, hnode⟩
  · exact .inl (hmem e hnode)
  · exact .inr (List.mem_flatMap.2 ⟨inner, hinner, hmem inner hnode⟩)

end Expressions

theorem subplans_subset_of_filter {e : Expr} (he : e ∈ p.filters) : e.subplans ⊆ p.subplans := fun _ hplan =>
  List.mem_flatMap.2 ⟨e, List.mem_append_left _ (List.mem_append_left _ he), hplan⟩

/-- A statement nested in the query of a plan is that of a plan nested in the plan. -/
theorem Compilation.statement (c : p.Compilation schema) {q : Query} (hq : .statement q ∈ c.query.leaves) :
    ∃ plan ∈ p.subplans, plan.States schema q := by
  rcases mem_query_leaves hq with ⟨join, hjoin, hleaf⟩ | hleaf
  · -- the condition of a join has columns only
    obtain ⟨node, -, rfl⟩ := List.mem_map.1 hjoin
    rcases List.mem_append.1 hleaf with hleaf | hleaf <;> cases List.mem_singleton.1 hleaf
  · obtain ⟨x, hx, hleaf⟩ := List.mem_flatMap.1 hleaf
    obtain ⟨item, hitem, s, s', hlower⟩ := Lowering.mem_of_mapM_ok c.lower hx
    obtain ⟨plan, hplan | hplan, hstates⟩ := lower_statement hlower hleaf
    · refine ⟨plan, ?_, hstates.states⟩
      simp only [items, List.mem_append, List.mem_map] at hitem
      rcases hitem with (⟨o, -, rfl⟩ | ⟨e, he, rfl⟩) | ⟨key, hkey, rfl⟩
      · cases hterm : o.term <;> simp [hterm, OutputTerm.expr, Expr.subplans, Expr.nodes] at hplan
      · exact subplans_subset_of_filter he hplan
      · exact List.mem_flatMap.2 ⟨key.expr, List.mem_append_right _ (List.mem_map_of_mem hkey), hplan⟩
    · exact ⟨plan, hplan, hstates.states⟩

/-- Whatever expressions inherit from their parts, those of a plan's query have. -/
theorem Compilation.inherits {P : Sql.Expr → Prop} {Q : Query → Prop} (hparts : Sql.Hereditary P Q)
    (c : p.Compilation schema) : ∀ e ∈ c.query.expressions, P e := by
  refine query_expressions hparts.toExprHereditary (lowerAll_inherits hparts.toExprHereditary
    (fun inner _ => select_inherits hparts inner) (fun _ _ inner _ => select_inherits hparts inner) c.lower)
    fun join hjoin => ?_
  obtain ⟨node, -, rfl⟩ := List.mem_map.1 hjoin
  exact hparts.binary .eq (hparts.column _ _) (hparts.column _ _)

/-! ## All queries of a statement -/

/-- A query from the tables of a plan that reads what the plan's query reads. -/
theorem throughout_of_part {c : p.Compilation schema} (hsub : ∀ inner ∈ p.subplans, ∀ q, inner.States schema q →
    Throughout (Yields schema) inner q) {q : Query} (hpart : q.Part c.query) (hq : p.Yields schema q) :
    Throughout (Yields schema) p q := by
  refine .of_statements hq (fun inner hinner => ?_) fun inner name hsource => ?_
  · obtain ⟨plan, hplan, hstates⟩ := c.statement (hpart.leaves hinner)
    exact ⟨plan, hplan, hsub plan hplan _ hstates⟩
  · rw [hpart.source, c.source_eq] at hsource
    cases hsource

/-- Whatever a plan is compiled to, each query of it is yielded by its plan. -/
theorem States.throughout {q : Query} (h : p.States schema q) : Throughout (Yields schema) p q := by
  induction p using induction_subplans generalizing q with
  | step p hsub =>
    obtain ⟨c, hgives⟩ := h.gives
    have hyields := hgives.yields
    have hparts : ∀ {c : p.Compilation schema} {r : Query}, r.Part c.query → p.Yields schema r →
        Throughout (Yields schema) p r := throughout_of_part fun inner hinner _ => hsub inner hinner
    cases hgives with
    | own => exact hparts (.of_expressions rfl rfl fun e he => .inr he) hyields
    | reduced hreduced _ => exact hparts (c.reduced_part (leaves_of_reduced hreduced)) hyields
    | around name hpurpose hreduced hwrapped =>
      refine .of_statements hyields (fun inner hinner => ?_) fun inner tableName hsource => ?_
      · simp [Query.leaves, Query.expressions, Query.around, Query.selecting, leaves_of_reduced hreduced] at hinner
      · obtain ⟨rfl, -⟩ := Sql.Source.derived.inj (Option.some.inj hsource)
        exact hparts c.counted_part (.derived c hpurpose hwrapped)

theorem select_yields {purpose : Purpose} {outer : Option Outer} {next n : Nat} {selection : Selection}
    (h : p.select schema purpose outer next = .ok (selection, n)) : Throughout (Yields schema) p selection.query :=
  States.throughout ⟨purpose, outer, next, selection, n, h, rfl⟩

theorem rowSelection_yields {selection : Selection} (h : p.rowSelection schema = .ok selection) :
    Throughout (Yields schema) p selection.query := by
  obtain ⟨n, hselect⟩ := select_of_rowSelection h
  exact select_yields hselect

theorem countQuery_yields {q : Query} (h : p.countQuery schema = .ok q) : Throughout (Yields schema) p q := by
  obtain ⟨⟨selection, n⟩, hselect, rfl⟩ := map_ok h
  exact select_yields hselect

/-- Another limit changes no query but the outermost. -/
theorem Throughout.limited {q : Query} (h : Throughout (Yields schema) p q) (n : UInt64) :
    Throughout (Yields schema) p (limitedTo n q) := by
  cases h with
  | mk own sub nested statements derived => exact .mk (.limited n own) sub nested statements derived

theorem existsQuery_yields {q : Query} (h : p.existsQuery schema = .ok q) : Throughout (Yields schema) p q := by
  obtain ⟨⟨selection, n⟩, hselect, rfl⟩ := map_ok h
  exact (select_yields hselect).limited 1

/-! ## All statements of a plan -/

/-- Something holds throughout each statement nested in an expression, with one of these plans. -/
def NestsIn (A : Plan → Query → Prop) (plans : List Plan) (x : Sql.Expr) : Prop :=
  ∀ q, .statement q ∈ x.leaves → ∃ plan ∈ plans, Throughout A plan q

theorem NestsIn.mono {A B : Plan → Query → Prop} {plans more : List Plan} (himp : ∀ part r, A part r → B part r)
    (hplans : plans ⊆ more) {x : Sql.Expr} (h : NestsIn A plans x) : NestsIn B more x := fun q hq =>
  (h q hq).imp fun _ hplan => ⟨hplans hplan.1, hplan.2.mono himp⟩

theorem lowerInChange_nests {e : Expr} {s s' : JoinState} {x : Sql.Expr}
    (h : p.lowerInChange schema e.lower s = .ok (x, s')) : NestsIn (Yields schema) (e.subplans ++ p.subplans) x := by
  intro q hq
  obtain ⟨plan, hplan, hstates⟩ := lower_statement h hq
  exact ⟨plan, List.mem_append.2 hplan, hstates.states.throughout⟩

/-- The filters of a change that are applied directly. -/
theorem filters_nest {s s' : JoinState} {tests : List Sql.Expr}
    (h : p.filters.mapM (fun e => p.lowerInChange schema e.lower) s = .ok (tests, s')) :
    ∀ x ∈ tests, NestsIn (Yields schema) p.subplans x := by
  intro x hx
  obtain ⟨e, he, t, t', hlower⟩ := Lowering.mem_of_mapM_ok h hx
  have hsubplans := List.append_subset.2 ⟨subplans_subset_of_filter he, List.Subset.refl p.subplans⟩
  exact (lowerInChange_nests hlower).mono (fun _ _ hyields => hyields) hsubplans

/-- The condition of a change is made of the filters, or asks for keys. -/
theorem lowerCondition_cases {keys : Option Query} {n : Nat} (hkeys : p.keyQuery schema = .ok (keys, n))
    {s s' : JoinState} {condition : Option Sql.Expr} (h : p.lowerCondition schema keys s = .ok (condition, s')) :
    (p.needsKeys = false ∧ ∃ tests t, p.filters.mapM (fun e => p.lowerInChange schema e.lower) s = .ok (tests, t) ∧
        condition = Sql.Expr.conjunction tests) ∨
      (p.needsKeys = true ∧ ∃ selection, p.keyed.rowSelection schema = .ok selection ∧
        condition = some (.inQuery (.column none p.root.primaryKey) selection.query false)) := by
  obtain ⟨hneeds, rfl⟩ | ⟨hneeds, selection, hselection, rfl⟩ := keyQuery_ok hkeys
  · obtain ⟨tests, htests, rfl⟩ := Lowering.bind_pure_ok h
    rw [show p.fragments.filters = p.filters.map fun e => (e, e.lower) from filterFragments_eq p.filters,
      List.mapM_map] at htests
    exact .inl ⟨hneeds, tests, s', htests, rfl⟩
  · obtain ⟨rfl, -⟩ := Lowering.pure_ok.1 h
    exact .inr ⟨hneeds, selection, hselection, rfl⟩

theorem lowerCondition_nests {keys : Option Query} {n : Nat} (hkeys : p.keyQuery schema = .ok (keys, n))
    {s s' : JoinState} {condition : Option Sql.Expr} (h : p.lowerCondition schema keys s = .ok (condition, s')) :
    ∀ x ∈ condition, NestsIn (Yields schema) (p.keyed :: p.subplans) x := by
  obtain ⟨-, tests, t, htests, rfl⟩ | ⟨-, selection, hselection, rfl⟩ := lowerCondition_cases hkeys h
  · intro x hx q hq
    obtain ⟨test, htest, hleaf⟩ := mem_conjunction_leaves.1 ⟨x, hx, hq⟩
    obtain ⟨plan, hplan, hthroughout⟩ := filters_nest htests test htest q hleaf
    exact ⟨plan, List.mem_cons_of_mem _ hplan, hthroughout⟩
  · intro x hx q hq
    obtain rfl := Option.some.inj hx
    obtain rfl : q = selection.query := by simpa [Sql.Expr.leaves] using hq
    exact ⟨p.keyed, List.mem_cons_self, rowSelection_yields hselection⟩

/-- An UPDATE takes its values and its condition one after another. -/
theorem update_ok {assignments : List (String × Expr)} {tree : Sql.Update} (h : p.update schema assignments = .ok tree) :
    ∃ keys next s s', p.keyQuery schema = .ok (keys, next) ∧
      p.lowerCondition schema keys s = .ok (tree.condition, s') ∧
      ∀ a ∈ tree.assignments, ∃ asked ∈ assignments, ∃ t t', p.exprAggregates asked.2 = false ∧
        p.lowerInChange schema asked.2.lower t = .ok (a.2, t') := by
  obtain ⟨⟨keys, next⟩, hkeys, hmore⟩ := ok_of_bind h
  obtain ⟨⟨tree, s'⟩, hrun, rfl⟩ := map_ok hmore
  obtain ⟨assigned, condition, s₁, hassigned, hcondition, rfl⟩ := Lowering.bind₂_pure_ok hrun
  refine ⟨keys, next, s₁, s', hkeys, hcondition, fun a ha => ?_⟩
  obtain ⟨asked, hasked, t, t', hone⟩ := Lowering.mem_of_mapM_ok hassigned ha
  obtain ⟨f, x, -, hplain, hx, rfl⟩ := lowerAssignment_ok hone
  exact ⟨asked, hasked, t, t', hplain, hx⟩

theorem delete_ok {tree : Sql.Delete} (h : p.delete schema = .ok tree) :
    ∃ keys next s s', p.keyQuery schema = .ok (keys, next) ∧
      p.lowerCondition schema keys s = .ok (tree.condition, s') := by
  obtain ⟨⟨keys, next⟩, hkeys, hmore⟩ := ok_of_bind h
  obtain ⟨condition, hcondition, hpure⟩ := ok_of_bind hmore
  obtain rfl := Except.ok.inj hpure
  obtain ⟨⟨condition, s'⟩, hrun, rfl⟩ := map_ok hcondition
  exact ⟨keys, next, _, s', hkeys, hrun⟩

/-- Something holds throughout every statement that a plan is compiled to, for its rows, their number or their existence
and for changes. -/
structure EveryStatement (schema : Schema) (d : Sql.Dialect) (p : Plan) (assignments : List (String × Expr))
    (A : Plan → Query → Prop) : Prop where
  rows : ∀ compiled, p.compile schema d = .ok compiled → ∃ selection, p.rowSelection schema = .ok selection ∧
    compiled.primary = .ofTokens d (selection.query.tokens d) selection.columns ∧ Throughout A p selection.query
  count : ∀ statement, p.compileCount schema d = .ok statement → ∃ q, p.countQuery schema = .ok q ∧
    statement = .ofTokens d (q.tokens d) [countColumn] ∧ Throughout A p q
  existence : ∀ statement, p.compileExists schema d = .ok statement → ∃ q, p.existsQuery schema = .ok q ∧
    statement = .ofTokens d (q.tokens d) [] ∧ Throughout A p q
  update : ∀ statement, p.compileUpdate schema d assignments = .ok statement →
    ∃ tree, p.update schema assignments = .ok tree ∧ statement = .ofTokens d (tree.tokens d) [] ∧
      (∀ a ∈ tree.assignments, ∃ asked ∈ assignments, NestsIn A (asked.2.subplans ++ p.subplans) a.2) ∧
      ∀ x ∈ tree.condition, NestsIn A (p.keyed :: p.subplans) x
  delete : ∀ statement, p.compileDelete schema d = .ok statement →
    ∃ tree, p.delete schema = .ok tree ∧ statement = .ofTokens d (tree.tokens d) [] ∧
      ∀ x ∈ tree.condition, NestsIn A (p.keyed :: p.subplans) x

/-- What holds of a query whenever a plan yields it, holds throughout every statement of every plan. -/
theorem everyStatement {A : Plan → Query → Prop} (hyields : ∀ part r, part.Yields schema r → A part r)
    (d : Sql.Dialect) (p : Plan) (assignments : List (String × Expr)) : p.EveryStatement schema d assignments A where
  rows compiled h := by
    obtain ⟨selection, hselection, -⟩ := ok_of_bind h
    exact ⟨selection, hselection, compile_primary hselection h, (rowSelection_yields hselection).mono hyields⟩
  count statement h := by
    obtain ⟨q, hq, hpure⟩ := ok_of_bind h
    obtain rfl := Except.ok.inj hpure
    exact ⟨q, hq, rfl, (countQuery_yields hq).mono hyields⟩
  existence statement h := by
    obtain ⟨q, hq, hpure⟩ := ok_of_bind h
    obtain rfl := Except.ok.inj hpure
    exact ⟨q, hq, rfl, (existsQuery_yields hq).mono hyields⟩
  update statement h := by
    obtain ⟨tree, htree, hpure⟩ := ok_of_bind h
    obtain rfl := Except.ok.inj hpure
    obtain ⟨keys, next, s, s', hkeys, hcondition, hassigned⟩ := update_ok htree
    refine ⟨tree, htree, rfl, fun a ha => ?_, fun x hx =>
      (lowerCondition_nests hkeys hcondition x hx).mono hyields (List.Subset.refl _)⟩
    obtain ⟨asked, hasked, t, t', -, hlower⟩ := hassigned a ha
    exact ⟨asked, hasked, (lowerInChange_nests hlower).mono hyields (List.Subset.refl _)⟩
  delete statement h := by
    obtain ⟨tree, htree, hpure⟩ := ok_of_bind h
    obtain rfl := Except.ok.inj hpure
    obtain ⟨keys, next, s, s', hkeys, hcondition⟩ := delete_ok htree
    exact ⟨tree, htree, rfl, fun x hx => (lowerCondition_nests hkeys hcondition x hx).mono hyields (List.Subset.refl _)⟩

end Plan

end RelQuery
