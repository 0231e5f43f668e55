/-
What statements inherit from their parts.

A property of expressions and one of queries that hold of a whole when they hold of its parts (`Sql.Hereditary`) hold of
whatever a plan is compiled to, since a plan is compiled to columns, constants and bound values put together, and to
statements of the plans nested in it.
- `select_inherits`: the query of a plan, whatever it is for.
- `update_inherits`, `delete_inherits`: the assignments and the condition of a change.
-/
import RelQuery.Proofs.Statement.WellScoped

namespace RelQuery

namespace Sql

/-- A property of expressions that holds of an expression when it holds of its parts, and another of the queries in it. -/
structure ExprHereditary (P : Expr → Prop) (Q : Query → Prop) : Prop where
  column (table : Option String) (name : String) : P (.column table name)
  int (n : Int64) : P (.int n)
  param (v : Value) : P (.param v)
  binary (op : BinaryOp) {left right : Expr} : P left → P right → P (.binary op left right)
  not {e : Expr} : P e → P (.not e)
  isNull (negated : Bool) {e : Expr} : P e → P (.isNull e negated)
  inList (negated : Bool) {e : Expr} {values : List Expr} : P e → (∀ v ∈ values, P v) → P (.inList e values negated)
  inQuery (negated : Bool) {e : Expr} {q : Query} : P e → Q q → P (.inQuery e q negated)
  case {arms : List (Expr × Expr)} {otherwise : Option Expr} : arms ≠ [] → (∀ arm ∈ arms, P arm.1 ∧ P arm.2) →
    (∀ e ∈ otherwise, P e) → P (.case arms otherwise)
  countRows (function : AggregateFunction) (distinct : Bool) : P (.call function.sqlName [.star none] distinct)
  call (function : AggregateFunction) (distinct : Bool) {arg : Expr} : P arg → P (.call function.sqlName [arg] distinct)
  subquery {q : Query} : Q q → P (.subquery q)
  existsRow (negated : Bool) {q : Query} : Q q → P (.existsRow q negated)

/-- A property of expressions and one of queries that hold of a whole when they hold of its parts. -/
structure Hereditary (P : Expr → Prop) (Q : Query → Prop) : Prop extends ExprHereditary P Q where
  query {q : Query} : (∀ e ∈ q.expressions, P e) → (∀ inner name, q.source = some (.derived inner name) → Q inner) → Q q

namespace ExprHereditary

variable {P : Expr → Prop} {Q : Query → Prop} (h : ExprHereditary P Q)
include h

theorem foldl_binary (op : BinaryOp) {rest : List Expr} {e : Expr} (he : P e) (hrest : ∀ other ∈ rest, P other) :
    P (rest.foldl (.binary op) e) := by
  induction rest generalizing e with
  | nil => exact he
  | cons next rest ih =>
    exact ih (h.binary op he (hrest next (by simp))) fun other hother => hrest other (by simp [hother])

theorem connect (op : BinaryOp) (neutral : Int64) {es : List Expr} (hes : ∀ e ∈ es, P e) :
    P (RelQuery.connect op neutral es) := by
  cases es with
  | nil => exact h.binary .eq (h.int 1) (h.int neutral)
  | cons e rest => exact h.foldl_binary op (hes e (by simp)) fun other hother => hes other (by simp [hother])

theorem conjunction {es : List Expr} (hes : ∀ e ∈ es, P e) : ∀ e ∈ Expr.conjunction es, P e := by
  cases es with
  | nil => simp [Expr.conjunction]
  | cons first rest =>
    intro e he
    obtain rfl := Option.some.inj he
    exact h.foldl_binary .and (hes first (by simp)) fun other hother => hes other (by simp [hother])

omit h in
theorem of_everyPage {q : Query} (hq : ∀ page, Q { q with page }) : Q q := by
  obtain ⟨⟩ := q
  exact hq _

/-- The queries in an expression may be taken with any page. -/
theorem everyPage : ExprHereditary P fun q => ∀ page, Q { q with page } where
  __ := h
  inQuery negated _ _ he hq := h.inQuery negated he (of_everyPage hq)
  subquery hq := h.subquery (of_everyPage hq)
  existsRow negated _ hq := h.existsRow negated (of_everyPage hq)

end ExprHereditary

/-- The parts of a query do not depend on its page. -/
theorem Hereditary.everyPage {P : Expr → Prop} {Q : Query → Prop} (h : Hereditary P Q) :
    Hereditary P fun q => ∀ page, Q { q with page } where
  __ := h.toExprHereditary.everyPage
  query hexpressions hderived _ :=
    h.query hexpressions fun inner name hsource => ExprHereditary.of_everyPage (hderived inner name hsource)

end Sql

open Sql (Hereditary ExprHereditary)

/-- Every statement of the plan has the property. -/
def Plan.Inherits (Q : Sql.Query → Prop) (p : Plan) : Prop :=
  ∀ schema purpose outer n selection m, p.select schema purpose outer n = .ok (selection, m) → Q selection.query

section Inheriting

variable {P : Sql.Expr → Prop} {Q : Sql.Query → Prop} {scope : Scope} {expand : Expansion}

/-! ## Expressions -/

/-- What compiling a part of an expression relies on: statements of plans nested in it have the property, and so has
what an alias is compiled to. -/
structure Passes (P : Sql.Expr → Prop) (Q : Sql.Query → Prop) (expand : Expansion) (node : Expr) : Prop where
  nested : ∀ plan, node = .correlated plan ∨ (∃ negated, node = .existsRow plan negated) → plan.Inherits Q
  expands : ∀ {name}, node = .aliasRef name → ∀ {role s s' x}, expand role name s = .ok (x, s') → P x

theorem nested_inherits {plan : Plan} {purpose : Purpose} (hplan : plan.Inherits Q) {q : Sql.Query} {s s' : JoinState}
    (h : Lowering.nested plan scope (fun schema outer next => plan.select schema purpose outer next) s = .ok (q, s')) :
    Q q := by
  obtain ⟨-, selection, n, hselect, rfl, -⟩ := nested_ok h
  exact hplan _ _ _ _ _ _ hselect

theorem column_inherits (hparts : ExprHereditary P Q) {ref : FieldRef} {role : Role} {s s' : JoinState} {x : Sql.Expr}
    (h : scope.column ref role s = .ok (x, s')) : P x := by
  obtain ⟨-, ⟨-, rfl, -⟩ | ⟨-, name, -, rfl⟩⟩ := Scope.column_cases h
  · exact hparts.column _ _
  · exact hparts.column _ _

/-- A CASE with an arm keeps it. -/
theorem lowerArms_ne_nil {arm : Expr × Expr} {arms : List (Expr × Expr)} {role : Role} {s s' : JoinState}
    {ws : List (Sql.Expr × Sql.Expr)} (h : lowerArms (arm :: arms) scope expand role s = .ok (ws, s')) : ws ≠ [] := by
  obtain ⟨test, result, more, s₁, s₂, -, -, -, rfl⟩ := Lowering.bind₃_pure_ok h
  exact List.cons_ne_nil _ _

mutual

theorem Expr.lower_inherits (hparts : ExprHereditary P Q) : (e : Expr) → (∀ node ∈ e.nodes, Passes P Q expand node) →
    ∀ {role s s' x}, e.lower scope expand role s = .ok (x, s') → P x
  | .field ref, _, _, s, s', x, h => column_inherits hparts h
  | .aliasRef name, hnodes, _, s, s', x, h => (hnodes _ (Expr.mem_nodes_self _)).expands rfl h
  | .literal v, _, _, s, s', x, h => by
    obtain ⟨rfl, -⟩ := Lowering.pure_ok.1 h
    exact hparts.param v
  | .binary op left right, hnodes, _, s, s', x, h => by
    obtain ⟨-, hleft, hright⟩ := forall_mem_cons_append.1 hnodes
    obtain ⟨l, r, s₁, hl, hr, rfl⟩ := Lowering.bind₂_pure_ok h
    exact hparts.binary _ (left.lower_inherits hparts hleft hl) (right.lower_inherits hparts hright hr)
  | .and operands, hnodes, _, s, s', x, h | .or operands, hnodes, _, s, s', x, h => by
    obtain ⟨-, hoperands⟩ := List.forall_mem_cons.1 hnodes
    obtain ⟨es, hes, rfl⟩ := Lowering.bind_pure_ok h
    exact hparts.connect _ _ (lowerList_inherits hparts operands hoperands hes)
  | .not operand, hnodes, _, s, s', x, h => by
    obtain ⟨-, hoperand⟩ := List.forall_mem_cons.1 hnodes
    obtain ⟨e, he, rfl⟩ := Lowering.bind_pure_ok h
    exact hparts.not (operand.lower_inherits hparts hoperand he)
  | .isNull operand negated, hnodes, _, s, s', x, h => by
    obtain ⟨-, hoperand⟩ := List.forall_mem_cons.1 hnodes
    obtain ⟨e, he, rfl⟩ := Lowering.bind_pure_ok h
    exact hparts.isNull negated (operand.lower_inherits hparts hoperand he)
  | .inList operand values negated, hnodes, _, s, s', x, h => by
    obtain ⟨-, hoperand, hvalues⟩ := forall_mem_cons_append.1 hnodes
    obtain ⟨e, es, s₁, he, hes, rfl⟩ := Lowering.bind₂_pure_ok h
    exact hparts.inList negated (operand.lower_inherits hparts hoperand he) (lowerList_inherits hparts values hvalues hes)
  | .case [] none, _, _, s, s', x, h => by
    obtain ⟨rfl, -⟩ := Lowering.pure_ok.1 h
    exact hparts.param .null
  | .case [] (some otherwise), hnodes, _, s, s', x, h => by
    obtain ⟨-, -, hotherwise⟩ := forall_mem_cons_append.1 hnodes
    exact otherwise.lower_inherits hparts hotherwise h
  | .case (arm :: arms) none, hnodes, _, s, s', x, h => by
    obtain ⟨-, harms, -⟩ := forall_mem_cons_append.1 hnodes
    obtain ⟨ws, hws, rfl⟩ := Lowering.bind_pure_ok h
    exact hparts.case (lowerArms_ne_nil hws) (lowerArms_inherits hparts (arm :: arms) harms hws) (by simp)
  | .case (arm :: arms) (some otherwise), hnodes, _, s, s', x, h => by
    obtain ⟨-, harms, hotherwise⟩ := forall_mem_cons_append.1 hnodes
    obtain ⟨ws, e, s₁, hws, he, rfl⟩ := Lowering.bind₂_pure_ok h
    refine hparts.case (lowerArms_ne_nil hws) (lowerArms_inherits hparts (arm :: arms) harms hws) fun other hother => ?_
    obtain rfl := Option.some.inj hother
    exact otherwise.lower_inherits hparts hotherwise he
  | .aggregate function none distinct, _, _, s, s', x, h => by
    obtain ⟨rfl, -⟩ := Lowering.pure_ok.1 h
    exact hparts.countRows function distinct
  | .aggregate function (some arg) distinct, hnodes, _, s, s', x, h => by
    obtain ⟨-, harg⟩ := List.forall_mem_cons.1 hnodes
    obtain ⟨e, he, rfl⟩ := Lowering.bind_pure_ok h
    exact hparts.call function distinct (arg.lower_inherits hparts harg he)
  | .outer name, _, _, s, s', x, h => by
    obtain ⟨-, o, f, -, -, rfl⟩ := Scope.outerColumn_ok h
    exact hparts.column _ _
  | .correlated plan, hnodes, _, s, s', x, h => by
    obtain ⟨q, hq, rfl⟩ := Lowering.bind_pure_ok h
    exact hparts.subquery (nested_inherits ((hnodes _ (Expr.mem_nodes_self _)).nested plan (.inl rfl)) hq)
  | .existsRow plan negated, hnodes, _, s, s', x, h => by
    obtain ⟨q, hq, rfl⟩ := Lowering.bind_pure_ok h
    exact hparts.existsRow negated
      (nested_inherits ((hnodes _ (Expr.mem_nodes_self _)).nested plan (.inr ⟨negated, rfl⟩)) hq)
termination_by structural e => e

theorem lowerList_inherits (hparts : ExprHereditary P Q) : (es : List Expr) → (∀ node ∈ Expr.nodesOfList es, Passes P Q expand node) →
    ∀ {role s s' xs}, lowerList es scope expand role s = .ok (xs, s') → ∀ x ∈ xs, P x
  | [], _, _, s, s', xs, h => by
    obtain ⟨rfl, -⟩ := Lowering.pure_ok.1 h
    simp
  | e :: rest, hnodes, _, s, s', xs, h => by
    obtain ⟨hfirst, hrest⟩ := List.forall_mem_append.1 hnodes
    obtain ⟨x, more, s₁, hx, hxs, rfl⟩ := Lowering.bind₂_pure_ok h
    exact List.forall_mem_cons.2 ⟨e.lower_inherits hparts hfirst hx, lowerList_inherits hparts rest hrest hxs⟩
termination_by structural es => es

theorem lowerArms_inherits (hparts : ExprHereditary P Q) : (arms : List (Expr × Expr)) →
    (∀ node ∈ Expr.nodesOfArms arms, Passes P Q expand node) → ∀ {role s s' ws},
    lowerArms arms scope expand role s = .ok (ws, s') → ∀ w ∈ ws, P w.1 ∧ P w.2
  | [], _, _, s, s', ws, h => by
    obtain ⟨rfl, -⟩ := Lowering.pure_ok.1 h
    simp
  | (test, result) :: rest, hnodes, _, s, s', ws, h => by
    obtain ⟨harm, hrest⟩ := List.forall_mem_append.1 hnodes
    obtain ⟨htest, hresult⟩ := List.forall_mem_append.1 harm
    obtain ⟨t, r, more, s₁, s₂, ht, hr, hws, rfl⟩ := Lowering.bind₃_pure_ok h
    exact List.forall_mem_cons.2
      ⟨⟨test.lower_inherits hparts htest ht, result.lower_inherits hparts hresult hr⟩, lowerArms_inherits hparts rest hrest hws⟩
termination_by structural arms => arms

end

/-! ## Plans -/

namespace Plan

variable {p : Plan}

theorem mem_subplans {e node : Expr} (he : e ∈ p.expressions) (hnode : node ∈ e.nodes) {plan : Plan}
    (h : node = .correlated plan ∨ ∃ negated, node = .existsRow plan negated) : plan ∈ p.subplans := by
  refine List.mem_flatMap.2 ⟨e, he, List.mem_filterMap.2 ⟨node, hnode, ?_⟩⟩
  rcases h with rfl | ⟨negated, rfl⟩ <;> rfl

variable (hparts : ExprHereditary P Q) (hsub : ∀ inner ∈ p.subplans, inner.Inherits Q)
include hparts hsub

/-- An alias has the property when the plans nested in the annotations do. -/
theorem expand_inherits : (budget : Nat) → ∀ {role name s s' x},
    p.fragments.expand scope budget role name s = .ok (x, s') → P x
  | 0, _, _, _, _, _, h => by cases h
  | budget + 1, _, name, s, s', x, h => by
    obtain ⟨e, he, hlower⟩ := expand_ok h
    obtain ⟨note, hnote, rfl⟩ := Option.map_eq_some_iff.1 he
    have hmem : note.expr ∈ p.expressions :=
      List.mem_append_left _ (List.mem_append_right _ (List.mem_map_of_mem (List.mem_of_find?_eq_some hnote)))
    exact note.expr.lower_inherits hparts (fun node hnode =>
      ⟨fun plan hplan => hsub plan (mem_subplans hmem hnode hplan), fun _ _ _ _ _ hx =>
        expand_inherits budget hx⟩) hlower

/-- An expression has the property when the plans nested in it and in the annotations do. -/
theorem lower_inherits {e : Expr} (hnested : ∀ inner ∈ e.subplans, inner.Inherits Q) {role : Role}
    {s s' : JoinState} {x : Sql.Expr} (h : e.lower scope (p.fragments.expansion scope) role s = .ok (x, s')) :
    P x := by
  refine e.lower_inherits hparts (fun node hnode => ⟨fun plan hplan => hnested plan ?_, fun _ _ _ _ _ hx => ?_⟩) h
  · rcases hplan with rfl | ⟨negated, rfl⟩
    · exact List.mem_filterMap.2 ⟨_, hnode, rfl⟩
    · exact List.mem_filterMap.2 ⟨_, hnode, rfl⟩
  · exact expand_inherits hparts hsub _ hx

theorem lowerAll_inherits : {items : List (Expr × Role)} →
    (∀ item ∈ items, ∀ inner ∈ item.1.subplans, inner.Inherits Q) → ∀ {s s' xs},
    p.lowerAll scope items s = .ok (xs, s') → ∀ x ∈ xs, P x
  | [], _, s, s', xs, h => by
    obtain ⟨rfl, -⟩ := Lowering.pure_ok.1 h
    simp
  | item :: rest, hnested, s, s', xs, h => by
    obtain ⟨x, more, s₁, rfl, hx, hmore⟩ := lowerAll_cons_ok h
    exact List.forall_mem_cons.2 ⟨lower_inherits hparts hsub (hnested item (by simp)) hx,
      lowerAll_inherits (fun item hitem => hnested item (by simp [hitem])) hmore⟩

omit hsub in
/-- The expressions of a plan's query are what it computes, put together, and the conditions of its joins. -/
theorem query_expressions {outputs : List Output} {joins : List Sql.Join} {results conditions keys : List Sql.Expr}
    (hresults : ∀ x ∈ results ++ conditions ++ keys, P x) (hjoins : ∀ join ∈ joins, P join.on) :
    ∀ e ∈ (p.query scope outputs joins results conditions keys).expressions, P e := by
  simp only [List.mem_append, or_imp, forall_and] at hresults
  obtain ⟨⟨hresults, hconditions⟩, hkeys⟩ := hresults
  have hfilters : ∀ keep : Bool × Sql.Expr → Bool,
      ∀ e ∈ Sql.Expr.conjunction (((List.zipWith (fun e condition => (p.exprAggregates e, condition)) p.filters
        conditions).filter keep).map Prod.snd), P e := by
    intro keep
    refine hparts.conjunction fun e he => ?_
    obtain ⟨pair, hpair, rfl⟩ := List.mem_map.1 he
    obtain ⟨_, -, condition, hcondition, rfl⟩ := exists_of_mem_zipWith (List.mem_filter.1 hpair).1
    exact hconditions _ hcondition
  intro e he
  simp only [Sql.Query.expressions, query, List.map_map, List.mem_append, List.mem_map, Function.comp_apply] at he
  rcases he with ((((⟨item, hitem, rfl⟩ | ⟨join, hjoin, rfl⟩) | he) | he) | he) | ⟨key, hkey, rfl⟩
  · exact hresults _ (List.of_mem_zip hitem).2
  · exact hjoins join hjoin
  · exact hfilters _ e (Option.mem_toList.1 he)
  · split at he
    · obtain ⟨item, hitem, rfl⟩ := List.mem_map.1 he
      exact hresults _ (List.of_mem_zip (List.mem_filter.1 hitem).1).2
    · cases he
  · exact hfilters _ e (Option.mem_toList.1 he)
  · obtain ⟨_, -, x, hx, rfl⟩ := exists_of_mem_zipWith hkey
    exact hkeys x hx

/-- The statement of a plan's rows is made of expressions that have the property, and of tables; it has a column for each
output. -/
theorem clauses_inherit {schema : Schema} {purpose : Purpose} (hpurpose : purpose = .rows ∨ purpose = .scalar)
    {outer : Option Outer} {n m : Nat} {selection : Selection}
    (h : p.select schema purpose outer n = .ok (selection, m)) :
    (∀ e ∈ selection.query.expressions, P e) ∧ (∀ inner name, selection.query.source ≠ some (.derived inner name)) ∧
      (selection.query.select = [] → ∃ shape, p.outputs schema purpose = .ok ([], shape)) := by
  obtain ⟨outputs, final, houtputs, hclauses, -, -⟩ := select_ok hpurpose h
  obtain ⟨results, conditions, keys, hlength, -, -, hlower, heq⟩ := lowerClauses_ok hclauses
  have hnested : ∀ item ∈ p.items outputs, ∀ inner ∈ item.1.subplans, inner.Inherits Q := by
    intro item hitem inner hinner
    simp only [items, List.mem_append, List.mem_map] at hitem
    rcases hitem with (⟨o, -, rfl⟩ | ⟨e, he, rfl⟩) | ⟨key, hkey, rfl⟩
    · cases hterm : o.term <;> simp [hterm, OutputTerm.expr, Expr.subplans, Expr.nodes] at hinner
    · exact hsub inner (List.mem_flatMap.2 ⟨e, List.mem_append_left _ (List.mem_append_left _ he), hinner⟩)
    · exact hsub inner (List.mem_flatMap.2 ⟨key.expr, List.mem_append_right _ (List.mem_map_of_mem hkey), hinner⟩)
  rw [heq]
  refine ⟨query_expressions hparts (lowerAll_inherits hparts hsub hnested hlower) fun join hjoin => ?_, by simp [query],
    fun hselect => ?_⟩
  · obtain ⟨node, -, rfl⟩ := List.mem_map.1 hjoin
    exact hparts.binary .eq (hparts.column _ _) (hparts.column _ _)
  · have hzip : outputs.zip results = [] := List.map_eq_nil_iff.1 hselect
    obtain rfl : outputs = [] := by
      rcases List.zip_eq_nil_iff.1 hzip with hnil | hnil
      · exact hnil
      · exact List.eq_nil_of_length_eq_zero (by rw [← hlength, hnil, List.length_nil])
    exact ⟨_, houtputs⟩

end Plan

section Closing

/-! ### Queries

A property may fail for queries without a column; `columnless` is what is known where there may be one. -/

variable {columnless : Prop}

/-- A reduced query has the property when the rows' query is made of expressions that do. -/
theorem reduceTo_inherits
    (hquery : ∀ {q : Sql.Query}, (q.select = [] → columnless) → (∀ e ∈ q.expressions, P e) →
      (∀ inner name, q.source = some (.derived inner name) → Q inner) → Q q)
    {column : Sql.Expr} (hcolumn : P column) (wrap paged : Bool) {q : Sql.Query} (hq : ∀ e ∈ q.expressions, P e)
    (hsource : ∀ inner name, q.source ≠ some (.derived inner name)) (hselect : wrap = true → q.select = [] → columnless)
    (next : Nat) : Q (reduceTo column wrap paged q next) := by
  have hordered : ∀ e ∈ (if paged then q else { q with orderBy := [] }).expressions, P e := by
    split
    · exact hq
    · refine fun e he => hq e ?_
      simp only [Sql.Query.expressions, List.map_nil, List.append_nil] at he
      exact List.mem_append_left _ he
  have hkept : ∀ inner name, (if paged then q else { q with orderBy := [] }).source ≠ some (.derived inner name) := by
    split <;> exact hsource
  have hcolumns : (if paged then q else { q with orderBy := [] }).select = q.select := by split <;> rfl
  unfold reduceTo
  simp only
  split
  · next hwrap =>
    refine hquery (by simp [Sql.Query.selecting]) (by simp [Sql.Query.expressions, Sql.Query.selecting, hcolumn])
      fun inner name hinner => ?_
    obtain ⟨rfl, -⟩ := Sql.Source.derived.inj (Option.some.inj hinner)
    exact hquery (fun hnil => hselect hwrap (hcolumns.symm.trans hnil)) hordered fun inner name hinner => absurd hinner (hkept inner name)
  · refine hquery (by simp) (fun e he => ?_) fun inner name hinner => absurd hinner (hkept inner name)
    simp only [Sql.Query.expressions, List.map_cons, List.map_nil, List.mem_append, List.mem_singleton, or_assoc] at he
    rcases he with rfl | he
    · exact hcolumn
    · exact hordered e (by simp only [Sql.Query.expressions, List.mem_append, or_assoc]; exact .inr he)

/-- The statement of a plan has the property when the statements nested in it do. -/
theorem Plan.query_inherits (hparts : ExprHereditary P Q)
    (hquery : ∀ {q : Sql.Query}, (q.select = [] → columnless) → (∀ e ∈ q.expressions, P e) →
      (∀ inner name, q.source = some (.derived inner name) → Q inner) → Q q)
    {p : Plan} (hsub : ∀ inner ∈ p.subplans, inner.Inherits Q) {schema : Schema} {purpose : Purpose}
    (hcolumns : purpose.reduced = none ∨ p.isWrapped = true → (∃ shape, p.outputs schema purpose = .ok ([], shape)) →
      columnless) {outer : Option Outer} {n m : Nat} {selection : Selection}
    (h : p.select schema purpose outer n = .ok (selection, m)) : Q selection.query := by
  cases hreduced : purpose.reduced with
  | none =>
    have hpurpose : purpose = .rows ∨ purpose = .scalar := by cases purpose <;> simp_all [Purpose.reduced]
    obtain ⟨hexpressions, hsource, hselect⟩ := clauses_inherit hparts hsub hpurpose h
    exact hquery (fun hnil => hcolumns (.inl hreduced) (hselect hnil)) hexpressions
      fun inner name hinner => absurd hinner (hsource inner name)
  | some column =>
    rw [select_reduced schema hreduced] at h
    obtain ⟨rows, hrows, heq⟩ := map_ok h
    obtain ⟨rfl, -⟩ := Prod.mk.inj heq
    obtain ⟨hexpressions, hsource, hselect⟩ := clauses_inherit hparts hsub (.inl rfl) hrows
    have hcolumn : P column := by
      cases purpose with
      | existence => exact Option.some.inj hreduced ▸ hparts.int 1
      | count => exact Option.some.inj hreduced ▸ hparts.countRows .count false
      | rows | scalar => cases hreduced
    refine reduceTo_inherits hquery hcolumn _ _ hexpressions hsource (fun hwrapped hnil => ?_) _
    refine hcolumns (.inr hwrapped) ?_
    rw [outputs_reduced schema hreduced]
    exact hselect hnil

end Closing

namespace Plan

/-- Whatever a plan is compiled for, its statement has the property. -/
theorem select_inherits (hparts : Hereditary P Q) (p : Plan) : p.Inherits Q := by
  induction p using induction_subplans with
  | step p hsub =>
    intro schema purpose outer n selection m h
    exact query_inherits hparts.toExprHereditary (fun _ => hparts.query) hsub (fun _ _ => trivial) h

/-! ## Changes -/

theorem keyQuery_inherits {schema : Schema} {p : Plan} {keys : Option Sql.Query} {n : Nat}
    (h : p.keyQuery schema = .ok (keys, n)) (hkeyed : ∀ keyed, p.keyPlan schema = .ok keyed → keyed.Inherits Q) :
    ∀ q ∈ keys, Q q := by
  unfold keyQuery at h
  split at h
  · obtain ⟨keyed, hplan, hmore⟩ := ok_of_bind h
    obtain ⟨⟨selection, next⟩, hselect, hpure⟩ := ok_of_bind hmore
    obtain ⟨rfl, -⟩ := Prod.mk.inj (Except.ok.inj hpure)
    intro q hq
    obtain rfl := Option.some.inj hq
    exact hkeyed keyed hplan _ _ _ _ _ _ hselect
  · obtain ⟨rfl, -⟩ := Prod.mk.inj (Except.ok.inj h)
    simp

theorem lowerCondition_inherits (hparts : ExprHereditary P Q) {schema : Schema} {p : Plan}
    (hsub : ∀ inner ∈ p.subplans, inner.Inherits Q) {keys : Option Sql.Query} (hkeys : ∀ q ∈ keys, Q q)
    {s s' : JoinState} {condition : Option Sql.Expr} (h : p.lowerCondition schema keys s = .ok (condition, s')) :
    ∀ e ∈ condition, P e := by
  cases keys with
  | some q =>
    obtain ⟨rfl, -⟩ := Lowering.pure_ok.1 h
    intro e he
    obtain rfl := Option.some.inj he
    exact hparts.inQuery false (hparts.column _ _) (hkeys q rfl)
  | none =>
    obtain ⟨es, hes, rfl⟩ := Lowering.bind_pure_ok h
    refine hparts.conjunction fun e he => ?_
    rw [show p.fragments.filters = p.filters.map fun e => (e, e.lower) from filterFragments_eq p.filters,
      List.mapM_map] at hes
    obtain ⟨filter, hfilter, t, t', hlower⟩ := Lowering.mem_of_mapM_ok hes he
    have hnested : ∀ inner ∈ filter.subplans, inner.Inherits Q := fun inner hinner =>
      hsub inner (List.mem_flatMap.2 ⟨filter, List.mem_append_left _ (List.mem_append_left _ hfilter), hinner⟩)
    exact lower_inherits hparts hsub hnested hlower

/-- An assignment is that of a plain value to a field of the root. -/
theorem lowerAssignment_ok {schema : Schema} {p : Plan} {column : String} {value : Expr} {s s' : JoinState}
    {assigned : String × Sql.Expr} (h : p.lowerAssignment schema column value s = .ok (assigned, s')) :
    ∃ f x, p.root.field column = some f ∧ p.exprAggregates value = false ∧
      p.lowerInChange schema value.lower s = .ok (x, s') ∧ assigned = (f.name, x) := by
  obtain ⟨f, s₁, hf, hmore⟩ := Lowering.bind_ok h
  obtain ⟨hfield, rfl⟩ := Lowering.liftM_ok hf
  dsimp only at hmore
  split at hmore
  · cases hmore
  · next hplain =>
    obtain ⟨x, hx, rfl⟩ := Lowering.bind_pure_ok hmore
    exact ⟨f, x, orFail_eq_ok.1 hfield, by simpa using hplain, hx, rfl⟩

/-- The condition of a DELETE has the property when the statements nested in it do. -/
theorem delete_condition (hparts : ExprHereditary P Q) {schema : Schema} {p : Plan}
    (hsub : ∀ inner ∈ p.subplans, inner.Inherits Q) (hkeyed : ∀ keyed, p.keyPlan schema = .ok keyed → keyed.Inherits Q)
    {statement : Sql.Delete} (h : p.delete schema = .ok statement) : ∀ e ∈ statement.condition, P e := by
  obtain ⟨⟨keys, next⟩, hkeys, hmore⟩ := ok_of_bind h
  obtain ⟨condition, hcondition, hpure⟩ := ok_of_bind hmore
  obtain rfl := Except.ok.inj hpure
  obtain ⟨⟨condition, s'⟩, hrun, rfl⟩ := map_ok hcondition
  exact lowerCondition_inherits hparts hsub (keyQuery_inherits hkeys hkeyed) hrun

/-- The assignments and the condition of an UPDATE have the property when the statements nested in them do; there are as
many assignments as were asked for. -/
theorem update_parts (hparts : ExprHereditary P Q) {schema : Schema} {p : Plan}
    (hsub : ∀ inner ∈ p.subplans, inner.Inherits Q) (hkeyed : ∀ keyed, p.keyPlan schema = .ok keyed → keyed.Inherits Q)
    {assignments : List (String × Expr)} (hvalues : ∀ a ∈ assignments, ∀ inner ∈ a.2.subplans, inner.Inherits Q)
    {statement : Sql.Update} (h : p.update schema assignments = .ok statement) :
    (∀ a ∈ statement.assignments, P a.2) ∧ (∀ e ∈ statement.condition, P e) ∧
      statement.assignments.length = assignments.length := by
  obtain ⟨⟨keys, next⟩, hkeys, hmore⟩ := ok_of_bind h
  obtain ⟨⟨statement, s'⟩, hrun, rfl⟩ := map_ok hmore
  obtain ⟨assigned, condition, s₁, hassigned, hcondition, rfl⟩ := Lowering.bind₂_pure_ok hrun
  refine ⟨fun a ha => ?_, lowerCondition_inherits hparts hsub (keyQuery_inherits hkeys hkeyed) hcondition,
    Lowering.length_mapM hassigned⟩
  obtain ⟨assignment, hassignment, t, t', hone⟩ := Lowering.mem_of_mapM_ok hassigned ha
  obtain ⟨f, x, -, -, hx, rfl⟩ := lowerAssignment_ok hone
  exact lower_inherits hparts hsub (hvalues assignment hassignment) hx

theorem delete_inherits (hparts : Hereditary P Q) {schema : Schema} {p : Plan} {statement : Sql.Delete}
    (h : p.delete schema = .ok statement) : ∀ e ∈ statement.condition, P e :=
  delete_condition hparts.toExprHereditary (fun inner _ => select_inherits hparts inner)
    (fun keyed _ => select_inherits hparts keyed) h

theorem update_inherits (hparts : Hereditary P Q) {schema : Schema} {p : Plan} {assignments : List (String × Expr)}
    {statement : Sql.Update} (h : p.update schema assignments = .ok statement) :
    (∀ a ∈ statement.assignments, P a.2) ∧ ∀ e ∈ statement.condition, P e :=
  have hall := update_parts hparts.toExprHereditary (fun inner _ => select_inherits hparts inner)
    (fun keyed _ => select_inherits hparts keyed) (fun _ _ inner _ => select_inherits hparts inner) h
  ⟨hall.1, hall.2.1⟩

/-! ## Other statements of a plan -/

theorem rowSelection_inherits (hparts : Hereditary P Q) {schema : Schema} {p : Plan} {selection : Selection}
    (h : p.rowSelection schema = .ok selection) : Q selection.query := by
  obtain ⟨selected, hselect, rfl⟩ := map_ok h
  exact select_inherits hparts p _ _ _ _ _ _ hselect

theorem countQuery_inherits (hparts : Hereditary P Q) {schema : Schema} {p : Plan} {q : Sql.Query}
    (h : p.countQuery schema = .ok q) : Q q := by
  obtain ⟨selected, hselect, rfl⟩ := map_ok h
  exact select_inherits hparts p _ _ _ _ _ _ hselect

theorem existsQuery_inherits (hparts : Hereditary P Q) {schema : Schema} {p : Plan} {q : Sql.Query}
    (h : p.existsQuery schema = .ok q) : Q q := by
  obtain ⟨selected, hselect, rfl⟩ := map_ok h
  exact select_inherits hparts.everyPage p _ _ _ _ _ _ hselect _

end Plan

/-- The statement of a batch is that of all rows of an entity, limited to those that hold one of the keys. -/
theorem BatchFetch.queryFor_eq {schema : Schema} {root : Entity} {primary : List OutputColumn} {name : String}
    {fetch : BatchFetch} (h : BatchFetch.ofRelation schema root primary name = .ok fetch) :
    ∃ target column, ∀ keys, fetch.queryFor keys =
      { allRows target with condition := some (.inList (.columnOf rowAlias column) (keys.map .param) false) } := by
  obtain ⟨relation, -, hmore⟩ := ok_of_bind h
  obtain ⟨target, -, hmore⟩ := ok_of_bind hmore
  obtain ⟨localIndex, -, hmore⟩ := ok_of_bind hmore
  obtain ⟨keyIndex, -, hmore⟩ := ok_of_bind hmore
  obtain rfl := Except.ok.inj hmore
  exact ⟨target, relation.remoteColumn, fun _ => rfl⟩

/-- The statement of a batch is made of columns of its one table and of the keys bound to it. -/
theorem BatchFetch.queryFor_inherits (hparts : Hereditary P Q) {schema : Schema} {root : Entity}
    {primary : List OutputColumn} {name : String} {fetch : BatchFetch}
    (h : BatchFetch.ofRelation schema root primary name = .ok fetch) (keys : List Value) : Q (fetch.queryFor keys) := by
  obtain ⟨target, column, hquery⟩ := queryFor_eq h
  rw [hquery]
  refine hparts.query (fun e he => ?_) (by simp [allRows])
  simp only [Sql.Query.expressions, allRows, Sql.Query.selecting, List.map_map, List.map_nil, List.append_nil,
    Option.toList_some, Option.toList_none, List.map_cons, List.mem_append, List.mem_map, List.mem_singleton] at he
  rcases he with (⟨f, -, rfl⟩ | rfl) | rfl
  · exact hparts.column _ _
  · refine hparts.inList false (hparts.column _ _) fun v hv => ?_
    obtain ⟨key, -, rfl⟩ := List.mem_map.1 hv
    exact hparts.param key
  · exact hparts.column _ _

end Inheriting

end RelQuery
