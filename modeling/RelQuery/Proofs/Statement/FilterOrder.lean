/-
Filters may be taken in any order.

Two filters taken one after the other, whatever steps are taken later, are neighbours in the plan, and the steps do not
depend on their order (`applyAll_filters`). The statements for the rows of both plans are then the same under a bijective
renaming of their tables, but for the order of joins and conditions, and so are the statements that count these rows or
ask whether there is one, which reduce them (`statements_crossed`).
- `filters_commute`: one plan compiles when the other does, to the same statements in this sense.
-/
import RelQuery.Proofs.Plan.Building
import RelQuery.Proofs.Statement.Crossed

namespace RelQuery

open Sql (Query OneToOne Follows)

/-! ## Queries reduced -/

namespace Sql

theorem SameConjuncts.none (ρ : String → String) : SameConjuncts ρ none none := ⟨[], [], rfl, rfl, .nil⟩

namespace Query

/-- the query that joins the tables: the one that another starts from, or else itself -/
def core (q : Query) : Query :=
  match q.source with
  | some (.derived inner _) => inner
  | _ => q

variable {ρ : String → String} {q q' : Query}

theorem core_table {table : TableRef} (hsource : q.source = some (.table table)) : q.core = q := by
  simp only [core, hsource]

theorem core_limitedTo_joins (n : UInt64) (q : Query) : (Plan.limitedTo n q).core.joins = q.core.joins := by
  unfold core
  simp only [Plan.limitedTo]
  split <;> rfl

theorem SameClauses.unordered (h : q.SameClauses ρ q') : q.unordered.SameClauses ρ q'.unordered :=
  { h with orderBy := rfl }

theorem SameClauses.selecting (h : q.SameClauses ρ q') {column : Expr} (hcolumn : column.rename ρ = column) :
    SameClauses ρ { q with select := [⟨column, none⟩] } { q' with select := [⟨column, none⟩] } :=
  { h with select := by rw [List.map_singleton, SelectItem.rename, hcolumn] }

theorem SameClauses.around {column : Expr} (hcolumn : column.rename ρ = column) (q q' : Query) (name name' : String) :
    (around column q name).SameClauses ρ (around column q' name') where
  select := by rw [Query.around, Query.around, Query.selecting, List.map_singleton, SelectItem.rename, hcolumn]
  distinct := rfl
  joins := .nil
  condition := .none ρ
  groupBy := rfl
  having := .none ρ
  orderBy := rfl
  page := rfl

theorem Reordered.limitedTo (h : q.Reordered ρ q') (n : UInt64) :
    (Plan.limitedTo n q).Reordered ρ (Plan.limitedTo n q') := by
  have hpage : ∀ {q q' : Query}, q.SameClauses ρ q' → (Plan.limitedTo n q).SameClauses ρ (Plan.limitedTo n q') :=
    fun h => { h with page := by simp only [Plan.limitedTo, h.page] }
  cases h with
  | tables hclauses hsource => exact .tables (hpage hclauses) hsource
  | derived hclauses hsource hsource' hinner => exact .derived (hpage hclauses) hsource hsource' hinner

end Query

end Sql

theorem reduceTo_reordered {ρ : String → String} {column : Sql.Expr} (hcolumn : column.rename ρ = column) {wrap : Bool}
    {next next' : Nat} (hnext : ρ (tableAlias next) = tableAlias next') (paged : Bool) {q q' : Query}
    (h : q.SameClauses ρ q') (hsource : q.source.map (Sql.Source.rename ρ) = q'.source) :
    (reduceTo column wrap paged q next).Reordered ρ (reduceTo column wrap paged q' next') := by
  have hkept : ∀ q : Query, (if paged then q else q.unordered).source = q.source := fun q => by
    cases paged <;> rfl
  have hclauses : (if paged then q else q.unordered).SameClauses ρ (if paged then q' else q'.unordered) := by
    cases paged with
    | true => exact h
    | false => exact h.unordered
  have hsources : (if paged then q else q.unordered).source.map (Sql.Source.rename ρ) =
      (if paged then q' else q'.unordered).source := by
    rw [hkept, hkept, hsource]
  cases wrap with
  | false => exact .tables (hclauses.selecting hcolumn) hsources
  | true =>
    have hrenamed : (reduceTo column true paged q' next').source =
        some (.derived (if paged then q' else q'.unordered) (ρ (tableAlias next))) := by
      rw [hnext]
      rfl
    exact .derived (.around hcolumn _ _ _ _) rfl hrenamed (.tables hclauses hsources)

theorem reduceTo_joins {q : Query} {table : Sql.TableRef} (hsource : q.source = some (.table table)) (column : Sql.Expr)
    (wrap paged : Bool) (next : Nat) : (reduceTo column wrap paged q next).core.joins = q.joins := by
  cases wrap <;> cases paged <;> simp [reduceTo, Query.core, hsource]

namespace Plan

/-! ## Statements -/

section Statements

variable {schema : Schema} {p : Plan} {before after : List Expr} {x y : Expr}

/-- Two queries are the same but for the order of their joins and conditions, once the tables of one are renamed; their
joins are those listed, each with the path that it stands for. -/
structure SameQueries (ρ : String → String) (nodes nodes' : List JoinNode) (q q' : Query) : Prop where
  reordered : q.Reordered ρ q'
  joins : q.core.joins = nodes.map JoinNode.join
  joins' : q'.core.joins = nodes'.map JoinNode.join

theorem SameQueries.limited {ρ : String → String} {nodes nodes' : List JoinNode} {q q' : Query}
    (h : SameQueries ρ nodes nodes' q q') : SameQueries ρ nodes nodes' (limitedTo 1 q) (limitedTo 1 q') :=
  ⟨h.reordered.limitedTo 1, (Query.core_limitedTo_joins 1 q).trans h.joins,
    (Query.core_limitedTo_joins 1 q').trans h.joins'⟩

/-- What compiles for one plan compiles for another, from queries that are the same under one renaming of their tables
but for the order of joins and conditions; `nodes` and `nodes'` are the joins of both plans. -/
structure SameStatements (schema : Schema) (d : Sql.Dialect) (p p' : Plan) (ρ : String → String)
    (nodes nodes' : List JoinNode) : Prop where
  joins : p.rowJoins schema = .ok nodes
  joins' : p'.rowJoins schema = .ok nodes'
  perm : (nodes.map (JoinNode.rename ρ)).Perm nodes'
  rows : ∀ compiled, p.compile schema d = .ok compiled → ∃ compiled' selection selection',
    p'.compile schema d = .ok compiled' ∧ p.rowSelection schema = .ok selection ∧
    p'.rowSelection schema = .ok selection' ∧
    compiled.primary = .ofTokens d (selection.query.tokens d) selection.columns ∧
    compiled'.primary = .ofTokens d (selection'.query.tokens d) selection.columns ∧
    compiled'.batched = compiled.batched ∧ compiled'.shape = compiled.shape ∧
    SameQueries ρ nodes nodes' selection.query selection'.query
  count : ∀ statement, p.compileCount schema d = .ok statement → ∃ statement' q q',
    p'.compileCount schema d = .ok statement' ∧ p.countQuery schema = .ok q ∧ p'.countQuery schema = .ok q' ∧
    statement = .ofTokens d (q.tokens d) [countColumn] ∧ statement' = .ofTokens d (q'.tokens d) [countColumn] ∧
    SameQueries ρ nodes nodes' q q'
  existsRow : ∀ statement, p.compileExists schema d = .ok statement → ∃ statement' q q',
    p'.compileExists schema d = .ok statement' ∧ p.existsQuery schema = .ok q ∧ p'.existsQuery schema = .ok q' ∧
    statement = .ofTokens d (q.tokens d) [] ∧ statement' = .ofTokens d (q'.tokens d) [] ∧
    SameQueries ρ nodes nodes' q q'

/-- A plan with two neighbouring filters in the other order has the same statements. -/
theorem statements_crossed (d : Sql.Dialect) (hfilters : p.filters = before ++ [x, y] ++ after)
    (hroot : schema.entity p.root.name = .ok p.root) (hresolved : FieldsResolved schema p.expressions)
    {selection : Selection} (hselection : p.rowSelection schema = .ok selection) :
    ∃ (ρ : Equiv.Perm String) (nodes nodes' : List JoinNode),
      SameStatements schema d p (p.withFilters (before ++ [y, x] ++ after)) ρ nodes nodes' := by
  obtain ⟨m, hselect⟩ := select_of_rowSelection hselection
  obtain ⟨selection', m', nodes, nodes', hselect', hcolumns, hshape, hnodes, hnodes', hjoins, hjoins', htable, htable',
    pairs, hpairs, hgiven, hsame⟩ := rows_crossed hfilters hroot hresolved hselect
  -- the names of the derived tables are not among the names given out before
  obtain ⟨ρ, hρ⟩ := (oneToOne_next hpairs hgiven).exists_renaming
  obtain ⟨hfollows, hderived⟩ := Sql.follows_append.1 hρ
  obtain ⟨hperm, hclauses, hsource⟩ := hsame ρ hfollows
  have hname : ρ (tableAlias m) = tableAlias m' := hderived _ List.mem_cons_self
  have hwrapped : (p.withFilters (before ++ [y, x] ++ after)).isWrapped = p.isWrapped := by
    rw [isWrapped, isWrapped, isGrouped_withFilters (filters_crossed hfilters)]
    rfl
  have hselection' : (p.withFilters (before ++ [y, x] ++ after)).rowSelection schema = .ok selection' := by
    rw [rowSelection, hselect']
    rfl
  have hrows : SameQueries ρ nodes nodes' selection.query selection'.query :=
    ⟨.tables hclauses hsource, by rw [Query.core_table htable, hjoins], by rw [Query.core_table htable', hjoins']⟩
  have hreduced : ∀ {column : Sql.Expr}, column.rename ρ = column → SameQueries ρ nodes nodes'
      (reduceTo column p.isWrapped p.isPaged selection.query m)
      (reduceTo column p.isWrapped p.isPaged selection'.query m') := fun hcolumn =>
    ⟨reduceTo_reordered hcolumn hname p.isPaged hclauses hsource, (reduceTo_joins htable _ _ _ _).trans hjoins,
      (reduceTo_joins htable' _ _ _ _).trans hjoins'⟩
  have hcount := countQuery_eq hselect
  have hexists := existsQuery_eq hselect
  have hcount' := countQuery_eq hselect'
  have hexists' := existsQuery_eq hselect'
  rw [hwrapped] at hcount' hexists'
  refine ⟨ρ, nodes, nodes', hnodes, hnodes', hperm, fun compiled h => ?_, fun statement h => ?_, fun statement h => ?_⟩
  · rw [compile_eq hselection] at h
    obtain ⟨batched, hbatched, rfl⟩ := map_ok h
    refine ⟨⟨.ofTokens d (selection'.query.tokens d) selection.columns, batched, selection.shape⟩, selection, selection',
      ?_, hselection, hselection', rfl, rfl, rfl, rfl, hrows⟩
    rw [compile_eq hselection', hshape, hcolumns]
    exact congrArg (Except.map _) hbatched
  · rw [compileCount, hcount] at h
    obtain rfl := Except.ok.inj h
    exact ⟨_, _, _, by rw [compileCount, hcount']; rfl, hcount, hcount', rfl, rfl, hreduced rfl⟩
  · rw [compileExists, hexists] at h
    obtain rfl := Except.ok.inj h
    exact ⟨_, _, _, by rw [compileExists, hexists']; rfl, hexists, hexists', rfl, rfl, (hreduced rfl).limited⟩

end Statements

/-! ## Steps -/

/-- the plan after steps taken one after another -/
def applyAll (schema : Schema) (p : Plan) (steps : List Step) : Except QueryError Plan := steps.foldlM (apply schema) p

section Steps

variable {schema : Schema} {p next : Plan} {step : Step} {steps : List Step}

theorem applyAll_cons : p.applyAll schema (step :: steps) =
    p.apply schema step >>= fun next => next.applyAll schema steps := List.foldlM_cons

/-- A step adds filters behind those that there are, and does not depend on them otherwise. -/
theorem apply_filters (h : p.apply schema step = .ok next) : ∃ more, next.filters = p.filters ++ more ∧
    ∀ filters, (p.withFilters filters).apply schema step = .ok (next.withFilters (filters ++ more)) := by
  have hsame : next.filters = p.filters →
      (∀ filters, (p.withFilters filters).apply schema step = .ok (next.withFilters filters)) →
      ∃ more, next.filters = p.filters ++ more ∧
        ∀ filters, (p.withFilters filters).apply schema step = .ok (next.withFilters (filters ++ more)) := by
    intro hfilters happly
    exact ⟨[], by rw [hfilters, List.append_nil], fun filters => by rw [List.append_nil, happly]⟩
  cases step with
  | filter e =>
    obtain rfl := Except.ok.inj h
    exact ⟨[e], rfl, fun _ => rfl⟩
  | exclude e =>
    obtain rfl := Except.ok.inj h
    exact ⟨[.not e], rfl, fun _ => rfl⟩
  | annotate aliasName e =>
    obtain ⟨hunused, hundeclared, rfl⟩ := annotate_eq_ok.1 h
    exact hsame rfl fun _ => annotate_eq_ok.2 ⟨hunused, hundeclared, rfl⟩
  | project names =>
    obtain ⟨hnames, rfl⟩ := project_eq_ok.1 h
    exact hsame rfl fun _ => project_eq_ok.2 ⟨hnames, rfl⟩
  | only names =>
    obtain ⟨hnames, rfl⟩ := only_eq_ok.1 h
    exact hsame rfl fun _ => only_eq_ok.2 ⟨hnames, rfl⟩
  | orderBy key direction =>
    obtain ⟨e, he, rfl⟩ := map_ok h
    exact hsame rfl fun filters =>
      congrArg (Except.map fun e => (p.withFilters filters).orderByExpr e direction) he
  | orderByExpr | clearOrdering | limit | offset | distinct =>
    obtain rfl := Except.ok.inj h
    exact hsame rfl fun _ => rfl
  | withRelation name loading =>
    obtain ⟨relation, hrelation, hone, rfl⟩ := withRelation_eq_ok.1 h
    exact hsame rfl fun _ => withRelation_eq_ok.2 ⟨relation, hrelation, hone, rfl⟩

theorem applyAll_filters (h : p.applyAll schema steps = .ok next) : ∃ more, next.filters = p.filters ++ more ∧
    ∀ filters, (p.withFilters filters).applyAll schema steps = .ok (next.withFilters (filters ++ more)) := by
  induction steps generalizing p with
  | nil =>
    obtain rfl := Except.ok.inj h
    exact ⟨[], (List.append_nil _).symm, fun filters => by rw [List.append_nil]; rfl⟩
  | cons step rest ih =>
    rw [applyAll_cons] at h
    obtain ⟨q, hq, hnext⟩ := ok_of_bind h
    obtain ⟨more, hmore, hq'⟩ := apply_filters hq
    obtain ⟨others, hothers, hnext'⟩ := ih hnext
    refine ⟨more ++ others, by rw [hothers, hmore, List.append_assoc], fun filters => ?_⟩
    rw [applyAll_cons, hq' filters, ← List.append_assoc]
    exact hnext' (filters ++ more)

/-- A step keeps what the plan reads resolved, if what it is given is. -/
theorem apply_fieldsResolved (hp : FieldsResolved schema p.expressions)
    (hstep : FieldsResolved schema step.expressions) (h : p.apply schema step = .ok next) :
    FieldsResolved schema next.expressions := by
  intro e he ref href
  rcases (apply_extends h).2.2 e he with he | he | ⟨given, hgiven, rfl⟩ | ⟨key, hkey⟩
  · exact hp e he ref href
  · exact hstep e he ref href
  · exact hstep given hgiven ref href
  · rcases named_cases hkey with ⟨-, rfl⟩ | ⟨found, hfound, rfl⟩
    · cases href
    · obtain rfl := List.mem_singleton.1 href
      exact FieldRef.resolve_self hfound

theorem applyAll_fieldsResolved (hp : FieldsResolved schema p.expressions)
    (hsteps : FieldsResolved schema (steps.flatMap Step.expressions)) (h : p.applyAll schema steps = .ok next) :
    next.root = p.root ∧ FieldsResolved schema next.expressions := by
  induction steps generalizing p with
  | nil =>
    obtain rfl := Except.ok.inj h
    exact ⟨rfl, hp⟩
  | cons step rest ih =>
    rw [applyAll_cons] at h
    obtain ⟨q, hq, hnext⟩ := ok_of_bind h
    have hstep : FieldsResolved schema step.expressions := fun e he =>
      hsteps e (List.mem_append_left _ he)
    have hrest : FieldsResolved schema (rest.flatMap Step.expressions) := fun e he =>
      hsteps e (List.mem_append_right _ he)
    obtain ⟨hroot, hnextResolved⟩ := ih (apply_fieldsResolved hp hstep hq) hrest hnext
    exact ⟨hroot.trans (apply_extends hq).1, hnextResolved⟩

end Steps

/-! ## Two filters in either order -/

section Either

variable {schema : Schema} {d : Sql.Dialect} {p q : Plan} {x y : Expr} {steps : List Step}

/-- After the same later steps, two filters taken in either order are neighbours, in that order. -/
theorem applyAll_either (hroot : schema.entity p.root.name = .ok p.root)
    (hresolved : FieldsResolved schema (p.expressions ++ x :: y :: steps.flatMap Step.expressions))
    (h : ((p.filter x).filter y).applyAll schema steps = .ok q) :
    ∃ after, q.filters = p.filters ++ [x, y] ++ after ∧
      ((p.filter y).filter x).applyAll schema steps = .ok (q.withFilters (p.filters ++ [y, x] ++ after)) ∧
      schema.entity q.root.name = .ok q.root ∧ FieldsResolved schema q.expressions := by
  have hfilters : ∀ x y, ((p.filter x).filter y).filters = p.filters ++ [x, y] := fun x y =>
    List.append_assoc p.filters [x] [y]
  have hother : (p.filter y).filter x = ((p.filter x).filter y).withFilters (p.filters ++ [y, x]) := by
    rw [← hfilters y x]
    rfl
  obtain ⟨after, hafter, happly⟩ := applyAll_filters h
  have hstart : FieldsResolved schema ((p.filter x).filter y).expressions := by
    intro e he
    refine hresolved e ?_
    simp only [expressions, filter, List.mem_append, List.mem_cons] at he ⊢
    tauto
  have hsteps : FieldsResolved schema (steps.flatMap Step.expressions) := fun e he =>
    hresolved e (by simp [he])
  obtain ⟨hsame, hq⟩ := applyAll_fieldsResolved hstart hsteps h
  refine ⟨after, by rw [hafter, hfilters], hother ▸ happly _, ?_, hq⟩
  rw [hsame]
  exact hroot

/-- When one of a plan's three statements is compiled, its rows can be selected. -/
theorem rowSelection_of_isOk (h : (q.compile schema d).isOk ∨ (q.compileCount schema d).isOk ∨
    (q.compileExists schema d).isOk) : ∃ selection, q.rowSelection schema = .ok selection := by
  cases hselection : q.rowSelection schema with
  | ok selection => exact ⟨selection, rfl⟩
  | error failure =>
    have hrows : q.select schema .rows none 0 = .error failure := by
      rw [rowSelection] at hselection
      cases hselect : q.select schema .rows none 0 with
      | ok selected =>
        rw [hselect] at hselection
        cases hselection
      | error other =>
        rw [hselect] at hselection
        exact congrArg _ (Except.error.inj hselection)
    have hreduced : ∀ {purpose column}, Purpose.reduced purpose = some column →
        q.select schema purpose none 0 = .error failure := fun hcolumn => by
      rw [select_reduced schema hcolumn, hrows]
      rfl
    rcases h with h | h | h
    · rw [compile, hselection] at h
      cases h
    · rw [compileCount, countQuery, hreduced rfl] at h
      cases h
    · rw [compileExists, existsQuery, hreduced rfl] at h
      cases h

/-- A plan that takes two filters in one order has the statements of the plan that takes them in the other. -/
theorem statements_either (hroot : schema.entity p.root.name = .ok p.root)
    (hresolved : FieldsResolved schema (p.expressions ++ x :: y :: steps.flatMap Step.expressions))
    (h : ((p.filter x).filter y).applyAll schema steps = .ok q)
    (hany : (q.compile schema d).isOk ∨ (q.compileCount schema d).isOk ∨ (q.compileExists schema d).isOk) :
    ∃ q', ((p.filter y).filter x).applyAll schema steps = .ok q' ∧
      ∃ (ρ : Equiv.Perm String) (nodes nodes' : List JoinNode), SameStatements schema d q q' ρ nodes nodes' := by
  obtain ⟨after, hafter, hother, hschema, hfields⟩ := applyAll_either hroot hresolved h
  obtain ⟨selection, hselection⟩ := rowSelection_of_isOk hany
  exact ⟨_, hother, statements_crossed d hafter hschema hfields hselection⟩

/-- What is made of one outcome is made of another, if it is made of the plan there. -/
theorem isOk_bind {α : Type} {first second : Except QueryError Plan} {make : Plan → Except QueryError α}
    (hmake : ∀ q, first = .ok q → ∀ made, make q = .ok made → ∃ q', second = .ok q' ∧ ∃ made', make q' = .ok made')
    (h : (first >>= make).isOk = true) : (second >>= make).isOk = true := by
  cases hfirst : first with
  | error failure =>
    rw [hfirst] at h
    cases h
  | ok q =>
    cases hmade : make q with
    | error failure =>
      have herror : (first >>= make) = .error failure := by
        rw [hfirst]
        exact hmade
      rw [herror] at h
      cases h
    | ok made =>
      obtain ⟨q', hsecond, made', hmade'⟩ := hmake q hfirst made hmade
      have hok : (second >>= make) = .ok made' := by
        rw [hsecond]
        exact hmade'
      rw [hok]
      rfl

/-- What compiles after two filters compiles after the same filters in the other order. -/
theorem isOk_either (d : Sql.Dialect) (hroot : schema.entity p.root.name = .ok p.root)
    (hresolved : FieldsResolved schema (p.expressions ++ x :: y :: steps.flatMap Step.expressions)) :
    let first := ((p.filter x).filter y).applyAll schema steps
    let second := ((p.filter y).filter x).applyAll schema steps
    ((first >>= compile schema d).isOk = true → (second >>= compile schema d).isOk = true) ∧
    ((first >>= compileCount schema d).isOk = true → (second >>= compileCount schema d).isOk = true) ∧
    ((first >>= compileExists schema d).isOk = true → (second >>= compileExists schema d).isOk = true) := by
  refine ⟨isOk_bind fun q hq made hmade => ?_, isOk_bind fun q hq made hmade => ?_, isOk_bind fun q hq made hmade => ?_⟩
  · have hok : (q.compile schema d).isOk = true := by rw [hmade]; rfl
    obtain ⟨q', hq', ρ, nodes, nodes', hsame⟩ := statements_either hroot hresolved hq (.inl hok)
    obtain ⟨made', -, -, hmade', -⟩ := hsame.rows made hmade
    exact ⟨q', hq', made', hmade'⟩
  · have hok : (q.compileCount schema d).isOk = true := by rw [hmade]; rfl
    obtain ⟨q', hq', ρ, nodes, nodes', hsame⟩ := statements_either hroot hresolved hq (.inr (.inl hok))
    obtain ⟨made', -, -, hmade', -⟩ := hsame.count made hmade
    exact ⟨q', hq', made', hmade'⟩
  · have hok : (q.compileExists schema d).isOk = true := by rw [hmade]; rfl
    obtain ⟨q', hq', ρ, nodes, nodes', hsame⟩ := statements_either hroot hresolved hq (.inr (.inr hok))
    obtain ⟨made', -, -, hmade', -⟩ := hsame.existsRow made hmade
    exact ⟨q', hq', made', hmade'⟩

/-- Filters commute: whichever of two filters a plan takes first, after the same later steps the same statements compile,
and they are the same under a bijective renaming of their tables, but for the order of joins and conditions. -/
theorem filters_commute (schema : Schema) (d : Sql.Dialect) (p : Plan) (x y : Expr) (steps : List Step)
    (hroot : schema.entity p.root.name = .ok p.root)
    (hresolved : FieldsResolved schema (p.expressions ++ x :: y :: steps.flatMap Step.expressions)) :
    let first := ((p.filter x).filter y).applyAll schema steps
    let second := ((p.filter y).filter x).applyAll schema steps
    (first >>= compile schema d).isOk = (second >>= compile schema d).isOk ∧
    (first >>= compileCount schema d).isOk = (second >>= compileCount schema d).isOk ∧
    (first >>= compileExists schema d).isOk = (second >>= compileExists schema d).isOk ∧
    ∀ q, first = .ok q →
      (q.compile schema d).isOk ∨ (q.compileCount schema d).isOk ∨ (q.compileExists schema d).isOk →
      ∃ q', second = .ok q' ∧
        ∃ (ρ : Equiv.Perm String) (nodes nodes' : List JoinNode), SameStatements schema d q q' ρ nodes nodes' := by
  intro first second
  have hresolved' : FieldsResolved schema (p.expressions ++ y :: x :: steps.flatMap Step.expressions) := by
    intro e he
    refine hresolved e ?_
    simp only [List.mem_append, List.mem_cons] at he ⊢
    tauto
  obtain ⟨hrows, hcount, hexists⟩ := isOk_either d hroot hresolved
  obtain ⟨hrows', hcount', hexists'⟩ := isOk_either d hroot hresolved'
  refine ⟨Bool.eq_iff_iff.2 ⟨hrows, hrows'⟩, Bool.eq_iff_iff.2 ⟨hcount, hcount'⟩, Bool.eq_iff_iff.2 ⟨hexists, hexists'⟩,
    fun q hq hany => ?_⟩
  exact statements_either hroot hresolved hq hany

/-- The first filter joins the blogs by an outer join, which a later one makes an inner one; the second has a table of
its own, whose name comes before or after that of the blogs. -/
theorem filters_commute_nested :
    let rated : Expr := .isNull (.field sampleRating) true
    let kept : Expr := .existsRow sampleInnerPlan false
    let later : List Step := [.filter sampleRated, .orderBy "blog.rating" .desc, .distinct]
    ∃ q q', (((ofEntity sampleEntry).filter rated).filter kept).applyAll sampleSchema later = .ok q ∧
      (((ofEntity sampleEntry).filter kept).filter rated).applyAll sampleSchema later = .ok q' ∧
      (q.compile sampleSchema .sqlite).isOk = true ∧
      ∃ (ρ : Equiv.Perm String) (nodes nodes' : List JoinNode),
        SameStatements sampleSchema .sqlite q q' ρ nodes nodes' := by
  intro rated kept later
  have hresolved : FieldsResolved sampleSchema
      ((ofEntity sampleEntry).expressions ++ rated :: kept :: later.flatMap Step.expressions) := by
    intro e he ref href
    have hrefs : ref = sampleRating := by
      have hread : ((ofEntity sampleEntry).expressions ++ rated :: kept :: later.flatMap Step.expressions).flatMap
          Expr.fieldRefs = [sampleRating, sampleRating] := rfl
      simpa [hread] using List.mem_flatMap_of_mem he href
    rw [hrefs]
    rfl
  obtain ⟨-, -, -, hboth⟩ := filters_commute sampleSchema .sqlite (ofEntity sampleEntry) rated kept later rfl hresolved
  obtain ⟨q', hq', hsame⟩ := hboth _ rfl (.inl rfl)
  exact ⟨_, q', rfl, hq', rfl, hsame⟩

end Either

end Plan

end RelQuery
