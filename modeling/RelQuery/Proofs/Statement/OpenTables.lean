/-
The table that statements nested in an UPDATE or a DELETE read from outside.

A statement that changes rows gives its table no other name, so what is nested in it reads the changed row under the
table's own name, while the tables of nested statements take the numbered names. The row stays in reach as long as no
table of a nested statement is given the name of the target table (`OpenTo.reaches`), and the first one always takes
the next number (`OpenTo.own`).
- `outer_mem_leaves`: where a field of the enclosing row is asked for, its column is read under the row's name.
- `StatesIn.openTo`: a statement compiled inside a row.
- `inChanges_openTo`: all statements nested in a change, in its conditions and in its values.
- `owners_delete`: a family of changes whose nested statements take all numbers up to any one.
- `outer_references_reach`: no such statement hides the changed row, for any plan, exactly if the target table has a
  name that is never given out.
-/
import RelQuery.Proofs.Statement.Origins

namespace RelQuery

open Sql (Leaf Query)

namespace Plan

/-! ## Fields of the enclosing row -/

section Asked

variable {p : Plan} {schema : Schema}

/-- A field of the enclosing row that an expression refers to, also by way of an alias, is read under the row's name. -/
theorem outer_mem_leaves {scope : Scope} {steps : Nat} {name : String} {e node : Expr} (hreach : p.Reaches e node)
    (hnode : node = .outer name) {role : Role} {s s' : JoinState} {x : Sql.Expr}
    (h : e.lower scope (p.fragments.expand scope steps) role s = .ok (x, s')) :
    ∃ o f, scope.outer = some o ∧ o.entity.field name = some f ∧ .column (some o.name, f.name) ∈ x.leaves := by
  induction hreach generalizing steps role s s' x with
  | part hmem =>
    subst hnode
    obtain ⟨t, y, t', hy, hsubset⟩ := (Expr.lower_resolves _ h).of_mem (Expr.outer_mem_references hmem role)
    obtain ⟨-, o, f, ho, hf, rfl⟩ := Scope.outerColumn_ok hy
    exact ⟨o, f, ho, hf, hsubset (List.mem_singleton.2 rfl)⟩
  | through hname hinner _ ih =>
    obtain ⟨asked, hasked⟩ := Expr.aliased_mem_references hname role
    obtain ⟨t, y, t', hy, hsubset⟩ := (Expr.lower_resolves _ h).of_mem hasked
    cases steps with
    | zero => cases hy
    | succ steps =>
      obtain ⟨own, hown, hlower⟩ := expand_ok hy
      obtain rfl := Option.some.inj (hinner.symm.trans hown)
      obtain ⟨o, f, ho, hf, hmem⟩ := ih hnode hlower
      exact ⟨o, f, ho, hf, hsubset hmem⟩

namespace Compilation

variable {c : p.Compilation schema} {q : Query}

/-- Each filter is compiled to its condition. -/
theorem exists_condition (c : p.Compilation schema) {e : Expr} (he : e ∈ p.filters) {scope : Scope}
    (hscope : scope = .ofSelect schema p.root (tableAlias c.next) c.outer) : ∃ x, (e, x) ∈ p.filters.zip c.conditions ∧
      ∃ role s s', e.lower scope (p.fragments.expansion scope) role s = .ok (x, s') := by
  subst hscope
  obtain ⟨hfirst, -⟩ := forall₂_append_inj (lowerAll_forall₂ c.lower) (by simp [c.results_length, c.conditions_length])
  obtain ⟨-, hfilters⟩ := forall₂_append_inj hfirst (by simp [c.results_length])
  obtain ⟨x, hx, s, s', hlower⟩ := exists_of_forall₂ (List.forall₂_map_left_iff.1 hfilters) he
  exact ⟨x, hx, _, s, s', hlower⟩

/-- A condition stands in WHERE or in HAVING. -/
theorem mem_leaves_of_condition {r : Query} (hcondition : r.condition = c.query.condition)
    (hhaving : r.having = c.query.having) {e : Expr} {x : Sql.Expr} (hx : (e, x) ∈ p.filters.zip c.conditions)
    {leaf : Leaf} (hleaf : leaf ∈ x.leaves) : leaf ∈ r.leaves := by
  have hmem : (p.exprAggregates e, x) ∈
      List.zipWith (fun e condition => (p.exprAggregates e, condition)) p.filters c.conditions := by
    rw [← List.map_uncurry_zip_eq_zipWith]
    exact List.mem_map.2 ⟨_, hx, rfl⟩
  have hstands : (∃ y ∈ r.condition, leaf ∈ y.leaves) ∨ ∃ y ∈ r.having, leaf ∈ y.leaves := by
    rw [hcondition, hhaving]
    refine (Bool.eq_false_or_eq_true (p.exprAggregates e)).symm.imp (fun hplain => ?_) fun haggregates => ?_
    · exact mem_conjunction_leaves.2 ⟨x, List.mem_map.2 ⟨_, List.mem_filter.2 ⟨hmem, by simp [hplain]⟩, rfl⟩, hleaf⟩
    · exact mem_conjunction_leaves.2 ⟨x, List.mem_map.2 ⟨_, List.mem_filter.2 ⟨hmem, haggregates⟩, rfl⟩, hleaf⟩
  rcases hstands with ⟨y, hy, hleaf⟩ | ⟨y, hy, hleaf⟩
  all_goals
    have htest := Option.mem_toList.2 hy
    exact List.mem_flatMap.2 ⟨y, by simp [Query.expressions, htest], hleaf⟩

/-- What a plan is compiled to starts from a table with the next name. -/
theorem Gives.introduces (h : c.Gives q) : q.Introduces (tableAlias c.next) := by
  have hroot : tableAlias c.next ∈ c.query.names := List.mem_append_left _ List.mem_cons_self
  cases h with
  | own => exact ⟨_, .refl _, hroot⟩
  | reduced hreduced _ => exact ⟨_, .refl _, (c.reduced_part (leaves_of_reduced hreduced)).names_eq ▸ hroot⟩
  | around name _ _ _ => exact .derived rfl ⟨_, .refl _, c.counted_part.names_eq ▸ hroot⟩

/-- What a plan is compiled to reads what its filters read. -/
theorem Gives.reads (h : c.Gives q) {e : Expr} {x : Sql.Expr} (hx : (e, x) ∈ p.filters.zip c.conditions)
    {column : Sql.ColumnName} (hcolumn : .column column ∈ x.leaves) : q.Reads column := by
  have hkept : c.counted.condition = c.query.condition ∧ c.counted.having = c.query.having := by
    unfold counted
    split <;> exact ⟨rfl, rfl⟩
  cases h with
  | own => exact .own (mem_leaves_of_condition rfl rfl hx hcolumn)
  | @reduced _ only _ _ =>
    have hreduced := mem_leaves_of_condition (r := c.reduced only) hkept.1 hkept.2 hx hcolumn
    exact .own hreduced
  | around name _ _ _ => exact .derived rfl (.own (mem_leaves_of_condition hkept.1 hkept.2 hx hcolumn))

end Compilation

end Asked

/-! ## Statements nested in a change -/

/-- A statement inside a row reaches the row: no table in it, at any depth, has the name of the row's table. Whatever it
mentions is of a table in it, or a field of the row that it reads itself and not in a statement nested further. -/
structure ReachesOut (o : Outer) (q : Query) : Prop where
  unhidden : ¬q.Introduces o.name
  columns : ∀ c, q.Mentions c → (∃ name, c.1 = some name ∧ q.Introduces name) ∨
    (c.1 = some o.name ∧ q.Reads c ∧ ∃ f ∈ o.entity.fields, f.name = c.2)

/-- The statement of a plan inside a row. Fields of the row that the plan's filters refer to are read under the name of
the row's table. Its own tables have the names with numbers from `first` on, up to `last`, and it reaches the row unless
one of these is the name of the row's table. -/
structure OpenTo (p : Plan) (o : Outer) (first last : Nat) (q : Query) : Prop where
  asked : ∀ e ∈ p.filters, ∀ name, p.Reaches e (.outer name) →
    ∃ f, o.entity.field name = some f ∧ q.Reads (some o.name, f.name)
  own : q.Introduces (tableAlias first)
  introduced : ∀ name, q.Introduces name → ∃ m, first ≤ m ∧ m < last ∧ name = tableAlias m
  wellScoped : q.WellScoped [] (some o.name)
  reaches : (∀ m, first ≤ m → m < last → o.name ≠ tableAlias m) → ReachesOut o q

variable {p : Plan} {schema : Schema}

/-- A statement that is scoped inside a row reaches the row unless one of its names is that of the row's table. -/
theorem reachesOut_of_scoped {fields : List String} {o : Outer} {first last : Nat} {q : Query}
    (h : Scoped fields (some o) first last q) (hapart : ∀ m, first ≤ m → m < last → o.name ≠ tableAlias m) :
    ReachesOut o q where
  unhidden hintro := by
    obtain ⟨m, hfirst, hlast, hname⟩ := h.introduced o.name hintro
    exact hapart m hfirst hlast hname
  columns c hc := by
    have hscoped : q.WellScoped [] (some o.name) := h.wellScoped [] fun _ _ _ => List.not_mem_nil
    refine (hscoped.mentions hc).imp_right fun ⟨hreads, name, hopen, hqualifier⟩ => ⟨hqualifier, hreads, ?_⟩
    rcases h.reads c hreads with ⟨m, hfirst, hlast, hnumbered⟩ | ⟨o', ho, -, name', -, f, hf, hcolumn⟩
    · exact absurd (Option.some.inj (hqualifier.symm.trans hnumbered)) (hapart m hfirst hlast)
    · obtain rfl := Option.some.inj ho
      exact ⟨f, Entity.mem_of_field hf, hcolumn⟩

theorem StatesIn.openTo {scope : Scope} {q : Query} (h : p.StatesIn scope q) :
    ∃ first last, OpenTo p scope.asOuter first last q := by
  obtain ⟨-, purpose, next, selection, n, hselect, rfl⟩ := h
  have hscoped := scoped_anywhere hselect
  obtain ⟨c, houter, rfl, hgives⟩ := select_gives hselect
  refine ⟨c.next, n, fun e he name hreach => ?_, hgives.introduces, hscoped.introduced,
    hscoped.wellScoped [] fun _ _ _ => List.not_mem_nil, reachesOut_of_scoped hscoped⟩
  obtain ⟨x, hx, role, s, s', hlower⟩ := c.exists_condition he rfl
  rw [expansion_eq] at hlower
  obtain ⟨o, f, ho, hf, hmem⟩ := outer_mem_leaves hreach rfl hlower
  obtain rfl : o = scope.asOuter := Option.some.inj (ho.symm.trans houter)
  exact ⟨f, hf, hgives.reads hx hmem⟩

/-! ## Conditions and values -/

/-- Each statement nested in an expression stands to one of these plans in a certain way. -/
def Nests (A : Plan → Query → Prop) (plans : List Plan) (x : Sql.Expr) : Prop :=
  ∀ q, .statement q ∈ x.leaves → ∃ plan ∈ plans, A plan q

/-- The condition of a change tests rows, with statements that stand to the nested plans in a certain way, or takes the
rows with keys that a closed statement gives. -/
inductive Conditions (p : Plan) (A : Plan → Query → Prop) : Option Sql.Expr → Prop
  | direct {condition : Option Sql.Expr} : p.needsKeys = false → (∀ x ∈ condition, Nests A p.subplans x) →
    Conditions p A condition
  | keyed {q : Query} : p.needsKeys = true → q.WellScoped [] none →
    Conditions p A (some (.inQuery (.column none p.root.primaryKey) q false))

/-- All statements nested in what a plan's UPDATE and DELETE are compiled to stand to the nested plans in a certain way,
apart from the one that gives keys. -/
structure InChanges (schema : Schema) (d : Sql.Dialect) (p : Plan) (A : Plan → Query → Prop) : Prop where
  update : ∀ assignments statement, p.compileUpdate schema d assignments = .ok statement →
    ∃ tree, p.update schema assignments = .ok tree ∧ statement = .ofTokens d (tree.tokens d) [] ∧
      tree.table = p.root.table ∧
      (∀ a ∈ tree.assignments, ∃ asked ∈ assignments, Nests A (asked.2.subplans ++ p.subplans) a.2) ∧
      p.Conditions A tree.condition
  delete : ∀ statement, p.compileDelete schema d = .ok statement →
    ∃ tree, p.delete schema = .ok tree ∧ statement = .ofTokens d (tree.tokens d) [] ∧
      tree.table = p.root.table ∧ p.Conditions A tree.condition

section Mono

variable {A B : Plan → Query → Prop} (himp : ∀ plan q, A plan q → B plan q)

include himp

theorem Nests.mono {plans more : List Plan} (hplans : plans ⊆ more) {x : Sql.Expr} (h : Nests A plans x) :
    Nests B more x := fun q hq =>
  (h q hq).imp fun plan ⟨hplan, hq⟩ => ⟨hplans hplan, himp plan q hq⟩

theorem Conditions.mono {condition : Option Sql.Expr} (h : p.Conditions A condition) : p.Conditions B condition := by
  cases h with
  | direct hneeds hnested => exact .direct hneeds fun x hx => (hnested x hx).mono himp (List.Subset.refl _)
  | keyed hneeds hclosed => exact .keyed hneeds hclosed

theorem InChanges.mono {d : Sql.Dialect} (h : p.InChanges schema d A) : p.InChanges schema d B where
  update assignments statement hstatement := by
    obtain ⟨tree, htree, htext, htable, hvalues, hcondition⟩ := h.update assignments statement hstatement
    refine ⟨tree, htree, htext, htable, fun a ha => ?_, hcondition.mono himp⟩
    obtain ⟨asked, hasked, hnested⟩ := hvalues a ha
    exact ⟨asked, hasked, hnested.mono himp (List.Subset.refl _)⟩
  delete statement hstatement := by
    obtain ⟨tree, htree, htext, htable, hcondition⟩ := h.delete statement hstatement
    exact ⟨tree, htree, htext, htable, hcondition.mono himp⟩

end Mono

/-- The statement of a nested plan is open to the row of a plan's root, under the name of its table. -/
def OpenToChanged (p : Plan) (plan : Plan) (q : Query) : Prop :=
  ∃ first last, plan.OpenTo ⟨p.root.table, p.root⟩ first last q

/-- What is nested in a compiled filter or value of a change has the changed row around it. -/
theorem lowerInChange_openTo {e : Expr} {s s' : JoinState} {x : Sql.Expr}
    (h : p.lowerInChange schema e.lower s = .ok (x, s')) : Nests p.OpenToChanged (e.subplans ++ p.subplans) x := by
  intro q hq
  obtain ⟨plan, hplan, hstates⟩ := lower_statement h hq
  exact ⟨plan, List.mem_append.2 hplan, hstates.openTo⟩

theorem lowerCondition_openTo {keys : Option Query} {n : Nat} (hkeys : p.keyQuery schema = .ok (keys, n))
    {s s' : JoinState} {condition : Option Sql.Expr} (h : p.lowerCondition schema keys s = .ok (condition, s')) :
    p.Conditions p.OpenToChanged condition := by
  obtain ⟨hneeds, tests, t, htests, rfl⟩ | ⟨hneeds, selection, hselection, rfl⟩ := lowerCondition_cases hkeys h
  · refine .direct hneeds fun x hx q hq => ?_
    obtain ⟨test, htest, hleaf⟩ := mem_conjunction_leaves.1 ⟨x, hx, hq⟩
    obtain ⟨e, he, t, t', hlower⟩ := Lowering.mem_of_mapM_ok htests htest
    have hsubplans := List.append_subset.2 ⟨subplans_subset_of_filter he, List.Subset.refl p.subplans⟩
    exact (lowerInChange_openTo hlower).mono (fun _ _ hopen => hopen) hsubplans q hleaf
  · obtain ⟨n, hselect⟩ := select_of_rowSelection hselection
    exact .keyed hneeds ((scoped_anywhere hselect).wellScoped [] fun _ _ _ => List.not_mem_nil)

theorem update_table {assignments : List (String × Expr)} {tree : Sql.Update}
    (h : p.update schema assignments = .ok tree) : tree.table = p.root.table := by
  obtain ⟨⟨keys, next⟩, -, hmore⟩ := ok_of_bind h
  obtain ⟨⟨tree, s⟩, hrun, rfl⟩ := map_ok hmore
  obtain ⟨assigned, condition, s₁, -, -, rfl⟩ := Lowering.bind₂_pure_ok hrun
  rfl

theorem delete_table {tree : Sql.Delete} (h : p.delete schema = .ok tree) : tree.table = p.root.table := by
  obtain ⟨⟨keys, next⟩, -, hmore⟩ := ok_of_bind h
  obtain ⟨condition, -, hpure⟩ := ok_of_bind hmore
  obtain rfl := Except.ok.inj hpure
  rfl

/-- The statements nested in the changes of a plan are all open to the changed row. -/
theorem inChanges_openTo (schema : Schema) (d : Sql.Dialect) (p : Plan) : p.InChanges schema d p.OpenToChanged where
  update assignments statement h := by
    obtain ⟨tree, htree, htext⟩ := compileUpdate_ok h
    obtain ⟨keys, next, s, s', hkeys, hcondition, hassigned⟩ := update_ok htree
    refine ⟨tree, htree, htext, update_table htree, fun a ha => ?_, lowerCondition_openTo hkeys hcondition⟩
    obtain ⟨asked, hasked, t, t', -, hlower⟩ := hassigned a ha
    exact ⟨asked, hasked, lowerInChange_openTo hlower⟩
  delete statement h := by
    obtain ⟨tree, htree, htext⟩ := compileDelete_ok h
    obtain ⟨keys, next, s, s', hkeys, hcondition⟩ := delete_ok htree
    exact ⟨tree, htree, htext, delete_table htree, lowerCondition_openTo hkeys hcondition⟩

/-! ## Tables with a name that is given out -/

/-- the entries of the blog around them -/
def sampleOwned : Plan :=
  { ofEntity sampleEntry with
    filters := [.binary .eq (.field ⟨"entry", "blog_id", [], ⟨"blog_id", .int, true⟩⟩) (.outer "id")] }

/-- blogs that have entries, in a table of any name; a number of filters ask for the same -/
def sampleOwners (table : String) (count : Nat) : Plan :=
  { ofEntity { sampleBlog with table } with filters := List.replicate count (.existsRow sampleOwned false) }

/-- the entries of a blog, where their table is given the number `n` -/
def sampleOwnedQuery (table : String) (n : Nat) : Query :=
  { Query.selecting [⟨.int 1, none⟩] with
    source := some (.table ⟨"entries", some (tableAlias n)⟩)
    condition := some (.binary .eq (.columnOf (tableAlias n) "blog_id") (.columnOf table "id")) }

/-- the condition that a blog has entries, where their table is given the number `n` -/
def sampleTest (table : String) (n : Nat) : Sql.Expr := .existsRow (sampleOwnedQuery table n) false

section Owners

variable (table : String) (count : Nat)

theorem lower_owned (s : JoinState) :
    (sampleOwners table count).lowerInChange sampleSchema (Expr.existsRow sampleOwned false).lower s =
      .ok (sampleTest table s.next, { s with next := s.next + 1 }) := rfl

/-- One filter after another takes the next number. -/
theorem lower_owners : (k : Nat) → (s : JoinState) →
    (List.replicate k (Expr.existsRow sampleOwned false)).mapM
        (fun e => (sampleOwners table count).lowerInChange sampleSchema e.lower) s =
      .ok ((List.range' s.next k).map (sampleTest table), { s with next := s.next + k })
  | 0, _ => rfl
  | k + 1, s => by
    rw [List.replicate_succ, List.mapM_cons, Lowering.bind_eq (lower_owned table count s),
      Lowering.bind_eq (lower_owners k _), List.range'_succ, List.map_cons, Nat.add_right_comm]
    rfl

theorem owners_direct : (sampleOwners table count).needsKeys = false := by
  rw [needsKeys, Bool.or_eq_false_iff, List.any_eq_false]
  refine ⟨rfl, fun e he => ?_⟩
  obtain rfl := List.eq_of_mem_replicate he
  exact Bool.false_ne_true

theorem owners_delete : (sampleOwners table count).delete sampleSchema =
    .ok ⟨table, Sql.Expr.conjunction ((List.range' 0 count).map (sampleTest table))⟩ := by
  have hkeys : (sampleOwners table count).keyQuery sampleSchema = .ok (none, 0) := by
    rw [keyQuery, owners_direct]
    rfl
  have hfragments : (sampleOwners table count).fragments.filters =
      (List.replicate count (Expr.existsRow sampleOwned false)).map fun e => (e, e.lower) := filterFragments_eq _
  have hcondition : (sampleOwners table count).lowerCondition sampleSchema none { next := 0 } =
      .ok (Sql.Expr.conjunction ((List.range' 0 count).map (sampleTest table)), { next := 0 + count }) := by
    rw [lowerCondition, hfragments, List.mapM_map]
    exact Lowering.bind_eq (lower_owners table count count { next := 0 }) _
  have hrun : ((sampleOwners table count).lowerCondition sampleSchema none).run' { next := 0 } =
      .ok (Sql.Expr.conjunction ((List.range' 0 count).map (sampleTest table))) :=
    congrArg (Except.map Prod.fst) hcondition
  rw [delete, hkeys]
  exact congrArg (Except.map (Sql.Delete.mk table)) hrun

theorem owners_subplans {plan : Plan} (h : plan ∈ (sampleOwners table count).subplans) : plan = sampleOwned := by
  obtain ⟨e, he, hplan⟩ := List.mem_flatMap.1 h
  have hfilter : e ∈ List.replicate count (Expr.existsRow sampleOwned false) := by
    simpa [expressions, sampleOwners, ofEntity] using he
  obtain rfl := List.eq_of_mem_replicate hfilter
  exact List.mem_singleton.1 hplan

/-- The DELETE has each of the conditions, so what holds in all changes holds of the statements in them. -/
theorem owners_nested {d : Sql.Dialect} {A : Plan → Query → Prop}
    (h : (sampleOwners table count).InChanges sampleSchema d A) {n : Nat} (hn : n < count) :
    A sampleOwned (sampleOwnedQuery table n) := by
  have hdelete := owners_delete table count
  obtain ⟨tree, htree, -, -, hcondition⟩ := h.delete _ (by rw [compileDelete, hdelete]; rfl)
  obtain rfl := Except.ok.inj (hdelete.symm.trans htree)
  have hstands : ∃ e ∈ (List.range' 0 count).map (sampleTest table),
      .statement (sampleOwnedQuery table n) ∈ e.leaves :=
    ⟨sampleTest table n, List.mem_map_of_mem (List.mem_range'_1.2 (by omega)), List.mem_singleton.2 rfl⟩
  obtain ⟨x, hx, hleaf⟩ := mem_conjunction_leaves.2 hstands
  generalize hmade : Sql.Expr.conjunction _ = condition at hcondition hx
  cases hcondition with
  | direct _ hstatements =>
    obtain ⟨plan, hplan, hA⟩ := hstatements x hx _ hleaf
    obtain rfl := owners_subplans table count hplan
    exact hA
  | keyed hneeds => exact absurd ((owners_direct table count).symm.trans hneeds) Bool.false_ne_true

end Owners

/-- Every statement nested in a filter or a value of an UPDATE or a DELETE is open to the changed row under the name of
its table. That name reaches the row from all of them, whatever the plan for the table, exactly if it is never given
out to a nested table. -/
theorem outer_references_reach (table : String) :
    (∀ (schema : Schema) (d : Sql.Dialect) (p : Plan), p.root.table = table →
      p.InChanges schema d fun plan q => ∃ first last, plan.OpenTo ⟨table, p.root⟩ first last q) ∧
      ((∀ (schema : Schema) (d : Sql.Dialect) (p : Plan), p.root.table = table →
        p.InChanges schema d fun _ q => ReachesOut ⟨table, p.root⟩ q) ↔ ∀ m, table ≠ tableAlias m) := by
  have hopen : ∀ (schema : Schema) (d : Sql.Dialect) (p : Plan), p.root.table = table →
      p.InChanges schema d fun plan q => ∃ first last, plan.OpenTo ⟨table, p.root⟩ first last q := by
    rintro schema d p rfl
    exact inChanges_openTo schema d p
  refine ⟨hopen, fun h m hm => ?_, fun htable schema d p hp => (hopen schema d p hp).mono ?_⟩
  · -- enough filters for the number of the table
    have hreaches := owners_nested table (m + 1) (h sampleSchema .sqlite (sampleOwners table (m + 1)) rfl)
      (Nat.lt_succ_self m)
    exact hreaches.unhidden ⟨_, .refl _, List.mem_singleton.2 hm⟩
  · rintro plan q ⟨first, last, hq⟩
    exact hq.reaches fun m _ _ => htable m

/-- The table of the deleted blogs is named like the one that their entries are given: an entry is compared with
itself. -/
theorem outer_references_hidden :
    ∃ x q, (sampleOwners "t0" 1).delete sampleSchema = .ok ⟨"t0", some x⟩ ∧ .statement q ∈ x.leaves ∧
      .column (some "t0", "id") ∈ q.leaves ∧ q.Introduces "t0" :=
  ⟨sampleTest "t0" 0, sampleOwnedQuery "t0" 0, owners_delete "t0" 1, List.mem_singleton.2 rfl,
    List.mem_cons_of_mem _ List.mem_cons_self, _, .refl _, List.mem_singleton.2 rfl⟩

/-- In a table of another name the blogs are reached. -/
theorem outer_references_reach_blogs :
    ∃ x q, (sampleOwners "blogs" 1).delete sampleSchema = .ok ⟨"blogs", some x⟩ ∧ .statement q ∈ x.leaves ∧
      .column (some "blogs", "id") ∈ q.leaves ∧ ReachesOut ⟨"blogs", sampleBlog⟩ q := by
  have htable : ∀ m, "blogs" ≠ tableAlias m := fun m h => by
    have hfirst := congrArg (fun s => s.toList.head?) h
    simp [tableAlias] at hfirst
  have hchanges := (outer_references_reach "blogs").2.2 htable sampleSchema .sqlite (sampleOwners "blogs" 1) rfl
  exact ⟨sampleTest "blogs" 0, sampleOwnedQuery "blogs" 0, owners_delete "blogs" 1, List.mem_singleton.2 rfl,
    List.mem_cons_of_mem _ List.mem_cons_self, owners_nested "blogs" 1 hchanges Nat.zero_lt_one⟩

end Plan

end RelQuery
