/-
Lists and parentheses of compiled statements.

In whatever a plan is compiled to, parentheses match and every list that SQL wants to have an item has one, apart from
two: nothing stops a plan from projecting no names, and its statement then selects no column, and nothing stops an UPDATE
from assigning nothing (`Statement.Grammatical`). A number or an existence asked of a plan without columns is selected
over its rows only when the plan is grouped, distinct or paged.
- `Plan.selectsColumn_iff`: which plans have a column.
- `Plan.statements_grammatical`: the five kinds of statements of a plan.
-/
import RelQuery.Proofs.Sql.Filled
import RelQuery.Proofs.Statement.ChangedRows

namespace RelQuery

open Sql.Token (Balanced Filled Item Linked Sound asksAny asksOther)

/-! ## Plans with columns -/

theorem eq_nil_of_mapM_ok {ε α β : Type} {f : α → Except ε β} {as : List α} (h : as.mapM f = .ok []) : as = [] := by
  cases as with
  | nil => rfl
  | cons a rest =>
    rw [List.mapM_cons] at h
    obtain ⟨first, -, hmore⟩ := ok_of_bind h
    obtain ⟨more, -, hpure⟩ := ok_of_bind hmore
    cases hpure

namespace Plan

/-- whether the statement of a plan's rows has a column, if there is such a statement -/
def SelectsColumn (schema : Schema) (p : Plan) : Prop := ¬∃ shape, p.outputs schema .rows = .ok ([], shape)

/-- A plan without outputs projects no names, or its entity has no fields. -/
theorem outputs_eq_nil {schema : Schema} {p : Plan} {purpose : Purpose} {shape : ResultShape}
    (h : p.outputs schema purpose = .ok ([], shape)) :
    purpose ≠ .scalar ∧ (p.projection = some ⟨.mapping, []⟩ ∨ p.projection = none ∧ p.root.fields = []) := by
  unfold outputs at h
  split at h
  · split at h
    · obtain ⟨output, -, hpure⟩ := ok_of_bind h
      cases hpure
    · cases h
  · next hpurpose hprojection =>
    obtain ⟨fields, hfields, hmore⟩ := ok_of_bind h
    obtain ⟨joined, -, hlast⟩ := ok_of_bind hmore
    obtain ⟨annotations, -, hpure⟩ := ok_of_bind hlast
    have hnil := congrArg Prod.fst (Except.ok.inj hpure)
    obtain ⟨rfl, -, -⟩ : fields = [] ∧ joined = [] ∧ annotations = [] := by simpa using hnil
    exact ⟨hpurpose, .inr ⟨hprojection, eq_nil_of_mapM_ok hfields⟩⟩
  · next hpurpose hprojection =>
    obtain ⟨named, hnamed, hpure⟩ := ok_of_bind h
    obtain rfl := congrArg Prod.fst (Except.ok.inj hpure)
    obtain rfl := eq_nil_of_mapM_ok hnamed
    exact ⟨hpurpose, .inl hprojection⟩
  · obtain ⟨fields, hfields, hmore⟩ := ok_of_bind h
    obtain ⟨joined, -, hlast⟩ := ok_of_bind hmore
    obtain ⟨annotations, -, hpure⟩ := ok_of_bind hlast
    have hnil := congrArg Prod.fst (Except.ok.inj hpure)
    obtain ⟨rfl, -, -⟩ : fields = [] ∧ joined = [] ∧ annotations = [] := by simpa using hnil
    have hkept := eq_nil_of_mapM_ok hfields
    rw [narrowedFields, distinctNames, List.cons_append, List.eraseDups_cons] at hkept
    cases hkept

/-- A plan of an entity with fields selects a column unless it projects no names. -/
theorem selectsColumn_iff {schema : Schema} {p : Plan} (hroot : p.root.fields ≠ []) :
    p.SelectsColumn schema ↔ p.projection ≠ some ⟨.mapping, []⟩ := by
  constructor
  · intro h hprojection
    refine h ⟨.mapping [], ?_⟩
    unfold outputs
    rw [hprojection]
    rfl
  · rintro h ⟨shape, houtputs⟩
    rcases (outputs_eq_nil houtputs).2 with hprojection | ⟨-, hfields⟩
    · exact h hprojection
    · exact hroot hfields

/-- What a plan is compiled for makes no difference to whether it has a column. -/
theorem not_selectsColumn {schema : Schema} {p : Plan} {purpose : Purpose}
    (h : ∃ shape, p.outputs schema purpose = .ok ([], shape)) : ¬p.SelectsColumn schema := by
  obtain ⟨shape, houtputs⟩ := h
  refine fun hcolumn => hcolumn ⟨shape, ?_⟩
  cases purpose with
  | rows => exact houtputs
  | scalar => exact absurd rfl (outputs_eq_nil houtputs).1
  | existence => exact (outputs_reduced schema (show Purpose.existence.reduced = some (.int 1) from rfl)).symm.trans houtputs
  | count => exact (outputs_reduced schema (show Purpose.count.reduced = some .countRows from rfl)).symm.trans houtputs

/-- plans that have a column, and in which every nested plan has one -/
inductive Columned : Plan → Prop where
  | intro {p : Plan} : (∀ schema, p.SelectsColumn schema) → (∀ inner ∈ p.subplans, inner.Columned) → Columned p

end Plan

/-- A statement with these tokens whose parentheses match and whose lists have items, select lists and assignments left
out of account. They have items too exactly when the statement is `complete`, provided that its nested plans are
`columned`. -/
structure Statement.Grammatical (d : Sql.Dialect) (tokens : List Sql.Token) (columned complete : Prop) (s : Statement) :
    Prop where
  written : s = .ofTokens d tokens s.columns
  balanced : Balanced tokens
  others : Filled asksOther tokens
  filled : columned → (Filled asksAny tokens ↔ complete)

/-! ## Statements of a plan -/

/-- whether every list of a query is there, whatever page it has -/
def Sql.Query.Whole (d : Sql.Dialect) (q : Sql.Query) : Prop :=
  ∀ page, Sound asksAny (Sql.Query.tokens d { q with page })

theorem Sql.Query.Whole.filled {d : Sql.Dialect} {q : Sql.Query} (h : q.Whole d) :
    Filled asksAny (q.tokens d) :=
  Sql.ExprHereditary.of_everyPage (Q := fun q => Filled asksAny (q.tokens d)) fun page => (h page).filled

theorem Sql.item_whole (d : Sql.Dialect) :
    Sql.ExprHereditary (fun e => Item asksAny (e.tokens d)) (Sql.Query.Whole d) :=
  (Sql.item_hereditary d).everyPage

theorem Sql.Query.whole_of_parts {d : Sql.Dialect} {q : Sql.Query} (hselect : q.select = [] → False)
    (hexpressions : ∀ e ∈ q.expressions, Item asksAny (e.tokens d))
    (hderived : ∀ inner name, q.source = some (.derived inner name) → inner.Whole d) : q.Whole d :=
  fun _ => Sql.Query.sound d (fun hnil => (hselect hnil).elim) hexpressions fun inner name hsource =>
    Sql.ExprHereditary.of_everyPage (Q := fun q => Sound asksAny (q.tokens d)) (hderived inner name hsource)

/-- Without select lists and assignments, the lists of every compiled tree are there. -/
theorem Sql.others_hereditary (d : Sql.Dialect) :
    Sql.Hereditary (fun e => Item asksOther (e.tokens d))
      fun q => Sound asksOther (q.tokens d) where
  __ := Sql.item_hereditary d
  query hexpressions hderived := Sql.Query.sound d (fun _ => ⟨rfl, rfl⟩) hexpressions hderived

namespace Plan

variable {schema : Schema} {p : Plan} {d : Sql.Dialect}

/-- Every list is there in the statement of a plan with columns, whatever the plan is compiled for. -/
theorem Columned.inherits (d : Sql.Dialect) (h : p.Columned) : p.Inherits (Sql.Query.Whole d) := by
  induction h with
  | @intro p hcolumn _ ih =>
    intro schema purpose outer n selection m hselect
    exact query_inherits (Sql.item_whole d) Sql.Query.whole_of_parts ih
      (fun _ hnone => not_selectsColumn hnone (hcolumn schema)) hselect

/-- Every list is there in the statement of a plan whose nested plans have columns, if its rows have one where they are
read. -/
theorem select_whole (hnested : ∀ inner ∈ p.subplans, inner.Columned) {purpose : Purpose} {selection : Selection}
    {n m : Nat} (h : p.select schema purpose none n = .ok (selection, m))
    (hcolumn : purpose.reduced = none ∨ p.isWrapped = true → p.SelectsColumn schema) : selection.query.Whole d :=
  query_inherits (Sql.item_whole d) Sql.Query.whole_of_parts (fun inner hinner => (hnested inner hinner).inherits d)
    (fun hread hnone => not_selectsColumn hnone (hcolumn hread)) h

/-- The rows of a plan without a column are read with an empty select list. -/
theorem select_nil_of_rows {selection : Selection} {n m : Nat} (h : p.select schema .rows none n = .ok (selection, m))
    (hcolumn : ¬p.SelectsColumn schema) : selection.query.source ≠ none ∧ selection.query.select = [] := by
  obtain ⟨shape, hnone⟩ := Classical.not_not.1 hcolumn
  obtain ⟨outputs, final, houtputs, hclauses, -, -⟩ := select_ok (.inl rfl) h
  obtain ⟨results, conditions, keys, -, -, -, -, heq⟩ := lowerClauses_ok hclauses
  rw [hnone] at houtputs
  obtain ⟨rfl, -⟩ := Prod.mk.inj (Except.ok.inj houtputs)
  rw [heq]
  exact ⟨by simp [query], rfl⟩

theorem rowSelection_filled_iff (hnested : ∀ inner ∈ p.subplans, inner.Columned) {selection : Selection}
    (h : p.rowSelection schema = .ok selection) :
    Filled asksAny (selection.query.tokens d) ↔ p.SelectsColumn schema := by
  obtain ⟨n, hselect⟩ := select_of_rowSelection h
  constructor
  · intro hfilled
    by_contra hcolumn
    obtain ⟨hsource, hnil⟩ := select_nil_of_rows hselect hcolumn
    exact Sql.Query.not_linked d rfl rfl hsource hnil (hfilled.of_infix (List.prefix_append _ _).isInfix)
  · intro hcolumn
    exact (select_whole hnested hselect fun _ => hcolumn).filled

/-- A reduced statement, with any page, reads the rows of the plan only if it is wrapped around their statement. -/
theorem reduced_filled_iff (hnested : ∀ inner ∈ p.subplans, inner.Columned) {purpose : Purpose} {column : Sql.Expr}
    (hreduced : purpose.reduced = some column) {selection : Selection} {m : Nat}
    (h : p.select schema purpose none 0 = .ok (selection, m)) {q : Sql.Query} {page : Option Sql.Page}
    (hq : { selection.query with page } = q) :
    Filled asksAny (q.tokens d) ↔ (p.isWrapped = true → p.SelectsColumn schema) := by
  subst hq
  constructor
  · intro hfilled hwrapped
    by_contra hcolumn
    rw [select_reduced schema hreduced] at h
    obtain ⟨⟨rows, n⟩, hrows, heq⟩ := map_ok h
    obtain ⟨rfl, -⟩ := Prod.mk.inj heq
    obtain ⟨hsource, hnil⟩ := select_nil_of_rows hrows hcolumn
    rw [hwrapped] at hfilled
    have hderived : ({ reduceTo column true p.isPaged rows.query n with page } : Sql.Query).source =
        some (.derived (if p.isPaged then rows.query else { rows.query with orderBy := [] }) (tableAlias n)) := rfl
    have hinner := (Sql.Query.derived_infix d hderived).trans (List.prefix_append _ [.lineBreak]).isInfix
    refine Sql.Query.not_linked d rfl rfl ?_ ?_ (hfilled.of_infix hinner) <;> split <;> assumption
  · intro hcolumn
    refine ((select_whole hnested h fun hread => hcolumn ?_) page).filled
    exact hread.resolve_left (by simp [hreduced])

/-! ## Changes -/

theorem keyed_columned (hnested : ∀ inner ∈ p.subplans, inner.Columned) {keyed : Plan}
    (h : p.keyPlan schema = .ok keyed) : keyed.Columned := by
  obtain rfl := keyPlan_ok h
  refine .intro (fun schema ⟨shape, houtputs⟩ => ?_) fun inner hinner => hnested inner ?_
  · rcases (outputs_eq_nil houtputs).2 with hprojection | ⟨hprojection, -⟩ <;> simp [Plan.keyed] at hprojection
  · obtain ⟨e, he, hmem⟩ := List.mem_flatMap.1 hinner
    refine List.mem_flatMap.2 ⟨e, ?_, hmem⟩
    simp only [expressions, Plan.keyed, List.mem_append] at he ⊢
    rcases he with he | he
    · exact .inl he
    · split at he
      · exact .inr he
      · simp at he

theorem delete_filled (hnested : ∀ inner ∈ p.subplans, inner.Columned) {tree : Sql.Delete}
    (h : p.delete schema = .ok tree) : Filled asksAny (tree.tokens d) :=
  (Sql.Delete.sound d (delete_condition (Sql.item_whole d) (fun inner hinner => (hnested inner hinner).inherits d)
    (fun _ hkeyed => (keyed_columned hnested hkeyed).inherits d) h)).filled

theorem update_filled_iff (hnested : ∀ inner ∈ p.subplans, inner.Columned) {assignments : List (String × Expr)}
    (hvalues : ∀ a ∈ assignments, ∀ inner ∈ a.2.subplans, inner.Columned) {tree : Sql.Update}
    (h : p.update schema assignments = .ok tree) :
    Filled asksAny (tree.tokens d) ↔ assignments ≠ [] := by
  obtain ⟨hassigned, hcondition, hlength⟩ := update_parts (Sql.item_whole d)
    (fun inner hinner => (hnested inner hinner).inherits d)
    (fun _ hkeyed => (keyed_columned hnested hkeyed).inherits d)
    (fun a ha inner hinner => (hvalues a ha inner hinner).inherits d) h
  have hnil : tree.assignments = [] ↔ assignments = [] := by
    rw [← List.length_eq_zero_iff, hlength, List.length_eq_zero_iff]
  constructor
  · intro hfilled hnone
    exact Sql.Update.not_filled d rfl (hnil.2 hnone) hfilled
  · intro hsome
    exact (Sql.Update.sound d (fun hnone => absurd (hnil.1 hnone) hsome) hassigned hcondition).filled

/-! ## The five kinds -/

/-- **Every statement a plan is compiled to is grammatical, except where a plan or an UPDATE was given nothing.** In any
dialect, parentheses match in the statements for a plan's rows, their number, their existence, and for changes, and every
list has an item, select lists and assignments left out of account. When the nested plans have columns, select lists and
assignments have items too: in a DELETE always, in an UPDATE if anything is assigned, in the statement of rows if the plan
has a column, and in a number or existence if the plan has a column or its rows need not be read by themselves. -/
theorem statements_grammatical (schema : Schema) (d : Sql.Dialect) (p : Plan) (assignments : List (String × Expr)) :
    (∀ compiled, p.compile schema d = .ok compiled → ∃ selection, p.rowSelection schema = .ok selection ∧
      compiled.primary.Grammatical d (selection.query.tokens d) (∀ inner ∈ p.subplans, inner.Columned)
        (p.SelectsColumn schema)) ∧
    (∀ statement, p.compileCount schema d = .ok statement → ∃ q, p.countQuery schema = .ok q ∧
      statement.Grammatical d (q.tokens d) (∀ inner ∈ p.subplans, inner.Columned)
        (p.isWrapped = true → p.SelectsColumn schema)) ∧
    (∀ statement, p.compileExists schema d = .ok statement → ∃ q, p.existsQuery schema = .ok q ∧
      statement.Grammatical d (q.tokens d) (∀ inner ∈ p.subplans, inner.Columned)
        (p.isWrapped = true → p.SelectsColumn schema)) ∧
    (∀ statement, p.compileUpdate schema d assignments = .ok statement → ∃ tree, p.update schema assignments = .ok tree ∧
      statement.Grammatical d (tree.tokens d)
        ((∀ inner ∈ p.subplans, inner.Columned) ∧ ∀ a ∈ assignments, ∀ inner ∈ a.2.subplans, inner.Columned)
        (assignments ≠ [])) ∧
    ∀ statement, p.compileDelete schema d = .ok statement → ∃ tree, p.delete schema = .ok tree ∧
      statement.Grammatical d (tree.tokens d) (∀ inner ∈ p.subplans, inner.Columned) True := by
  have hothers := Sql.others_hereditary d
  refine ⟨fun compiled h => ?_, fun statement h => ?_, fun statement h => ?_, fun statement h => ?_, fun statement h => ?_⟩
  · obtain ⟨selection, hselection, -⟩ := ok_of_bind h
    refine ⟨selection, hselection, ?_, selection.query.balanced d, (rowSelection_inherits hothers hselection).filled,
      fun hnested => rowSelection_filled_iff hnested hselection⟩
    rw [compile_primary hselection h]
    rfl
  · obtain ⟨q, hq, hpure⟩ := ok_of_bind h
    obtain rfl := Except.ok.inj hpure
    refine ⟨q, hq, rfl, q.balanced d, (countQuery_inherits hothers hq).filled, fun hnested => ?_⟩
    obtain ⟨⟨selection, n⟩, hselect, rfl⟩ := map_ok hq
    have hreduced : Purpose.count.reduced = some .countRows := rfl
    have hsame : { selection.query with page := selection.query.page } = selection.query := by cases selection.query; rfl
    exact reduced_filled_iff hnested hreduced hselect hsame
  · obtain ⟨q, hq, hpure⟩ := ok_of_bind h
    obtain rfl := Except.ok.inj hpure
    refine ⟨q, hq, rfl, q.balanced d, (existsQuery_inherits hothers hq).filled, fun hnested => ?_⟩
    obtain ⟨⟨selection, n⟩, hselect, rfl⟩ := map_ok hq
    have hreduced : Purpose.existence.reduced = some (.int 1) := rfl
    exact reduced_filled_iff hnested hreduced hselect rfl
  · obtain ⟨tree, htree, hpure⟩ := ok_of_bind h
    obtain rfl := Except.ok.inj hpure
    obtain ⟨hassigned, hcondition⟩ := update_inherits hothers htree
    exact ⟨tree, htree, rfl, tree.balanced d, (Sql.Update.sound d (fun _ => rfl) hassigned hcondition).filled,
      fun ⟨hnested, hvalues⟩ => update_filled_iff hnested hvalues htree⟩
  · obtain ⟨tree, htree, hpure⟩ := ok_of_bind h
    obtain rfl := Except.ok.inj hpure
    exact ⟨tree, htree, rfl, tree.balanced d, (Sql.Delete.sound d (delete_inherits hothers htree)).filled,
      fun hnested => iff_of_true (delete_filled hnested htree) trivial⟩

/-- the different entries whose blog is among none, or of which there is a different one -/
def sampleListed : Plan :=
  { ofEntity sampleEntry with
    filters := [.or [.inList (.field ⟨"entry", "blog_id", [], ⟨"blog_id", .int, true⟩⟩) [] false,
      .existsRow { ofEntity sampleBlog with distinct := true } false]]
    distinct := true }

theorem sampleBlogs_columned : Plan.Columned { ofEntity sampleBlog with distinct := true } :=
  .intro (fun _ => (selectsColumn_iff (by simp [ofEntity, sampleBlog])).2 nofun) (by simp [subplans, expressions, ofEntity])

/-- The number of entries is selected over a statement that holds another one, with all their lists. -/
theorem statements_grammatical_listed :
    (∀ inner ∈ sampleListed.subplans, inner.Columned) ∧ sampleListed.SelectsColumn sampleSchema ∧
      ∃ statement q, sampleListed.compileCount sampleSchema .tsql = .ok statement ∧
        statement.sql = (Sql.Token.render .tsql (Sql.Query.tokens .tsql q)).sql ∧
        Balanced (q.tokens .tsql) ∧ Filled asksAny (q.tokens .tsql) := by
  have hnested : ∀ inner ∈ sampleListed.subplans, inner.Columned := by
    intro inner hinner
    obtain rfl : inner = { ofEntity sampleBlog with distinct := true } := List.mem_singleton.1 hinner
    exact sampleBlogs_columned
  have hcolumn : sampleListed.SelectsColumn sampleSchema :=
    (selectsColumn_iff (by simp [sampleListed, ofEntity, sampleEntry])).2 nofun
  obtain ⟨-, hcount, -⟩ := statements_grammatical sampleSchema .tsql sampleListed []
  obtain ⟨statement, hstatement⟩ : ∃ statement, sampleListed.compileCount sampleSchema .tsql = .ok statement := ⟨_, rfl⟩
  obtain ⟨q, -, hgrammatical⟩ := hcount statement hstatement
  refine ⟨hnested, hcolumn, statement, q, hstatement, ?_, hgrammatical.balanced,
    (hgrammatical.filled hnested).2 fun _ => hcolumn⟩
  exact congrArg Statement.sql hgrammatical.written

/-- The plan that projects no names is compiled to a statement that selects no column, and an UPDATE that assigns nothing
to one with nothing after SET. -/
theorem compile_columnless :
    ∃ p compiled selection statement tree, (ofEntity sampleEntry).project sampleSchema [] = .ok p ∧
      p.compile sampleSchema .sqlite = .ok compiled ∧ p.rowSelection sampleSchema = .ok selection ∧
      compiled.primary.sql = "SELECT\nFROM \"entries\" AS \"t0\"" ∧
      ¬Filled asksAny (selection.query.tokens .sqlite) ∧
      p.compileUpdate sampleSchema .sqlite [] = .ok statement ∧ p.update sampleSchema [] = .ok tree ∧
      statement.sql = "UPDATE \"entries\" SET " ∧ ¬Filled asksAny (tree.tokens .sqlite) := by
  refine ⟨_, _, _, _, _, rfl, rfl, rfl, rfl, ?_, rfl, rfl, rfl, ?_⟩ <;> decide

end Plan

end RelQuery
