/-
How group keys are written.

A grouped query selects what its rows are grouped by: the trees of its group keys are those of its columns, aggregates
apart. Databases match the two by what is written, and each value that is bound gets a placeholder of its own. Where
placeholders are numbered, a key that binds a value is therefore not written as its column, and where they are not
it is (`group_keys_written`); the database sees two different expressions in the first case
(`group_keys_written_apart`).
-/
import RelQuery.Proofs.Sql.Stretches
import RelQuery.Proofs.Statement.Placement

namespace RelQuery

open Sql (Query Stretch Token)

/-- A column and its group key have the same tokens at their places in a statement, and the same text if no value is
bound in them or placeholders are not numbered, and only then. -/
structure Sql.Stretch.Recurs (d : Sql.Dialect) (statement : List Token) (item key : Stretch) : Prop where
  item_in : item.In statement
  key_in : key.In statement
  tokens : item.tokens = key.tokens
  text : item.text d = key.text d ↔ d.numbersPlaceholders = false ∨ Token.boundValues item.tokens = []

/-- The group keys of a query are its columns that do not aggregate, in order, wherever it stands in a statement. -/
structure Sql.Query.SelectsKeys (d : Sql.Dialect) (q : Query) : Prop where
  trees : q.groupBy = (q.select.filter fun item => !item.expr.aggregates).map (·.expr)
  texts : ∀ around rest, List.Forall₂
    (fun item key => (item.2.after around).Recurs d (around ++ q.tokens d ++ rest) (key.after around))
    ((q.select.zip (q.itemStretches d)).filter fun item => !item.1.expr.aggregates) (q.keyStretches d)

section Writing

variable {d : Sql.Dialect} {q : Query}

/-- The columns that do not aggregate have the tokens of the group keys. -/
theorem tokens_selected (htrees : q.groupBy = (q.select.filter fun item => !item.expr.aggregates).map (·.expr)) :
    ((q.select.zip (q.itemStretches d)).filter fun item => !item.1.expr.aggregates).map (·.2.tokens) =
      (q.keyStretches d).map (·.tokens) := by
  have hlength : q.select.length = (q.itemStretches d).length := by
    simpa using (congrArg List.length (Query.tokens_itemStretches (d := d) (q := q))).symm
  have hitems := map_eq_map_iff_forall₂.1 (Query.tokens_itemStretches (d := d) (q := q)).symm
  calc ((q.select.zip (q.itemStretches d)).filter fun item => !item.1.expr.aggregates).map (·.2.tokens)
      = ((q.select.zip (q.itemStretches d)).filter fun item => !item.1.expr.aggregates).map
          fun item => item.1.expr.tokens d := List.map_congr_left fun item hitem =>
        ((List.forall₂_iff_zip.1 hitems).2 (List.mem_filter.1 hitem).1).symm
    _ = ((((q.select.zip (q.itemStretches d)).map Prod.fst).filter fun item => !item.expr.aggregates).map
          (·.expr)).map (Sql.Expr.tokens d) := by
        rw [List.filter_map, List.map_map, List.map_map]
        rfl
    _ = (q.keyStretches d).map (·.tokens) := by
        rw [List.map_fst_zip hlength.le, ← htrees, Query.tokens_keyStretches]

/-- Group keys that are columns are written as the columns where that is possible. -/
theorem selectsKeys_of_trees
    (htrees : q.groupBy = (q.select.filter fun item => !item.expr.aggregates).map (·.expr))
    (hshows : ∀ e ∈ q.groupBy, Token.Shows (e.tokens d) (e.mentions false)) : q.SelectsKeys d where
  trees := htrees
  texts around rest := by
    have htokens := map_eq_map_iff_forall₂.1 (tokens_selected (d := d) htrees)
    refine List.forall₂_iff_zip.2 ⟨htokens.length_eq, fun {item key} hpair => ?_⟩
    have hsame := (List.forall₂_iff_zip.1 htokens).2 hpair
    obtain ⟨hitem, hkey⟩ := List.of_mem_zip hpair
    have hcolumn : item.2 ∈ q.itemStretches d := (List.of_mem_zip (List.mem_filter.1 hitem).1).2
    have hprecedes := Query.items_precede hcolumn hkey
    have hkeyIn := (Query.keys_in hkey).widen (List.prefix_append _ rest)
    have hcolumnIn := hprecedes.widen ((List.prefix_append _ _).trans hkeyIn)
    -- the key is written from a tree, so it shows what that mentions
    obtain ⟨e, he, htree⟩ : ∃ e ∈ q.groupBy, e.tokens d = key.tokens := by
      have hmem : key.tokens ∈ (q.keyStretches d).map (·.tokens) := List.mem_map_of_mem hkey
      rw [Query.tokens_keyStretches] at hmem
      exact List.mem_map.1 hmem
    refine ⟨?_, ?_, hsame, Stretch.text_eq_iff (hsame.trans htree.symm ▸ hshows e he) hsame (hprecedes.after around)⟩
    · rw [List.append_assoc]
      exact hcolumnIn.after around
    · rw [List.append_assoc]
      exact hkeyIn.after around

end Writing

namespace Plan

variable {schema : Schema} {p : Plan} {d : Sql.Dialect}

/-- When a plan groups, the keys of its query are the columns that do not aggregate. -/
theorem Compilation.trees (c : p.Compilation schema) (hgroups : p.Groups) :
    c.query.groupBy = (c.query.select.filter fun item => !item.expr.aggregates).map (·.expr) := by
  have hplain : ∀ o ∈ c.outputs.zip c.results, (!o.2.aggregates) = decide (¬p.Aggregates o.1.term.expr) := by
    intro o ho
    rw [Bool.eq_iff_iff, decide_eq_true_iff, Bool.not_eq_true', ← Bool.not_eq_true, c.places_query.outputs o ho]
  rw [c.places_query.groupBy, if_pos hgroups, query, Plan.query, List.filter_map, List.map_map, ← List.filter_congr hplain]
  rfl

/-- The keys of a query that a grouped plan yields, unless it is the query around one that has them. -/
theorem Yields.keys (d : Sql.Dialect) {q : Query} (h : p.Yields schema q) (hgroups : p.Groups)
    (htable : ∃ table, q.source = some (.table table)) :
    q.groupBy = (q.select.filter fun item => !item.expr.aggregates).map (·.expr) ∧
      ∀ e ∈ q.groupBy, Token.Shows (e.tokens d) (e.mentions false) := by
  have hshows : ∀ (c : p.Compilation schema), ∀ e ∈ c.query.groupBy, Token.Shows (e.tokens d) (e.mentions false) :=
    fun c e he => c.inherits (Sql.shows_hereditary d) e (by simp [Query.expressions, he])
  induction h with
  | own c => exact ⟨c.trees hgroups, hshows c⟩
  | derived c =>
    unfold Compilation.counted
    split
    · exact ⟨c.trees hgroups, hshows c⟩
    · exact ⟨c.trees hgroups, hshows c⟩
  | reduced c _ hplain => simp [isWrapped, isGrouped_iff.2 hgroups] at hplain
  | around c name =>
    obtain ⟨table, htable⟩ := htable
    cases htable
  | limited n _ ih => exact ih htable

/-- **A group key is written as its column exactly where placeholders allow it.** In every statement of every plan and
at any depth, the keys by which a query groups its rows are its columns without an aggregate, in order, and the texts of
a column and of its key are the same if nothing is bound in them or the dialect does not number its placeholders, and
only then. -/
theorem group_keys_written (schema : Schema) (d : Sql.Dialect) (p : Plan) (assignments : List (String × Expr)) :
    p.EveryStatement schema d assignments fun part q =>
      part.Groups → (∃ table, q.source = some (.table table)) → q.SelectsKeys d :=
  everyStatement (fun _ _ hyields hgroups htable =>
    selectsKeys_of_trees (hyields.keys d hgroups htable).1 (hyields.keys d hgroups htable).2) d p assignments

/-- how many blogs have each rating, counted from one more -/
def sampleRaised : Plan :=
  { ofEntity sampleBlog with
    annotations := [⟨"raised", .binary .add (.field ⟨"blog", "rating", [], ⟨"rating", .int, false⟩⟩) (.literal (.int 1))⟩,
      ⟨"n", .aggregate .count none false⟩]
    projection := some ⟨.mapping, ["raised", "n"]⟩ }

/-- Where placeholders are not numbered, the rating is grouped by as it is selected. -/
theorem group_keys_written_raised : sampleRaised.Groups ∧ ∃ selection, sampleRaised.rowSelection sampleSchema = .ok selection ∧
    (∃ table, selection.query.source = some (.table table)) ∧ selection.query.SelectsKeys .sqlite := by
  have hstatements := group_keys_written sampleSchema .sqlite sampleRaised []
  obtain ⟨compiled, hcompiled⟩ : ∃ compiled, sampleRaised.compile sampleSchema .sqlite = .ok compiled := ⟨_, rfl⟩
  obtain ⟨selection, hselection, -, hkeys⟩ := hstatements.rows compiled hcompiled
  have hgroups : sampleRaised.Groups := by decide
  have htable : ∃ table, selection.query.source = some (.table table) := by
    have hsource : (sampleRaised.rowSelection sampleSchema).map (·.query.source) =
        .ok (some (.table ⟨"blogs", some "t0"⟩)) := rfl
    rw [hselection] at hsource
    exact ⟨_, Except.ok.inj hsource⟩
  exact ⟨hgroups, selection, hselection, htable, hkeys.own hgroups htable⟩

/-- Where they are numbered, the rating is selected with the first value and grouped by with the second. -/
theorem group_keys_written_apart : sampleRaised.Groups ∧ ∃ compiled selection items key,
    sampleRaised.compile sampleSchema .postgres = .ok compiled ∧
    sampleRaised.rowSelection sampleSchema = .ok selection ∧
    compiled.primary.sql = "SELECT \"t0\".\"rating\" + $1 AS \"raised\", COUNT(*) AS \"n\"\n" ++
      "FROM \"blogs\" AS \"t0\"\nGROUP BY \"t0\".\"rating\" + $2" ∧
    compiled.primary.params = [.int 1, .int 1] ∧
    selection.query.itemStretches .postgres = items ∧ selection.query.keyStretches .postgres = [key] ∧
    items.map (Stretch.text .postgres) = ["\"t0\".\"rating\" + $1", "COUNT(*)"] ∧
    key.text .postgres = "\"t0\".\"rating\" + $2" := by
  refine ⟨by decide, _, _, _, _, rfl, rfl, ?_, rfl, rfl, rfl, ?_, ?_⟩ <;> decide

end Plan

end RelQuery
