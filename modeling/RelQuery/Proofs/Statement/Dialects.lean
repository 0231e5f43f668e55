/-
One plan in several dialects.

A dialect decides how a statement is spelled: which operators are calls, how a page is asked for, what names and
placeholders look like. What a statement binds, and in which order, is read off its tree, which no dialect takes part in
(`Statement.Decodes`); so the dialects differ in the texts of a plan's statements and in nothing else.
- `Plan.bindings_same`: whether a plan compiles, and what its statements bind and yield, is the same in any two dialects.
-/
import RelQuery.Proofs.Statement.Decoding

namespace RelQuery

/-- what a statement binds and yields, its text left out -/
def Statement.bindings (s : Statement) : List Value × List OutputColumn := (s.params, s.columns)

/-- what the statement for a plan's rows binds and yields, the fetches that go with it, and the shape of the rows -/
def CompiledQuery.bindings (q : CompiledQuery) :
    (List Value × List OutputColumn) × List BatchFetch × ResultShape :=
  (q.primary.bindings, q.batched, q.shape)

/-- The tokens written for one tree in two dialects bind the same values in the same order. -/
theorem Sql.Token.Shows.bindings {d d' : Sql.Dialect} {tokens tokens' : List Sql.Token} {mentions : List Mention}
    (h : Sql.Token.Shows tokens mentions) (h' : Sql.Token.Shows tokens' mentions) (columns : List OutputColumn) :
    (Statement.ofTokens d tokens columns).bindings = (Statement.ofTokens d' tokens' columns).bindings := by
  have hparams := (h.decodes (d := d) columns).params
  have hparams' := (h'.decodes (d := d') columns).params
  exact Prod.ext (hparams.trans hparams'.symm) rfl

/-- What is compiled to a tree and then written out is compiled alike in two dialects when the tree binds alike. -/
theorem map_bindings {α : Type} {tree : Except QueryError α} {write write' : α → Statement}
    (h : ∀ a, tree = .ok a → (write a).bindings = (write' a).bindings) :
    (do let a ← tree; return write a).map Statement.bindings =
      (do let a ← tree; return write' a).map Statement.bindings := by
  cases tree with
  | error e => rfl
  | ok a => exact congrArg Except.ok (h a rfl)

namespace Plan

/-- **Bindings do not depend on the dialect.** In any two dialects a plan, with any assignments, compiles for its rows,
their number, their existence and for changes to statements that bind the same values in the same order and yield the
same columns, or is refused with the same error; its rows have the same shape, and its fetches are the same and bind the
same for the same keys. -/
theorem bindings_same (schema : Schema) (d d' : Sql.Dialect) (p : Plan) (assignments : List (String × Expr)) :
    (p.compile schema d).map CompiledQuery.bindings = (p.compile schema d').map CompiledQuery.bindings ∧
    (p.compileCount schema d).map Statement.bindings = (p.compileCount schema d').map Statement.bindings ∧
    (p.compileExists schema d).map Statement.bindings = (p.compileExists schema d').map Statement.bindings ∧
    (p.compileUpdate schema d assignments).map Statement.bindings =
      (p.compileUpdate schema d' assignments).map Statement.bindings ∧
    (p.compileDelete schema d).map Statement.bindings = (p.compileDelete schema d').map Statement.bindings ∧
    ∀ q, p.compile schema d = .ok q → ∀ fetch ∈ q.batched, ∀ keys,
      (fetch.render d keys).bindings = (fetch.render d' keys).bindings := by
  have hparts := Sql.shows_hereditary d
  have hparts' := Sql.shows_hereditary d'
  refine ⟨?_, map_bindings fun q hq => ?_, map_bindings fun q hq => ?_, map_bindings fun tree htree => ?_,
    map_bindings fun tree htree => ?_, fun q hq fetch hfetch keys => ?_⟩
  · rw [compile, compile]
    cases hselection : p.rowSelection schema with
    | error e => rfl
    | ok selection =>
      have hprimary := @Sql.Token.Shows.bindings d d' _ _ _ (rowSelection_inherits hparts hselection)
        (rowSelection_inherits hparts' hselection) selection.columns
      have hquery : ∀ batched : List BatchFetch, CompiledQuery.bindings
          ⟨.ofTokens d (selection.query.tokens d) selection.columns, batched, selection.shape⟩ =
          CompiledQuery.bindings
            ⟨.ofTokens d' (selection.query.tokens d') selection.columns, batched, selection.shape⟩ :=
        fun batched => congrArg (fun primary => (primary, batched, selection.shape)) hprimary
      dsimp only [bind, Except.bind]
      split
      · exact congrArg Except.ok (hquery [])
      · cases p.batches schema selection.columns with
        | error e => rfl
        | ok batched => exact congrArg Except.ok (hquery batched)
  · exact (countQuery_inherits hparts hq).bindings (countQuery_inherits hparts' hq) _
  · exact (existsQuery_inherits hparts hq).bindings (existsQuery_inherits hparts' hq) _
  · obtain ⟨hassignments, hcondition⟩ := update_inherits hparts htree
    obtain ⟨hassignments', hcondition'⟩ := update_inherits hparts' htree
    exact (Sql.Update.shows hassignments hcondition).bindings (Sql.Update.shows hassignments' hcondition') _
  · exact (Sql.Delete.shows (delete_inherits hparts htree)).bindings
      (Sql.Delete.shows (delete_inherits hparts' htree)) _
  · obtain ⟨outputs, -, -, hnone | ⟨-, hbatches⟩⟩ := compile_ok hq
    · rw [hnone] at hfetch
      cases hfetch
    · obtain ⟨name, -, hname⟩ := mem_of_mapM_ok hbatches hfetch
      exact (BatchFetch.queryFor_inherits hparts hname keys).bindings (BatchFetch.queryFor_inherits hparts' hname keys) _

/-- a page of entries picked by a text put together, their blogs fetched along -/
def sampleLabelled : Plan :=
  { ofEntity sampleEntry with
    filters := [.binary .like
      (.binary .concat (.literal (.text "#")) (.field ⟨"entry", "id", [], ⟨"id", .int, false⟩⟩))
      (.literal (.text "#1%"))]
    limit := some 5
    loadings := NameMap.empty.insert "blog" .batched }

/-- Where concatenation is a call and where it is an operator, where a page follows a limit and where it has to follow an
order, the same two texts are bound; the fetch of the blogs binds its key in both. -/
theorem bindings_same_labelled :
    ∃ q q' fetch, sampleLabelled.compile sampleSchema .mysql = .ok q ∧
      sampleLabelled.compile sampleSchema .tsql = .ok q' ∧ q.primary.sql ≠ q'.primary.sql ∧
      q.primary.params = [.text "#", .text "#1%"] ∧ q'.bindings = q.bindings ∧ fetch ∈ q.batched ∧
      (fetch.render .mysql [.int 7]).params = [.int 7] ∧
      (fetch.render .tsql [.int 7]).bindings = (fetch.render .mysql [.int 7]).bindings := by
  obtain ⟨hrows, -, -, -, -, hfetches⟩ := bindings_same sampleSchema .mysql .tsql sampleLabelled []
  obtain ⟨q, hq⟩ : ∃ q, sampleLabelled.compile sampleSchema .mysql = .ok q := ⟨_, rfl⟩
  obtain ⟨q', hq'⟩ : ∃ q', sampleLabelled.compile sampleSchema .tsql = .ok q' := ⟨_, rfl⟩
  rw [hq, hq'] at hrows
  have hsame : q'.bindings = q.bindings := (Except.ok.inj hrows).symm
  have hfetch := hfetches q hq
  obtain rfl := Except.ok.inj hq
  obtain rfl := Except.ok.inj hq'
  refine ⟨_, _, _, rfl, rfl, ?_, rfl, hsame, List.mem_singleton_self _, rfl, (hfetch _ (List.mem_singleton_self _) _).symm⟩
  decide

end Plan

end RelQuery
