/-
Statements read back from their text.

A scan that knows how a dialect quotes names and begins placeholders finds in the text of a statement the names of its
tree and one placeholder for each value that the tree binds, numbered from one (`Statement.Decodes`), whatever
characters the names of a schema are made of. What a tree mentions is listed without the two parts that are never
written: the operand of a membership test without members, and the columns an INSERT would give back where the dialect
has no RETURNING.
- `statements_decode`: the statements for a plan's rows, their number and their existence, for relations fetched along,
  and for changes.
- `Entity.insert_unreturned`: what an INSERT loses where the dialect has no RETURNING.
-/
import RelQuery.Proofs.Sql.Mentions

namespace RelQuery

open Sql (Mention Piece)

namespace Sql

def Piece.name? : Piece → Option String
  | name s => some s
  | placeholder _ => none

def Piece.placeholder? : Piece → Option String
  | name _ => none
  | placeholder s => some s

theorem Mention.names_pieces (d : Dialect) (n : Nat) (ms : List Mention) :
    (pieces d n ms).filterMap Piece.name? = ms.filterMap name? := by
  induction ms generalizing n with
  | nil => rfl
  | cons m rest ih => cases m <;> simp [pieces, List.filterMap_cons, Piece.name?, name?, ih]

/-- Placeholders are numbered as they come. -/
theorem Mention.placeholders_pieces (d : Dialect) (n : Nat) (ms : List Mention) :
    (pieces d n ms).filterMap Piece.placeholder? =
      (List.range (ms.filterMap value?).length).map fun k => d.placeholder (n + k + 1) := by
  induction ms generalizing n with
  | nil => rfl
  | cons m rest ih =>
    cases m with
    | name s => simp [pieces, List.filterMap_cons, Piece.placeholder?, value?, ih]
    | value v =>
      have hnext : ∀ k, n + 1 + k + 1 = n + (k + 1) + 1 := fun k => by omega
      simp [pieces, Piece.placeholder?, value?, ih, List.range_succ_eq_map, hnext]

end Sql

/-- The text of a statement shows the names of a tree, and a placeholder in the place of each value it binds. -/
structure Statement.Decodes (d : Sql.Dialect) (statement : Statement) (mentions : List Mention) : Prop where
  scanned : Sql.scan d statement.sql = some (Mention.pieces d 0 mentions)
  names : (Mention.pieces d 0 mentions).filterMap Piece.name? = mentions.filterMap Mention.name?
  placeholders : (Mention.pieces d 0 mentions).filterMap Piece.placeholder? =
    (List.range statement.params.length).map fun k => d.placeholder (k + 1)
  params : statement.params = mentions.filterMap Mention.value?
  bound : .null ∉ statement.params

theorem Sql.Token.Shows.decodes {d : Sql.Dialect} {tokens : List Sql.Token} {mentions : List Mention}
    (h : Sql.Token.Shows tokens mentions) (columns : List OutputColumn) :
    (Statement.ofTokens d tokens columns).Decodes d mentions := by
  have hparams : (Statement.ofTokens d tokens columns).params = mentions.filterMap Mention.value? := by
    rw [← h.mentions]
    exact Sql.Token.boundValues_eq tokens
  refine ⟨?_, Mention.names_pieces d 0 mentions, ?_, hparams, fun hnull => h.bound ?_⟩
  · rw [← h.mentions]
    exact Sql.scan_render h.spaced h.functions
  · rw [Mention.placeholders_pieces, hparams]
    simp
  · obtain ⟨token, htoken, hbound⟩ := List.mem_filterMap.1 hnull
    cases token <;> cases hbound
    exact htoken

/-- A row has as many columns as values. -/
theorem Entity.insert_shows {d : Sql.Dialect} {e : Entity} {values : List (String × Value)} {statement : Sql.Insert}
    (h : e.insert values = .ok statement) : Sql.Token.Shows (statement.tokens d) (statement.mentions false d) := by
  obtain ⟨columns, hcolumns, hpure⟩ := ok_of_bind h
  obtain rfl := Except.ok.inj hpure
  refine Sql.Insert.shows (fun hnone => ?_) fun v hv => ?_
  · obtain rfl : columns = [] := hnone
    cases values with
    | nil => rfl
    | cons value rest =>
      rw [List.mapM_cons] at hcolumns
      obtain ⟨column, -, hmore⟩ := ok_of_bind hcolumns
      obtain ⟨more, -, hcons⟩ := ok_of_bind hmore
      cases hcons
  · obtain ⟨value, -, rfl⟩ := List.mem_map.1 hv
    exact Sql.shows_param d value.2

/-- A dialect without RETURNING leaves out the key that an INSERT would give back, and nothing else. -/
theorem Entity.insert_unreturned {d : Sql.Dialect} (hd : d.hasReturning = false) {e : Entity}
    {values : List (String × Value)} {statement : Sql.Insert} (h : e.insert values = .ok statement) :
    statement.mentions true d = statement.mentions false d ++ [.name e.primaryKey] := by
  have hvalues : ∀ vs : List (String × Value), Sql.listMentions true (vs.map fun v => .param v.2) =
      Sql.listMentions false (vs.map fun v => .param v.2) := by
    intro vs
    induction vs with
    | nil => rfl
    | cons v rest ih =>
      rw [List.map_cons, Sql.listMentions, Sql.listMentions, ih]
      rfl
  obtain ⟨columns, -, hpure⟩ := ok_of_bind h
  obtain rfl := Except.ok.inj hpure
  simp [Sql.Insert.mentions, hd, hvalues]

namespace Plan

/-- The text of every statement decodes to the names and values of its tree. -/
theorem statements_decode (schema : Schema) (d : Sql.Dialect) (p : Plan) :
    (∀ compiled, p.compile schema d = .ok compiled →
      (∃ selection, p.rowSelection schema = .ok selection ∧
        compiled.primary.Decodes d (selection.query.mentions false)) ∧
      ∀ fetch ∈ compiled.batched, ∀ keys, (fetch.render d keys).Decodes d ((fetch.queryFor keys).mentions false)) ∧
    (∀ statement, p.compileCount schema d = .ok statement →
      ∃ q, p.countQuery schema = .ok q ∧ statement.Decodes d (q.mentions false)) ∧
    (∀ statement, p.compileExists schema d = .ok statement →
      ∃ q, p.existsQuery schema = .ok q ∧ statement.Decodes d (q.mentions false)) ∧
    (∀ assignments statement, p.compileUpdate schema d assignments = .ok statement →
      ∃ tree, p.update schema assignments = .ok tree ∧ statement.Decodes d (tree.mentions false)) ∧
    (∀ statement, p.compileDelete schema d = .ok statement →
      ∃ tree, p.delete schema = .ok tree ∧ statement.Decodes d (tree.mentions false)) ∧
    ∀ (e : Entity) values statement, e.compileInsert d values = .ok statement →
      ∃ tree, e.insert values = .ok tree ∧ statement.Decodes d (tree.mentions false d) := by
  have hparts := Sql.shows_hereditary d
  refine ⟨fun compiled h => ⟨?_, fun fetch hfetch keys => ?_⟩, fun statement h => ?_, fun statement h => ?_,
    fun assignments statement h => ?_, fun statement h => ?_, fun e values statement h => ?_⟩
  · obtain ⟨selection, hselection, -⟩ := ok_of_bind h
    refine ⟨selection, hselection, ?_⟩
    rw [compile_primary hselection h]
    exact (rowSelection_inherits hparts hselection).decodes _
  · obtain ⟨outputs, -, -, hnone | ⟨-, hbatches⟩⟩ := compile_ok h
    · rw [hnone] at hfetch
      cases hfetch
    · obtain ⟨name, -, hname⟩ := mem_of_mapM_ok hbatches hfetch
      exact (BatchFetch.queryFor_inherits hparts hname keys).decodes _
  · obtain ⟨q, hq, hpure⟩ := ok_of_bind h
    obtain rfl := Except.ok.inj hpure
    exact ⟨q, hq, (countQuery_inherits hparts hq).decodes _⟩
  · obtain ⟨q, hq, hpure⟩ := ok_of_bind h
    obtain rfl := Except.ok.inj hpure
    exact ⟨q, hq, (existsQuery_inherits hparts hq).decodes _⟩
  · obtain ⟨tree, htree, hpure⟩ := ok_of_bind h
    obtain rfl := Except.ok.inj hpure
    obtain ⟨hassignments, hcondition⟩ := update_inherits hparts htree
    exact ⟨tree, htree, (Sql.Update.shows hassignments hcondition).decodes _⟩
  · obtain ⟨tree, htree, hpure⟩ := ok_of_bind h
    obtain rfl := Except.ok.inj hpure
    exact ⟨tree, htree, (Sql.Delete.shows (delete_inherits hparts htree)).decodes _⟩
  · obtain ⟨tree, htree, hpure⟩ := ok_of_bind h
    obtain rfl := Except.ok.inj hpure
    exact ⟨tree, htree, (Entity.insert_shows htree).decodes _⟩

/-- an entity whose names look like placeholders and quotes -/
def sampleOddEntity : Entity where
  name := "entry"
  table := "a\"?b]"
  primaryKey := ""
  fields := [⟨"", .int, false⟩, ⟨"$1", .text, true⟩]
  relations := []

/-- those entries whose odd field is a text -/
def sampleOddPlan : Plan :=
  { ofEntity sampleOddEntity with
    filters := [.binary .eq (.field ⟨"entry", "$1", [], ⟨"$1", .text, true⟩⟩) (.literal (.text "x\""))] }

/-- Quotes and placeholders within names, and a name without characters, are told apart. -/
theorem statements_decode_oddNames :
    ∃ statement, sampleOddPlan.compileDelete ⟨[sampleOddEntity]⟩ .postgres = .ok statement ∧
      Sql.scan .postgres statement.sql = some [.name "a\"?b]", .name "$1", .placeholder "$1"] ∧
      statement.params = [.text "x\""] := by
  obtain ⟨-, -, -, -, hdelete, -⟩ := statements_decode ⟨[sampleOddEntity]⟩ .postgres sampleOddPlan
  obtain ⟨tree, htree, hdecodes⟩ := hdelete _ rfl
  obtain rfl := Except.ok.inj htree
  exact ⟨_, rfl, hdecodes.scanned, hdecodes.params⟩

/-- blogs whose key is among none -/
def sampleNoMembers : Plan :=
  { ofEntity sampleBlog with filters := [.inList (.field ⟨"blog", "id", [], ⟨"id", .int, false⟩⟩) [] false] }

/-- The operand of a membership test without members is named in the tree, and not in the text. -/
theorem scan_noMembers :
    ∃ compiled selection pieces, sampleNoMembers.compile sampleSchema .sqlite = .ok compiled ∧
      sampleNoMembers.rowSelection sampleSchema = .ok selection ∧
      Sql.scan .sqlite compiled.primary.sql = some pieces ∧
      pieces.filterMap Piece.name? = ["t0", "id", "t0", "rating", "blogs", "t0"] ∧
      (selection.query.mentions true).filterMap Mention.name? =
        ["t0", "id", "t0", "rating", "blogs", "t0", "t0", "id"] := by
  obtain ⟨selection, hselection⟩ : ∃ selection, sampleNoMembers.rowSelection sampleSchema = .ok selection := ⟨_, rfl⟩
  have hshows := rowSelection_inherits (Sql.shows_hereditary .sqlite) hselection
  have hscanned := (hshows.decodes (d := .sqlite) selection.columns).scanned
  obtain rfl := Except.ok.inj hselection
  exact ⟨_, _, _, rfl, hselection, hscanned, rfl, rfl⟩

end Plan

end RelQuery
