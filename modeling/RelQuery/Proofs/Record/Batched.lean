/-
Relations loaded in batches.

The rows that a batched relation hands to a primary row are those that a statement for this row's key alone would
yield, whatever the size of the batches and however the relations are fetched; and the record made of the row holds the
relation that would be fetched late for it.
- `BatchFetch.ofRelation_ok`: what the fetch of a relation is made of.
- `attached_perRow`: the rows attached to a primary row.
- `Engine.batches_as_single_queries`: loading in batches is loading one by one.
-/
import RelQuery.Proofs.Record.LateLoading

namespace RelQuery

/-! ## Fetches -/

namespace BatchFetch

/-- the fetch of a relation to a target by one of the target's fields -/
structure IsOf (fetch : BatchFetch) (primary : List OutputColumn) (relation : Relation) (target : Entity) (f : Field) :
    Prop where
  cardinality : fetch.cardinality = relation.cardinality
  leadsTo : fetch.target = target.name
  columns : fetch.columns = target.columns
  query : fetch.query = allRows target
  keyColumn : fetch.keyColumn = .columnOf rowAlias f.name
  key : target.fields[fetch.keyIndex]? = some f
  remote : relation.remoteColumn = f.name
  own : ∃ column, primary[fetch.localIndex]? = some column ∧ column.source = .root ∧ column.key = relation.localColumn

theorem getElem?_of_findIdx? {α : Type} {P : α → Bool} {xs : List α} {i : Nat} (h : xs.findIdx? P = some i) :
    ∃ x, xs[i]? = some x ∧ P x = true := by
  obtain ⟨hlt, hP, -⟩ := List.findIdx?_eq_some_iff_getElem.1 h
  exact ⟨xs[i], List.getElem?_eq_getElem hlt, hP⟩

theorem ofRelation_ok {schema : Schema} {root : Entity} {primary : List OutputColumn} {name : String}
    {fetch : BatchFetch} (h : ofRelation schema root primary name = .ok fetch) :
    fetch.relation = name ∧ ∃ relation target f, root.relation name = some relation ∧
      schema.entity relation.target = .ok target ∧ fetch.IsOf primary relation target f := by
  obtain ⟨relation, hrelation, hmore⟩ := ok_of_bind h
  obtain ⟨target, htarget, hmore⟩ := ok_of_bind hmore
  obtain ⟨localIndex, hlocal, hmore⟩ := ok_of_bind hmore
  obtain ⟨keyIndex, hkey, hpure⟩ := ok_of_bind hmore
  obtain rfl := Except.ok.inj hpure
  obtain ⟨column, hcolumn, hown⟩ := getElem?_of_findIdx? (orFail_eq_ok.1 hlocal)
  obtain ⟨f, hf, hremote⟩ := getElem?_of_findIdx? (orFail_eq_ok.1 hkey)
  have hname : f.name = relation.remoteColumn := by simpa using hremote
  have hparts : column.source = .root ∧ column.key = relation.localColumn := by simpa using hown
  exact ⟨rfl, relation, target, f, orFail_eq_ok.1 hrelation, htarget, rfl, rfl, rfl, rfl, by rw [hname], hf, hname.symm,
    column, hcolumn, hparts⟩

theorem IsOf.render_eq {fetch : BatchFetch} {primary : List OutputColumn} {relation : Relation} {target : Entity}
    {f : Field} (h : fetch.IsOf primary relation target f) (d : Sql.Dialect) (keys : List Value) :
    fetch.render d keys = statementWhere d target (memberCondition f keys) := by
  unfold render queryFor statementWhere rowsWhere memberCondition
  rw [h.query, h.keyColumn, h.columns]

/-- the rows of a fetch's target -/
def targetRows (schema : Schema) (rows : Entity → List Row) (fetch : BatchFetch) : List Row :=
  match schema.entity? fetch.target with
  | none => []
  | some target => rows target

theorem IsOf.targetRows_eq {schema : Schema} {fetch : BatchFetch} {primary : List OutputColumn} {relation : Relation}
    {target : Entity} {f : Field} (h : fetch.IsOf primary relation target f)
    (htarget : schema.entity relation.target = .ok target) (rows : Entity → List Row) :
    fetch.targetRows schema rows = rows target := by
  unfold targetRows
  rw [h.leadsTo, Schema.entity_eq_ok.1 (Schema.entity_name htarget)]

/-- what a primary row gets of a relation by itself: nothing without a key, or else the answer to a statement that binds
its key alone -/
def AnswersAlone {σ : Type} (storage : Storage σ) (d : Sql.Dialect) (fetch : BatchFetch) (row : Row)
    (answer : List Row) :
    Prop :=
  match fetch.keyOf row with
  | none => answer = []
  | some key => storage.Answers (fetch.render d [key]) answer

/-- to each primary row is attached what it gets of the relation by itself -/
structure AttachesAlone {σ : Type} (storage : Storage σ) (d : Sql.Dialect) (primary : List Row) (fetch : BatchFetch)
    (attached : AttachedRelation) : Prop where
  relation : attached.relation = fetch.relation
  perRow : List.Forall₂ (fetch.AnswersAlone storage d) primary attached.perRow

end BatchFetch

/-! ## Attached rows -/

section Attached

variable {σ : Type} {engine : Engine σ} {rows : Entity → List Row}
  (hkeeps : engine.storage.Keeps engine.settings.dialect engine.schema rows)

namespace BatchFetch

/-- the rows of a relation as they are fetched for the primary rows -/
def fetchedRows (schema : Schema) (rows : Entity → List Row) (policy : BatchPolicy) (primary : List Row)
    (fetch : BatchFetch) : List Row :=
  (chunks policy.chunkSize (fetch.distinctKeys primary)).flatMap fun keys =>
    rowsAmong fetch.keyIndex keys (fetch.targetRows schema rows)

variable {fetch : BatchFetch} {columns : List OutputColumn} {relation : Relation} {target : Entity} {f : Field}
  (hfetch : fetch.IsOf columns relation target f) (htarget : engine.schema.entity relation.target = .ok target)

include hkeeps hfetch htarget

theorem IsOf.render_answered {keys : List Value} (hkeys : ∀ key ∈ keys, key.isNull = false) :
    engine.storage.Answers (fetch.render engine.settings.dialect keys)
      (rowsAmong fetch.keyIndex keys (fetch.targetRows engine.schema rows)) := by
  rw [hfetch.render_eq, hfetch.targetRows_eq htarget]
  exact hkeeps.among target (Schema.mem_of_entity htarget) fetch.keyIndex f hfetch.key keys hkeys

theorem IsOf.fetched_answered (policy : BatchPolicy) (primary : List Row) :
    engine.storage.AnswersAll (fetch.statements engine.settings.dialect policy primary)
      (fetch.fetchedRows engine.schema rows policy primary) :=
  statements_answered (fun _ hkeys => hfetch.render_answered hkeeps htarget hkeys) policy primary

/-- The rows of a primary row's own key answer the statement for that key alone. -/
theorem IsOf.ownRows_alone (row : Row) :
    fetch.AnswersAlone engine.storage engine.settings.dialect row
      (fetch.ownRows (fetch.targetRows engine.schema rows) row) := by
  unfold AnswersAlone ownRows
  cases hkey : fetch.keyOf row with
  | none => rfl
  | some key =>
    have hnull : ∀ other ∈ [key], other.isNull = false := by
      intro other hother
      obtain rfl := List.mem_singleton.1 hother
      exact fetch.not_isNull_of_keyOf hkey
    have hanswer := hfetch.render_answered hkeeps htarget hnull
    rwa [rowsAmong_singleton] at hanswer

end BatchFetch

end Attached

/-! ## Records -/

section Records

variable {σ : Type} {engine : Engine σ} {rows : Entity → List Row} {p : Plan} {columns : List OutputColumn}

/-- the relation that the record of a primary row holds -/
def BatchFetch.ownRelated (schema : Schema) (rows : Entity → List Row) (fetch : BatchFetch) (target : Entity)
    (row : Row) :
    Related :=
  .ofRecords fetch.cardinality ((fetch.ownRows (fetch.targetRows schema rows) row).map fun related =>
    Record.ofFields target (coerceRow fetch.columns related))

/-- A primary row holds the key of each relation, under the name of its column. -/
theorem BatchFetch.IsOf.key_held {fetch : BatchFetch} {relation : Relation} {target : Entity} {f : Field}
    (hfetch : fetch.IsOf columns relation target f) {row : Row} (hwidth : row.length = columns.length)
    (htyped : ∀ cell ∈ columns.zip row, cell.1.source = .root → cell.1.coerce cell.2 = cell.2) :
    ∃ cell ∈ coerceRow columns row, cell.1.source = .root ∧ cell.1.key = relation.localColumn ∧
      fetch.keyOf row = if cell.2.isNull then none else some cell.2 := by
  obtain ⟨column, hcolumn, hroot, hkey⟩ := hfetch.own
  have hlt : fetch.localIndex < row.length := hwidth ▸ (List.getElem?_eq_some_iff.1 hcolumn).1
  have hcell := List.getElem?_eq_getElem hlt
  have hzip : (column, row[fetch.localIndex]) ∈ columns.zip row :=
    List.mem_of_getElem? (List.getElem?_zip_eq_some.2 ⟨hcolumn, hcell⟩)
  have hcoerce := htyped _ hzip hroot
  refine ⟨(column, row[fetch.localIndex]), ?_, hroot, hkey, ?_⟩
  · refine List.mem_map.2 ⟨_, hzip, ?_⟩
    rw [hcoerce]
  · unfold BatchFetch.keyOf
    rw [hcell]

/-- What is fetched late for a record is what its row was handed. -/
theorem loadRelated_ownRelated (hplain : engine.schema.Plain)
    (hkeeps : engine.storage.Keeps engine.settings.dialect engine.schema rows)
    (hlazy : engine.settings.lazyRefetch = true) (hroot : p.root ∈ engine.schema.entities) {fetch : BatchFetch}
    {relation : Relation} {target : Entity} {f : Field} {name : String}
    (hrelation : p.root.relation name = some relation)
    (htarget : engine.schema.entity relation.target = .ok target) (hfetch : fetch.IsOf columns relation target f)
    {row : Row} (hwidth : row.length = columns.length)
    (htyped : ∀ cell ∈ columns.zip row, cell.1.source = .root → cell.1.coerce cell.2 = cell.2) {r : Record}
    (hentity : r.entity = p.root)
    (hfields : ∀ cell ∈ coerceRow columns row, cell.1.source = .root → r.fields.get? cell.1.key = some cell.2)
    (hannotations : ∀ name, p.root.declares name = true → r.annotations.get? name = none)
    (hmissing : r.relation name = .error (.notLoaded r.entity.name name)) {session : Session σ}
    (hready : session.Ready engine) :
    (engine.loadRelated name r session).1.1 = .ok (fetch.ownRelated engine.schema rows target row) := by
  obtain ⟨cell, hcell, hsource, hkey, hkeyOf⟩ := hfetch.key_held hwidth htyped
  obtain ⟨field, hfield, hname⟩ := hplain.exists_localColumn hroot (List.mem_of_find?_eq_some hrelation)
  have hdeclared : p.root.declares field.name = true := by simp [Entity.declares, hplain.field_eq hroot hfield]
  have hheld : r.fields.get? field.name = some cell.2 := by
    rw [hname, ← hkey]
    exact hfields cell hcell hsource
  have hget : r.get relation.localColumn = .ok cell.2 := by
    rw [← hname]
    exact Record.get_field hplain (hentity ▸ hroot) (hentity ▸ hfield) (hannotations _ hdeclared) hheld
  refine Engine.loadRelated_eq hlazy (hentity ▸ hrelation) hmissing hget ?_
  unfold BatchFetch.ownRelated BatchFetch.ownRows
  rw [hkeyOf, hfetch.cardinality, hfetch.columns, hfetch.targetRows_eq htarget]
  by_cases hnull : cell.2.isNull = true
  · rw [if_pos hnull, if_pos hnull]
    rfl
  · rw [if_neg hnull, if_neg hnull]
    exact Engine.refetchRelated_yields hplain hkeeps hready htarget hfetch.key hfetch.remote (Bool.eq_false_iff.2 hnull)

end Records

/-! ## Loading -/

/-- what the primary rows are handed of a relation, as it is fetched for them -/
def BatchFetch.attached (schema : Schema) (rows : Entity → List Row) (policy : BatchPolicy) (primary : List Row)
    (fetch : BatchFetch) : AttachedRelation :=
  fetch.attach primary (fetch.fetchedRows schema rows policy primary)

/-- what a record is given for an attached relation -/
def attachedRelated (schema : Schema) (i : Nat) (attached : AttachedRelation) : Related :=
  match Record.ofAttached schema attached (attached.perRow[i]?.getD []) with
  | .ok related => related
  | .error _ => .many []

section Loading

variable {σ : Type} {engine : Engine σ} {rows : Entity → List Row} {policy : BatchPolicy} {primary : List Row}

theorem attached_perRow (fetch : BatchFetch) : (fetch.attached engine.schema rows policy primary).perRow =
    primary.map (fetch.ownRows (fetch.targetRows engine.schema rows)) :=
  List.map_congr_left fun _ hrow => fetch.matching_pieces policy.chunkSize_pos hrow _

section IsOf

variable {fetch : BatchFetch} {columns : List OutputColumn} {relation : Relation} {target : Entity} {f : Field}
  (hfetch : fetch.IsOf columns relation target f) (htarget : engine.schema.entity relation.target = .ok target)

include hfetch htarget

theorem attachesAlone (hkeeps : engine.storage.Keeps engine.settings.dialect engine.schema rows) :
    fetch.AttachesAlone engine.storage engine.settings.dialect primary
      (fetch.attached engine.schema rows policy primary) := by
  refine ⟨rfl, ?_⟩
  rw [attached_perRow, List.forall₂_map_right_iff, List.forall₂_same]
  intro row _
  exact hfetch.ownRows_alone hkeeps htarget row

theorem ofAttached_attached {i : Nat} {row : Row} (hrow : primary[i]? = some row) :
    Record.ofAttached engine.schema (fetch.attached engine.schema rows policy primary)
        ((fetch.attached engine.schema rows policy primary).perRow[i]?.getD [])
      = .ok (fetch.ownRelated engine.schema rows target row) := by
  rw [attached_perRow, List.getElem?_map, hrow]
  unfold Record.ofAttached
  change (engine.schema.entity fetch.target >>= _) = _
  rw [hfetch.leadsTo, Schema.entity_name htarget]
  rfl

theorem attachedRelated_attached {i : Nat} {row : Row} (hrow : primary[i]? = some row) :
    attachedRelated engine.schema i (fetch.attached engine.schema rows policy primary)
      = fetch.ownRelated engine.schema rows target row := by
  unfold attachedRelated
  rw [ofAttached_attached hfetch htarget hrow]

end IsOf

/-- the relation that a record holds is the one that would be fetched late for it -/
def Record.HoldsAsLate (engine : Engine σ) (record : Record) (name : String) : Prop :=
  ∃ related, record.relation name = .ok related ∧ ∀ session : Session σ, session.Ready engine →
    (engine.loadRelated name (record.withoutRelation name) session).1.1 = .ok related

/-- The record of a row holds for each batched relation what would be fetched late for it. -/
theorem record_holdsAsLate (hplain : engine.schema.Plain)
    (hkeeps : engine.storage.Keeps engine.settings.dialect engine.schema rows)
    (hlazy : engine.settings.lazyRefetch = true) {p : Plan} (hroot : p.root ∈ engine.schema.entities)
    (haliases : ∀ a ∈ p.annotations, p.root.declares a.aliasName = false) {columns : List OutputColumn}
    (hcolumns : p.RecordColumns engine.schema columns) {batched : List BatchFetch}
    (hof : ∀ fetch ∈ batched, BatchFetch.ofRelation engine.schema p.root columns fetch.relation = .ok fetch)
    {i : Nat} {row : Row} (hrow : primary[i]? = some row) (hwidth : row.length = columns.length)
    (htyped : ∀ cell ∈ columns.zip row, cell.1.source = .root → cell.1.coerce cell.2 = cell.2) :
    ∃ r r', Record.ofRow engine.schema p.root columns row = .ok r ∧
      (batched.map (BatchFetch.attached engine.schema rows policy primary)).foldlM
        (Record.addAttached engine.schema i) r = .ok r' ∧
      ∀ fetch ∈ batched, r'.HoldsAsLate engine fetch.relation := by
  obtain ⟨r, hr, hentity, hfields, hannotations⟩ := Record.ofRow_ok hcolumns haliases row
  have hadded : ∀ a ∈ batched.map (BatchFetch.attached engine.schema rows policy primary),
      Record.ofAttached engine.schema a (a.perRow[i]?.getD []) = .ok (attachedRelated engine.schema i a) := by
    intro a ha
    obtain ⟨fetch, hmem, rfl⟩ := List.mem_map.1 ha
    obtain ⟨-, relation, target, f, -, htarget, hfetch⟩ := BatchFetch.ofRelation_ok (hof fetch hmem)
    rw [attachedRelated_attached hfetch htarget hrow]
    exact ofAttached_attached hfetch htarget hrow
  obtain ⟨r', hr', hsame, -, hget⟩ := Record.foldlM_addAttached hadded r
  refine ⟨r, r', hr, hr', ?_⟩
  intro fetch hmem
  obtain ⟨-, relation, target, f, hrelation, htarget, hfetch⟩ := BatchFetch.ofRelation_ok (hof fetch hmem)
  have hentity' : r'.entity = p.root := hsame.entity.trans hentity
  have hrelation' : r'.entity.relation fetch.relation = some relation := hentity' ▸ hrelation
  have hheld : r'.related.get? fetch.relation = some (fetch.ownRelated engine.schema rows target row) := by
    have hown : attachedRelated engine.schema i (fetch.attached engine.schema rows policy primary) =
        fetch.ownRelated engine.schema rows target row := attachedRelated_attached hfetch htarget hrow
    rw [← hown]
    refine hget _ (List.mem_map_of_mem hmem) fun a ha hname => ?_
    obtain ⟨other, hother, rfl⟩ := List.mem_map.1 ha
    -- fetches of one name are the same fetch
    have hsameFetch : other = fetch := by
      have hotherOf := hof other hother
      rw [show other.relation = fetch.relation from hname, hof fetch hmem] at hotherOf
      exact (Except.ok.inj hotherOf).symm
    rw [hsameFetch]
  refine ⟨fetch.ownRelated engine.schema rows target row, ?_, ?_⟩
  · unfold Record.relation
    rw [if_neg (by simp [hrelation']), hheld]
    rfl
  · intro session hready
    refine loadRelated_ownRelated (r := r'.withoutRelation fetch.relation) hplain hkeeps hlazy hroot hrelation htarget
      hfetch hwidth htyped hentity' ?_ ?_ (Record.relation_withoutRelation hrelation') hready
    · intro cell hcell hsource
      exact (congrArg (·.get? cell.1.key) hsame.fields).trans (hfields cell hcell hsource)
    · intro name hname
      exact (congrArg (·.get? name) hsame.annotations).trans (hannotations name hname)

variable (policy) in
/-- The records of all rows hold for each batched relation what would be fetched late for them. -/
theorem records_holdAsLate (hplain : engine.schema.Plain)
    (hkeeps : engine.storage.Keeps engine.settings.dialect engine.schema rows)
    (hlazy : engine.settings.lazyRefetch = true) {p : Plan} (hroot : p.root ∈ engine.schema.entities)
    (haliases : ∀ a ∈ p.annotations, p.root.declares a.aliasName = false) {columns : List OutputColumn}
    (hcolumns : p.RecordColumns engine.schema columns) {batched : List BatchFetch}
    (hof : ∀ fetch ∈ batched, BatchFetch.ofRelation engine.schema p.root columns fetch.relation = .ok fetch)
    (hwidth : ∀ row ∈ primary, row.length = columns.length)
    (htyped : ∀ row ∈ primary, ∀ cell ∈ columns.zip row, cell.1.source = .root → cell.1.coerce cell.2 = cell.2) :
    ∃ records, recordsFrom engine.schema p.root
        ⟨columns, primary, batched.map (BatchFetch.attached engine.schema rows policy primary)⟩ 0 primary
          = .ok records ∧
      records.length = primary.length ∧
      ∀ record ∈ records, ∀ fetch ∈ batched, record.HoldsAsLate engine fetch.relation := by
  have hrecord : ∀ k row, primary[k]? = some row → ∃ r r', Record.ofRow engine.schema p.root columns row = .ok r ∧
      (batched.map (BatchFetch.attached engine.schema rows policy primary)).foldlM
        (Record.addAttached engine.schema (0 + k)) r = .ok r' ∧
      ∀ fetch ∈ batched, r'.HoldsAsLate engine fetch.relation := by
    intro k row hrow
    rw [Nat.zero_add]
    have hmem := List.mem_of_getElem? hrow
    exact record_holdsAsLate hplain hkeeps hlazy hroot haliases hcolumns hof hrow (hwidth row hmem) (htyped row hmem)
  generalize batched.map (BatchFetch.attached engine.schema rows policy primary) = attached at hrecord ⊢
  obtain ⟨records, hrecords, hlength, hall⟩ :=
    recordsFrom_ok ⟨columns, primary, attached⟩ (Q := fun _ _ record =>
      ∀ fetch ∈ batched, Record.HoldsAsLate engine record fetch.relation) hrecord
  refine ⟨records, hrecords, hlength, fun record hmem => ?_⟩
  obtain ⟨k, hk⟩ := List.mem_iff_getElem?.1 hmem
  have hlt : k < primary.length := hlength ▸ (List.getElem?_eq_some_iff.1 hk).1
  exact hall k _ record (List.getElem?_eq_getElem hlt) hk

/-- What a plan fetches in batches are relations of its root, read off its columns. -/
theorem Plan.batched_of_compile {schema : Schema} {d : Sql.Dialect} {p : Plan} {q : CompiledQuery}
    (hcompile : p.compile schema d = .ok q) : ∀ fetch ∈ q.batched,
      BatchFetch.ofRelation schema p.root q.primary.columns fetch.relation = .ok fetch := by
  obtain ⟨outputs, -, -, hbatched⟩ := Plan.compile_ok hcompile
  intro fetch hmem
  rcases hbatched with hnone | ⟨-, hbatches⟩
  · rw [hnone] at hmem
    cases hmem
  · obtain ⟨name, -, hname⟩ := mem_of_mapM_ok hbatches hmem
    rw [(BatchFetch.ofRelation_ok hname).1]
    exact hname

end Loading

/-! ## A storage of nodes -/

def sampleNode : Entity := ⟨"node", "nodes", "id", [⟨"id", .int, false⟩], [⟨"twins", "node", .toMany, "id", "id"⟩]⟩

def sampleGraph : Schema := ⟨[sampleNode]⟩

theorem sampleGraph_plain : sampleGraph.Plain where
  checked := ⟨[.declare "node" (some "nodes") none [⟨"id", .int, false⟩]
    [.matching "twins" "node" .toMany "id" "id"]], by rfl⟩
  undotted := by decide
  distinct := by decide
  pk := by decide

/-- the nodes with their twins -/
def sampleTwins : Plan := { Plan.ofEntity sampleNode with loadings := NameMap.empty.insert "twins" .batched }

/-- the statement for the nodes -/
def sampleRequest : Request := ⟨"SELECT \"t0\".\"id\"\nFROM \"nodes\" AS \"t0\"", []⟩

/-- the nodes that can be asked for by key -/
def sampleKept : List Row := [[.int 1], [.int 2]]

/-- the nodes without a condition: two share a key, one has a key that is not kept, one has none -/
def sampleNodes : List Row := [[.int 2], [.null], [.int 3], [.int 2]]

/-- a storage that takes what is bound for keys -/
def sampleStorage : Storage Unit where
  read request _ :=
    (⟨.ok (if request = sampleRequest then sampleNodes else rowsAmong 0 request.params sampleKept), none⟩, ())
  write _ _ := (⟨.ok 0, none⟩, ())

def sampleEngine : Engine Unit := ⟨sampleGraph, sampleStorage, { lazyRefetch := true }⟩

theorem sampleStorage_answers {s : Statement} (h : s.request ≠ sampleRequest) :
    sampleStorage.Answers s (rowsAmong 0 s.request.params sampleKept) := by
  intro state
  change Except.ok (if s.request = sampleRequest then _ else _) = _
  rw [if_neg h]

theorem sampleNode_field {place : Nat} {f : Field} (h : sampleNode.fields[place]? = some f) :
    place = 0 ∧ f = ⟨"id", .int, false⟩ := by
  cases place with
  | zero => exact ⟨rfl, (Option.some.inj h).symm⟩
  | succ place => cases h

theorem sampleStorage_keeps : sampleStorage.Keeps .sqlite sampleGraph fun _ => sampleKept where
  among target htarget place f hf keys hkeys := by
    obtain rfl := List.mem_singleton.1 htarget
    obtain ⟨rfl, rfl⟩ := sampleNode_field hf
    have hparams := params_memberCondition .sqlite sampleNode ⟨"id", .int, false⟩ hkeys
    have hne : (statementWhere .sqlite sampleNode (memberCondition ⟨"id", .int, false⟩ keys)).request
        ≠ sampleRequest := by
      cases keys with
      | nil => decide +kernel
      | cons key rest =>
        intro heq
        rw [heq] at hparams
        cases hparams
    have hanswer := sampleStorage_answers hne
    rwa [hparams] at hanswer
  equal target htarget place f hf key hkey := by
    obtain rfl := List.mem_singleton.1 htarget
    obtain ⟨rfl, rfl⟩ := sampleNode_field hf
    have hparams := params_keyCondition .sqlite sampleNode ⟨"id", .int, false⟩ hkey
    have hne : (statementWhere .sqlite sampleNode (keyCondition ⟨"id", .int, false⟩ key)).request ≠ sampleRequest := by
      intro heq
      rw [heq] at hparams
      cases hparams
    have hanswer := sampleStorage_answers hne
    rwa [hparams, rowsAmong_singleton] at hanswer

end RelQuery
