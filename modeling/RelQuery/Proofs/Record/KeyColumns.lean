/-
Relations by their keys.

The two columns of a relation are fields of its two sides, unless they are given as `pk` to a side that has no field of
that name: those are checked as the primary key and kept as they are. Joins compare the columns that are kept, and a fetch
in batches looks for them among the columns of the primary rows and among the fields of the target.
- `BatchFetch.exists_ofRelation_iff`: when the columns of a fetch are found.
- `Entity.shows_localColumn`, `Entity.shows_pk_iff`: the own column of a relation on a full record.
- `relation_keys_iff`: the keys of relations, the joins made by them and the fetches made by them.
-/
import RelQuery.Proofs.Record.Batched
import RelQuery.Proofs.Schema.Members
import RelQuery.Proofs.Statement.JoinColumns

namespace RelQuery

/-! ## Fetches -/

/-- The columns of a fetch are found when the primary rows have the own one and the target has the other. -/
theorem BatchFetch.exists_ofRelation_iff {schema : Schema} {root target : Entity} {primary : List OutputColumn}
    {name : String} {r : Relation} (hr : root.relation name = some r) (htarget : schema.entity r.target = .ok target) :
    (∃ fetch, ofRelation schema root primary name = .ok fetch) ↔
      (∃ c ∈ primary, c.source = .root ∧ c.key = r.localColumn) ∧ r.remoteColumn ∈ target.columnNames := by
  have hlocal : (∃ c ∈ primary, c.source = .root ∧ c.key = r.localColumn) ↔
      (primary.findIdx? fun c => c.source = .root && c.key = r.localColumn).isSome := by
    simp
  have hremote : r.remoteColumn ∈ target.columnNames ↔
      (target.fields.findIdx? (·.name = r.remoteColumn)).isSome := by
    simp [Entity.columnNames]
  rw [hlocal, hremote]
  unfold ofRelation
  rw [hr]
  dsimp only [orFail, bind, Except.bind]
  rw [htarget]
  dsimp only
  cases primary.findIdx? fun c => c.source = .root && c.key = r.localColumn with
  | none => simp
  | some i => cases target.fields.findIdx? (·.name = r.remoteColumn) <;> simp [pure, Except.pure]

namespace Plan

variable {schema : Schema} {p next : Plan}

/-- The relations that a plan loads are declared. -/
theorem Made.loaded (h : p.Made schema) : ∀ name ∈ p.loadings.names, ∃ r, p.root.relation name = some r := by
  induction h with
  | start started =>
    obtain ⟨root, -, rfl⟩ := map_ok started
    exact nofun
  | @step p next step _ applied ih =>
    have hsame : next.root = p.root → next.loadings = p.loadings →
        ∀ name ∈ next.loadings.names, ∃ r, next.root.relation name = some r := by
      intro hroot hloadings
      rw [hroot, hloadings]
      exact ih
    cases step with
    | filter | exclude | orderByExpr | clearOrdering | limit | offset | distinct =>
      obtain rfl := Except.ok.inj applied
      exact hsame rfl rfl
    | orderBy key direction =>
      obtain ⟨e, -, rfl⟩ := map_ok applied
      exact hsame rfl rfl
    | annotate aliasName e =>
      obtain ⟨-, -, rfl⟩ := annotate_eq_ok.1 applied
      exact hsame rfl rfl
    | project names =>
      obtain ⟨-, rfl⟩ := project_eq_ok.1 applied
      exact hsame rfl rfl
    | only names =>
      obtain ⟨-, rfl⟩ := only_eq_ok.1 applied
      exact hsame rfl rfl
    | withRelation name loading =>
      obtain ⟨relation, hrelation, -, rfl⟩ := withRelation_eq_ok.1 applied
      intro other hother
      rcases NameMap.mem_names_replace hother with rfl | hold
      · exact ⟨relation, hrelation⟩
      · exact ih other hold

end Plan

/-! ## The own column on a full record -/

/-- A full record of the entity has a column of this name: that of a field, looked up by the field's own name. -/
def Entity.Shows (schema : Schema) (e : Entity) (column : String) : Prop :=
  ∃ f ∈ e.fields, ∃ ref, FieldRef.resolve schema e.name f.name = .ok ref ∧ ref.column = column

/-- The columns of the root among those of full records. -/
theorem Plan.rootColumn_iff {schema : Schema} {p : Plan} (hprojection : p.projection = none) {selection : Selection}
    (hselection : p.rowSelection schema = .ok selection) {column : String} :
    (∃ c ∈ selection.columns, c.source = .root ∧ c.key = column) ↔ p.root.Shows schema column := by
  obtain ⟨outputs, _, _, _, _, houtputs, -, -, -, -, hcolumns, -⟩ := rowSelection_ok hselection
  rcases outputs_rows houtputs with ⟨names, hmaps, -⟩ | ⟨-, own, joined, computed, hown, hjoined, hcomputed, rfl, -⟩
  · rw [Maps, hprojection] at hmaps
    cases hmaps
  · rw [shownFields, hprojection] at hown
    have hown : p.root.columnNames.mapM (Output.ofRootField schema p.root) = .ok own := hown
    rw [hcolumns]
    constructor
    · rintro ⟨c, hc, hsource, rfl⟩
      obtain ⟨o, ho, rfl⟩ := List.mem_map.1 hc
      rcases List.mem_append.1 ho with ho | ho
      · rcases List.mem_append.1 ho with ho | ho
        · obtain ⟨name, hname, hone⟩ := mem_of_mapM_ok hown ho
          obtain ⟨f, hf, rfl⟩ := List.mem_map.1 hname
          obtain ⟨ref, href, hpure⟩ := ok_of_bind hone
          obtain rfl := Except.ok.inj hpure
          exact ⟨f, hf, ref, href, rfl⟩
        · obtain ⟨_, _, _, _, _, _, -, -, -, -, rfl⟩ := mem_joinedOutputs hjoined ho
          cases hsource
      · obtain ⟨name, -, hone⟩ := mem_of_mapM_ok hcomputed ho
        obtain ⟨e, -, rfl⟩ := annotationOutput_eq hone
        cases hsource
    · rintro ⟨f, hf, ref, href, rfl⟩
      obtain ⟨o, ho, hone⟩ := exists_of_mapM_ok hown (List.mem_map_of_mem hf)
      obtain ⟨ref', href', hpure⟩ := ok_of_bind hone
      obtain rfl := Except.ok.inj (href.symm.trans href')
      obtain rfl := Except.ok.inj hpure
      refine ⟨_, List.mem_map_of_mem (List.mem_append_left _ (List.mem_append_left _ ho)), rfl, rfl⟩

namespace Entity

variable {drafts : List EntityDraft} {schema : Schema} {e : Entity}

/-- A full record has the own column of a relation when its name holds no dot and is not `pk`. -/
theorem shows_localColumn (hschema : Schema.ofDrafts drafts = .ok schema) (he : e ∈ schema.entities) {r : Relation}
    (hr : r ∈ e.relations) (hundotted : '.' ∉ r.localColumn.toList) (hpk : r.localColumn ≠ "pk") :
    e.Shows schema r.localColumn := by
  obtain ⟨f, hf⟩ := Option.isSome_iff_exists.1 ((Schema.ofDrafts_keys hschema he).2 r hr)
  have hname : f.name = r.localColumn := by
    have hfound : f.name = fieldName e.primaryKey r.localColumn := by simpa using List.find?_some hf
    rw [hfound, fieldName, if_neg hpk]
  refine ⟨f, mem_of_field hf, ⟨e.name, f.name, [], f⟩, ?_, hname⟩
  rw [FieldRef.resolve, hname, Schema.resolve_undotted hschema he hundotted hf]
  rfl

/-- Where no field is named like a path, a full record has a column `pk` when that is the primary key. -/
theorem shows_pk_iff (hschema : Schema.ofDrafts drafts = .ok schema) (he : e ∈ schema.entities)
    (hundotted : ∀ f ∈ e.fields, '.' ∉ f.name.toList) : e.Shows schema "pk" ↔ e.primaryKey = "pk" := by
  constructor
  · rintro ⟨f, hf, ref, href, hcolumn⟩
    obtain ⟨g, -, hresolve, hname⟩ := Schema.resolve_own hschema he hf (hundotted f hf)
    obtain rfl := Except.ok.inj (href.symm.trans hresolve)
    exact primaryKey_of_fieldName (hname.symm.trans hcolumn)
  · intro hpk
    obtain ⟨f, hf⟩ := Option.isSome_iff_exists.1 (Schema.ofDrafts_keys hschema he).1
    have hfound : f.name = fieldName e.primaryKey e.primaryKey := by simpa using List.find?_some hf
    rw [fieldName, ite_self, hpk] at hfound
    have hmem := mem_of_field hf
    obtain ⟨g, -, hresolve, hname⟩ := Schema.resolve_own hschema he hmem (hundotted f hmem)
    rw [fieldName, if_pos hfound, hpk] at hname
    exact ⟨f, hmem, _, hresolve, hname⟩

end Entity

/-! ## Keys, joins and fetches -/

/-- The fetches of a plan in batches: the columns that they have, and when they have them. -/
structure Plan.FetchesByKeys (schema : Schema) (p : Plan) : Prop where
  declared : ∀ d q, p.compile schema d = .ok q → ∀ fetch ∈ q.batched, ∃ r ∈ p.root.relations, ∃ target f,
    schema.entity r.target = .ok target ∧ f ∈ target.fields ∧ fetch.IsOf q.primary.columns r target f
  /-- with full records -/
  full : p.projection = none → ∀ selection, p.rowSelection schema = .ok selection →
    ∀ name ∈ p.relationsLoaded .batched, ∃ r ∈ p.root.relations, p.root.relation name = some r ∧
      ∃ target, schema.entity r.target = .ok target ∧
        ((∃ fetch, BatchFetch.ofRelation schema p.root selection.columns name = .ok fetch) ↔
          p.root.Shows schema r.localColumn ∧ r.remoteColumn ∈ target.columnNames)

theorem Plan.Made.fetchesByKeys {drafts : List EntityDraft} {schema : Schema} {p : Plan}
    (hschema : Schema.ofDrafts drafts = .ok schema) (h : p.Made schema) : p.FetchesByKeys schema where
  declared d q hcompile fetch hfetch := by
    obtain ⟨-, r, target, f, hr, htarget, hof⟩ := BatchFetch.ofRelation_ok (Plan.batched_of_compile hcompile fetch hfetch)
    exact ⟨r, Entity.mem_of_relation hr, target, f, htarget, List.mem_of_getElem? hof.key, hof⟩
  full hprojection selection hselection name hname := by
    have hroot := Schema.mem_of_entity h.orderly.root
    obtain ⟨r, hr⟩ := h.loaded name (mem_loaded.2 (.inr hname))
    have hmem := Entity.mem_of_relation hr
    obtain ⟨target, -, htarget, -⟩ := Schema.ofDrafts_target hschema hroot hmem
    refine ⟨r, hmem, hr, target, htarget, ?_⟩
    rw [BatchFetch.exists_ofRelation_iff hr htarget, Plan.rootColumn_iff hprojection hselection]

/-- **The keys of relations are columns unless they are given as `pk`.** In every schema, each relation leads to an entity,
and each of its two columns is a field of its side unless the key was declared as `pk` to a side without a field of that
name. Every join of every statement of every plan compares the columns of a relation, and every fetch in batches looks for
those of a relation; with full records it finds them when the target has the one and the records have the other, which
they have unless it is `pk` or named like a path. -/
theorem relation_keys_iff {drafts : List EntityDraft} {schema : Schema} (hschema : Schema.ofDrafts drafts = .ok schema)
    (hformed : ∀ draft ∈ drafts, ∀ relation ∈ draft.relations, relation.Formed) :
    (∀ e ∈ schema.entities, ∀ r ∈ e.relations, ∃ target relation, r.Settled drafts schema e target relation) ∧
    (∀ p earlier d assignments, Plan.Built schema none p earlier →
      (∀ assigned ∈ assignments, ∀ inner ∈ assigned.2.subplans, ∃ past, Plan.Built schema (some p.root) inner past) →
      p.EveryStatement schema d assignments (Plan.JoinsByKeys schema)) ∧
    (∀ p : Plan, p.Made schema → p.FetchesByKeys schema) ∧
    ∀ e ∈ schema.entities,
      (∀ r ∈ e.relations, '.' ∉ r.localColumn.toList → r.localColumn ≠ "pk" → e.Shows schema r.localColumn) ∧
      ((∀ f ∈ e.fields, '.' ∉ f.name.toList) → (e.Shows schema "pk" ↔ e.primaryKey = "pk")) := by
  refine ⟨fun e he r hr => Schema.relation_settled hschema hformed he hr, fun p earlier d assignments hbuilt hassigned => ?_,
    fun p hmade => hmade.fetchesByKeys hschema, fun e he => ⟨fun r hr => Entity.shows_localColumn hschema he hr,
      Entity.shows_pk_iff hschema he⟩⟩
  refine hbuilt.traced.everyStatement d fun assigned hmem inner hinner => ?_
  obtain ⟨past, hpast⟩ := hassigned assigned hmem inner hinner
  exact hpast.traced

/-! An entry whose relation to its blog is keyed by `pk`. -/

namespace KeyedByRole

def blogDraft : EntityDraft := .declare "blog" none none [⟨"id", .int, false⟩, ⟨"name", .text, false⟩] []

def entryDraft : EntityDraft := .declare "entry" none none [⟨"id", .int, false⟩] [.toOne "blog" "blog" "pk"]

def blog : Entity := ⟨"blog", "blog", "id", [⟨"id", .int, false⟩, ⟨"name", .text, false⟩], []⟩

def entry : Entity := ⟨"entry", "entry", "id", [⟨"id", .int, false⟩], [⟨"blog", "blog", .toOne, "pk", "id"⟩]⟩

def schema : Schema := ⟨[blog, entry]⟩

theorem checked : Schema.ofDrafts [blogDraft, entryDraft] = .ok schema := rfl

/-- the entries, each with its blog -/
def entries (loading : Loading) : Plan := { Plan.ofEntity entry with loadings := ⟨[("blog", loading)]⟩ }

theorem entries_made : (entries .batched).Made schema :=
  .step (.withRelation "blog" (some .batched)) (.start (rfl : Plan.start schema "entry" = _)) rfl

theorem formed : ∀ draft ∈ [blogDraft, entryDraft], ∀ relation ∈ draft.relations, relation.Formed := by
  intro draft hdraft relation hrelation
  rcases List.mem_pair.1 hdraft with rfl | rfl
  · cases hrelation
  · obtain rfl := List.mem_singleton.1 hrelation
    exact .toOne "blog" "blog" "pk"

/-- No entry shows the column that its relation is keyed by, so no fetch of the blogs is made. -/
theorem relation_keys_iff_entries : ¬entry.Shows schema "pk" ∧
    ∃ selection, (entries .batched).rowSelection schema = .ok selection ∧
      ¬∃ fetch, BatchFetch.ofRelation schema entry selection.columns "blog" = .ok fetch := by
  obtain ⟨-, -, hfetches, hshows⟩ := relation_keys_iff checked formed
  have hpk : ¬entry.Shows schema "pk" := by
    rw [(hshows entry (by decide)).2 (by decide)]
    decide
  refine ⟨hpk, _, rfl, fun h => ?_⟩
  obtain ⟨r, -, hr, target, -, hiff⟩ := (hfetches _ entries_made).full rfl _ rfl "blog" (by decide)
  obtain rfl : _ = r := Option.some.inj hr
  exact hpk (hiff.1 h).1

/-- The schema is accepted with a key that is no column: the blogs cannot be fetched in batches, and are joined by it. -/
theorem entries_unkeyed : Schema.ofDrafts [blogDraft, entryDraft] = .ok schema ∧ entry ∈ schema.entities ∧
    ∃ r ∈ entry.relations, r.localColumn ∉ entry.columnNames ∧
      (∀ d, (entries .batched).compile schema d = .error (.unknownPath "entry" "pk")) ∧
      ∃ selection, (entries .join).rowSelection schema = .ok selection ∧ selection.query.joins =
        [⟨.left, ⟨"blog", some "t1"⟩, .eq (.columnOf "t0" "pk") (.columnOf "t1" "id")⟩] :=
  ⟨checked, by decide, ⟨"blog", "blog", .toOne, "pk", "id"⟩, by decide, by decide, fun _ => rfl, _, rfl, rfl⟩

end KeyedByRole

end RelQuery
