/-
The columns that relations are matched by.

A schema takes the keys of relations as their drafts give them, a column by its name or the primary key by its role, and
checks that each is found among the fields of its side. The lookup also understands `pk` as the primary key, while what is
kept is the text: a key given as `pk` is checked as the primary key and kept as a column of the name `pk`.
- `Schema.ofDrafts_entity`: each entity of a schema is found by its name.
- `Schema.relation_settled`: the columns of a relation are fields of its two sides unless they are given as `pk` to a
  side without a field of that name.
-/
import RelQuery.Proofs.Schema.Names

namespace RelQuery

/-! ## Drafts and entities -/

def EntityDraft.columnNames (e : EntityDraft) : List String := e.fields.map (·.name)

/-- the names of the columns of an entity -/
def Entity.columnNames (e : Entity) : List String := e.fields.map (·.name)

theorem EntityDraft.field_isSome {e : EntityDraft} {name : String} :
    (e.field name).isSome ↔ fieldName e.primaryKey name ∈ e.columnNames := by
  rw [field, List.find?_isSome, columnNames, List.mem_map]
  simp

/-- a relation as it can be declared -/
inductive RelationDraft.Formed : RelationDraft → Prop
  | toOne (name target foreignKey : String) : Formed (.toOne name target foreignKey)
  | toMany (name target foreignKey : String) : Formed (.toMany name target foreignKey)
  | matching (name target : String) (cardinality : Cardinality) (localColumn remoteColumn : String) :
    Formed (.matching name target cardinality localColumn remoteColumn)

/-- The key is given as `pk`, and its side has no column of that name. -/
def KeyRole.Misnamed (key : KeyRole) (columns : List String) : Prop := key = .column "pk" ∧ "pk" ∉ columns

instance (key : KeyRole) (columns : List String) : Decidable (key.Misnamed columns) :=
  inferInstanceAs (Decidable (_ ∧ _))

/-- A column that is looked up among the fields, `pk` being the primary key, is one of them unless it is `pk`. -/
theorem column_mem_iff {primaryKey name : String} {columns : List String} (h : fieldName primaryKey name ∈ columns) :
    name ∈ columns ↔ ¬(KeyRole.column name).Misnamed columns := by
  rw [KeyRole.Misnamed, KeyRole.column.injEq]
  unfold fieldName at h
  split at h
  · next hpk => simp [hpk]
  · next hpk => simp [h, hpk]

theorem EntityDraft.primaryKey_mem {e : EntityDraft} (h : e.checkKey = .ok ()) : e.primaryKey ∈ e.columnNames := by
  unfold checkKey at h
  split at h
  · next hsome => simpa [fieldName] using EntityDraft.field_isSome.1 hsome
  · cases h

namespace Schema

variable {drafts : List EntityDraft} {schema : Schema}

/-- Every entity is found by its name. -/
theorem ofDrafts_entity (h : ofDrafts drafts = .ok schema) {e : Entity} (he : e ∈ schema.entities) :
    schema.entity e.name = .ok e := by
  have hnames : schema.entities.map (·.name) = drafts.map (·.name) := by
    exact map_eq_map_iff_forall₂.2 ((ofDrafts_settled h).flip.imp fun _ _ => EntityDraft.settle_name)
  have hnodup : (schema.entities.map (·.name)).Nodup := hnames ▸ ofDrafts_nodup h
  exact entity_eq_ok.2 (find?_of_nodup_map hnodup he)

end Schema

theorem EntityDraft.settle_columnNames {drafts : List EntityDraft} {draft : EntityDraft} {e : Entity}
    (h : draft.settle drafts = .ok e) : e.columnNames = draft.columnNames := by
  obtain ⟨relations, -, rfl⟩ := settle_eq_ok.1 h
  rfl

namespace RelationDraft

variable {drafts : List EntityDraft} {owner target : EntityDraft} {relation : RelationDraft}

/-- The key on the own side is a column of the owner unless it is given as `pk`. -/
theorem Formed.local_mem_iff (hformed : relation.Formed) (howner : owner.checkKey = .ok ())
    (hfound : (owner.field (relation.localKey.column? owner target)).isSome) :
    relation.localKey.column? owner target ∈ owner.columnNames ↔ ¬relation.localKey.Misnamed owner.columnNames := by
  cases hformed with
  | toOne | matching => exact column_mem_iff (EntityDraft.field_isSome.1 hfound)
  | toMany => exact iff_of_true (EntityDraft.primaryKey_mem howner) fun h => nomatch h.1

/-- The key on the other side is a column of the target unless it is given as `pk`. -/
theorem Formed.remote_mem_iff (hformed : relation.Formed) (htarget : target.checkKey = .ok ())
    (hfound : (target.field (relation.remoteKey.column? target target)).isSome) :
    relation.remoteKey.column? target target ∈ target.columnNames ↔
      ¬relation.remoteKey.Misnamed target.columnNames := by
  cases hformed with
  | toMany | matching => exact column_mem_iff (EntityDraft.field_isSome.1 hfound)
  | toOne => exact iff_of_true (EntityDraft.primaryKey_mem htarget) fun h => nomatch h.1

end RelationDraft

/-- A relation of an entity: where it was declared, where it leads, and when its two columns are fields. -/
structure Relation.Settled (drafts : List EntityDraft) (schema : Schema) (e : Entity) (r : Relation) (target : Entity)
    (relation : RelationDraft) : Prop where
  /-- it was declared on the draft of its entity -/
  origin : ∃ draft ∈ drafts, draft.settle drafts = .ok e ∧ relation ∈ draft.relations ∧
    relation.settle drafts draft = .ok r
  leads : schema.entity r.target = .ok target
  localColumn : r.localColumn ∈ e.columnNames ↔ ¬relation.localKey.Misnamed e.columnNames
  remoteColumn : r.remoteColumn ∈ target.columnNames ↔ ¬relation.remoteKey.Misnamed target.columnNames

/-- Every relation of a schema is settled from a draft. -/
theorem Schema.relation_settled {drafts : List EntityDraft} {schema : Schema} (h : ofDrafts drafts = .ok schema)
    (hformed : ∀ draft ∈ drafts, ∀ relation ∈ draft.relations, relation.Formed) {e : Entity} (he : e ∈ schema.entities)
    {r : Relation} (hr : r ∈ e.relations) : ∃ target relation, r.Settled drafts schema e target relation := by
  have hkeys := (ofDrafts_ok h).1
  obtain ⟨draft, hdraft, hsettle, relation, hrelation, hsettled⟩ := ofDrafts_origin h he hr
  obtain ⟨-, -, side, hside, hlocal, hremote, rfl⟩ := RelationDraft.settle_eq_ok.1 hsettled
  obtain ⟨target, htarget, hsideSettle⟩ := ofDrafts_found h hside
  have hrole := hformed draft hdraft relation hrelation
  refine ⟨target, relation, ⟨draft, hdraft, hsettle, hrelation, hsettled⟩, ?_, ?_, ?_⟩
  · exact htarget
  · rw [EntityDraft.settle_columnNames hsettle]
    exact hrole.local_mem_iff (hkeys draft hdraft) hlocal
  · rw [EntityDraft.settle_columnNames hsideSettle]
    exact hrole.remote_mem_iff (hkeys side (List.mem_of_find?_eq_some hside)) hremote

end RelQuery
