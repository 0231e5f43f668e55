/-
The names of a schema.

An entity or relation that is found by a name has it. A schema made of drafts has a field for every primary key and for
every column that a relation is matched by. When besides no name holds a dot, none is given twice in an entity and `pk`
is used for a primary key only, the name of a field is also the path to it.
- `RelationDraft.settle_eq_ok`: what is checked of a relation, and what is kept.
- `ofDrafts_origin`, `ofDrafts_keys`, `ofDrafts_relation`: what the checks of a schema give.
- `resolve_declared`: a path leads along declared relations to a declared field.
- `Plain.resolve`: a field is found by its own name.
- `Keyed.resolve_field`, `Keyed.resolve_related`: names may be given twice, and still lead to a field, of the entity or of
  a related one.
- `FieldRef.key_inj`: where no name holds a dot, the key of a reference says which field it reads, and by which path.
-/
import RelQuery.Proofs.Lists
import RelQuery.Proofs.Statement.References
import RelQuery.Schema.Draft

namespace RelQuery

/-! ## Lookup -/

theorem orFail_eq_ok {α : Type} {failure : QueryError} {o : Option α} {a : α} :
    orFail failure o = .ok a ↔ o = some a := by
  cases o <;> simp [orFail]

/-- A name is its own column unless it is `pk` and the primary key is another one. -/
theorem fieldName_eq_self {primaryKey name : String} : fieldName primaryKey name = name ↔
    (name = "pk" → primaryKey = "pk") := by
  unfold fieldName
  split
  · next hpk => simp [hpk]
  · next hpk => simp [hpk]

theorem primaryKey_of_fieldName {primaryKey name : String} (h : fieldName primaryKey name = "pk") : primaryKey = "pk" := by
  unfold fieldName at h
  split at h
  · exact h
  · exact absurd h ‹_›

namespace Schema

variable {schema : Schema} {name : String} {e : Entity}

theorem entity_eq_ok : schema.entity name = .ok e ↔ schema.entity? name = some e := by
  unfold entity
  cases schema.entity? name <;> simp

theorem mem_of_entity? (h : schema.entity? name = some e) : e ∈ schema.entities := List.mem_of_find?_eq_some h

theorem mem_of_entity (h : schema.entity name = .ok e) : e ∈ schema.entities := mem_of_entity? (entity_eq_ok.1 h)

/-- An entity is found again by the name it has. -/
theorem entity_name (h : schema.entity name = .ok e) : schema.entity e.name = .ok e := by
  have hname : e.name = name := by simpa using List.find?_some (entity_eq_ok.1 h)
  rw [hname]
  exact h

end Schema

theorem Entity.relation_name {e : Entity} {name : String} {relation : Relation} (h : e.relation name = some relation) :
    relation.name = name := by
  simpa using List.find?_some h

/-! ## Checked schemas -/

theorem forM_eq_ok {ε α : Type} {step : α → Except ε Unit} {xs : List α} :
    xs.forM step = .ok () ↔ ∀ x ∈ xs, step x = .ok () := by
  induction xs with
  | nil => simp [List.forM, pure, Except.pure]
  | cons x rest ih =>
    rw [List.forall_mem_cons, ← ih, List.forM_eq_forM, List.forM_cons]
    cases step x with
    | error failure => exact iff_of_false nofun (fun h => nomatch h.1)
    | ok _ => exact ⟨fun h => ⟨rfl, h⟩, And.right⟩

/-- No name is repeated when the names differ, from each other and from those before. -/
theorem firstRepeated_eq_none {seen names : List String} :
    firstRepeated seen names = none ↔ names.Nodup ∧ ∀ name ∈ names, name ∉ seen := by
  induction names generalizing seen with
  | nil => simp [firstRepeated]
  | cons name rest ih =>
    rw [firstRepeated, List.nodup_cons, List.forall_mem_cons]
    by_cases hseen : name ∈ seen
    · simp [hseen]
    · rw [if_neg hseen, ih]
      constructor
      · rintro ⟨hnodup, hnew⟩
        refine ⟨⟨fun hmem => hnew name hmem List.mem_cons_self, hnodup⟩, hseen, fun other hother hmem => ?_⟩
        exact hnew other hother (List.mem_cons_of_mem _ hmem)
      · rintro ⟨⟨hfresh, hnodup⟩, -, hnew⟩
        refine ⟨hnodup, fun other hother hmem => ?_⟩
        rcases List.mem_cons.1 hmem with rfl | hmem
        · exact hfresh hother
        · exact hnew other hother hmem

/-- What is checked of a relation, and what is kept. -/
theorem RelationDraft.settle_eq_ok {drafts : List EntityDraft} {owner : EntityDraft} {relation : RelationDraft}
    {r : Relation} : relation.settle drafts owner = .ok r ↔ owner.field relation.name = none ∧ relation.name ≠ "pk" ∧
      ∃ target, drafts.find? (·.name = relation.target) = some target ∧
        (owner.field (relation.localKey.column? owner target)).isSome ∧
        (target.field (relation.remoteKey.column? target target)).isSome ∧
        r = ⟨relation.name, relation.target, relation.cardinality, relation.localKey.column? owner target,
          relation.remoteKey.column? target target⟩ := by
  unfold settle
  constructor
  · intro h
    split at h
    · cases h
    · next hname =>
      rw [Bool.or_eq_true, not_or, Option.not_isSome_iff_eq_none, decide_eq_true_eq] at hname
      split at h
      · cases h
      · next target htarget =>
        dsimp only at h
        split at h
        · cases h
        · next hlocal =>
          split at h
          · cases h
          · next hremote =>
            obtain rfl := Except.ok.inj h
            exact ⟨hname.1, hname.2, target, htarget, Option.isSome_iff_ne_none.2 (by simpa using hlocal),
              Option.isSome_iff_ne_none.2 (by simpa using hremote), rfl⟩
  · rintro ⟨hfield, hpk, target, htarget, hlocal, hremote, rfl⟩
    simp [hfield, hpk, htarget, Option.isSome_iff_ne_none.1 hlocal, Option.isSome_iff_ne_none.1 hremote]

/-- A schema is made of drafts with keys, each settled by itself. -/
theorem Schema.ofDrafts_ok {drafts : List EntityDraft} {schema : Schema} (h : ofDrafts drafts = .ok schema) :
    (∀ draft ∈ drafts, draft.checkKey = .ok ()) ∧ drafts.mapM (EntityDraft.settle drafts) = .ok schema.entities := by
  unfold ofDrafts at h
  split at h
  · cases h
  · obtain ⟨⟨⟩, hkeys, hmore⟩ := ok_of_bind h
    obtain ⟨entities, hentities, hpure⟩ := ok_of_bind hmore
    obtain rfl := Except.ok.inj hpure
    exact ⟨forM_eq_ok.1 hkeys, hentities⟩

/-- An entity is its draft with the relations settled. -/
theorem EntityDraft.settle_eq_ok {drafts : List EntityDraft} {draft : EntityDraft} {e : Entity} :
    draft.settle drafts = .ok e ↔ ∃ relations, draft.relations.mapM (RelationDraft.settle drafts draft) = .ok relations ∧
      e = ⟨draft.name, draft.table, draft.primaryKey, draft.fields, relations⟩ := by
  constructor
  · intro h
    obtain ⟨relations, hrelations, hpure⟩ := ok_of_bind h
    exact ⟨relations, hrelations, (Except.ok.inj hpure).symm⟩
  · rintro ⟨relations, hrelations, rfl⟩
    rw [settle, hrelations]
    rfl

theorem EntityDraft.settle_name {drafts : List EntityDraft} {draft : EntityDraft} {e : Entity}
    (h : draft.settle drafts = .ok e) : e.name = draft.name := by
  obtain ⟨relations, -, rfl⟩ := settle_eq_ok.1 h
  rfl

namespace Schema

variable {drafts : List EntityDraft} {schema : Schema} {e : Entity}

/-- An entity is what a draft is settled to. -/
theorem ofDrafts_settled (h : ofDrafts drafts = .ok schema) :
    List.Forall₂ (fun draft e => draft.settle drafts = .ok e) drafts schema.entities :=
  forall₂_of_mapM_ok (ofDrafts_ok h).2

/-- Entities of one name are declared once. -/
theorem ofDrafts_nodup (h : ofDrafts drafts = .ok schema) : (drafts.map (·.name)).Nodup := by
  unfold ofDrafts at h
  split at h
  · cases h
  · next hnone => exact (firstRepeated_eq_none.1 hnone).1

/-- A draft that is found by its name is settled to the entity that is found by it. -/
theorem ofDrafts_found (h : ofDrafts drafts = .ok schema) {name : String} {draft : EntityDraft}
    (hdraft : drafts.find? (·.name = name) = some draft) :
    ∃ e, schema.entity name = .ok e ∧ draft.settle drafts = .ok e := by
  have hsame : ∀ (draft : EntityDraft) (e : Entity), draft.settle drafts = .ok e →
      decide (draft.name = name) = decide (e.name = name) := by
    intro draft e hsettle
    rw [EntityDraft.settle_name hsettle]
  obtain ⟨e, he, hsettle⟩ := find?_of_forall₂ hsame (ofDrafts_settled h) hdraft
  exact ⟨e, entity_eq_ok.2 he, hsettle⟩

/-- A relation of an entity is settled from a relation of its draft. -/
theorem ofDrafts_origin (h : ofDrafts drafts = .ok schema) (he : e ∈ schema.entities) {r : Relation}
    (hr : r ∈ e.relations) : ∃ draft ∈ drafts, draft.settle drafts = .ok e ∧
      ∃ relation ∈ draft.relations, relation.settle drafts draft = .ok r := by
  obtain ⟨draft, hdraft, hsettle⟩ := mem_of_mapM_ok (ofDrafts_ok h).2 he
  obtain ⟨relations, hrelations, rfl⟩ := EntityDraft.settle_eq_ok.1 hsettle
  obtain ⟨relation, hrelation, hsettled⟩ := mem_of_mapM_ok hrelations hr
  exact ⟨draft, hdraft, hsettle, relation, hrelation, hsettled⟩

/-- the checks made when a schema is made of drafts -/
theorem ofDrafts_keys (h : ofDrafts drafts = .ok schema) (he : e ∈ schema.entities) :
    (e.field e.primaryKey).isSome ∧ ∀ r ∈ e.relations, (e.field r.localColumn).isSome := by
  refine ⟨?_, fun r hr => ?_⟩
  · obtain ⟨hkeys, hentities⟩ := ofDrafts_ok h
    obtain ⟨draft, hdraft, hsettle⟩ := mem_of_mapM_ok hentities he
    obtain ⟨relations, -, rfl⟩ := EntityDraft.settle_eq_ok.1 hsettle
    have hchecked := hkeys draft hdraft
    unfold EntityDraft.checkKey at hchecked
    split at hchecked
    · assumption
    · cases hchecked
  · obtain ⟨draft, -, hsettle, relation, -, hsettled⟩ := ofDrafts_origin h he hr
    obtain ⟨relations, -, rfl⟩ := EntityDraft.settle_eq_ok.1 hsettle
    obtain ⟨-, -, target, -, hlocal, -, rfl⟩ := RelationDraft.settle_eq_ok.1 hsettled
    exact hlocal

/-- A relation of a checked schema leads to an entity, and its name is no field's. -/
theorem ofDrafts_relation (h : ofDrafts drafts = .ok schema) (he : e ∈ schema.entities) {r : Relation}
    (hr : r ∈ e.relations) : e.field r.name = none ∧ ∃ target, schema.entity r.target = .ok target := by
  obtain ⟨draft, -, hsettle, relation, -, hsettled⟩ := ofDrafts_origin h he hr
  obtain ⟨relations, -, rfl⟩ := EntityDraft.settle_eq_ok.1 hsettle
  obtain ⟨hname, -, target, htarget, -, -, rfl⟩ := RelationDraft.settle_eq_ok.1 hsettled
  obtain ⟨found, hfound, -⟩ := ofDrafts_found h htarget
  exact ⟨hname, found, hfound⟩

end Schema

/-! ## Plain names -/

/-- the names of an entity: those of its fields and relations, and of the columns its relations are matched by -/
def Entity.names (e : Entity) : List String :=
  e.fields.map (·.name) ++ e.relations.map (·.name) ++ e.relations.map (·.localColumn)

namespace Schema

/-- a schema that was checked, whose names are no paths, are given once in an entity, and of which only a primary key is
named `pk` -/
structure Plain (schema : Schema) : Prop where
  checked : ∃ drafts, ofDrafts drafts = .ok schema
  undotted : ∀ e ∈ schema.entities, ∀ name ∈ e.names, '.' ∉ name.toList
  distinct : ∀ e ∈ schema.entities, (e.fields.map (·.name) ++ e.relations.map (·.name)).Nodup
  pk : ∀ e ∈ schema.entities, "pk" ∈ e.names → e.primaryKey = "pk"

end Schema

theorem splitDots_of_not_mem {cs : List Char} (h : '.' ∉ cs) : splitDots cs = [cs] := by
  induction cs with
  | nil => rfl
  | cons c rest ih =>
    rw [List.mem_cons, not_or] at h
    rw [splitDots, if_neg (Ne.symm h.1), ih h.2]

theorem pathSegments_of_undotted {name : String} (h : '.' ∉ name.toList) : pathSegments name = [name] := by
  rw [pathSegments, splitDots_of_not_mem h, List.map_singleton, String.ofList_toList]

/-- A path is one segment, which is the path itself, or has a first and a second one. -/
theorem pathSegments_cases (path : String) :
    pathSegments path = [path] ∨ ∃ head second rest, pathSegments path = head :: second :: rest := by
  have hjoined := intercalate_splitDots path.toList
  unfold pathSegments
  match hpieces : splitDots path.toList with
  | [] => exact absurd hpieces (splitDots_ne_nil _)
  | [piece] =>
    rw [hpieces, List.intercalate_singleton] at hjoined
    exact .inl (by rw [hjoined, List.map_singleton, String.ofList_toList])
  | head :: second :: rest => exact .inr ⟨_, _, _, rfl⟩

namespace Schema.Plain

variable {schema : Schema} (hplain : schema.Plain) {e : Entity} (he : e ∈ schema.entities) {f : Field}

include hplain he

theorem undotted_field (hf : f ∈ e.fields) : '.' ∉ f.name.toList :=
  hplain.undotted e he f.name (by simp [Entity.names, List.mem_map_of_mem hf])

/-- `pk`, where it is a name, is the primary key's name. -/
theorem fieldName_eq {name : String} (hname : name ∈ e.names) : fieldName e.primaryKey name = name :=
  fieldName_eq_self.2 fun hpk => hplain.pk e he (hpk ▸ hname)

theorem nodup_fields : (e.fields.map (·.name)).Nodup := (List.nodup_append.1 (hplain.distinct e he)).1

theorem field_eq (hf : f ∈ e.fields) : e.field f.name = some f := by
  have hname : f.name ∈ e.names := by simp [Entity.names, List.mem_map_of_mem hf]
  rw [Entity.field, hplain.fieldName_eq he hname]
  exact find?_of_nodup_map (hplain.nodup_fields he) hf

theorem relation_eq_none (hf : f ∈ e.fields) : e.relation f.name = none := by
  refine List.find?_eq_none.2 fun r hr => ?_
  have hdisjoint := (List.nodup_append.1 (hplain.distinct e he)).2.2
  simpa using (hdisjoint f.name (List.mem_map_of_mem hf) r.name (List.mem_map_of_mem hr)).symm

/-- A field is found by its own name, without following a relation. -/
theorem resolve (hfound : schema.entity e.name = .ok e) (hf : f ∈ e.fields) :
    FieldRef.resolve schema e.name f.name = .ok ⟨e.name, f.name, [], f⟩ := by
  have hfollow : schema.follow (.unknownPath e.name f.name) e [f.name] = .ok ⟨[], e, f⟩ := by
    rw [Schema.follow, hplain.relation_eq_none he hf]
    simp only [hplain.field_eq he hf]
    rfl
  unfold FieldRef.resolve Schema.resolve
  rw [hfound, pathSegments_of_undotted (hplain.undotted_field he hf)]
  change (schema.follow (.unknownPath e.name f.name) e [f.name] >>= _) = _
  rw [hfollow]
  rfl

theorem exists_primaryKey : ∃ f ∈ e.fields, f.name = e.primaryKey := by
  obtain ⟨drafts, hdrafts⟩ := hplain.checked
  obtain ⟨f, hf⟩ := Option.isSome_iff_exists.1 (ofDrafts_keys hdrafts he).1
  refine ⟨f, List.mem_of_find?_eq_some hf, ?_⟩
  have hname : f.name = fieldName e.primaryKey e.primaryKey := by simpa using List.find?_some hf
  rw [hname]
  exact ite_self _

theorem exists_localColumn {r : Relation} (hr : r ∈ e.relations) : ∃ f ∈ e.fields, f.name = r.localColumn := by
  obtain ⟨drafts, hdrafts⟩ := hplain.checked
  obtain ⟨f, hf⟩ := Option.isSome_iff_exists.1 ((ofDrafts_keys hdrafts he).2 r hr)
  refine ⟨f, List.mem_of_find?_eq_some hf, ?_⟩
  have hname : f.name = fieldName e.primaryKey r.localColumn := by simpa using List.find?_some hf
  rw [hname]
  exact hplain.fieldName_eq he (by simp [Entity.names, List.mem_map_of_mem hr])

end Schema.Plain

/-- an entity whose key, and the columns that its relations are matched by, are named like fields -/
structure Entity.KeyedByFields (e : Entity) : Prop where
  primaryKey : ∃ f ∈ e.fields, f.name = e.primaryKey
  localColumn : ∀ r ∈ e.relations, ∃ f ∈ e.fields, f.name = r.localColumn

theorem Schema.Plain.keyedByFields {schema : Schema} (hplain : schema.Plain) {e : Entity} (he : e ∈ schema.entities) :
    e.KeyedByFields :=
  ⟨hplain.exists_primaryKey he, fun _ => hplain.exists_localColumn he⟩

/-! ## Keys -/

/-- Segments that are no paths themselves are the segments of their path. -/
theorem pathSegments_joinPath {segments : List String} (hne : segments ≠ [])
    (h : ∀ segment ∈ segments, '.' ∉ segment.toList) : pathSegments (joinPath segments) = segments := by
  induction segments with
  | nil => exact absurd rfl hne
  | cons segment rest ih =>
    have hfirst := pathSegments_of_undotted (h segment (by simp))
    cases rest with
    | nil => rw [joinPath, String.intercalate_singleton, hfirst]
    | cons next more =>
      have hrest := ih (by simp) fun other hother => h other (by simp [hother])
      have hdot : (joinPath (segment :: next :: more)).toList =
          segment.toList ++ '.' :: (joinPath (next :: more)).toList := by
        simp [joinPath, String.intercalate_cons_cons]
      rw [pathSegments, hdot, splitDots_append_dot, List.map_append]
      exact congrArg₂ (· ++ ·) hfirst hrest

namespace FieldRef

/-- whether no name of a reference holds a dot -/
def Undotted (ref : FieldRef) : Prop := (∀ hop ∈ ref.hops, '.' ∉ hop.name.toList) ∧ '.' ∉ ref.column.toList

theorem key_inj {ref other : FieldRef} (href : ref.Undotted) (hother : other.Undotted) (h : ref.key = other.key) :
    ref.hops.map (·.name) = other.hops.map (·.name) ∧ ref.column = other.column := by
  have hsegments : ∀ {ref : FieldRef}, ref.Undotted →
      pathSegments ref.key = ref.hops.map (·.name) ++ [ref.column] := by
    intro ref href
    refine pathSegments_joinPath (by simp) fun segment hsegment => ?_
    rcases List.mem_append.1 hsegment with hsegment | hsegment
    · obtain ⟨hop, hhop, rfl⟩ := List.mem_map.1 hsegment
      exact href.1 hop hhop
    · rw [List.mem_singleton.1 hsegment]
      exact href.2
  have hsame := hsegments hother
  rw [← h, hsegments href] at hsame
  obtain ⟨hhops, hcolumn⟩ := List.append_inj' hsame rfl
  exact ⟨hhops, List.singleton_inj.1 hcolumn⟩

end FieldRef

theorem Entity.mem_of_field {e : Entity} {name : String} {f : Field} (h : e.field name = some f) : f ∈ e.fields :=
  List.mem_of_find?_eq_some h

theorem Entity.mem_of_relation {e : Entity} {name : String} {relation : Relation} (h : e.relation name = some relation) :
    relation ∈ e.relations :=
  List.mem_of_find?_eq_some h

namespace Schema

/-- What a path leads along and to is declared: each hop is a relation of an entity and leads to one. -/
theorem follow_declared {schema : Schema} {failure : QueryError} {segments : List String} {e : Entity}
    {resolved : ResolvedPath} (he : e ∈ schema.entities) (h : schema.follow failure e segments = .ok resolved) :
    (∀ hop ∈ resolved.hops, (∃ owner ∈ schema.entities, hop ∈ owner.relations) ∧
      ∃ target, schema.entity hop.target = .ok target) ∧ ∃ owner ∈ schema.entities, resolved.field ∈ owner.fields := by
  induction segments generalizing e resolved with
  | nil => cases h
  | cons segment rest ih =>
    cases rest with
    | nil =>
      unfold Schema.follow at h
      split at h
      · next relation hrelation =>
        obtain ⟨target, htarget, hmore⟩ := ok_of_bind h
        obtain ⟨field, hfield, hpure⟩ := ok_of_bind hmore
        obtain rfl := Except.ok.inj hpure
        refine ⟨fun hop hhop => ?_, target, mem_of_entity htarget, Entity.mem_of_field (orFail_eq_ok.1 hfield)⟩
        obtain rfl := List.mem_singleton.1 hhop
        exact ⟨⟨e, he, Entity.mem_of_relation hrelation⟩, target, htarget⟩
      · obtain ⟨field, hfield, hpure⟩ := ok_of_bind h
        obtain rfl := Except.ok.inj hpure
        exact ⟨nofun, e, he, Entity.mem_of_field (orFail_eq_ok.1 hfield)⟩
    | cons next more =>
      unfold Schema.follow at h
      split at h
      · next relation hrelation =>
        obtain ⟨target, htarget, hmore⟩ := ok_of_bind h
        obtain ⟨path, hpath, hpure⟩ := ok_of_bind hmore
        obtain rfl := Except.ok.inj hpure
        obtain ⟨hhops, hfield⟩ := ih (mem_of_entity htarget) hpath
        refine ⟨fun hop hhop => ?_, hfield⟩
        rcases List.mem_cons.1 hhop with rfl | hhop
        · exact ⟨⟨e, he, Entity.mem_of_relation hrelation⟩, target, htarget⟩
        · exact hhops hop hhop
      · cases h

theorem resolve_declared {schema : Schema} {root path : String} {ref : FieldRef}
    (h : FieldRef.resolve schema root path = .ok ref) :
    (∀ hop ∈ ref.hops, (∃ owner ∈ schema.entities, hop ∈ owner.relations) ∧
      ∃ target, schema.entity hop.target = .ok target) ∧ ∃ owner ∈ schema.entities, ref.field ∈ owner.fields := by
  obtain ⟨resolved, hresolved, hpure⟩ := ok_of_bind h
  obtain rfl := Except.ok.inj hpure
  obtain ⟨start, hstart, hfollow⟩ := ok_of_bind hresolved
  exact follow_declared (mem_of_entity hstart) hfollow

/-- whether no name of a schema holds a dot -/
def Undotted (schema : Schema) : Prop := ∀ e ∈ schema.entities, ∀ name ∈ e.names, '.' ∉ name.toList

instance (schema : Schema) : Decidable schema.Undotted :=
  inferInstanceAs (Decidable (∀ e ∈ schema.entities, ∀ name ∈ e.names, '.' ∉ name.toList))

variable {schema : Schema} (hundotted : schema.Undotted)

include hundotted

theorem Undotted.field {e : Entity} (he : e ∈ schema.entities) {f : Field} (hf : f ∈ e.fields) :
    '.' ∉ f.name.toList :=
  hundotted e he f.name (by simp [Entity.names, List.mem_map_of_mem hf])

theorem Undotted.relation {e : Entity} (he : e ∈ schema.entities) {relation : Relation}
    (hrelation : relation ∈ e.relations) : '.' ∉ relation.name.toList :=
  hundotted e he relation.name (by simp [Entity.names, List.mem_map_of_mem hrelation])

theorem Undotted.resolve {root path : String} {ref : FieldRef} (h : FieldRef.resolve schema root path = .ok ref) :
    ref.Undotted := by
  obtain ⟨hhops, owner, howner, hfield⟩ := resolve_declared h
  refine ⟨fun hop hhop => ?_, hundotted.field howner hfield⟩
  obtain ⟨⟨e, he, hrelation⟩, -⟩ := hhops hop hhop
  exact hundotted.relation he hrelation

end Schema

/-! ## Keyed schemas -/

namespace Schema

/-- a schema that was checked, whose names are no paths, of whose fields only primary keys are named `pk`, and whose
relations are matched by columns that are fields -/
structure Keyed (schema : Schema) : Prop where
  checked : ∃ drafts, ofDrafts drafts = .ok schema
  undotted : schema.Undotted
  pk : ∀ e ∈ schema.entities, ∀ f ∈ e.fields, f.name = "pk" → e.primaryKey = "pk"
  localColumn : ∀ e ∈ schema.entities, ∀ r ∈ e.relations, ∃ f ∈ e.fields, f.name = r.localColumn
  remoteColumn : ∀ e ∈ schema.entities, ∀ r ∈ e.relations, ∀ target, schema.entity r.target = .ok target →
    ∃ f ∈ target.fields, f.name = r.remoteColumn

/-- no field of an entity has the name of another one -/
def DistinctFields (schema : Schema) : Prop := ∀ e ∈ schema.entities, (e.fields.map (·.name)).Nodup

namespace Keyed

variable {schema : Schema} (hkeyed : schema.Keyed) {e : Entity}

include hkeyed

theorem exists_target (he : e ∈ schema.entities) {r : Relation} (hr : r ∈ e.relations) :
    ∃ target, schema.entity r.target = .ok target := by
  obtain ⟨drafts, hdrafts⟩ := hkeyed.checked
  exact (ofDrafts_relation hdrafts he hr).2

theorem primaryKey_found (he : e ∈ schema.entities) : ∃ f, e.field e.primaryKey = some f := by
  obtain ⟨drafts, hdrafts⟩ := hkeyed.checked
  exact Option.isSome_iff_exists.1 (ofDrafts_keys hdrafts he).1

theorem keyedByFields (he : e ∈ schema.entities) : e.KeyedByFields := by
  refine ⟨?_, hkeyed.localColumn e he⟩
  obtain ⟨f, hf⟩ := hkeyed.primaryKey_found he
  have hname : f.name = fieldName e.primaryKey e.primaryKey := by simpa using List.find?_some hf
  exact ⟨f, Entity.mem_of_field hf, hname.trans (ite_self _)⟩

/-- A declared field is found by its name, or one of the same name before it. -/
theorem field_found (he : e ∈ schema.entities) {f : Field} (hf : f ∈ e.fields) :
    ∃ found, e.field f.name = some found ∧ found.name = f.name := by
  have hname : fieldName e.primaryKey f.name = f.name := fieldName_eq_self.2 (hkeyed.pk e he f hf)
  have hfound : (e.field f.name).isSome := List.find?_isSome.2 ⟨f, hf, by simp [hname]⟩
  obtain ⟨found, hfound⟩ := Option.isSome_iff_exists.1 hfound
  refine ⟨found, hfound, ?_⟩
  have hsame : found.name = fieldName e.primaryKey f.name := by simpa using List.find?_some hfound
  exact hsame.trans hname

theorem field_eq (hdistinct : schema.DistinctFields) (he : e ∈ schema.entities) {f : Field} (hf : f ∈ e.fields) :
    e.field f.name = some f := by
  obtain ⟨found, hfound, hname⟩ := hkeyed.field_found he hf
  rw [hfound, List.inj_on_of_nodup_map (hdistinct e he) (Entity.mem_of_field hfound) hf hname]

/-- The name of a field is no path and no relation's name. -/
theorem follow_field (he : e ∈ schema.entities) {name : String} {f : Field} (hname : e.field name = some f)
    (failure : QueryError) : pathSegments name = [name] ∧ schema.follow failure e [name] = .ok ⟨[], e, f⟩ := by
  obtain ⟨drafts, hdrafts⟩ := hkeyed.checked
  constructor
  · have hsame : f.name = fieldName e.primaryKey name := by simpa using List.find?_some hname
    unfold fieldName at hsame
    split at hsame
    · next hpk =>
      subst hpk
      decide
    · exact pathSegments_of_undotted (hsame ▸ hkeyed.undotted.field he (Entity.mem_of_field hname))
  · have hrelation : e.relation name = none := by
      cases hfound : e.relation name with
      | none => rfl
      | some r =>
        have hhidden := (ofDrafts_relation hdrafts he (Entity.mem_of_relation hfound)).1
        rw [Entity.relation_name hfound, hname] at hhidden
        cases hhidden
    rw [follow, hrelation]
    simp only [hname]
    rfl

/-- A name of a field, the key's included, leads to the field without following a relation. -/
theorem resolve_field (hroot : schema.entity e.name = .ok e) {name : String} {f : Field}
    (hname : e.field name = some f) : FieldRef.resolve schema e.name name = .ok ⟨e.name, name, [], f⟩ := by
  obtain ⟨hsegments, hfollow⟩ := hkeyed.follow_field (mem_of_entity hroot) hname (.unknownPath e.name name)
  unfold FieldRef.resolve resolve
  rw [hroot, hsegments]
  change (schema.follow (.unknownPath e.name name) e [name] >>= _) = _
  rw [hfollow]
  rfl

/-- A field of a related entity is reached by the relation's name and its own. -/
theorem resolve_related (hroot : schema.entity e.name = .ok e) {name : String} {r : Relation}
    (hr : e.relation name = some r) {target : Entity} (htarget : schema.entity r.target = .ok target) {f : Field}
    (hf : f ∈ target.fields) : ∃ found, target.field f.name = some found ∧ found.name = f.name ∧
      FieldRef.resolve schema e.name (name ++ "." ++ f.name) = .ok ⟨e.name, name ++ "." ++ f.name, [r], found⟩ := by
  have he := mem_of_entity hroot
  obtain ⟨found, hfound, hname⟩ := hkeyed.field_found (mem_of_entity htarget) hf
  have hundotted : '.' ∉ name.toList :=
    Entity.relation_name hr ▸ hkeyed.undotted.relation he (Entity.mem_of_relation hr)
  have hpath : name ++ "." ++ f.name = joinPath [name, f.name] := by
    simp [joinPath, String.intercalate_cons_cons]
  have hsegments : pathSegments (name ++ "." ++ f.name) = [name, f.name] := by
    rw [hpath]
    refine pathSegments_joinPath (List.cons_ne_nil _ _) fun segment hsegment => ?_
    rcases List.mem_cons.1 hsegment with rfl | hsegment
    · exact hundotted
    · rw [List.mem_singleton.1 hsegment]
      exact hkeyed.undotted.field (mem_of_entity htarget) hf
  have hfollow : schema.follow (.unknownPath e.name (name ++ "." ++ f.name)) e [name, f.name] =
      .ok ⟨[r], target, found⟩ := by
    rw [follow, hr]
    simp only
    rw [htarget]
    change (schema.follow _ target [f.name] >>= _) = _
    rw [(hkeyed.follow_field (mem_of_entity htarget) hfound _).2]
    rfl
  refine ⟨found, hfound, hname, ?_⟩
  unfold FieldRef.resolve resolve
  rw [hroot, hsegments]
  change (schema.follow _ e [name, f.name] >>= _) = _
  rw [hfollow]
  rfl

end Keyed

end Schema

end RelQuery
