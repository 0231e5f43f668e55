/-
Records of a database.

A record may hold any part of what a database has of its row: some of the fields, and for some of the to-one relations
a record of the row that they lead to, which may again hold any part (`Record.Of`).
- `Record.Of.getSegments`: a path read off such a record gives what the database has there, or meets something that is
  not loaded.
- `Record.ofTuple_of`: the record of all fields of a row.
- `lookupQuery_eval`: the rows that a lookup finds.
- `Record.KeyedOf.lookup`, `related_lookup`: what is found by the keys that a record has.
-/
import RelQuery.Proofs.Record.Rows
import RelQuery.Proofs.Statement.Joins
import RelQuery.Proofs.Statement.Related

namespace RelQuery

/-! ## Paths to fields -/

/-- A relation of the entity leads to one row of the target at most. -/
structure Entity.LeadsToOne (schema : Schema) (e : Entity) (name : String) (relation : Relation) (target : Entity) :
    Prop where
  declared : e.relation name = some relation
  toOne : relation.cardinality = .toOne
  found : schema.entity relation.target = .ok target

/-- Segments lead along to-one relations to a field. -/
structure Schema.LeadsToField (schema : Schema) (failure : QueryError) (e : Entity) (segments : List String)
    (resolved : ResolvedPath) : Prop where
  followed : schema.follow failure e segments = .ok resolved
  toOne : ∀ hop ∈ resolved.hops, hop.cardinality = .toOne
  field : segments.length = resolved.hops.length + 1

namespace Schema.LeadsToField

variable {schema : Schema} {failure : QueryError} {e : Entity} {resolved : ResolvedPath}

/-- One segment is a field of the entity itself. -/
theorem of_singleton {name : String} (h : schema.LeadsToField failure e [name] resolved) :
    resolved.hops = [] ∧ e.field name = some resolved.field := by
  have hfollowed := h.followed
  unfold Schema.follow at hfollowed
  split at hfollowed
  · obtain ⟨target, -, hmore⟩ := ok_of_bind hfollowed
    obtain ⟨field, -, hpure⟩ := ok_of_bind hmore
    obtain rfl := Except.ok.inj hpure
    cases h.field
  · obtain ⟨field, hfield, hpure⟩ := ok_of_bind hfollowed
    obtain rfl := Except.ok.inj hpure
    exact ⟨rfl, orFail_eq_ok.1 hfield⟩

/-- Of more segments the first is a relation, and the others go on from its target. -/
theorem of_cons {name next : String} {rest : List String}
    (h : schema.LeadsToField failure e (name :: next :: rest) resolved) :
    ∃ relation target inner, e.LeadsToOne schema name relation target ∧
      schema.LeadsToField failure target (next :: rest) inner ∧
      resolved.hops = relation :: inner.hops ∧ resolved.field = inner.field := by
  have hfollowed := h.followed
  unfold Schema.follow at hfollowed
  split at hfollowed
  · next relation hrelation =>
    obtain ⟨target, htarget, hmore⟩ := ok_of_bind hfollowed
    obtain ⟨inner, hinner, hpure⟩ := ok_of_bind hmore
    obtain rfl := Except.ok.inj hpure
    have hone := List.forall_mem_cons.1 h.toOne
    exact ⟨relation, target, inner, ⟨hrelation, hone.1, htarget⟩, ⟨hinner, hone.2, Nat.succ.inj h.field⟩, rfl, rfl⟩
  · cases hfollowed

end Schema.LeadsToField

/-! ## Values of a database -/

namespace Sql.Database

variable (db : Database)

/-- what a path leads to from a row, as the field's type has it; null where a relation leads to no row -/
def valueAt (schema : Schema) (e : Entity) (row : Option Tuple) (resolved : ResolvedPath) : Value :=
  resolved.field.type.coerce (cell (db.follow schema e row resolved.hopNames) resolved.field.name)

variable {db} {schema : Schema}

/-- A row without a key is related to none. -/
theorem related_null {relation : Relation} {target : Entity} {row : Tuple}
    (h : (row relation.localColumn).isNull = true) : db.related relation target (some row) = none := by
  refine List.find?_eq_none.2 fun other _ => ?_
  simp [matching, Operators.equals, Operators.test, h]

theorem follow_none (e : Entity) (path : List String) : db.follow schema e none path = none := by
  induction path generalizing e with
  | nil => rfl
  | cons name rest ih =>
    unfold follow
    split
    · rfl
    · split
      · rfl
      · exact ih _

theorem follow_leadsToOne {e target : Entity} {name : String} {relation : Relation}
    (h : e.LeadsToOne schema name relation target) (row : Option Tuple) (rest : List String) :
    db.follow schema e row (name :: rest) = db.follow schema target (db.related relation target row) rest := by
  rw [follow, h.declared]
  simp only [Schema.entity_eq_ok.1 h.found]

theorem valueAt_cons {e target : Entity} {name : String} {relation : Relation} {resolved inner : ResolvedPath}
    (h : e.LeadsToOne schema name relation target) (hhops : resolved.hops = relation :: inner.hops)
    (hfield : resolved.field = inner.field) (row : Option Tuple) :
    db.valueAt schema e row resolved = db.valueAt schema target (db.related relation target row) inner := by
  have hname : relation.name = name := Entity.relation_name h.declared
  unfold valueAt ResolvedPath.hopNames
  rw [hhops, hfield, List.map_cons, hname, follow_leadsToOne h]

theorem valueAt_none (e : Entity) (resolved : ResolvedPath) : db.valueAt schema e none resolved = .null := by
  unfold valueAt
  rw [follow_none]
  cases resolved.field.type <;> rfl

end Sql.Database

/-! ## Records that hold a part of it -/

namespace Record

section Of

variable {db : Sql.Database} {schema : Schema}

variable (db schema) in
/-- The record is one of a row of the entity: what it holds of fields and of rows that to-one relations lead to is what
the database has, and no annotation hides any of it. -/
inductive Of : Entity → Tuple → Record → Prop where
  | intro {e : Entity} {row : Tuple} {r : Record}
    (entity : r.entity = e)
    (unhidden : ∀ name, e.declares name = true → r.annotations.get? name = none)
    (fields : ∀ f ∈ e.fields, ∀ v, r.fields.get? f.name = some v → v = f.type.coerce (row f.name))
    (one : ∀ name relation target, e.LeadsToOne schema name relation target → ∀ held,
      r.related.get? name = some held →
        ∃ nested, held = .one nested ∧ nested.isSome = (db.related relation target (some row)).isSome)
    (nested : ∀ name relation target, e.LeadsToOne schema name relation target → ∀ other related,
      db.related relation target (some row) = some other → r.related.get? name = some (.one (some related)) →
        Of target other related) :
    Of e row r

variable {e : Entity} {row : Tuple} {r : Record}

theorem Of.entity_eq (h : r.Of db schema e row) : r.entity = e := by
  cases h with
  | intro entity => exact entity

theorem Of.field_eq (h : r.Of db schema e row) {f : Field} (hf : f ∈ e.fields) {v : Value}
    (hv : r.fields.get? f.name = some v) : v = f.type.coerce (row f.name) := by
  cases h with
  | intro _ _ fields => exact fields f hf v hv

/-- A field is read under any of its names, if it is held. -/
theorem Of.member (h : r.Of db schema e row) {name : String} {f : Field} (hname : e.field name = some f) :
    r.member name = orFail (.notLoaded e.name name) (r.fields.get? f.name) := by
  cases h with
  | intro entity unhidden =>
    have hdeclared : e.declares name = true := by simp [Entity.declares, hname]
    unfold Record.member
    rw [unhidden name hdeclared, entity]
    simp only [hname]
    rfl

theorem Of.relation (h : r.Of db schema e row) {name : String} {relation : Relation} {target : Entity}
    (hone : e.LeadsToOne schema name relation target) :
    r.relation name = orFail (.notLoaded e.name name) (r.related.get? name) := by
  have hentity := h.entity_eq
  have hdeclared : (r.entity.relation name).isNone = false := by rw [hentity, hone.declared]; rfl
  unfold Record.relation
  rw [if_neg (by simp [hdeclared]), hentity]

/-- A relation that is held is null where the database has no row, and else a record of the row. -/
theorem Of.related (h : r.Of db schema e row) {name : String} {relation : Relation} {target : Entity}
    (hone : e.LeadsToOne schema name relation target) {held : Related} (hheld : r.related.get? name = some held) :
    held = .one none ∧ db.related relation target (some row) = none ∨
      ∃ nested other, held = .one (some nested) ∧ db.related relation target (some row) = some other ∧
        nested.Of db schema target other := by
  cases h with
  | intro _ _ _ one nested =>
    obtain ⟨related, rfl, hsome⟩ := one name relation target hone held hheld
    cases hother : db.related relation target (some row) with
    | none =>
      rw [hother, Option.isSome_none, Option.isSome_eq_false_iff, Option.isNone_iff_eq_none] at hsome
      exact .inl ⟨congrArg _ hsome, rfl⟩
    | some other =>
      rw [hother] at hsome
      obtain ⟨record, rfl⟩ := Option.isSome_iff_exists.1 hsome
      exact .inr ⟨record, other, rfl, rfl, nested name relation target hone other record hother hheld⟩

/-- **A path read off a record of a row** gives what the database has there, or meets something that is not loaded. The
induction is on the segments, each relation going on with the record of the related row. -/
theorem Of.getSegments (h : r.Of db schema e row) {failure : QueryError} {segments : List String}
    {resolved : ResolvedPath} (hpath : schema.LeadsToField failure e segments resolved) :
    r.getSegments segments = .ok (db.valueAt schema e (some row) resolved) ∨
      ∃ entity name, r.getSegments segments = .error (.notLoaded entity name) := by
  induction segments generalizing e row r resolved with
  | nil => cases hpath.field
  | cons name rest ih =>
    cases rest with
    | nil =>
      obtain ⟨hhops, hfield⟩ := hpath.of_singleton
      rw [Record.getSegments, h.member hfield]
      cases hheld : r.fields.get? resolved.field.name with
      | none => exact .inr ⟨_, _, rfl⟩
      | some v =>
        refine .inl ?_
        rw [h.field_eq (Entity.mem_of_field hfield) hheld]
        unfold Sql.Database.valueAt ResolvedPath.hopNames
        rw [hhops]
        rfl
    | cons next more =>
      obtain ⟨relation, target, inner, hone, hinner, hhops, hfield⟩ := hpath.of_cons
      rw [Record.getSegments, h.relation hone, Sql.Database.valueAt_cons hone hhops hfield]
      cases hheld : r.related.get? name with
      | none => exact .inr ⟨_, _, rfl⟩
      | some held =>
        rcases h.related hone hheld with ⟨rfl, hnone⟩ | ⟨nested, other, rfl, hother, hnested⟩
        · rw [hnone, Sql.Database.valueAt_none]
          exact .inl rfl
        · rw [hother]
          exact ih hnested hinner

end Of

/-! ## Fresh records -/

/-- the record of all fields of a row -/
def ofTuple (e : Entity) (row : Tuple) : Record :=
  ofFields e (coerceRow e.columns (e.fields.map fun f => row f.name))

theorem coerceRow_tuple (e : Entity) (row : Tuple) : coerceRow e.columns (e.fields.map fun f => row f.name) =
    e.fields.map fun f => (⟨f.name, .root, some f.type⟩, f.type.coerce (row f.name)) := by
  unfold Entity.columns
  rw [coerceRow_fields, map_zip_map]
  rfl

theorem ofTuple_entity (e : Entity) (row : Tuple) : (ofTuple e row).entity = e := (ofFields_entity e _).1

theorem ofTuple_annotations (e : Entity) (row : Tuple) : (ofTuple e row).annotations = .empty := (ofFields_entity e _).2

theorem ofTuple_related (e : Entity) (row : Tuple) : (ofTuple e row).related = .empty := by
  have hstep (cells : List (OutputColumn × Value)) (r : Record) :
      (cells.foldl (fun r cell => r.setField cell.1.key cell.2) r).related = r.related := by
    induction cells generalizing r with
    | nil => rfl
    | cons cell rest ih => exact ih (r.setField cell.1.key cell.2)
  exact hstep _ _

theorem ofTuple_field {e : Entity} (hnames : (e.fields.map (·.name)).Nodup) (row : Tuple) {f : Field}
    (hf : f ∈ e.fields) : (ofTuple e row).fields.get? f.name = some (f.type.coerce (row f.name)) := by
  unfold ofTuple
  rw [coerceRow_tuple]
  set cells := e.fields.map fun f => ((⟨f.name, .root, some f.type⟩ : OutputColumn), f.type.coerce (row f.name))
    with hcells
  have hsource : ∀ cell ∈ cells, cell.1.source = .root := by
    intro cell hcell
    obtain ⟨g, -, rfl⟩ := List.mem_map.1 hcell
    rfl
  have hcell : ((⟨f.name, .root, some f.type⟩ : OutputColumn), f.type.coerce (row f.name)) ∈ cells :=
    List.mem_map_of_mem hf
  have hunique : ∀ other ∈ cells, other.1.source = .root → other.1.key = f.name →
      other = (⟨f.name, .root, some f.type⟩, f.type.coerce (row f.name)) := by
    intro other hother _ hkey
    obtain ⟨g, hg, rfl⟩ := List.mem_map.1 hother
    rw [List.inj_on_of_nodup_map hnames hg hf hkey]
  rw [ofFields_field hsource]
  exact lastCell_of_unique hcell hunique

/-- The record of all fields of a row is one of it. -/
theorem ofTuple_of {db : Sql.Database} {schema : Schema} {e : Entity} (hnames : (e.fields.map (·.name)).Nodup)
    (row : Tuple) : (ofTuple e row).Of db schema e row := by
  refine .intro (ofTuple_entity e row) ?_ ?_ ?_ ?_
  · intro name _
    rw [ofTuple_annotations]
    rfl
  · intro f hf v hv
    rw [ofTuple_field hnames row hf] at hv
    exact (Option.some.inj hv).symm
  · intro name relation target _ held hheld
    rw [ofTuple_related] at hheld
    cases hheld
  · intro name relation target _ other related _ hheld
    rw [ofTuple_related] at hheld
    cases hheld

/-- The record of all fields of a row gives these, and nothing beyond a relation. -/
theorem ofTuple_getSegments (db : Sql.Database) {schema : Schema} {e : Entity} (hnames : (e.fields.map (·.name)).Nodup)
    (row : Tuple) {failure : QueryError} {segments : List String} {resolved : ResolvedPath}
    (hpath : schema.LeadsToField failure e segments resolved) :
    (resolved.hops = [] → (ofTuple e row).getSegments segments = .ok (db.valueAt schema e (some row) resolved)) ∧
      (resolved.hops ≠ [] → ∃ name, (ofTuple e row).getSegments segments = .error (.notLoaded e.name name)) := by
  have hof : (ofTuple e row).Of db schema e row := ofTuple_of hnames row
  match segments, hpath with
  | [], hpath => cases hpath.field
  | [name], hpath =>
    obtain ⟨hhops, hfield⟩ := hpath.of_singleton
    refine ⟨fun _ => ?_, fun hne => absurd hhops hne⟩
    rw [Record.getSegments, hof.member hfield, ofTuple_field hnames row (Entity.mem_of_field hfield)]
    unfold Sql.Database.valueAt ResolvedPath.hopNames
    rw [hhops]
    rfl
  | name :: next :: rest, hpath =>
    obtain ⟨relation, target, inner, hone, -, hhops, -⟩ := hpath.of_cons
    refine ⟨fun hnil => absurd (hhops.symm.trans hnil) (List.cons_ne_nil _ _), fun _ => ⟨name, ?_⟩⟩
    rw [Record.getSegments, hof.relation hone, ofTuple_related]
    rfl

end Record

/-! ## Lookups -/

section Lookup

variable (target : Entity) (f : Field) (key : Value) (order : Option Field) (fields : List Field)
  (names : Field → Option String)

theorem lookupQuery_plain : (lookupQuery target f key order (fields.map fun g =>
    ⟨.columnOf BatchFetch.rowAlias g.name, names g⟩)).isGrouped = false := by
  simp [Sql.Query.isGrouped, lookupQuery, Sql.Query.selecting, Sql.Expr.columnOf, Sql.Expr.aggregates]

/-- A lookup finds the rows whose field is equal to the key. -/
theorem lookupQuery_eval (db : Sql.Database) : ((lookupQuery target f key order (fields.map fun g =>
    ⟨.columnOf BatchFetch.rowAlias g.name, names g⟩)).eval db .empty).Perm
      (((db.rows target.table).filter fun row => db.equals (row f.name) key = .yes).map fun row =>
        fields.map fun g => row g.name) := by
  have hrows := @Sql.Query.eval_plain db _ (lookupQuery_plain target f key order fields names) rfl rfl rfl .empty
  set enter : Tuple → Sql.Frame := Sql.Frame.empty.enter BatchFetch.rowAlias with henter
  have hcolumn (row : Tuple) (name : String) :
      (Sql.Expr.columnOf BatchFetch.rowAlias name).eval db (.ofFrame (enter row)) = row name := by
    simp [Sql.Expr.columnOf, Sql.Expr.eval, Sql.Context.ofFrame, henter, Sql.Frame.enter]
  have hcondition (row : Tuple) : Sql.evalCondition db (some (keyCondition f key)) (.ofFrame (enter row)) =
      db.equals (row f.name) key := by
    have hcell := hcolumn row f.name
    simp only [keyCondition, Sql.Expr.eq, Sql.evalCondition, Sql.Expr.eval, Sql.BinaryOp.apply, hcell]
    exact db.toOperators.truth_toValue _
  have hkept : ((db.rows target.table).map enter).filter (fun frame =>
      Sql.evalCondition db (some (keyCondition f key)) (.ofFrame frame) = .yes) =
        ((db.rows target.table).filter fun row => db.equals (row f.name) key = .yes).map enter := by
    rw [List.filter_map]
    congr 1
    refine List.filter_congr fun row _ => ?_
    rw [Function.comp_apply, hcondition]
  refine hrows.trans (List.Perm.of_eq ((congrArg (List.map _) hkept).trans ?_))
  rw [List.map_map]
  refine List.map_congr_left fun row _ => ?_
  change (fields.map _).map _ = _
  rw [List.map_map]
  exact List.map_congr_left fun g _ => hcolumn row g.name

end Lookup

/-! ## Keys -/

/-- For a database, a key that is bound as a field's type has it is the key in its row. -/
def Sql.Database.BindsKeys (db : Sql.Database) (schema : Schema) : Prop :=
  ∀ e ∈ schema.entities, ∀ f ∈ e.fields, (f.name = e.primaryKey ∨ ∃ r ∈ e.relations, f.name = r.localColumn) →
    ∀ row ∈ db.rows e.table, ∀ v, db.equals v (f.type.coerce (row f.name)) = db.equals (row f.name) v

/-- a record of a row that the database has once under its key, with this key -/
structure Record.KeyedOf (db : Sql.Database) (schema : Schema) (e : Entity) (row : Tuple) (r : Record) : Prop where
  found : schema.entity e.name = .ok e
  stored : row ∈ db.rows e.table
  single : ((db.rows e.table).filter fun other => db.equals (row e.primaryKey) (other e.primaryKey) = .yes) = [row]
  part : r.Of db schema e row
  keyed : (r.fields.get? e.primaryKey).isSome

section Keys

variable {db : Sql.Database} {schema : Schema} {e : Entity} {row : Tuple} {r : Record} {key : Field}

theorem Record.KeyedOf.key_eq (h : r.KeyedOf db schema e row) (hkeyed : schema.Keyed) (hdistinct : schema.DistinctFields)
    (hkey : key ∈ e.fields) (hprimary : key.name = e.primaryKey) : r.key = .ok (key.type.coerce (row key.name)) := by
  have he := Schema.mem_of_entity h.found
  have hname := hkeyed.field_eq hdistinct he hkey
  have hundotted := hkeyed.undotted.field he hkey
  obtain ⟨v, hv⟩ := Option.isSome_iff_exists.1 h.keyed
  rw [← hprimary] at hv
  unfold Record.key Record.get
  rw [h.part.entity_eq, ← hprimary, pathSegments_of_undotted hundotted, Record.getSegments, h.part.member hname, hv,
    h.part.field_eq hkey hv]
  rfl

variable (hkeys : db.BindsKeys schema)

include hkeys

/-- A field is found by the key of the record. -/
theorem Record.KeyedOf.lookup (h : r.KeyedOf db schema e row) (hkey : key ∈ e.fields)
    (hprimary : key.name = e.primaryKey) (f : Field) :
    (lookupQuery e key (key.type.coerce (row key.name)) none
      [⟨.columnOf BatchFetch.rowAlias f.name, some f.name⟩]).eval db .empty = [[row f.name]] := by
  have hfilter : ((db.rows e.table).filter fun other =>
      db.equals (other key.name) (key.type.coerce (row key.name)) = .yes) = [row] := by
    rw [← h.single]
    refine List.filter_congr fun other _ => ?_
    rw [hkeys e (Schema.mem_of_entity h.found) key hkey (.inl hprimary) row h.stored, hprimary]
  have hperm := lookupQuery_eval e key (key.type.coerce (row key.name)) none [f] (fun g => some g.name) db
  rw [hfilter] at hperm
  exact List.perm_singleton.1 hperm

/-- The related row is found by the column that the relation is matched by. -/
theorem related_lookup (href : db.Referential schema) (he : e ∈ schema.entities) {name : String} {relation : Relation}
    {target : Entity} (hone : e.LeadsToOne schema name relation target) (hkey : key ∈ e.fields)
    (hlocal : key.name = relation.localColumn) (hrow : row ∈ db.rows e.table) {remote primaryKey : Field}
    (hremote : remote.name = relation.remoteColumn) (hprimary : primaryKey.name = target.primaryKey) :
    (rowsWhere target (keyCondition remote (key.type.coerce (row key.name)))).eval db .empty =
      (db.related relation target (some row)).toList.map fun other => target.fields.map fun g => other g.name := by
  set v := key.type.coerce (row key.name) with hv
  have hlocalMem : ∃ r ∈ e.relations, key.name = r.localColumn := ⟨relation, Entity.mem_of_relation hone.declared, hlocal⟩
  have hfilter : ((db.rows target.table).filter fun other => db.equals (other remote.name) v = .yes) =
      (db.related relation target (some row)).toList := by
    rw [← filter_matching href he hone.declared hone.toOne (Schema.entity_eq_ok.1 hone.found)
      fun tuple htuple => Option.some.inj htuple ▸ hrow]
    refine List.filter_congr fun other _ => ?_
    rw [hkeys e he key hkey (.inr hlocalMem) row hrow, hlocal, hremote, cell_some]
  have hperm := lookupQuery_eval target remote v (some primaryKey) target.fields (fun _ => none) db
  rw [hfilter, ← rowsWhere_eq remote hprimary v] at hperm
  cases hrelated : db.related relation target (some row) with
  | none =>
    rw [hrelated] at hperm
    exact List.perm_nil.1 hperm
  | some other =>
    rw [hrelated] at hperm
    exact List.perm_singleton.1 hperm

end Keys

end RelQuery
