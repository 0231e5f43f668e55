/-
Paths read late.

When something on a path is not loaded, one step is fetched: a field of the record itself, or the first relation of the
path with the key that it is matched by. The related record comes with its fields and without relations, so that a path
of which more is missing is not read, although the database has a value at its end.
- `Engine.refetchField_stored`: a field of the record itself.
- `Engine.loadRelatedBy_stored`: a relation with its key.
- `Engine.loadField_iff`: which paths are read, and what they give.
- `Engine.loadField_owner`: a path of two relations that is not read.
-/
import RelQuery.Proofs.Record.LateLoading
import RelQuery.Proofs.Record.Stored

namespace RelQuery

variable {σ : Type}

/-! ## Engines over a database -/

namespace Engine

/-- the plans that records of a database lead to: for a field of a row, and for the row that a row is related to -/
inductive Late (engine : Engine σ) (db : Sql.Database) : Plan → Prop where
  | field {e : Entity} {f key : Field} {row : Tuple} {p : Plan} :
    engine.schema.entity e.name = .ok e → f ∈ e.fields → key ∈ e.fields → key.name = e.primaryKey →
    row ∈ db.rows e.table → engine.fieldPlan e f (key.type.coerce (row key.name)) = .ok p → Late engine db p
  | related {e target : Entity} {name : String} {relation : Relation} {key : Field} {row : Tuple} {p : Plan} :
    engine.schema.entity e.name = .ok e → e.LeadsToOne engine.schema name relation target → key ∈ e.fields →
    key.name = relation.localColumn → row ∈ db.rows e.table → (row key.name).isNull = false →
    engine.relatedPlan target relation (key.type.coerce (row key.name)) = .ok p → Late engine db p

/-- The storage answers the statements of such plans with the rows that the database has. -/
def AnswersFrom (engine : Engine σ) (db : Sql.Database) : Prop :=
  ∀ p, engine.Late db p → ∀ selection, p.rowSelection engine.schema = .ok selection →
    engine.storage.Answers (.ofTokens engine.settings.dialect (selection.query.tokens engine.settings.dialect)
      selection.columns) (selection.query.eval db .empty)

/-- An engine that may fetch late, over a storage that answers from a database in which each key of a to-one relation is
the key of one row. -/
structure Over (engine : Engine σ) (db : Sql.Database) : Prop where
  keyed : engine.schema.Keyed
  distinct : engine.schema.DistinctFields
  lazy : engine.settings.lazyRefetch = true
  referential : db.Referential engine.schema
  bindsKeys : db.BindsKeys engine.schema
  answers : engine.AnswersFrom db

end Engine

/-- a session between two steps, whose memo, if there is one, tells late plans apart as compiling them does -/
structure Session.ReadyFor (engine : Engine σ) (db : Sql.Database) (session : Session σ) : Prop where
  steady : session.link.handle.Steady engine.storage
  faithful : ∀ m, session.memo = some m → ∀ p, engine.Late db p →
    m.FaithfulTo engine.schema engine.settings.dialect p
  apart : session.memo.isSome → ∀ p p', engine.Late db p → engine.Late db p' →
    fingerprint .rows engine.settings.dialect p = fingerprint .rows engine.settings.dialect p' →
      p.compile engine.schema engine.settings.dialect = p'.compile engine.schema engine.settings.dialect

theorem Session.ReadyFor.withLink {engine : Engine σ} {db : Sql.Database} {session : Session σ}
    (hready : session.ReadyFor engine db) {link : Link σ} (h : link.handle = session.link.handle) :
    { session with link := link }.ReadyFor engine db :=
  ⟨h ▸ hready.steady, hready.faithful, hready.apart⟩

/-! ## Steps -/

namespace Engine

variable {engine : Engine σ} {db : Sql.Database} {session : Session σ}

/-- Compiling one late plan leaves the session ready for others. -/
theorem compile_ready (hready : session.ReadyFor engine db) {p : Plan} (hlate : engine.Late db p) {q : CompiledQuery}
    (h : p.compile engine.schema engine.settings.dialect = .ok q) :
    ∃ after, engine.compile p session = (.ok q, after) ∧ after.ReadyFor engine db := by
  cases hmemo : session.memo with
  | none =>
    refine ⟨session, ?_, hready⟩
    unfold compile memoized
    simp only [hmemo, h]
  | some m =>
    have hfaithful := hready.faithful m hmemo
    have hapart := hready.apart (Option.isSome_iff_exists.2 ⟨m, hmemo⟩)
    refine ⟨{ session with memo := some (m.query engine.schema engine.settings.dialect p).2 }, ?_, hready.steady, ?_,
      fun _ => hapart⟩
    · unfold compile memoized
      simp only [hmemo]
      rw [Memo.query_faithful (hfaithful p hlate) h]
    · intro m' hm' p' hlate'
      obtain rfl := Option.some.inj hm'
      exact (hfaithful p' hlate').query h (hapart p' p hlate' hlate)

theorem read_ready (hready : session.ReadyFor engine db) {s : Statement} {rows : List Row}
    (hanswer : engine.storage.Answers s rows) : ∃ after,
      (atLink (Link.read engine.storage s) : SessionM σ (List Row)) session = (.ok rows, after) ∧
        after.ReadyFor engine db := by
  obtain ⟨after, hread, hhandle⟩ := Link.read_yields hready.steady (hanswer session.link.storage)
  refine ⟨{ session with link := after }, ?_, hready.withLink hhandle⟩
  change ((Link.read engine.storage s session.link).1,
    { session with link := (Link.read engine.storage s session.link).2 }) = _
  rw [hread]

theorem atSession_eq {α : Type} {step : SessionM σ α} {result : Except QueryError α} {after : Session σ}
    (h : step session = (result, after)) (r : Record) :
    (atSession step : RecordM σ α) r session = ((result, r), after) := by
  change (((step session).1, r), (step session).2) = _
  rw [h]

theorem answer_eq {α : Type} {result : Except QueryError α} {a : α} (h : result = .ok a) (r : Record) :
    (answer result : RecordM σ α) r session = ((.ok a, r), session) := by
  subst h
  rfl

section Loads

variable {r : Record} {path entity name : String}

/-- A missing field of the record itself is fetched. -/
theorem loadFieldWithin_single (hlazy : engine.settings.lazyRefetch = true)
    (h : r.get path = .error (.notLoaded entity name)) (hone : pathSegments path = [path]) (budget : Nat) :
    engine.loadFieldWithin budget path r session = engine.refetchField path r session := by
  unfold loadFieldWithin
  rw [RecordM.bind_eq (get_eq r), h, hone]
  simp only [isNotLoaded, hlazy, Bool.and_self, Bool.not_true, Bool.false_eq_true, if_false]

/-- For what is missing on a path of relations the first of them is loaded, and then the path is read. -/
theorem loadFieldWithin_through (hlazy : engine.settings.lazyRefetch = true)
    (h : r.get path = .error (.notLoaded entity name)) {head second : String} {rest : List String}
    (hsegments : pathSegments path = head :: second :: rest) {budget : Nat} {related : Related} {r' : Record}
    {after : Session σ}
    (hload : engine.loadRelatedBy (engine.loadFieldWithin budget) head r session = ((.ok related, r'), after)) :
    engine.loadFieldWithin (budget + 1) path r session = ((r'.get path, r'), after) := by
  unfold loadFieldWithin
  rw [RecordM.bind_eq (get_eq r), h, hsegments]
  simp only [isNotLoaded, hlazy, Bool.and_self, Bool.not_true, Bool.false_eq_true, if_false]
  rw [RecordM.bind_eq hload]
  rw [RecordM.bind_eq (get_eq r')]
  cases r'.get path <;> rfl

/-- A relation that is held is not fetched. -/
theorem loadRelatedBy_held {loadKey : String → RecordM σ Value} {related : Related} (h : r.relation name = .ok related) :
    ∃ after, engine.loadRelatedBy loadKey name r session = ((.ok related, r), after) := by
  unfold loadRelatedBy
  rw [RecordM.bind_eq (get_eq r), h]
  exact ⟨_, rfl⟩

end Loads

/-! ## Loads for a record of a row -/

section Stored

variable (hover : engine.Over db) (hready : session.ReadyFor engine db) {e : Entity} {row : Tuple} {r : Record}
  (hrecord : r.KeyedOf db engine.schema e row)

include hover hready hrecord

/-- **A field of the record itself** is fetched by the record's key. -/
theorem refetchField_stored {name : String} {f : Field} (hfield : e.field name = some f) :
    ∃ after, engine.refetchField name r session =
        ((.ok (f.type.coerce (row f.name)), r.setField f.name (f.type.coerce (row f.name))), after) ∧
      after.ReadyFor engine db := by
  have hf := Entity.mem_of_field hfield
  have hnames := hover.keyed.namesFields hover.distinct hrecord.found
  obtain ⟨key, hkey, hprimary⟩ := (hover.keyed.keyedByFields (Schema.mem_of_entity hrecord.found)).primaryKey
  have hheld := hrecord.key_eq hover.keyed hover.distinct hkey hprimary
  have hplan := fieldPlan_eq hnames hrecord.found rfl hkey hprimary hf (key.type.coerce (row key.name))
  have hlate : engine.Late db _ := .field hrecord.found hf hkey hprimary hrecord.stored hplan
  have hanswer := hover.answers _ hlate _ (fieldPlan_selection hnames hf key (key.type.coerce (row key.name)))
  rw [hrecord.lookup hover.bindsKeys hkey hprimary f] at hanswer
  have hcompile := fieldPlan_compile hnames hf key (key.type.coerce (row key.name)) engine.settings.dialect
  obtain ⟨compiled, hcompiled, hready⟩ := compile_ready hready hlate hcompile
  obtain ⟨read, hread, hready⟩ := read_ready hready hanswer
  refine ⟨{ read with link := read.link.count fun t => { t with refetches := t.refetches + 1 } }, ?_,
    hready.withLink rfl⟩
  unfold refetchField
  rw [RecordM.bind_eq (get_eq r), hrecord.part.entity_eq]
  rw [RecordM.bind_eq (answer_eq (orFail_eq_ok.2 hfield) r)]
  rw [RecordM.bind_eq (answer_eq hheld r)]
  rw [RecordM.bind_eq (answer_eq hplan r)]
  rw [RecordM.bind_eq (atSession_eq hcompiled r)]
  rw [RecordM.bind_eq (atSession_eq hread r)]
  rfl

/-- The column that a relation is matched by is read off the record or fetched. -/
theorem loadKey_stored {key : Field} (hkey : key ∈ e.fields) (budget : Nat) :
    ∃ keyed after, engine.loadFieldWithin budget key.name r session =
        ((.ok (key.type.coerce (row key.name)), keyed), after) ∧
      keyed.entity = e ∧ after.ReadyFor engine db := by
  have he := Schema.mem_of_entity hrecord.found
  have hname := hover.keyed.field_eq hover.distinct he hkey
  have hone := pathSegments_of_undotted (hover.keyed.undotted.field he hkey)
  have hmember := hrecord.part.member hname
  have hget : r.get key.name = r.member key.name := by rw [Record.get, hone, Record.getSegments]
  cases hheld : r.fields.get? key.name with
  | some v =>
    obtain rfl := hrecord.part.field_eq hkey hheld
    rw [hheld] at hmember
    exact ⟨r, session, loadFieldWithin_eq (hget.trans hmember) budget, hrecord.part.entity_eq, hready⟩
  | none =>
    rw [hheld] at hmember
    obtain ⟨after, hafter, hready⟩ := refetchField_stored hover hready hrecord hname
    refine ⟨r.setField key.name (key.type.coerce (row key.name)), after, ?_, hrecord.part.entity_eq, hready⟩
    rw [loadFieldWithin_single hover.lazy (hget.trans hmember) hone]
    exact hafter

omit hrecord in
/-- The row that a row is related to is fetched by the key that the row has. -/
theorem refetchRelated_stored {target : Entity} (hfound : engine.schema.entity e.name = .ok e) {name : String}
    {relation : Relation} (hone : e.LeadsToOne engine.schema name relation target) {key : Field} (hkey : key ∈ e.fields)
    (hlocal : key.name = relation.localColumn) (hrow : row ∈ db.rows e.table)
    (hpresent : (row key.name).isNull = false) :
    SessionM.Yields (engine.refetchRelated relation (key.type.coerce (row key.name))) session
      (.one ((db.related relation target (some row)).map (Record.ofTuple target))) := by
  have he := Schema.mem_of_entity hfound
  have htarget := Schema.entity_name hone.found
  have hnames := hover.keyed.namesFields hover.distinct htarget
  obtain ⟨remote, hremoteMem, hremote⟩ :=
    hover.keyed.remoteColumn e he relation (Entity.mem_of_relation hone.declared) target hone.found
  obtain ⟨primaryKey, hmem, hprimary⟩ := (hover.keyed.keyedByFields (Schema.mem_of_entity hone.found)).primaryKey
  set v := key.type.coerce (row key.name) with hv
  have hplan := relatedPlan_eq hnames htarget rfl hmem hprimary hremoteMem hremote.symm v
  have hanswer := hover.answers _ (.related hfound hone hkey hlocal hrow hpresent hplan) _
    (keyPlan_selection hnames remote primaryKey hprimary v)
  have hrows := related_lookup hover.bindsKeys hover.referential he hone hkey hlocal hrow hremote hprimary
  have hfetched := refetchRelated_of_answer hready.steady hone.found hnames hmem hprimary hremoteMem hremote.symm
    (fun p hp m hmemo => hready.faithful m hmemo p (.related hfound hone hkey hlocal hrow hpresent hp)) hanswer
  dsimp only at hfetched
  rw [hrows, hone.toOne] at hfetched
  cases hrelated : db.related relation target (some row) with
  | none => rwa [hrelated] at hfetched
  | some other => rwa [hrelated] at hfetched

/-- **The first relation of a path** comes with all fields of the related row, if there is one. -/
theorem loadRelatedBy_stored {target : Entity} {name : String} {relation : Relation}
    (hone : e.LeadsToOne engine.schema name relation target) (hmissing : r.related.get? name = none) (budget : Nat) :
    ∃ (keyed : Record) (after : Session σ), engine.loadRelatedBy (engine.loadFieldWithin budget) name r session =
      ((.ok (.one ((db.related relation target (some row)).map (Record.ofTuple target))),
        keyed.setRelated name (.one ((db.related relation target (some row)).map (Record.ofTuple target)))), after) ∧
      keyed.entity = e := by
  have hentity := hrecord.part.entity_eq
  obtain ⟨key, hkey, hlocal⟩ := (hover.keyed.keyedByFields (Schema.mem_of_entity hrecord.found)).localColumn relation
    (Entity.mem_of_relation hone.declared)
  obtain ⟨keyed, middle, hload, hkeyed, hmiddle⟩ := loadKey_stored hover hready hrecord hkey budget
  have hload : engine.loadFieldWithin budget relation.localColumn r session =
      ((.ok (key.type.coerce (row key.name)), keyed), middle) := by
    rw [← hlocal]
    exact hload
  have hlacks : r.relation name = .error (.notLoaded r.entity.name name) := by
    rw [hrecord.part.relation hone, hmissing, hentity]
    rfl
  have hrelated : if (key.type.coerce (row key.name)).isNull
      then Related.one ((db.related relation target (some row)).map (Record.ofTuple target)) =
        .ofRecords relation.cardinality []
      else SessionM.Yields (engine.refetchRelated relation (key.type.coerce (row key.name))) middle
        (.one ((db.related relation target (some row)).map (Record.ofTuple target))) := by
    rw [key.type.isNull_coerce]
    split
    · next hnull =>
      rw [Sql.Database.related_null (hlocal ▸ hnull), hone.toOne]
      rfl
    · next hpresent =>
      exact refetchRelated_stored hover hmiddle hrecord.found hone hkey hlocal hrecord.stored
        (Bool.not_eq_true _ ▸ hpresent)
  obtain ⟨after, hafter⟩ := loadRelatedBy_eq hover.lazy (hentity.symm ▸ hone.declared) hlacks hload hrelated
  exact ⟨keyed, after, hafter, hkeyed⟩

end Stored

end Engine

/-! ## Paths within reach -/

namespace Record

/-- A path is within reach of one load: it can be read already, it is a field of the record itself, or its first relation
is missing and either the field is one of the related row or there is no related row. -/
def Reaches (db : Sql.Database) (schema : Schema) (e : Entity) (row : Tuple) (r : Record) (path : String)
    (resolved : ResolvedPath) : Prop :=
  (∃ v, r.get path = .ok v) ∨ resolved.hops = [] ∨
    ∃ first rest, resolved.hops = first :: rest ∧ r.related.get? first.name = none ∧
      (rest = [] ∨ db.follow schema e (some row) [first.name] = none)

/-- A path that goes on from a relation and cannot be read is within reach when the relation is missing, and is the last
one or leads to no row. -/
theorem reaches_iff {db : Sql.Database} {schema : Schema} {e target : Entity} {row : Tuple} {r : Record}
    {path head : String} {error : QueryError} {resolved : ResolvedPath} {relation : Relation} {hops : List Relation}
    (hmissing : r.get path = .error error) (hone : e.LeadsToOne schema head relation target)
    (hhops : resolved.hops = relation :: hops) :
    r.Reaches db schema e row path resolved ↔
      r.related.get? head = none ∧ (hops = [] ∨ db.related relation target (some row) = none) := by
  have hname : relation.name = head := Entity.relation_name hone.declared
  have hfollow : db.follow schema e (some row) [head] = db.related relation target (some row) :=
    Sql.Database.follow_leadsToOne hone (some row) []
  constructor
  · rintro (⟨v, hv⟩ | hnil | ⟨first, rest, hfirst, hlacks, hends⟩)
    · cases hmissing.symm.trans hv
    · cases hhops.symm.trans hnil
    · obtain ⟨rfl, rfl⟩ := List.cons.inj (hhops.symm.trans hfirst)
      rw [hname] at hlacks hends
      exact ⟨hlacks, hfollow ▸ hends⟩
  · rintro ⟨hlacks, hends⟩
    refine .inr (.inr ⟨relation, hops, hhops, ?_, ?_⟩)
    · rw [hname]
      exact hlacks
    · rw [hname, hfollow]
      exact hends

/-- A relation that has just been set is gone through. -/
theorem getSegments_setRelated {r : Record} {name next : String} {rest : List String} {related : Option Record}
    (hdeclared : (r.entity.relation name).isSome) :
    (r.setRelated name (.one related)).getSegments (name :: next :: rest) =
      match related with
      | none => .ok .null
      | some record => record.getSegments (next :: rest) := by
  have hheld : (r.setRelated name (.one related)).related.get? name = some (.one related) :=
    NameMap.get?_insert_self _ _ _
  have hdeclared : ((r.setRelated name (.one related)).entity.relation name).isSome := hdeclared
  rw [Record.getSegments, relation_of_related hdeclared, hheld]
  cases related <;> rfl

end Record

namespace Engine

section Reached

variable {engine : Engine σ} {db : Sql.Database} {session : Session σ} (hover : engine.Over db)
  (hready : session.ReadyFor engine db) {e : Entity} {row : Tuple} {r : Record}
  (hrecord : r.KeyedOf db engine.schema e row) {path entity name : String}
  (hmissing : r.get path = .error (.notLoaded entity name))

include hover hready hrecord hmissing

theorem loadField_single (hone : pathSegments path = [path]) {f : Field} (hfield : e.field path = some f) :
    (engine.loadField path r session).1.1 = .ok (f.type.coerce (row f.name)) := by
  obtain ⟨after, hafter, -⟩ := refetchField_stored hover hready hrecord hfield
  unfold loadField
  rw [RecordM.bind_eq (get_eq r), loadFieldWithin_single hover.lazy hmissing hone, hafter]

variable {head second : String} {rest : List String} (hsegments : pathSegments path = head :: second :: rest)
  {relation : Relation} {target : Entity} (hone : e.LeadsToOne engine.schema head relation target)

include hsegments hone

omit hready in
/-- What is missing beyond a relation that is held is never fetched. -/
theorem loadField_blocked {held : Related} (hheld : r.related.get? head = some held) :
    (engine.loadField path r session).1.1 = .error (.notLoaded entity name) := by
  have hrelation : r.relation head = .ok held := by
    rw [hrecord.part.relation hone, hheld]
    rfl
  obtain ⟨after, hload⟩ := loadRelatedBy_held hrelation
  unfold loadField
  rw [RecordM.bind_eq (get_eq r), loadFieldWithin_through hover.lazy hmissing hsegments hload]
  exact hmissing

/-- From a relation that the record lacks the path goes on with the fields of the related row. -/
theorem loadField_missing (hlacks : r.related.get? head = none) :
    (engine.loadField path r session).1.1 =
      match db.related relation target (some row) with
      | none => .ok .null
      | some other => (Record.ofTuple target other).getSegments (second :: rest) := by
  obtain ⟨keyed, after, hload, hentity⟩ :=
    loadRelatedBy_stored hover hready hrecord hone hlacks r.entity.relations.length
  have hdeclared : (keyed.entity.relation head).isSome := by
    rw [hentity, hone.declared]
    rfl
  unfold loadField
  rw [RecordM.bind_eq (get_eq r), loadFieldWithin_through hover.lazy hmissing hsegments hload, Record.get, hsegments,
    Record.getSegments_setRelated hdeclared]
  cases db.related relation target (some row) <;> rfl

end Reached

/-- A load gives a value under a condition, and without it fails for what is not loaded. -/
def GivesWhen (result : Except QueryError Value) (v : Value) (condition : Prop) : Prop :=
  (condition → result = .ok v) ∧ (¬condition → ∃ entity name, result = .error (.notLoaded entity name))

theorem GivesWhen.iff {result : Except QueryError Value} {v : Value} {condition : Prop}
    (h : GivesWhen result v condition) : result = .ok v ↔ condition := by
  refine ⟨fun hv => ?_, h.1⟩
  by_contra hnot
  obtain ⟨entity, name, herror⟩ := h.2 hnot
  cases hv.symm.trans herror

/-- **A path of to-one relations and a field is read late if and only if it is within reach of one load.** It gives what
the database has there, as the field's type has it, and null where a relation leads to no row; a path that is further
away is an error although the database has a value. The record holds any part of its row, its key included. -/
theorem loadField_iff (engine : Engine σ) {db : Sql.Database} (hover : engine.Over db) {session : Session σ}
    (hready : session.ReadyFor engine db) {e : Entity} {row : Tuple} {r : Record}
    (hrecord : r.KeyedOf db engine.schema e row) {path : String} {resolved : ResolvedPath}
    (hresolved : engine.schema.resolve e.name path = .ok resolved)
    (hone : ∀ hop ∈ resolved.hops, hop.cardinality = .toOne)
    (hfield : (pathSegments path).length = resolved.hops.length + 1) :
    ((engine.loadField path r session).1.1 = .ok (db.valueAt engine.schema e (some row) resolved) ↔
        r.Reaches db engine.schema e row path resolved) ∧
      (¬r.Reaches db engine.schema e row path resolved →
        ∃ entity name, (engine.loadField path r session).1.1 = .error (.notLoaded entity name)) := by
  have hpath : engine.schema.LeadsToField (.unknownPath e.name path) e (pathSegments path) resolved := by
    obtain ⟨start, hstart, hfollow⟩ := ok_of_bind hresolved
    obtain rfl := Except.ok.inj (hrecord.found.symm.trans hstart)
    exact ⟨hfollow, hone, hfield⟩
  suffices hgives : GivesWhen (engine.loadField path r session).1.1 (db.valueAt engine.schema e (some row) resolved)
      (r.Reaches db engine.schema e row path resolved) from ⟨hgives.iff, hgives.2⟩
  rcases hrecord.part.getSegments hpath with hheld | ⟨entity, name, hmissing⟩
  · refine ⟨fun _ => ?_, fun hfar => (hfar (.inl ⟨_, hheld⟩)).elim⟩
    unfold loadField
    rw [RecordM.bind_eq (get_eq r), loadFieldWithin_eq hheld]
  rcases pathSegments_cases path with hsingle | ⟨head, second, rest, hsegments⟩
  · rw [hsingle] at hpath
    obtain ⟨hhops, hname⟩ := hpath.of_singleton
    refine ⟨fun _ => ?_, fun hfar => (hfar (.inr (.inl hhops))).elim⟩
    rw [loadField_single hover hready hrecord hmissing hsingle hname]
    unfold Sql.Database.valueAt ResolvedPath.hopNames
    rw [hhops]
    rfl
  · rw [hsegments] at hpath
    obtain ⟨relation, target, inner, hhop, hinner, hhops, hlast⟩ := hpath.of_cons
    rw [Record.reaches_iff hmissing hhop hhops, Sql.Database.valueAt_cons hhop hhops hlast]
    cases hheld : r.related.get? head with
    | some held =>
      have hblocked : (engine.loadField path r session).1.1 = .error (.notLoaded entity name) :=
        loadField_blocked hover hrecord hmissing hsegments hhop hheld
      refine ⟨fun hreaches => ?_, fun _ => ⟨entity, name, hblocked⟩⟩
      cases hreaches.1
    | none =>
      rw [loadField_missing hover hready hrecord hmissing hsegments hhop hheld]
      cases hrelated : db.related relation target (some row) with
      | none =>
        exact ⟨fun _ => congrArg _ (Sql.Database.valueAt_none target inner).symm, fun hfar =>
          (hfar ⟨rfl, .inr rfl⟩).elim⟩
      | some other =>
        obtain ⟨hfields, hbeyond⟩ := Record.ofTuple_getSegments db
          (hover.distinct target (Schema.mem_of_entity hhop.found)) other hinner
        refine ⟨fun hreaches => ?_, fun hfar => ⟨target.name, hbeyond fun hend => hfar ⟨rfl, .inl hend⟩⟩⟩
        exact hfields (hreaches.2.resolve_right (Option.some_ne_none other))

end Engine

/-! ## The storage of a database -/

namespace Sql

/-- the late statements for records of a database: for each field of a row, and for the row that it is related to -/
def Database.lateQueries (db : Database) (schema : Schema) : List Query :=
  (schema.entities.flatMap fun e => (e.fields.filter (·.name = e.primaryKey)).flatMap fun key =>
    (db.rows e.table).flatMap fun row => e.fields.map fun f =>
      lookupQuery e key (key.type.coerce (row key.name)) none [⟨.columnOf BatchFetch.rowAlias f.name, some f.name⟩]) ++
  schema.entities.flatMap fun e => e.relations.flatMap fun relation =>
    (schema.entity? relation.target).toList.flatMap fun target =>
      (e.fields.filter (·.name = relation.localColumn)).flatMap fun key =>
        (target.fields.filter (·.name = relation.remoteColumn)).flatMap fun remote =>
          ((db.rows e.table).filter fun row => !(row key.name).isNull).map fun row =>
            rowsWhere target (keyCondition remote (key.type.coerce (row key.name)))

/-- a query as it is sent -/
def Query.request (d : Dialect) (q : Query) : Request := (Statement.ofTokens d (q.tokens d) []).request

end Sql

/-- a storage that knows the late statements for records of a database, and has the database's rows for them -/
def Storage.ofDatabase (schema : Schema) (d : Sql.Dialect) (db : Sql.Database) : Storage Unit where
  read request _ :=
    let known := (db.lateQueries schema).find? fun q => q.request d = request
    (⟨.ok ((known.map fun q => q.eval db .empty).getD []), none⟩, ())
  write _ _ := (⟨.ok 0, none⟩, ())

namespace Engine

theorem Late.mem_lateQueries {engine : Engine σ} {db : Sql.Database} (hkeyed : engine.schema.Keyed)
    (hdistinct : engine.schema.DistinctFields) {p : Plan} (hlate : engine.Late db p) {selection : Selection}
    (h : p.rowSelection engine.schema = .ok selection) : selection.query ∈ db.lateQueries engine.schema := by
  cases hlate with
  | @field e f key row _ hfound hf hkey hprimary hrow hplan =>
    have hnames := hkeyed.namesFields hdistinct hfound
    obtain rfl := Except.ok.inj (hplan.symm.trans (fieldPlan_eq hnames hfound rfl hkey hprimary hf _))
    obtain rfl := Except.ok.inj (h.symm.trans (fieldPlan_selection hnames hf key _))
    refine List.mem_append_left _ (List.mem_flatMap.2 ⟨e, Schema.mem_of_entity hfound, List.mem_flatMap.2
      ⟨key, List.mem_filter.2 ⟨hkey, by simpa using hprimary⟩, List.mem_flatMap.2 ⟨row, hrow, ?_⟩⟩⟩)
    exact List.mem_map_of_mem hf
  | @related e target name relation key row _ hfound hone hkey hlocal hrow hpresent hplan =>
    have he := Schema.mem_of_entity hfound
    have hrelation := Entity.mem_of_relation hone.declared
    have htarget := Schema.entity_name hone.found
    have hnames := hkeyed.namesFields hdistinct htarget
    obtain ⟨remote, hremoteMem, hremote⟩ := hkeyed.remoteColumn e he relation hrelation target hone.found
    obtain ⟨primaryKey, hmem, hprimary⟩ := (hkeyed.keyedByFields (Schema.mem_of_entity hone.found)).primaryKey
    obtain rfl := Except.ok.inj
      (hplan.symm.trans (relatedPlan_eq hnames htarget rfl hmem hprimary hremoteMem hremote.symm _))
    obtain rfl := Except.ok.inj (h.symm.trans (keyPlan_selection hnames remote primaryKey hprimary _))
    refine List.mem_append_right _ (List.mem_flatMap.2 ⟨e, he, List.mem_flatMap.2 ⟨relation, hrelation,
      List.mem_flatMap.2 ⟨target, by simp [Schema.entity_eq_ok.1 hone.found], List.mem_flatMap.2
        ⟨key, List.mem_filter.2 ⟨hkey, by simpa using hlocal⟩, List.mem_flatMap.2
          ⟨remote, List.mem_filter.2 ⟨hremoteMem, by simpa using hremote⟩, ?_⟩⟩⟩⟩⟩)
    exact List.mem_map.2 ⟨row, List.mem_filter.2 ⟨hrow, by simpa using hpresent⟩, rfl⟩

/-- Such a storage answers from the database when its statements are told apart by their texts and what they bind. -/
theorem ofDatabase_answers (engine : Engine Unit) (hkeyed : engine.schema.Keyed)
    (hdistinct : engine.schema.DistinctFields) {db : Sql.Database}
    (hstorage : engine.storage = .ofDatabase engine.schema engine.settings.dialect db)
    (hapart : ((db.lateQueries engine.schema).map (Sql.Query.request engine.settings.dialect)).Nodup) :
    engine.AnswersFrom db := by
  intro p hlate selection hselection state
  have hmem := hlate.mem_lateQueries hkeyed hdistinct hselection
  set d := engine.settings.dialect with hd
  rw [hstorage]
  change Except.ok ((((db.lateQueries engine.schema).find? fun q => q.request d = selection.query.request d).map
    fun q => q.eval db .empty).getD []) = _
  rw [find?_of_nodup_map hapart hmem]
  rfl

/-! ## A gallery -/

def samplePhoto : Entity :=
  ⟨"photo", "photos", "id", [⟨"id", .int, false⟩, ⟨"album_id", .int, true⟩],
    [⟨"album", "album", .toOne, "album_id", "id"⟩]⟩

def sampleAlbum : Entity :=
  ⟨"album", "albums", "id", [⟨"id", .int, false⟩, ⟨"owner_id", .int, false⟩],
    [⟨"owner", "owner", .toOne, "owner_id", "id"⟩]⟩

def sampleOwner : Entity := ⟨"owner", "owners", "id", [⟨"id", .int, false⟩, ⟨"name", .text, false⟩], []⟩

def sampleGallery : Schema := ⟨[samplePhoto, sampleAlbum, sampleOwner]⟩

/-- the row of the photo that is asked about -/
def samplePicture : Tuple := fun column => if column = "id" then .int 1 else .int 2

/-- a photo in an album, one in none, the album and its owner -/
def sampleAlbums : Sql.Database where
  toOperators := .exact
  rows table :=
    if table = "photos" then [samplePicture, fun column => if column = "id" then .int 4 else .null]
    else if table = "albums" then [fun column => if column = "id" then .int 2 else .int 3]
    else if table = "owners" then [fun column => if column = "id" then .int 3 else .text "Ada"]
    else []

def sampleViewer : Engine Unit where
  schema := sampleGallery
  storage := .ofDatabase sampleGallery .sqlite sampleAlbums
  settings := { lazyRefetch := true, compileCache := false }

/-- the photo with nothing but its key -/
def sampleShot : Record := (Record.empty samplePhoto).setField "id" (.int 1)

theorem sampleGallery_keyed : sampleGallery.Keyed where
  checked := ⟨[
    .declare "photo" (some "photos") none [⟨"id", .int, false⟩, ⟨"album_id", .int, true⟩]
      [.toOne "album" "album" "album_id"],
    .declare "album" (some "albums") none [⟨"id", .int, false⟩, ⟨"owner_id", .int, false⟩]
      [.toOne "owner" "owner" "owner_id"],
    .declare "owner" (some "owners") none [⟨"id", .int, false⟩, ⟨"name", .text, false⟩] []], by rfl⟩
  undotted := by decide
  pk := by decide
  localColumn := by decide
  remoteColumn := by
    intro e he r hr target htarget
    have hid : ∀ e ∈ sampleGallery.entities, ∀ r ∈ e.relations, r.remoteColumn = "id" := by decide
    have hnamed : ∀ e ∈ sampleGallery.entities, ∃ f ∈ e.fields, f.name = "id" := by decide
    rw [hid e he r hr]
    exact hnamed target (Schema.mem_of_entity htarget)

theorem sampleGallery_distinct : sampleGallery.DistinctFields := by
  unfold Schema.DistinctFields
  decide

theorem sampleAlbums_referential : sampleAlbums.Referential sampleGallery := by
  have hall : ∀ e ∈ sampleGallery.entities, ∀ relation ∈ e.relations,
      ∀ target ∈ (sampleGallery.entity? relation.target).toList, ∀ row ∈ sampleAlbums.rows e.table,
        row relation.localColumn ≠ .null →
          ((sampleAlbums.rows target.table).filter (sampleAlbums.matching relation row)).length = 1 := by decide
  intro e he name relation target hrelation _ htarget
  exact hall e he relation (Entity.mem_of_relation hrelation) target (by simp [htarget])

theorem sampleAlbums_bindsKeys : sampleAlbums.BindsKeys sampleGallery := by
  have hint : ∀ e ∈ sampleGallery.entities, ∀ f ∈ e.fields,
      (f.name = e.primaryKey ∨ ∃ r ∈ e.relations, f.name = r.localColumn) → f.type = .int := by decide
  intro e he f hf hkey row _ v
  have hcoerce : f.type.coerce (row f.name) = row f.name := by
    rw [hint e he f hf hkey]
    cases row f.name <;> rfl
  have hequal : sampleAlbums.equal v (row f.name) = sampleAlbums.equal (row f.name) v := decide_eq_decide.2 eq_comm
  unfold Operators.equals Operators.test
  rw [hcoerce, hequal, Bool.or_comm]

theorem sampleViewer_ready : (sampleViewer.start ()).ReadyFor sampleViewer sampleAlbums where
  steady := .inl rfl
  faithful := nofun
  apart := nofun

theorem sampleShot_keyed : sampleShot.KeyedOf sampleAlbums sampleGallery samplePhoto samplePicture where
  found := rfl
  stored := List.mem_cons_self
  single := rfl
  part := by
    refine .intro rfl (fun _ _ => rfl) ?_ ?_ ?_
    · intro f hf v hv
      rcases List.mem_pair.1 hf with rfl | rfl
      · exact (Option.some.inj hv).symm
      · cases hv
    · intro name relation target _ held hheld
      cases hheld
    · intro name relation target _ other related _ hheld
      cases hheld
  keyed := rfl

theorem sampleViewer_over : sampleViewer.Over sampleAlbums where
  keyed := sampleGallery_keyed
  distinct := sampleGallery_distinct
  lazy := rfl
  referential := sampleAlbums_referential
  bindsKeys := sampleAlbums_bindsKeys
  answers := ofDatabase_answers sampleViewer sampleGallery_keyed sampleGallery_distinct rfl (by decide +kernel)

/-- The photo's album is fetched by a column that is fetched first, and its owner's key is read there. -/
theorem loadField_iff_album :
    (sampleViewer.loadField "album.owner_id" sampleShot (sampleViewer.start ())).1.1 = .ok (.int 3) := by
  obtain ⟨hreads, -⟩ := loadField_iff sampleViewer sampleViewer_over sampleViewer_ready sampleShot_keyed
    (rfl : sampleGallery.resolve "photo" "album.owner_id" = .ok _) (by decide) (by decide)
  exact hreads.2 (.inr (.inr ⟨_, _, rfl, rfl, .inl rfl⟩))

/-- The owner's name is two relations away from the photo and is not read, although the database has it. -/
theorem loadField_owner :
    sampleViewer.Over sampleAlbums ∧ (sampleViewer.start ()).ReadyFor sampleViewer sampleAlbums ∧
      sampleShot.KeyedOf sampleAlbums sampleGallery samplePhoto samplePicture ∧
      ∃ resolved, sampleGallery.resolve "photo" "album.owner.name" = .ok resolved ∧
        (∀ hop ∈ resolved.hops, hop.cardinality = .toOne) ∧
        (pathSegments "album.owner.name").length = resolved.hops.length + 1 ∧
        sampleAlbums.valueAt sampleGallery samplePhoto (some samplePicture) resolved = .text "Ada" ∧
        (sampleViewer.loadField "album.owner.name" sampleShot (sampleViewer.start ())).1.1 =
          .error (.notLoaded "album" "owner") := by
  refine ⟨sampleViewer_over, sampleViewer_ready, sampleShot_keyed, _, rfl, by decide, by decide, rfl, ?_⟩
  have hone : samplePhoto.LeadsToOne sampleGallery "album" ⟨"album", "album", .toOne, "album_id", "id"⟩ sampleAlbum :=
    ⟨rfl, rfl, rfl⟩
  have hmissing : sampleShot.get "album.owner.name" = .error (.notLoaded "photo" "album") := rfl
  rw [loadField_missing sampleViewer_over sampleViewer_ready sampleShot_keyed hmissing rfl hone rfl]
  rfl

end Engine

end RelQuery
