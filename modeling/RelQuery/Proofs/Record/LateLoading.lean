/-
Relations fetched late.

A relation that a record lacks is fetched by the value of one of its fields. When the storage keeps the target's rows
and the session's memo holds only what compiling gives, the outcome is made of the rows with that value.
- `Engine.refetchRelated_yields`: the records of a relation, given the key.
- `Engine.loadRelatedBy_eq`, `Engine.loadRelated_eq`: a relation by a key that is loaded first, and by one that the
  record has.
-/
import RelQuery.Proofs.Record.Rows

namespace RelQuery

variable {σ : Type}

/-! ## Storages -/

/-- the condition that a field is one of the values -/
def memberCondition (f : Field) (keys : List Value) : Sql.Expr :=
  .inList (.columnOf BatchFetch.rowAlias f.name) (keys.map .param) false

/-- the statement for the rows of an entity that meet a condition -/
def statementWhere (d : Sql.Dialect) (target : Entity) (condition : Sql.Expr) : Statement :=
  .ofTokens d ((rowsWhere target condition).tokens d) target.columns

/-- A statement for certain keys binds them and nothing else. -/
theorem params_memberCondition (d : Sql.Dialect) (target : Entity) (f : Field) {keys : List Value}
    (h : ∀ key ∈ keys, key.isNull = false) :
    (statementWhere d target (memberCondition f keys)).request.params = keys := by
  change Sql.Token.boundValues _ = _
  rw [boundValues_rowsWhere]
  cases keys with
  | nil => rfl
  | cons key rest =>
    change Sql.Token.boundValues (Sql.Token.commaSeparated (Sql.exprTokens d ((key :: rest).map .param)) ++ [_]) = _
    rw [Sql.Token.boundValues_append, Sql.boundValues_params d h]
    exact List.append_nil _

theorem params_keyCondition (d : Sql.Dialect) (target : Entity) (f : Field) {key : Value} (h : key.isNull = false) :
    (statementWhere d target (keyCondition f key)).request.params = [key] := by
  change Sql.Token.boundValues _ = _
  rw [boundValues_rowsWhere]
  cases key <;> first | rfl | cases h

/-- A storage that keeps the same rows of each entity in the same order, and answers a statement for those of certain
keys with exactly those. -/
structure Storage.Keeps (storage : Storage σ) (d : Sql.Dialect) (schema : Schema) (rows : Entity → List Row) :
    Prop where
  among : ∀ target ∈ schema.entities, ∀ place f, target.fields[place]? = some f → ∀ keys : List Value,
    (∀ key ∈ keys, key.isNull = false) →
      storage.Answers (statementWhere d target (memberCondition f keys)) (rowsAmong place keys (rows target))
  equal : ∀ target ∈ schema.entities, ∀ place f, target.fields[place]? = some f → ∀ key : Value, key.isNull = false →
    storage.Answers (statementWhere d target (keyCondition f key)) (rowsOf place key (rows target))

/-! ## Sessions -/

/-- a memo that holds what compiling gives -/
def Memo.Faithful (schema : Schema) (d : Sql.Dialect) (m : Memo) : Prop :=
  ∀ p q, m.queries.get? (fingerprint .rows d p) = some q → p.compile schema d = .ok q

/-- a memo that holds for a plan only what compiling it gives -/
def Memo.FaithfulTo (schema : Schema) (d : Sql.Dialect) (p : Plan) (m : Memo) : Prop :=
  ∀ q, m.queries.get? (fingerprint .rows d p) = some q → p.compile schema d = .ok q

/-- A faithful memo gives what compiling gives, be it a hit or a miss. -/
theorem Memo.query_faithful {schema : Schema} {d : Sql.Dialect} {m : Memo} {p : Plan} (hm : m.FaithfulTo schema d p)
    {q : CompiledQuery} (h : p.compile schema d = .ok q) : (m.query schema d p).1 = .ok q := by
  unfold query
  dsimp only
  cases hheld : m.queries.get? (fingerprint .rows d p) with
  | none => simp only [h]
  | some held => exact (hm held hheld).symm.trans h

/-- Asking a memo for one plan keeps it faithful to others that it tells from this one. -/
theorem Memo.FaithfulTo.query {schema : Schema} {d : Sql.Dialect} {m : Memo} {p p' : Plan}
    (h : m.FaithfulTo schema d p') {q : CompiledQuery} (hcompile : p.compile schema d = .ok q)
    (hapart : fingerprint .rows d p' = fingerprint .rows d p → p'.compile schema d = p.compile schema d) :
    (m.query schema d p).2.FaithfulTo schema d p' := by
  intro q' hheld
  unfold Memo.query at hheld
  dsimp only at hheld
  split at hheld
  · exact h q' hheld
  · rw [hcompile] at hheld
    by_cases hsame : fingerprint .rows d p' = fingerprint .rows d p
    · rw [hsame] at hheld
      obtain rfl := Option.some.inj ((NameMap.get?_insert_self _ _ _).symm.trans hheld)
      exact (hapart hsame).trans hcompile
    · exact h q' ((NameMap.get?_insert_of_ne _ hsame _).symm.trans hheld)

/-- a session between two steps -/
structure Session.Ready (engine : Engine σ) (session : Session σ) : Prop where
  steady : session.link.handle.Steady engine.storage
  faithful : ∀ m, session.memo = some m → m.Faithful engine.schema engine.settings.dialect

theorem Engine.start_ready (engine : Engine σ) (state : σ) : (engine.start state).Ready engine := by
  refine ⟨.inl rfl, fun m hm p q hq => ?_⟩
  simp only [start] at hm
  split at hm
  · obtain rfl := Option.some.inj hm
    cases hq
  · cases hm

theorem SessionM.bind_run {α β : Type} (step : SessionM σ α) (next : α → SessionM σ β) (session : Session σ) :
    (step >>= next) session =
      match step session with
      | (.error e, middle) => (.error e, middle)
      | (.ok a, middle) => next a middle := by
  change ExceptT.bindCont next (step session).1 (step session).2 = _
  rcases step session with ⟨_ | a, middle⟩ <;> rfl

/-- a step of a session that gives a result and leaves the handle as it is -/
def SessionM.Yields {α : Type} (step : SessionM σ α) (session : Session σ) (a : α) : Prop :=
  ∃ after, step session = (.ok a, after) ∧ after.link.handle = session.link.handle

namespace SessionM.Yields

variable {α β : Type} {session : Session σ}

theorem pure (a : α) : Yields (Pure.pure a) session a := ⟨session, rfl, rfl⟩

theorem bind {step : SessionM σ α} {next : α → SessionM σ β} {a : α} {b : β} (h : Yields step session a)
    (hnext : ∀ after : Session σ, after.link.handle = session.link.handle → Yields (next a) after b) :
    Yields (step >>= next) session b := by
  obtain ⟨middle, hstep, hhandle⟩ := h
  obtain ⟨after, hafter, hhandle'⟩ := hnext middle hhandle
  refine ⟨after, ?_, hhandle'.trans hhandle⟩
  rw [bind_run, hstep]
  exact hafter

/-- A result that is known already leaves the session as it is. -/
theorem ofExcept_bind {result : Except QueryError α} {next : α → SessionM σ β} {a : α} {b : β} (h : result = .ok a)
    (hnext : Yields (next a) session b) : Yields (MonadExcept.ofExcept result >>= next) session b := by
  subst h
  exact hnext

theorem atLink {step : LinkM σ α} {a : α} (h : LinkM.Yields step session.link a) :
    Yields (Engine.atLink step) session a := by
  obtain ⟨after, hstep, hhandle⟩ := h
  refine ⟨{ session with link := after }, ?_, hhandle⟩
  change ((step session.link).1, { session with link := (step session.link).2 }) = _
  rw [hstep]

end SessionM.Yields

namespace Engine

variable {engine : Engine σ} {session : Session σ}

theorem compile_yields {p : Plan}
    (hfaithful : ∀ m, session.memo = some m → m.FaithfulTo engine.schema engine.settings.dialect p) {q : CompiledQuery}
    (h : p.compile engine.schema engine.settings.dialect = .ok q) : SessionM.Yields (engine.compile p) session q := by
  cases hmemo : session.memo with
  | none =>
    refine ⟨session, ?_, rfl⟩
    unfold compile memoized
    simp only [hmemo, h]
  | some m =>
    refine ⟨{ session with memo := some (m.query engine.schema engine.settings.dialect p).2 }, ?_, rfl⟩
    unfold compile memoized
    simp only [hmemo]
    rw [Memo.query_faithful (hfaithful m hmemo) h]

/-- The records of a relation for one key are made of the rows that its statement is answered with. -/
theorem refetchRelated_of_answer (hsteady : session.link.handle.Steady engine.storage) {relation : Relation}
    {target : Entity} (htarget : engine.schema.entity relation.target = .ok target)
    (hnames : target.NamesFields engine.schema) {primaryKey : Field} (hmem : primaryKey ∈ target.fields)
    (hprimary : primaryKey.name = target.primaryKey) {f : Field} (hf : f ∈ target.fields)
    (hremote : relation.remoteColumn = f.name) {key : Value}
    (hfaithful : ∀ p, engine.relatedPlan target relation key = .ok p → ∀ m, session.memo = some m →
      m.FaithfulTo engine.schema engine.settings.dialect p) {rows : List Row}
    (hanswer : engine.storage.Answers (statementWhere engine.settings.dialect target (keyCondition f key)) rows) :
    SessionM.Yields (engine.refetchRelated relation key) session
      (.ofRecords relation.cardinality (rows.map fun row => Record.ofFields target (coerceRow target.columns row))) := by
  have hname := Schema.entity_name htarget
  have hplan := relatedPlan_eq hnames hname rfl hmem hprimary hf hremote key
  have hcompile := keyPlan_compile hnames f primaryKey hprimary key engine.settings.dialect
  have hcolumns : ∀ c ∈ target.columns, c.source = .root := by
    intro c hc
    obtain ⟨field, -, rfl⟩ := List.mem_map.1 hc
    rfl
  have hmaterialize : materialize engine.schema ⟨target.columns, rows, []⟩ (.record target.name)
      = .ok (.records (rows.map fun row => Record.ofFields target (coerceRow target.columns row))) :=
    materialize_isOf (.inl rfl) hname (recordsFrom_fields hcolumns rfl _ 0)
  unfold refetchRelated
  refine SessionM.Yields.ofExcept_bind htarget (SessionM.Yields.ofExcept_bind hplan ?_)
  refine (compile_yields (hfaithful _ hplan) hcompile).bind fun compiled hcompiled => ?_
  have hsteady : compiled.link.handle.Steady engine.storage := hcompiled ▸ hsteady
  refine (SessionM.Yields.atLink (Link.read_yields hsteady (hanswer compiled.link.storage))).bind fun read _ => ?_
  refine (SessionM.Yields.atLink (LinkM.Yields.record _)).bind fun recorded _ => ?_
  refine SessionM.Yields.ofExcept_bind hmaterialize ?_
  exact .pure _

/-- **The records of a relation for one key** are made of the target's rows with that key. -/
theorem refetchRelated_yields (hplain : engine.schema.Plain) {rows : Entity → List Row}
    (hkeeps : engine.storage.Keeps engine.settings.dialect engine.schema rows) (hready : session.Ready engine)
    {relation : Relation} {target : Entity} (htarget : engine.schema.entity relation.target = .ok target) {place : Nat}
    {f : Field} (hf : target.fields[place]? = some f) (hremote : relation.remoteColumn = f.name) {key : Value}
    (hkey : key.isNull = false) :
    SessionM.Yields (engine.refetchRelated relation key) session
      (.ofRecords relation.cardinality ((rowsOf place key (rows target)).map fun row =>
        Record.ofFields target (coerceRow target.columns row))) := by
  have htargetMem := Schema.mem_of_entity htarget
  obtain ⟨primaryKey, hmem, hprimary⟩ := hplain.exists_primaryKey htargetMem
  exact refetchRelated_of_answer hready.steady htarget (hplain.namesFields (Schema.entity_name htarget)) hmem hprimary
    (List.mem_of_getElem? hf) hremote (fun p _ m hmemo => hready.faithful m hmemo p)
    (hkeeps.equal target htargetMem place f hf key hkey)

end Engine

/-! ## Records -/

namespace Record

/-- a record without one of its relations -/
def withoutRelation (r : Record) (name : String) : Record := { r with related := r.related.erase name }

theorem lookup_filter_self {α : Type} (name : String) (entries : List (String × α)) :
    (entries.filter fun entry => entry.1 ≠ name).lookup name = none := by
  induction entries with
  | nil => rfl
  | cons entry rest ih =>
    by_cases hname : entry.1 = name
    · rw [List.filter_cons_of_neg (by simpa using hname), ih]
    · have hne : (name == entry.1) = false := beq_false_of_ne (Ne.symm hname)
      rw [List.filter_cons_of_pos (by simpa using hname), List.lookup_cons, hne]
      exact ih

theorem relation_of_related {r : Record} {name : String} (hsome : (r.entity.relation name).isSome) :
    r.relation name = orFail (.notLoaded r.entity.name name) (r.related.get? name) := by
  rw [relation, if_neg]
  simpa [Option.isSome_iff_ne_none] using hsome

theorem relation_withoutRelation {r : Record} {name : String} {relation : Relation}
    (h : r.entity.relation name = some relation) :
    (r.withoutRelation name).relation name = .error (.notLoaded r.entity.name name) := by
  have hget : (r.related.erase name).get? name = none := lookup_filter_self name r.related.entries
  have hsome : ((r.withoutRelation name).entity.relation name).isSome := by simp [withoutRelation, h]
  rw [relation_of_related hsome, withoutRelation, hget]
  rfl

theorem get_undotted {r : Record} {name : String} (h : '.' ∉ name.toList) : r.get name = r.member name := by
  rw [get, pathSegments_of_undotted h, getSegments]

/-- A field under its own name is what the record holds under it, when no annotation hides it. -/
theorem get_of_field {r : Record} {f : Field} (hundotted : '.' ∉ f.name.toList) (hf : r.entity.field f.name = some f)
    (hfree : r.annotations.get? f.name = none) :
    r.get f.name = orFail (.notLoaded r.entity.name f.name) (r.fields.get? f.name) := by
  rw [get_undotted hundotted, member, hfree]
  simp only [hf]
  rfl

/-- A field of the entity under its own name is read off the record. -/
theorem get_field {schema : Schema} (hplain : schema.Plain) {r : Record} (hentity : r.entity ∈ schema.entities)
    {f : Field} (hf : f ∈ r.entity.fields) (hfree : r.annotations.get? f.name = none) {v : Value}
    (hv : r.fields.get? f.name = some v) : r.get f.name = .ok v := by
  rw [get_of_field (hplain.undotted_field hentity hf) (hplain.field_eq hentity hf) hfree, hv]
  rfl

end Record

/-! ## Steps on a record -/

theorem RecordM.bind_eq {α β : Type} {step : RecordM σ α} {next : α → RecordM σ β} {r r' : Record}
    {session session' : Session σ} {a : α} (h : step r session = ((.ok a, r'), session')) :
    (step >>= next) r session = next a r' session' := by
  change (fun result : (Except QueryError α × Record) × Session σ =>
    ExceptT.bindCont next result.1.1 result.1.2 result.2) (step r session) = _
  rw [h]
  rfl

namespace Engine

variable {engine : Engine σ} {session : Session σ}

theorem get_eq (r : Record) : (get : RecordM σ Record) r session = ((.ok r, r), session) := rfl

/-- What a record holds is not fetched. -/
theorem loadFieldWithin_eq {r : Record} {path : String} {v : Value} (h : r.get path = .ok v) (budget : Nat) :
    engine.loadFieldWithin budget path r session = ((.ok v, r), session) := by
  unfold loadFieldWithin
  rw [RecordM.bind_eq (get_eq r), h]
  rfl

/-- **A relation that a record lacks** is fetched by the key that is loaded first; without a key nothing is related. -/
theorem loadRelatedBy_eq (hlazy : engine.settings.lazyRefetch = true) {loadKey : String → RecordM σ Value}
    {r keyed : Record} {middle : Session σ} {name : String} {relation : Relation}
    (hrelation : r.entity.relation name = some relation)
    (hmissing : r.relation name = .error (.notLoaded r.entity.name name))
    {key : Value} (hkey : loadKey relation.localColumn r session = ((.ok key, keyed), middle)) {related : Related}
    (hrelated : if key.isNull then related = .ofRecords relation.cardinality []
      else SessionM.Yields (engine.refetchRelated relation key) middle related) :
    ∃ after, engine.loadRelatedBy loadKey name r session = ((.ok related, keyed.setRelated name related), after) := by
  unfold loadRelatedBy
  rw [RecordM.bind_eq (get_eq r), hmissing, hrelation]
  have hnotLazy : ¬(!engine.settings.lazyRefetch) = true := by simp [hlazy]
  dsimp only
  have hanswer : (answer (orFail (.unknownPath r.entity.name name) (some relation)) : RecordM σ Relation) r session
      = ((.ok relation, r), session) := rfl
  rw [RecordM.bind_eq hanswer, if_neg hnotLazy]
  rw [RecordM.bind_eq hkey]
  by_cases hnull : key.isNull = true
  · rw [if_pos hnull] at hrelated ⊢
    subst hrelated
    exact ⟨middle, rfl⟩
  · rw [if_neg hnull] at hrelated ⊢
    obtain ⟨after, hafter, -⟩ := hrelated
    have hfetch : (atSession (engine.refetchRelated relation key) : RecordM σ Related) keyed middle
        = ((.ok related, keyed), after) := by
      change ((((engine.refetchRelated relation key) middle).1, keyed),
        ((engine.refetchRelated relation key) middle).2) = _
      rw [hafter]
    rw [RecordM.bind_eq hfetch]
    exact ⟨after, rfl⟩

/-- A relation that a record lacks is fetched by the key that the record holds. -/
theorem loadRelated_eq (hlazy : engine.settings.lazyRefetch = true) {r : Record} {name : String} {relation : Relation}
    (hrelation : r.entity.relation name = some relation)
    (hmissing : r.relation name = .error (.notLoaded r.entity.name name))
    {key : Value} (hkey : r.get relation.localColumn = .ok key) {related : Related}
    (hrelated : if key.isNull then related = .ofRecords relation.cardinality []
      else SessionM.Yields (engine.refetchRelated relation key) session related) :
    (engine.loadRelated name r session).1.1 = .ok related := by
  have hload := @loadFieldWithin_eq σ engine session r _ key hkey (r.entity.relations.length + 1)
  obtain ⟨after, hafter⟩ := loadRelatedBy_eq hlazy hrelation hmissing hload hrelated
  unfold loadRelated
  rw [RecordM.bind_eq (get_eq r), hafter]

end Engine

end RelQuery
