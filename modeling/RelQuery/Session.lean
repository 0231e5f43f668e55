/-
An engine at work: plans are compiled, sent to the storage and made into records.

A session holds what later answers depend on: the line to the storage with its counts, and the compiled statements
that are kept. Fields and relations that a record lacks can be fetched late, when the settings allow it; such a step
changes the record, and what it has loaded stays in the record even when a later part of the step fails.
-/
import RelQuery.Memo
import RelQuery.Record.Results
import RelQuery.Settings.Basic

namespace RelQuery

/-- the fixed part of an engine -/
structure Engine (σ : Type) where
  schema : Schema
  storage : Storage σ
  settings : Settings

structure Session (σ : Type) where
  link : Link σ
  /-- compiled statements, when they are kept -/
  memo : Option Memo

/-- a step of a session, which may fail and still has happened -/
abbrev SessionM (σ : Type) := ExceptT QueryError (StateM (Session σ))

namespace Engine

variable {σ : Type} (engine : Engine σ)

/-- a session before its first step -/
def start (state : σ) : Session σ :=
  ⟨⟨state, .unshared, {}⟩, if engine.settings.compileCache then some .empty else none⟩

/-- a step at the line -/
def atLink {α : Type} (step : LinkM σ α) : SessionM σ α := fun session =>
  let (result, link) := step.run.run session.link
  (result, { session with link := link })

/-- reads with a handle of its own, or with the caller's -/
def withHandle {α : Type} (handle : Handle) (step : LinkM σ α) : LinkM σ α := fun link =>
  let (result, link) := step.run.run { link with handle := handle }
  (result, { link with handle := .unshared })

def policy : BatchPolicy := ⟨engine.settings.batchSize.toNat, engine.settings.concurrentBatches⟩

/-! ## Compilation -/

/-- compiles a plan, by the memo when there is one -/
def memoized {α : Type} (ask : Schema → Sql.Dialect → Plan → Memo → Except QueryError α × Memo)
    (compile : Schema → Sql.Dialect → Plan → Except QueryError α) (p : Plan) : SessionM σ α := fun session =>
  match session.memo with
  | none => (compile engine.schema engine.settings.dialect p, session)
  | some memo =>
    let (result, memo) := ask engine.schema engine.settings.dialect p memo
    (result, { session with memo := some memo })

def compile : Plan → SessionM σ CompiledQuery :=
  engine.memoized Memo.query fun schema d p => p.compile schema d

def compileCount : Plan → SessionM σ Statement :=
  engine.memoized Memo.count fun schema d p => p.compileCount schema d

def compileExists : Plan → SessionM σ Statement :=
  engine.memoized Memo.existsRow fun schema d p => p.compileExists schema d

/-! ## Reading -/

/-- the rows of a plan, under a handle -/
def fetch (p : Plan) (handle : Handle) : SessionM σ Results := do
  let q ← engine.compile p
  let set ← atLink (withHandle handle (RowSet.load engine.storage engine.settings.dialect engine.policy q))
  MonadExcept.ofExcept (materialize engine.schema set q.shape)

/-- whether a plan has a row -/
def existsRow (p : Plan) : SessionM σ Bool := do
  let s ← engine.compileExists p
  let rows ← atLink (Link.read engine.storage s)
  atLink Link.recordPrimary
  return !rows.isEmpty

/-- the first cell of the first row -/
def firstCell (rows : List Row) : Option Value := rows.head?.bind List.head?

/-- How many rows a plan has; what is no count counts as none. -/
def count (p : Plan) : SessionM σ Nat := do
  let s ← engine.compileCount p
  let rows ← atLink (Link.read engine.storage s)
  atLink Link.recordPrimary
  return (((firstCell rows).bind Value.asInt).getD 0).toInt.toNat

/-! ## Writing -/

/-- sends a change and counts it when it has been answered -/
def change (s : Statement) : SessionM σ UInt64 := do
  let changed ← atLink (Link.write engine.storage s)
  atLink Link.recordWrite
  return changed

def update (p : Plan) (assignments : List (String × Expr)) : SessionM σ UInt64 := do
  let s ← MonadExcept.ofExcept (p.compileUpdate engine.schema engine.settings.dialect assignments)
  engine.change s

def delete (p : Plan) : SessionM σ UInt64 := do
  let s ← MonadExcept.ofExcept (p.compileDelete engine.schema engine.settings.dialect)
  engine.change s

/-- Adds a row; its key is known when the dialect gives it back. -/
def insert (entity : String) (values : List (String × Value)) : SessionM σ (Option Value) := do
  let e ← MonadExcept.ofExcept (engine.schema.entity entity)
  let s ← MonadExcept.ofExcept (e.compileInsert engine.settings.dialect values)
  atLink Link.recordWrite
  match s.columns.head? with
  | none =>
    let _ ← atLink (Link.write engine.storage s)
    return none
  | some column =>
    let rows ← atLink (Link.read engine.storage s)
    return (firstCell rows).map column.coerce

end Engine

/-! ## Late loading -/

/-- a step that loads more of a record -/
abbrev RecordM (σ : Type) := ExceptT QueryError (StateT Record (StateM (Session σ)))

namespace Engine

variable {σ : Type} (engine : Engine σ)

/-- a step of the session that leaves the record alone -/
def atSession {α : Type} (step : SessionM σ α) : RecordM σ α := fun record session =>
  let (result, session) := step.run.run session
  ((result, record), session)

/-- a value, or an error, that is known without asking -/
def answer {α : Type} (result : Except QueryError α) : RecordM σ α := MonadExcept.ofExcept result

/-- the plan for the row of a record's entity with a given key -/
def fieldPlan (entity : Entity) (field : Field) (key : Value) : Except QueryError Plan := do
  let p ← Plan.start engine.schema entity.name
  let keyField ← p.named engine.schema entity.primaryKey
  (p.filter (keyField.equals (.literal key))).project engine.schema [field.name]

/-- fetches one field of a record by its key -/
def refetchField (name : String) : RecordM σ Value := do
  let r ← get
  let field ← answer (orFail (.unknownPath r.entity.name name) (r.entity.field name))
  let key ← answer r.key
  let p ← answer (engine.fieldPlan r.entity field key)
  let q ← atSession (engine.compile p)
  let rows ← atSession (atLink (Link.read engine.storage q.primary))
  atSession (atLink Link.recordRefetch)
  let cell ← answer (orFail (.notLoaded r.entity.name name) (firstCell rows))
  let v := field.type.coerce cell
  modify fun r => r.setField field.name v
  return v

/-- the plan for the rows of a relation with a given key -/
def relatedPlan (target : Entity) (relation : Relation) (key : Value) : Except QueryError Plan := do
  let p ← Plan.start engine.schema target.name
  let remote ← p.named engine.schema relation.remoteColumn
  (p.filter (remote.equals (.literal key))).orderBy engine.schema target.primaryKey .asc

/-- the rows of a relation, as records -/
def refetchRelated (relation : Relation) (key : Value) : SessionM σ Related := do
  let target ← MonadExcept.ofExcept (engine.schema.entity relation.target)
  let p ← MonadExcept.ofExcept (engine.relatedPlan target relation key)
  let q ← engine.compile p
  let rows ← atLink (Link.read engine.storage q.primary)
  atLink Link.recordRefetch
  let results ← MonadExcept.ofExcept (materialize engine.schema ⟨q.primary.columns, rows, []⟩ q.shape)
  match results with
  | .records records => return .ofRecords relation.cardinality records
  | .mappings _ => return .ofRecords relation.cardinality []

/-- A relation of a record, fetched when it is not loaded; `loadKey` gives the value it is matched by. -/
def loadRelatedBy (loadKey : String → RecordM σ Value) (name : String) : RecordM σ Related := do
  let r ← get
  match r.relation name with
  | .ok related =>
    atSession (atLink Link.recordCacheHit)
    return related
  | .error _ =>
    let relation ← answer (orFail (.unknownPath r.entity.name name) (r.entity.relation name))
    if !engine.settings.lazyRefetch then throw (.notLoaded r.entity.name name)
    let key ← loadKey relation.localColumn
    let related ←
      if key.isNull then pure (.ofRecords relation.cardinality [])
      else atSession (engine.refetchRelated relation key)
    modify fun r => r.setRelated name related
    return related

/-- whether an error says that something is merely not there yet -/
def isNotLoaded : QueryError → Bool
  | .notLoaded .. => true
  | _ => false

/-- The value at a path, its first step fetched when it is not loaded. A relation is matched by a field, which may itself
be written as a path; `budget` bounds how many relations can wait for each other. -/
def loadFieldWithin : Nat → String → RecordM σ Value
  | budget, path => do
    let r ← get
    match r.get path with
    | .ok v => return v
    | .error e =>
      if !(isNotLoaded e && engine.settings.lazyRefetch) then throw e
      match pathSegments path, budget with
      | head :: _ :: _, budget + 1 =>
        let _ ← engine.loadRelatedBy (loadFieldWithin budget) head
        let r ← get
        answer (r.get path)
      | _ :: _ :: _, 0 => throw e
      | _, _ => engine.refetchField path

/-- the value at a path of a record -/
def loadField (path : String) : RecordM σ Value := do
  let r ← get
  engine.loadFieldWithin (r.entity.relations.length + 1) path

/-- a relation of a record -/
def loadRelated (name : String) : RecordM σ Related := do
  let r ← get
  engine.loadRelatedBy (engine.loadFieldWithin (r.entity.relations.length + 1)) name

end Engine

end RelQuery
