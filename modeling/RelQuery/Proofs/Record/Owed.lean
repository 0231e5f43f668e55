/-
Statements that an engine has sent and not yet counted.

An engine counts the statements that it sends, each of its calls in its own way: most count a statement when it has been
answered, an insertion counts it beforehand, and what is known already is not asked for. A step is described by how many
statements are owed before and after it (`SessionM.Carries`), which adds up along a program; as long as the storage
answers, the reads, writes and late loads of an engine owe nothing in the end, whether they succeed or fail.
- `SessionM.Carries.read`, `SessionM.Carries.write`: one more is owed.
- `SessionM.Carries.recordPrimary`, `SessionM.Carries.recordWrite`, `SessionM.Carries.recordRefetch`: one less is owed.
- `Engine.loadFieldWithin_carries`: fields and relations that are loaded late, one waiting for the other.
-/
import RelQuery.Proofs.Fetch.Undisturbed
import RelQuery.Proofs.Memo.Recall
import RelQuery.Proofs.Record.LateLoading

namespace RelQuery

variable {σ : Type}

/-! ## Statements sent and not yet counted -/

/-- how many statements have been sent and are not counted yet -/
def Link.owed (link : Link (Audited σ)) : Int := link.storage.sent.length - link.traffic.statements

/-- the same engine, its storage being audited -/
def Engine.audited (engine : Engine σ) : Engine (Audited σ) := ⟨engine.schema, engine.storage.audited, engine.settings⟩

/-- a memo that holds nothing but what plans are compiled to -/
def Memo.Compiles (schema : Schema) (m : Memo) : Prop :=
  ∀ s c, m.held s = some c → ∃ r : Memo.Request, r.compile schema = .ok c

/-- a session between two steps: nobody else has the handle, and what is kept was compiled -/
structure Session.Settled (schema : Schema) (session : Session (Audited σ)) : Prop where
  unshared : session.link.handle = .unshared
  compiles : ∀ m, session.memo = some m → m.Compiles schema

/-- A step of sessions with `m` statements owed leaves `n` of them when it succeeds and none when it fails, as long as
the storage answers. -/
structure SessionM.Carries {α : Type} (schema : Schema) (step : SessionM (Audited σ) α) (m n : Int) : Prop where
  grows : ∀ session : Session (Audited σ), session.link.watched.Grows (step session).2.link.watched
  settles : ∀ session : Session (Audited σ), session.Settled schema → (step session).2.Settled schema
  owed : ∀ session result after, session.Settled schema → session.link.owed = m → step session = (result, after) →
    after.link.watched.failed = false → after.link.owed = match result with
      | .ok _ => n
      | .error _ => 0

namespace SessionM.Carries

variable {α β : Type} {schema : Schema} {m k n : Int}

theorem pure (a : α) : Carries schema (Pure.pure a : SessionM (Audited σ) α) n n := by
  refine ⟨fun _ => .refl _, fun _ h => h, ?_⟩
  intro session result after _ howed hrun _
  obtain ⟨rfl, rfl⟩ := Prod.mk.inj hrun
  exact howed

theorem throw (e : QueryError) : Carries schema (throw e : SessionM (Audited σ) α) 0 n := by
  refine ⟨fun _ => .refl _, fun _ h => h, ?_⟩
  intro session result after _ howed hrun _
  obtain ⟨rfl, rfl⟩ := Prod.mk.inj hrun
  exact howed

theorem ofExcept (result : Except QueryError α) :
    Carries schema (MonadExcept.ofExcept result : SessionM (Audited σ) α) 0 0 := by
  cases result with
  | ok a => exact pure a
  | error e => exact throw e

theorem bind {step : SessionM (Audited σ) α} {next : α → SessionM (Audited σ) β} (h : Carries schema step m k)
    (hnext : ∀ a, Carries schema (next a) k n) : Carries schema (step >>= next) m n := by
  constructor
  · intro session
    have hstep := h.grows session
    rw [bind_run]
    split
    · next e middle heq => rwa [heq] at hstep
    · next a middle heq =>
      rw [heq] at hstep
      exact hstep.trans ((hnext a).grows middle)
  · intro session hsettled
    have hstep := h.settles session hsettled
    rw [bind_run]
    split
    · next e middle heq => rwa [heq] at hstep
    · next a middle heq =>
      rw [heq] at hstep
      exact (hnext a).settles middle hstep
  · intro session result after hsettled howed hrun hanswered
    have hstep := h.settles session hsettled
    rw [bind_run] at hrun
    split at hrun
    · next e middle heq =>
      obtain ⟨rfl, rfl⟩ := Prod.mk.inj hrun
      exact h.owed session _ _ hsettled howed heq hanswered
    · next a middle heq =>
      rw [heq] at hstep
      have hlast := (hnext a).grows middle
      rw [hrun] at hlast
      have hmiddle := h.owed session _ _ hsettled howed heq (hlast.not_failed hanswered)
      exact (hnext a).owed middle _ _ hstep hmiddle hrun hanswered

/-- A step that carries nothing owed to nothing owed leaves nothing owed, be it that it fails. -/
theorem ends {step : SessionM (Audited σ) α} (h : Carries schema step 0 0) {session : Session (Audited σ)}
    (hsettled : session.Settled schema) (howed : session.link.owed = 0)
    (hanswered : (step session).2.link.watched.failed = false) : (step session).2.link.owed = 0 := by
  have hafter := h.owed session _ _ hsettled howed rfl hanswered
  split at hafter <;> exact hafter

/-- A reliable step at the line carries what it sends and does not count. -/
theorem atLink {step : LinkM (Audited σ) α} (h : LinkM.Reliable step)
    (hunshared : ∀ link, link.handle = .unshared → (step link).2.handle = .unshared)
    (howes : ∀ link a after, step link = (.ok a, after) → after.owed = link.owed + k) :
    Carries schema (Engine.atLink step) m (m + k) := by
  have hrun (session : Session (Audited σ)) :
      Engine.atLink step session = ((step session.link).1, { session with link := (step session.link).2 }) := rfl
  constructor
  · intro session
    exact h.grows session.link
  · intro session hsettled
    exact ⟨hunshared session.link hsettled.unshared, hsettled.compiles⟩
  · intro session result after hsettled howed heq hanswered
    rw [hrun] at heq
    obtain ⟨rfl, rfl⟩ := Prod.mk.inj heq
    have hundisturbed : session.link.Undisturbed (step session.link).2 := ⟨hanswered, .inl hsettled.unshared⟩
    obtain ⟨a, after, hstep, -⟩ := h.succeeds session.link hundisturbed
    rw [hstep]
    change after.owed = m + k
    rw [howes session.link a after hstep, howed]

/-- What is counted is no longer owed. -/
theorem record {change : Traffic → Traffic} (h : ∀ t : Traffic, ((change t).statements : Int) = t.statements + k) :
    Carries schema (Engine.atLink (Link.record change) : SessionM (Audited σ) Unit) m (m - k) := by
  rw [Int.sub_eq_add_neg]
  apply atLink (.record change)
  · intro link hlink
    exact hlink
  · intro link a after hrun
    obtain rfl : link.count change = after := congrArg Prod.snd hrun
    have hcount := h link.traffic
    simp only [Link.owed, Link.count]
    omega

theorem recordPrimary : Carries schema (Engine.atLink Link.recordPrimary : SessionM (Audited σ) Unit) m (m - 1) := by
  apply record
  intro t
  simp only [Traffic.statements]
  omega

theorem recordWrite : Carries schema (Engine.atLink Link.recordWrite : SessionM (Audited σ) Unit) m (m - 1) := by
  apply record
  intro t
  simp only [Traffic.statements]
  omega

theorem recordRefetch : Carries schema (Engine.atLink Link.recordRefetch : SessionM (Audited σ) Unit) m (m - 1) := by
  apply record
  intro t
  simp only [Traffic.statements]
  omega

/-- A relation that is there already costs no statement. -/
theorem recordCacheHit : Carries schema (Engine.atLink Link.recordCacheHit : SessionM (Audited σ) Unit) m (m - 0) :=
  record fun _ => (Int.add_zero _).symm

theorem read (storage : Storage σ) (s : Statement) :
    Carries schema (Engine.atLink (Link.read storage.audited s)) m (m + 1) := by
  apply atLink (Link.read_reliable storage s)
  · intro link hlink
    rw [Link.read_steady (.inl hlink)]
    exact hlink
  · intro link rows after hrun
    have hsends := Link.read_sends storage.watched s link rows after hrun
    simp only [Link.owed, hsends.sent, hsends.traffic, Traffic.statements, Traffic.later, List.length_append,
      List.length_singleton]
    omega

theorem write (storage : Storage σ) (s : Statement) :
    Carries schema (Engine.atLink (Link.write storage.audited s)) m (m + 1) := by
  have hrun (link : Link (Audited σ)) : Link.write storage.audited s link =
      (liftStorage (storage.write s.request link.watched.inner).1.result,
        { link with storage := ⟨link.watched.next (storage.write s.request link.watched.inner).1
          (storage.write s.request link.watched.inner).2, link.storage.sent ++ [s.request]⟩ }) := rfl
  have hreliable : LinkM.Reliable (Link.write storage.audited s) := by
    constructor
    · intro link
      exact Watched.grows_next _ _ _
    · intro link hlink
      rw [hrun] at hlink ⊢
      obtain ⟨changed, hchanged⟩ := Watched.ok_of_next hlink.answered
      rw [hchanged]
      exact ⟨changed, _, rfl, rfl⟩
  apply atLink hreliable
  · intro link hlink
    exact hlink
  · intro link changed after hwrite
    rw [hrun] at hwrite
    obtain rfl := (Prod.mk.inj hwrite).2
    simp only [Link.owed, List.length_append, List.length_singleton]
    omega

end SessionM.Carries

/-! ## Compilation -/

theorem Memo.Compiles.answer {schema : Schema} {m : Memo} (hm : m.Compiles schema) (r : Memo.Request) :
    (m.answer schema r).2.Compiles schema := by
  intro s c h
  rcases of_held_answer h with hheld | ⟨-, hcompile⟩
  · exact hm s c hheld
  · exact ⟨r, hcompile⟩

namespace Engine

variable {engine : Engine σ} {α : Type}

/-- Compiling asks nothing of the storage. -/
theorem link_memoized (ask : Schema → Sql.Dialect → Plan → Memo → Except QueryError α × Memo)
    (compile : Schema → Sql.Dialect → Plan → Except QueryError α) (p : Plan) (session : Session σ) :
    (engine.memoized ask compile p session).2.link = session.link := by
  unfold memoized
  cases session.memo <;> rfl

theorem memoized_carries {ask : Schema → Sql.Dialect → Plan → Memo → Except QueryError α × Memo}
    {compile : Schema → Sql.Dialect → Plan → Except QueryError α} {p : Plan} {engine : Engine (Audited σ)}
    (hask : ∀ m : Memo, m.Compiles engine.schema →
      (ask engine.schema engine.settings.dialect p m).2.Compiles engine.schema) :
    SessionM.Carries engine.schema (engine.memoized ask compile p) 0 0 := by
  have hlink := fun session => engine.link_memoized ask compile p session
  constructor
  · intro session
    rw [hlink]
    exact .refl _
  · intro session hsettled
    refine ⟨(congrArg Link.handle (hlink session)).trans hsettled.unshared, ?_⟩
    unfold memoized
    cases hmemo : session.memo with
    | none =>
      intro m hm
      cases hmemo.symm.trans hm
    | some m =>
      intro m' hm'
      obtain rfl := Option.some.inj hm'
      exact hask m (hsettled.compiles m hmemo)
  · intro session result after _ howed hrun _
    have hafter := hlink session
    rw [hrun] at hafter
    rw [hafter, howed]
    cases result <;> rfl

theorem compile_carries (engine : Engine (Audited σ)) (p : Plan) :
    SessionM.Carries engine.schema (engine.compile p) 0 0 :=
  memoized_carries fun _ hm => hm.answer ⟨.rows, _, p⟩

theorem compileCount_carries (engine : Engine (Audited σ)) (p : Plan) :
    SessionM.Carries engine.schema (engine.compileCount p) 0 0 :=
  memoized_carries fun _ hm => hm.answer ⟨.count, _, p⟩

theorem compileExists_carries (engine : Engine (Audited σ)) (p : Plan) :
    SessionM.Carries engine.schema (engine.compileExists p) 0 0 :=
  memoized_carries fun _ hm => hm.answer ⟨.existsRow, _, p⟩

/-! ## Calls without records -/

variable (engine)

theorem existsRow_carries (p : Plan) : SessionM.Carries engine.schema (engine.audited.existsRow p) 0 0 := by
  apply (engine.audited.compileExists_carries p).bind
  intro s
  apply (SessionM.Carries.read engine.storage s).bind
  intro rows
  apply SessionM.Carries.recordPrimary.bind
  intro _
  exact .pure _

theorem count_carries (p : Plan) : SessionM.Carries engine.schema (engine.audited.count p) 0 0 := by
  apply (engine.audited.compileCount_carries p).bind
  intro s
  apply (SessionM.Carries.read engine.storage s).bind
  intro rows
  apply SessionM.Carries.recordPrimary.bind
  intro _
  exact .pure _

theorem change_carries (s : Statement) : SessionM.Carries engine.schema (engine.audited.change s) 0 0 := by
  apply (SessionM.Carries.write engine.storage s).bind
  intro changed
  apply SessionM.Carries.recordWrite.bind
  intro _
  exact .pure _

theorem insert_carries (entity : String) (values : List (String × Value)) :
    SessionM.Carries engine.schema (engine.audited.insert entity values) 0 0 := by
  apply (SessionM.Carries.ofExcept _).bind
  intro e
  apply (SessionM.Carries.ofExcept _).bind
  intro s
  -- the statement is counted before it is sent
  apply SessionM.Carries.recordWrite.bind
  intro _
  split
  · apply (SessionM.Carries.write engine.storage s).bind
    intro changed
    exact .pure _
  · apply (SessionM.Carries.read engine.storage s).bind
    intro rows
    exact .pure _

end Engine

/-! ## Records -/

/-- a step on a record as a step of the session that gives the record after it -/
def RecordM.onSession {α : Type} (step : RecordM σ α) (r : Record) : SessionM σ (α × Record) := fun session =>
  ((step r session).1.1.map fun a => (a, (step r session).1.2), (step r session).2)

theorem RecordM.onSession_bind {α β : Type} (step : RecordM σ α) (next : α → RecordM σ β) (r : Record) :
    (step >>= next).onSession r = step.onSession r >>= fun pair => (next pair.1).onSession pair.2 := by
  funext session
  have hrun : (step >>= next) r session = (fun result : (Except QueryError α × Record) × Session σ =>
      ExceptT.bindCont next result.1.1 result.1.2 result.2) (step r session) := rfl
  rw [SessionM.bind_run, onSession, onSession, hrun]
  rcases step r session with ⟨⟨_ | a, r'⟩, after⟩ <;> rfl

/-- A step on any record carries statements owed as a step of the session does. -/
def RecordM.Carries {α : Type} (schema : Schema) (step : RecordM (Audited σ) α) (m n : Int) : Prop :=
  ∀ r, SessionM.Carries schema (step.onSession r) m n

namespace RecordM.Carries

variable {α β : Type} {schema : Schema} {m k n : Int}

theorem pure (a : α) : Carries schema (Pure.pure a : RecordM (Audited σ) α) n n := fun r =>
  SessionM.Carries.pure (a, r)

theorem throw (e : QueryError) : Carries schema (throw e : RecordM (Audited σ) α) 0 n := fun _ =>
  SessionM.Carries.throw e

theorem get : Carries schema (get : RecordM (Audited σ) Record) n n := fun r => SessionM.Carries.pure (r, r)

theorem modify (change : Record → Record) : Carries schema (modify change : RecordM (Audited σ) Unit) n n := fun r =>
  SessionM.Carries.pure ((), change r)

theorem answer (result : Except QueryError α) :
    Carries schema (Engine.answer result : RecordM (Audited σ) α) 0 0 := by
  cases result with
  | ok a => exact pure a
  | error e => exact throw e

theorem bind {step : RecordM (Audited σ) α} {next : α → RecordM (Audited σ) β} (h : Carries schema step m k)
    (hnext : ∀ a, Carries schema (next a) k n) : Carries schema (step >>= next) m n := by
  intro r
  rw [onSession_bind]
  exact (h r).bind fun pair => hnext pair.1 pair.2

theorem atSession {step : SessionM (Audited σ) α} (h : SessionM.Carries schema step m n) :
    Carries schema (Engine.atSession step) m n := by
  intro r
  have hpair : (Engine.atSession step).onSession r = step >>= fun a => Pure.pure (a, r) := by
    funext session
    change ((step session).1.map fun a => (a, r), (step session).2) = _
    rw [SessionM.bind_run]
    rcases step session with ⟨_ | a, after⟩ <;> rfl
  rw [hpair]
  exact h.bind fun a => .pure _

theorem orThrow (p : Prop) [Decidable p] (e : QueryError) {next : PUnit → RecordM (Audited σ) α}
    (h : ∀ u, Carries schema (next u) 0 n) :
    Carries schema (if p then MonadExcept.throw e >>= next else next ⟨⟩) 0 n := by
  split
  · exact (throw e).bind h
  · exact h _

end RecordM.Carries

namespace Engine

variable (engine : Engine σ)

theorem refetchField_carries (name : String) :
    RecordM.Carries engine.schema (engine.audited.refetchField name) 0 0 := by
  apply RecordM.Carries.get.bind
  intro r
  apply (RecordM.Carries.answer _).bind
  intro field
  apply (RecordM.Carries.answer _).bind
  intro key
  apply (RecordM.Carries.answer _).bind
  intro p
  apply (RecordM.Carries.atSession (engine.audited.compile_carries p)).bind
  intro q
  apply (RecordM.Carries.atSession (SessionM.Carries.read engine.storage q.primary)).bind
  intro rows
  apply (RecordM.Carries.atSession SessionM.Carries.recordRefetch).bind
  intro _
  apply (RecordM.Carries.answer _).bind
  intro cell
  apply (RecordM.Carries.modify _).bind
  intro _
  exact .pure _

/-- The rows of a relation are one statement, counted before the rows are made into records. -/
theorem refetchRelated_carries (relation : Relation) (key : Value) :
    SessionM.Carries engine.schema (engine.audited.refetchRelated relation key) 0 0 := by
  apply (SessionM.Carries.ofExcept _).bind
  intro target
  apply (SessionM.Carries.ofExcept _).bind
  intro p
  apply (engine.audited.compile_carries p).bind
  intro q
  apply (SessionM.Carries.read engine.storage q.primary).bind
  intro rows
  apply SessionM.Carries.recordRefetch.bind
  intro _
  apply (SessionM.Carries.ofExcept _).bind
  intro results
  split
  · exact .pure _
  · exact .pure _

theorem loadRelatedBy_carries {loadKey : String → RecordM (Audited σ) Value}
    (hkey : ∀ column, RecordM.Carries engine.schema (loadKey column) 0 0) (name : String) :
    RecordM.Carries engine.schema (engine.audited.loadRelatedBy loadKey name) 0 0 := by
  apply RecordM.Carries.get.bind
  intro r
  split
  · apply (RecordM.Carries.atSession SessionM.Carries.recordCacheHit).bind
    intro _
    exact .pure _
  · apply (RecordM.Carries.answer _).bind
    intro relation
    split
    · exact RecordM.Carries.throw _
    · apply (hkey _).bind
      intro key
      have hstored (related : Related) : RecordM.Carries engine.schema
          (do modify fun r => r.setRelated name related; return related : RecordM (Audited σ) Related) 0 0 :=
        (RecordM.Carries.modify _).bind fun _ => .pure _
      split
      · exact (RecordM.Carries.pure _).bind hstored
      · exact (RecordM.Carries.atSession (engine.refetchRelated_carries relation key)).bind hstored

/-- A field that is loaded late may need a relation first, which may need a field first. -/
theorem loadFieldWithin_carries (budget : Nat) (path : String) :
    RecordM.Carries engine.schema (engine.audited.loadFieldWithin budget path) 0 0 := by
  induction budget generalizing path with
  | zero =>
    unfold loadFieldWithin
    apply RecordM.Carries.get.bind
    intro r
    split
    · exact .pure _
    · split
      · next hzero => cases hzero
      · exact RecordM.Carries.orThrow _ _ fun _ => .throw _
      · exact RecordM.Carries.orThrow _ _ fun _ => engine.refetchField_carries path
  | succ budget ih =>
    unfold loadFieldWithin
    apply RecordM.Carries.get.bind
    intro r
    split
    · exact .pure _
    · split
      · next head second rest inner hsegments hbudget =>
        obtain rfl := Nat.succ.inj hbudget
        have hvalue : RecordM.Carries engine.schema
            (do let r ← get; answer (r.get path) : RecordM (Audited σ) Value) 0 0 :=
          RecordM.Carries.get.bind fun r => .answer _
        have hrelated := (engine.loadRelatedBy_carries ih head).bind fun _ => hvalue
        exact RecordM.Carries.orThrow _ _ fun _ => hrelated
      · next hzero => cases hzero
      · exact RecordM.Carries.orThrow _ _ fun _ => engine.refetchField_carries path

theorem loadField_carries (path : String) : RecordM.Carries engine.schema (engine.audited.loadField path) 0 0 := by
  apply RecordM.Carries.get.bind
  intro r
  exact engine.loadFieldWithin_carries _ path

theorem loadRelated_carries (name : String) : RecordM.Carries engine.schema (engine.audited.loadRelated name) 0 0 := by
  apply RecordM.Carries.get.bind
  intro r
  exact engine.loadRelatedBy_carries (engine.loadFieldWithin_carries _) name

end Engine

end RelQuery
