/-
Round trips of an engine.

As long as the storage answers and nothing is cancelled, each call of an engine ends with every statement counted
(`Engine.perform_owed`), whatever plans, records and replies it meets. A fetch sends the statement of its plan and then,
for each batched relation, as many as its different keys take.
- `BatchFetch.AsksFor`: how the requests of a relation bind its keys.
- `Engine.fetch_accounted`: what a fetch sends and counts.
- `Engine.round_trips`: every sequence of calls.
-/
import RelQuery.Proofs.Record.Batched
import RelQuery.Proofs.Record.Owed

namespace RelQuery

variable {σ : Type}

/-! ## Calls -/

/-- the same line read under a handle -/
def Link.under (link : Link σ) (handle : Handle) : Link σ := { link with handle := handle }

namespace Engine

/-- what an engine can be asked to do -/
inductive Call where
  | fetch (p : Plan) (handle : Handle)
  | existsRow (p : Plan)
  | count (p : Plan)
  | update (p : Plan) (assignments : List (String × Expr))
  | delete (p : Plan)
  | insert (entity : String) (values : List (String × Value))
  | loadField (record : Record) (path : String)
  | loadRelated (record : Record) (name : String)

/-- the handle by which a call can be cancelled -/
def Call.handle : Call → Handle
  | .fetch _ handle => handle
  | _ => .unshared

variable (engine : Engine σ)

/-- the session after a call, whatever has come of it -/
def perform (session : Session σ) : Call → Session σ
  | .fetch p handle => (engine.fetch p handle session).2
  | .existsRow p => (engine.existsRow p session).2
  | .count p => (engine.count p session).2
  | .update p assignments => (engine.update p assignments session).2
  | .delete p => (engine.delete p session).2
  | .insert entity values => (engine.insert entity values session).2
  | .loadField record path => (engine.loadField path record session).2
  | .loadRelated record name => (engine.loadRelated name record session).2

/-- the session after calls one after another -/
def run (session : Session σ) (calls : List Call) : Session σ := calls.foldl engine.perform session

/-- No answer during the calls is a failure, and none of the calls is cancelled. -/
def Undisturbed (session : Session (Audited σ)) : List Call → Prop
  | [] => True
  | call :: rest =>
    (session.link.under call.handle).Undisturbed (engine.audited.perform session call).link ∧
      Undisturbed (engine.audited.perform session call) rest

end Engine

/-! ## Keys -/

namespace BatchFetch

/-- Requests ask for the different keys of a relation among the primary rows, in the order in which they occur first,
each request for at least one key and for no more than the size of a batch. -/
structure AsksFor (fetch : BatchFetch) (d : Sql.Dialect) (batchSize : Nat) (primary : List Row) (asked : List Request) :
    Prop where
  firstSeen : fetch.FirstSeen primary (fetch.distinctKeys primary)
  keys : (asked.map Request.params).flatten = fetch.distinctKeys primary
  bounded : ∀ request ∈ asked, 0 < request.params.length ∧ request.params.length ≤ max batchSize 1
  rendered : ∀ request ∈ asked, request = (fetch.render d request.params).request
  number : asked.length = (fetch.distinctKeys primary).length ⌈/⌉ max batchSize 1

theorem IsOf.asksFor {fetch : BatchFetch} {columns : List OutputColumn} {relation : Relation} {target : Entity}
    {f : Field} (hfetch : fetch.IsOf columns relation target f) (d : Sql.Dialect) (policy : BatchPolicy)
    (primary : List Row) :
    fetch.AsksFor d policy.batchSize primary ((fetch.statements d policy primary).map Statement.request) := by
  have hparams : ∀ keys ∈ chunks policy.chunkSize (fetch.distinctKeys primary),
      (fetch.render d keys).request.params = keys := by
    intro keys hkeys
    rw [hfetch.render_eq]
    apply params_memberCondition
    intro key hkey
    exact fetch.not_isNull_of_mem policy.chunkSize_pos hkeys hkey
  have hmem : ∀ request ∈ (fetch.statements d policy primary).map Statement.request,
      ∃ keys ∈ chunks policy.chunkSize (fetch.distinctKeys primary), request = (fetch.render d keys).request := by
    intro request hrequest
    obtain ⟨s, hs, rfl⟩ := List.mem_map.1 hrequest
    obtain ⟨keys, hkeys, rfl⟩ := List.mem_map.1 hs
    exact ⟨keys, hkeys, rfl⟩
  constructor
  · exact fetch.distinctKeys_firstSeen primary
  · have hall : ((fetch.statements d policy primary).map Statement.request).map Request.params =
        chunks policy.chunkSize (fetch.distinctKeys primary) := by
      rw [statements, List.map_map, List.map_map]
      exact (List.map_congr_left hparams).trans (List.map_id _)
    rw [hall, flatten_chunks policy.chunkSize_pos]
  · intro request hrequest
    obtain ⟨keys, hkeys, rfl⟩ := hmem request hrequest
    rw [hparams keys hkeys]
    exact length_of_mem_chunks policy.chunkSize_pos _ keys hkeys
  · intro request hrequest
    obtain ⟨keys, hkeys, rfl⟩ := hmem request hrequest
    rw [hparams keys hkeys]
  · rw [List.length_map, statements, List.length_map, length_chunks policy.chunkSize_pos]
    rfl

end BatchFetch

/-! ## Fetches -/

namespace CompiledQuery

/-- What a fetch sends and counts between two states of a line. The plan's own statement is sent first and answered with
the primary rows; after it each batched relation asks for the different keys in its column of these rows, relations side
by side taking turns. One primary statement is counted, and for each relation as many as its keys take. -/
def Accounted (storage : Storage σ) (d : Sql.Dialect) (batchSize : Nat) (q : CompiledQuery)
    (link after : Link (Audited σ)) : Prop :=
  (∀ fetch ∈ q.batched, ∃ relation target f, fetch.IsOf q.primary.columns relation target f) ∧
  ∃ primary asked requests, (storage.read q.primary.request link.watched.inner).1.result = .ok primary ∧
    List.Forall₂ (fun fetch asked => fetch.AsksFor d batchSize primary asked) q.batched asked ∧
    Interleaves asked requests ∧
    (primary = [] → requests = []) ∧
    after.storage.sent = link.storage.sent ++ q.primary.request :: requests ∧
    after.traffic = { link.traffic with
      primary := link.traffic.primary + 1
      secondary := link.traffic.secondary +
        (q.batched.map fun fetch => (fetch.distinctKeys primary).length ⌈/⌉ max batchSize 1).sum }

end CompiledQuery

namespace Engine

variable {engine : Engine σ}

theorem fetch_error {p : Plan} {session compiled : Session σ} {e : QueryError}
    (h : engine.compile p session = (.error e, compiled)) (handle : Handle) :
    engine.fetch p handle session = (.error e, compiled) := by
  rw [fetch, SessionM.bind_run, h]

/-- A plan that compiles is loaded under the handle. -/
theorem fetch_ok {p : Plan} {session compiled : Session σ} {q : CompiledQuery}
    (h : engine.compile p session = (.ok q, compiled)) (handle : Handle) :
    let loaded := RowSet.load engine.storage engine.settings.dialect engine.policy q (compiled.link.under handle)
    engine.fetch p handle session = (loaded.1.bind fun set => materialize engine.schema set q.shape,
      { compiled with link := loaded.2.under .unshared }) := by
  intro loaded
  have hload :
      atLink (withHandle handle (RowSet.load engine.storage engine.settings.dialect engine.policy q)) compiled =
        (loaded.1, { compiled with link := loaded.2.under .unshared }) := rfl
  rw [fetch, SessionM.bind_run, h]
  dsimp only
  rw [SessionM.bind_run, hload]
  rcases loaded with ⟨_ | set, after⟩
  · rfl
  · dsimp only [Except.bind]
    cases materialize engine.schema set q.shape <;> rfl

/-- What a compiled plan fetches in batches are relations of its root. -/
theorem isOf_of_compile {session after : Session (Audited σ)} (hsettled : session.Settled engine.schema) {p : Plan}
    {q : CompiledQuery} (h : engine.audited.compile p session = (.ok q, after)) :
    ∀ fetch ∈ q.batched, ∃ relation target f, fetch.IsOf q.primary.columns relation target f := by
  have hcompiled : ∃ r : Memo.Request, r.compile engine.schema = .ok (.query q) := by
    unfold compile memoized at h
    cases hmemo : session.memo with
    | none =>
      rw [hmemo] at h
      have hok : p.compile engine.schema engine.settings.dialect = .ok q := congrArg Prod.fst h
      exact ⟨⟨.rows, engine.settings.dialect, p⟩, by rw [Memo.Request.compile, hok]; rfl⟩
    | some m =>
      rw [hmemo] at h
      have hok : (m.query engine.schema engine.settings.dialect p).1 = .ok q := congrArg Prod.fst h
      have hanswer : (m.answer engine.schema ⟨.rows, engine.settings.dialect, p⟩).1 = .ok (.query q) :=
        congrArg (Except.map Memo.Compiled.query) hok
      rw [Memo.answer_fst] at hanswer
      split at hanswer
      · next c hheld =>
        obtain rfl := Except.ok.inj hanswer
        exact hsettled.compiles m hmemo _ _ hheld
      · exact ⟨_, hanswer⟩
  obtain ⟨⟨kind, d, plan⟩, hcompile⟩ := hcompiled
  intro fetch hfetch
  cases kind with
  | rows =>
    cases hq : plan.compile engine.schema d with
    | error e => rw [Memo.Request.compile, hq] at hcompile; cases hcompile
    | ok q' =>
      rw [Memo.Request.compile, hq] at hcompile
      obtain rfl : q' = q := by cases hcompile; rfl
      obtain ⟨-, relation, target, f, -, -, hof⟩ := BatchFetch.ofRelation_ok (Plan.batched_of_compile hq fetch hfetch)
      exact ⟨relation, target, f, hof⟩
  | count =>
    rw [Memo.Request.compile] at hcompile
    cases hs : plan.compileCount engine.schema d <;> rw [hs] at hcompile <;> cases hcompile
  | existsRow =>
    rw [Memo.Request.compile] at hcompile
    cases hs : plan.compileExists engine.schema d <;> rw [hs] at hcompile <;> cases hcompile

/-- What a load of a compiled plan sends and counts, told by the keys of its relations. -/
theorem accounted_of_sends {q : CompiledQuery} (hof : ∀ fetch ∈ q.batched, ∃ relation target f,
      fetch.IsOf q.primary.columns relation target f) {storage : Storage σ} {d : Sql.Dialect} {policy : BatchPolicy}
    {primary : List Row} {link after : Link (Audited σ)}
    (hanswer : (storage.read q.primary.request link.watched.inner).1.result = .ok primary)
    (h : q.Sends d policy primary link after) : q.Accounted storage d policy.batchSize link after := by
  obtain ⟨requests, hrequests, hsends⟩ := h
  have hasks : List.Forall₂ (fun fetch asked => fetch.AsksFor d policy.batchSize primary asked) q.batched
      ((q.relationStatements d policy primary).map fun statements => statements.map Statement.request) := by
    rw [CompiledQuery.relationStatements, List.map_map, List.forall₂_map_right_iff, List.forall₂_same]
    intro fetch hfetch
    obtain ⟨relation, target, f, hisOf⟩ := hof fetch hfetch
    exact hisOf.asksFor d policy primary
  have hnumber : requests.length =
      (q.batched.map fun fetch => (fetch.distinctKeys primary).length ⌈/⌉ max policy.batchSize 1).sum := by
    rw [hrequests.length_eq, CompiledQuery.relationStatements, List.map_map, List.map_map]
    congr 1
    apply List.map_congr_left
    intro fetch hfetch
    obtain ⟨relation, target, f, hisOf⟩ := hof fetch hfetch
    exact (hisOf.asksFor d policy primary).number
  refine ⟨hof, primary, _, requests, hanswer, hasks, hrequests, ?_, hsends.sent, ?_⟩
  · rintro rfl
    apply List.eq_nil_of_length_eq_zero
    rw [hnumber]
    apply List.sum_eq_zero
    intro n hn
    obtain ⟨fetch, -, rfl⟩ := List.mem_map.1 hn
    exact zero_ceilDiv _
  · rw [hsends.traffic, ← hnumber]
    rfl

/-- Loading leaves nothing owed. -/
theorem owed_of_sends {q : CompiledQuery} {d : Sql.Dialect} {policy : BatchPolicy} {primary : List Row}
    {link after : Link (Audited σ)} (h : q.Sends d policy primary link after) : after.owed = link.owed := by
  obtain ⟨requests, -, hsends⟩ := h
  simp only [Link.owed, hsends.sent, hsends.traffic, Traffic.statements, Traffic.later, Link.countPrimary, Link.count,
    List.length_append, List.length_cons]
  omega

/-! ## Sequences of calls -/

/-- what a fetch does to the line: nothing when its plan does not compile -/
def FetchAccounted (engine : Engine σ) (p : Plan) (session after : Session (Audited σ)) : Prop :=
  match (engine.audited.compile p session).1 with
  | .error _ => after.link = session.link
  | .ok q => q.Accounted engine.storage engine.settings.dialect engine.settings.batchSize.toNat session.link after.link

theorem fetch_settled (engine : Engine σ) (p : Plan) (handle : Handle) {session : Session (Audited σ)}
    (hsettled : session.Settled engine.schema) : (engine.audited.fetch p handle session).2.Settled engine.schema := by
  have hcompiled := (engine.audited.compile_carries p).settles session hsettled
  rcases hcompile : engine.audited.compile p session with ⟨e | q, compiled⟩ <;> rw [hcompile] at hcompiled
  · rwa [fetch_error hcompile]
  · rw [fetch_ok hcompile]
    exact ⟨rfl, hcompiled.compiles⟩

/-- **A fetch that is not disturbed** sends and counts the statements for the rows and their keys, and leaves nothing
owed. -/
theorem fetch_accounted (engine : Engine σ) (p : Plan) (handle : Handle) {session : Session (Audited σ)}
    (hsettled : session.Settled engine.schema)
    (h : (session.link.under handle).Undisturbed (engine.audited.fetch p handle session).2.link) :
    engine.FetchAccounted p session (engine.audited.fetch p handle session).2 ∧
      (engine.audited.fetch p handle session).2.link.owed = session.link.owed := by
  have hlink : (engine.audited.compile p session).2.link = session.link := link_memoized _ _ p session
  unfold FetchAccounted
  rcases hcompile : engine.audited.compile p session with ⟨e | q, compiled⟩ <;> rw [hcompile] at hlink
  · rw [fetch_error hcompile]
    exact ⟨hlink, congrArg Link.owed hlink⟩
  · rw [fetch_ok hcompile, ← hlink] at h
    rw [fetch_ok hcompile, ← hlink]
    have hundisturbed : (compiled.link.under handle).Undisturbed (RowSet.load engine.storage.audited
        engine.settings.dialect engine.policy q (compiled.link.under handle)).2 := ⟨h.answered, h.uncut⟩
    obtain ⟨set, after, hload, hanswer, hsends⟩ := RowSet.load_undisturbed hundisturbed
    have hloaded : RowSet.load engine.audited.storage engine.audited.settings.dialect engine.audited.policy q
        (compiled.link.under handle) = (.ok set, after) := hload
    rw [hloaded]
    have haccounted : q.Accounted engine.storage engine.settings.dialect engine.policy.batchSize
        (compiled.link.under handle) after := accounted_of_sends (isOf_of_compile hsettled hcompile) hanswer hsends
    have howed : after.owed = (compiled.link.under handle).owed := owed_of_sends hsends
    exact ⟨haccounted, howed⟩

/-- **Each call leaves nothing owed** as long as it is not disturbed. -/
theorem perform_owed (engine : Engine σ) (call : Call) {session : Session (Audited σ)}
    (hsettled : session.Settled engine.schema) :
    (engine.audited.perform session call).Settled engine.schema ∧
      ((session.link.under call.handle).Undisturbed (engine.audited.perform session call).link →
        session.link.owed = 0 → (engine.audited.perform session call).link.owed = 0) := by
  have hcarries {α : Type} {step : SessionM (Audited σ) α} (h : SessionM.Carries engine.schema step 0 0) :
      (step session).2.Settled engine.schema ∧
        ((session.link.under .unshared).Undisturbed (step session).2.link → session.link.owed = 0 →
          (step session).2.link.owed = 0) :=
    ⟨h.settles session hsettled, fun hquiet howed => h.ends hsettled howed hquiet.answered⟩
  cases call with
  | fetch p handle =>
    refine ⟨engine.fetch_settled p handle hsettled, ?_⟩
    intro hquiet howed
    exact (engine.fetch_accounted p handle hsettled hquiet).2.trans howed
  | existsRow p => exact hcarries (engine.existsRow_carries p)
  | count p => exact hcarries (engine.count_carries p)
  | update p assignments => exact hcarries ((SessionM.Carries.ofExcept _).bind engine.change_carries)
  | delete p => exact hcarries ((SessionM.Carries.ofExcept _).bind engine.change_carries)
  | insert entity values => exact hcarries (engine.insert_carries entity values)
  | loadField record path => exact hcarries (engine.loadField_carries path record)
  | loadRelated record name => exact hcarries (engine.loadRelated_carries name record)

/-- Sequences of calls that are not disturbed leave nothing owed. -/
theorem run_owed (engine : Engine σ) (calls : List Call) {session : Session (Audited σ)}
    (hsettled : session.Settled engine.schema) (howed : session.link.owed = 0)
    (h : engine.Undisturbed session calls) :
    (engine.audited.run session calls).Settled engine.schema ∧ (engine.audited.run session calls).link.owed = 0 := by
  induction calls generalizing session with
  | nil => exact ⟨hsettled, howed⟩
  | cons call rest ih =>
    obtain ⟨hcall, hrest⟩ := h
    obtain ⟨hafter, hnext⟩ := engine.perform_owed call hsettled
    exact ih hafter (hnext hcall howed) hrest

theorem undisturbed_append (engine : Engine σ) {session : Session (Audited σ)} (before rest : List Call) :
    engine.Undisturbed session (before ++ rest) ↔
      engine.Undisturbed session before ∧ engine.Undisturbed (engine.audited.run session before) rest := by
  induction before generalizing session with
  | nil => exact (true_and _).to_iff.symm
  | cons call before ih =>
    rw [List.cons_append, Undisturbed, Undisturbed, ih, and_assoc]
    rfl

theorem start_settled (engine : Engine σ) (state : Audited σ) : (engine.audited.start state).Settled engine.schema := by
  refine ⟨rfl, ?_⟩
  intro m hm s c hheld
  simp only [start] at hm
  split at hm
  · obtain rfl := Option.some.inj hm
    rw [Memo.held_empty] at hheld
    cases hheld
  · cases hm

/-- **Round trips are exactly accounted.** In every sequence of calls to an engine, over any storage that does not fail
and with nothing cancelled, the statements counted are as many as the storage has received. Each fetch among them whose
plan compiles counts one primary statement and for each batched relation as many as its different keys take, and sends
exactly these: the relation's requests bind its keys in the order in which they occur first, each request at least one
key and no more than the size of a batch. -/
theorem round_trips (engine : Engine σ) (state : σ) (calls : List Call)
    (h : engine.Undisturbed (engine.audited.start (.start state)) calls) :
    (engine.audited.run (engine.audited.start (.start state)) calls).link.traffic.statements =
        (engine.audited.run (engine.audited.start (.start state)) calls).link.storage.sent.length ∧
      ∀ before p handle rest, calls = before ++ .fetch p handle :: rest →
        engine.FetchAccounted p (engine.audited.run (engine.audited.start (.start state)) before)
          (engine.audited.run (engine.audited.start (.start state)) (before ++ [.fetch p handle])) := by
  have hstart := engine.start_settled (.start state)
  constructor
  · have howed := (engine.run_owed calls hstart rfl h).2
    unfold Link.owed at howed
    omega
  · rintro before p handle rest rfl
    obtain ⟨hbefore, hfetch, -⟩ := (engine.undisturbed_append before _).1 h
    have hsettled := (engine.run_owed before hstart rfl hbefore).1
    have hrun : engine.audited.run (engine.audited.start (.start state)) (before ++ [.fetch p handle]) =
        engine.audited.perform (engine.audited.run (engine.audited.start (.start state)) before) (.fetch p handle) :=
      List.foldl_append
    rw [hrun]
    exact (engine.fetch_accounted p handle hsettled hfetch).1

/-- an engine that asks for one key at a time -/
def sampleCounting : Engine Script where
  schema := sampleGraph
  storage := Script.storage
  settings := { lazyRefetch := true, batchSize := 1, compileCache := false }

/-- replies to all that the calls below ask; what interrupts the count finds nobody to cut off -/
def sampleReplies : Script :=
  [⟨.rows sampleNodes, none⟩, ⟨.rows [[.int 2]], none⟩, ⟨.rows [], none⟩, ⟨.rows [[.int 4]], some .inFlight⟩,
    ⟨.changed 4, none⟩, ⟨.rows [[.int 5]], none⟩, ⟨.rows [[.int 5]], none⟩]

/-- a record of which the key is known -/
def sampleRecord : Record := (Record.empty sampleNode).setField "id" (.int 5)

def sampleCalls : List Call :=
  [.fetch sampleTwins .live, .count sampleTwins, .delete (.ofEntity sampleNode), .insert "node" [("id", .int 5)],
    .loadField sampleRecord "id", .loadRelated sampleRecord "twins"]

/-- The nodes have two keys, each asked for by itself; the record's field is there already. -/
theorem round_trips_nodes :
    let calls := sampleCounting.audited.run (sampleCounting.audited.start (.start sampleReplies))
    sampleCounting.Undisturbed (sampleCounting.audited.start (.start sampleReplies)) sampleCalls ∧
      (calls sampleCalls).link.traffic.statements = 7 ∧ (calls sampleCalls).link.storage.sent.length = 7 ∧
      sampleCounting.FetchAccounted sampleTwins (calls []) (calls [.fetch sampleTwins .live]) ∧
      (calls [.fetch sampleTwins .live]).link.traffic = ⟨1, 2, 0, 0, 0⟩ := by
  intro calls
  have hundisturbed : sampleCounting.Undisturbed (sampleCounting.audited.start (.start sampleReplies)) sampleCalls :=
    ⟨⟨rfl, .inr ⟨rfl, rfl⟩⟩, ⟨rfl, .inl rfl⟩, ⟨rfl, .inl rfl⟩, ⟨rfl, .inl rfl⟩, ⟨by decide +kernel, .inl rfl⟩,
      ⟨by decide +kernel, .inl rfl⟩, trivial⟩
  obtain ⟨hcounted, hfetches⟩ := round_trips sampleCounting sampleReplies sampleCalls hundisturbed
  have hseven : (calls sampleCalls).link.storage.sent.length = 7 := by decide +kernel
  exact ⟨hundisturbed, hcounted.trans hseven, hseven, hfetches [] sampleTwins .live _ rfl, rfl⟩

end Engine

end RelQuery
