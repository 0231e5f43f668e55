/-
Loads told step by step.

A load is told together with what it cannot decide: when a reply comes, and when its handle is cancelled, be it before the
load, between two steps, while a reply is awaited or inside a call to the storage. The trace of a load is the list of what
has happened.
- `Step`: before a call and while it is pending the handle is looked at first.
- `Effect`: what a trace does to a line; one lemma for a step (`Step.effect`), and one for a run (`Run.effect`).
- `Stage.Tells`: what a stage says about the trace before it (`Step.tells`, `Run.tells`).
- `Run.rowsFirst`: relations are asked for after the rows of the plan have come.
-/
import RelQuery.Proofs.Fetch.Orders

namespace RelQuery

variable {σ : Type}

namespace RowSet

/-! ## Traces -/

/-- what a statement is sent for: the rows of the plan, or the relation at a place -/
inductive Purpose where
  | primary
  | relation (place : Nat)
deriving DecidableEq, Repr

/-- one more statement answered with rows -/
def Purpose.count : Purpose → Traffic → Traffic
  | .primary, t => { t with primary := t.primary + 1 }
  | .relation _, t => t.addSecondary

inductive Event where
  /-- the handle is cancelled -/
  | cancelled
  /-- a call to the storage starts -/
  | sent (purpose : Purpose) (s : Statement)
  /-- the reply to the call is taken -/
  | received (purpose : Purpose) (reply : Except QueryError (List Row))

namespace Event

/-- what an event happens for, unless it is the cancellation -/
def purpose : Event → Option Purpose
  | .cancelled => none
  | .sent purpose _ => some purpose
  | .received purpose _ => some purpose

/-- the request of a call -/
def request : Event → Option Request
  | .sent _ s => some s.request
  | _ => none

def isPrimaryRows : Event → Bool
  | .received .primary (.ok _) => true
  | _ => false

def isSecondaryRows : Event → Bool
  | .received (.relation _) (.ok _) => true
  | _ => false

end Event

/-- the calls that start, in their order -/
def calls (trace : List Event) : List Request := trace.filterMap Event.request

/-- the events for one purpose -/
def eventsFor (purpose : Purpose) (trace : List Event) : List Event :=
  trace.filter fun event => event.purpose = some purpose

/-- calls for one purpose, each answered with rows before the next one starts -/
def exchanges (purpose : Purpose) (statements : List Statement) (replies : List (List Row)) : List Event :=
  (statements.zip replies).flatMap fun exchange => [.sent purpose exchange.1, .received purpose (.ok exchange.2)]

/-- counts with the replies of a trace that brought rows -/
def countRows (trace : List Event) (t : Traffic) : Traffic :=
  { t with
    primary := t.primary + trace.countP Event.isPrimaryRows
    secondary := t.secondary + trace.countP Event.isSecondaryRows }

theorem calls_append (trace more : List Event) : calls (trace ++ more) = calls trace ++ calls more :=
  List.filterMap_append

theorem eventsFor_append (purpose : Purpose) (trace more : List Event) :
    eventsFor purpose (trace ++ more) = eventsFor purpose trace ++ eventsFor purpose more := List.filter_append ..

theorem countRows_append (trace more : List Event) (t : Traffic) :
    countRows (trace ++ more) t = countRows more (countRows trace t) := by
  simp only [countRows, List.countP_append, Nat.add_assoc]

theorem mem_of_eventsFor {purpose : Purpose} {trace : List Event} {event : Event}
    (h : event ∈ eventsFor purpose trace) : event ∈ trace := (List.mem_filter.1 h).1

/-- One more call, and its rows. -/
theorem exchanges_append {purpose : Purpose} {statements : List Statement} {replies : List (List Row)}
    (h : statements.length = replies.length) (s : Statement) (rows : List Row) :
    exchanges purpose (statements ++ [s]) (replies ++ [rows]) =
      exchanges purpose statements replies ++ [.sent purpose s, .received purpose (.ok rows)] := by
  rw [exchanges, List.zip_append h, List.flatMap_append]
  rfl

/-! ## Steps -/

/-- what can happen to a handle inside a call: nothing, or that somebody cancels it -/
inductive Inside : Handle → List Event → Handle → Prop where
  | quiet (handle : Handle) : Inside handle [] handle
  | cancelled : Inside .live [.cancelled] .cancelled

/-- A step of statements that are sent one after another. Before a call and while it is pending the handle is looked at
first; a call that has come to its reply counts, even if the handle was cancelled inside it. -/
inductive Moves (storage : Storage σ) (purpose : Purpose) :
    Progress → Link (Logged σ) → List Event → Progress → Link (Logged σ) → Prop where
  | send {s : Statement} {rest : List Statement} {rows : List Row} {link : Link (Logged σ)} :
    link.handle ≠ .cancelled →
    Moves storage purpose (.ready (s :: rest) rows) link [.sent purpose s]
      (.waiting (liftStorage (storage.logged.read s.request link.storage).1.result) rest rows)
      { link with storage := (storage.logged.read s.request link.storage).2 }
  | refuse {s : Statement} {rest : List Statement} {rows : List Row} {link : Link (Logged σ)} :
    link.handle = .cancelled →
    Moves storage purpose (.ready (s :: rest) rows) link [] (.done (.error .cancelled)) link
  | receive {rest : List Statement} {rows more : List Row} {link : Link (Logged σ)} {inside : List Event}
    {handle : Handle} : link.handle ≠ .cancelled → Inside link.handle inside handle →
    Moves storage purpose (.waiting (.ok more) rest rows) link (inside ++ [.received purpose (.ok more)])
      (.ready rest (rows ++ more)) ({ link with handle := handle }.count purpose.count)
  | fail {rest : List Statement} {rows : List Row} {link : Link (Logged σ)} {inside : List Event} {handle : Handle}
    {e : QueryError} : link.handle ≠ .cancelled → Inside link.handle inside handle →
    Moves storage purpose (.waiting (.error e) rest rows) link (inside ++ [.received purpose (.error e)])
      (.done (.error e)) { link with handle := handle }
  | giveUp {reply : Except QueryError (List Row)} {rest : List Statement} {rows : List Row} {link : Link (Logged σ)} :
    link.handle = .cancelled →
    Moves storage purpose (.waiting reply rest rows) link [] (.done (.error .cancelled)) link
  | finish {rows : List Row} {link : Link (Logged σ)} :
    Moves storage purpose (.ready [] rows) link [] (.done (.ok rows)) link

/-- how far a load has come -/
inductive Stage where
  | primary (progress : Progress)
  | relations (primary : List Row) (fetches : List Progress)
  | ended (result : Except QueryError RowSet)

/-- a line and the load that uses it -/
structure Loading (σ : Type) where
  link : Link (Logged σ)
  stage : Stage

/-- a relation may go on when relations are fetched side by side, or when those before it have succeeded -/
def Admits (policy : BatchPolicy) (fetches : List Progress) (place : Nat) : Prop :=
  policy.concurrent = true ∨ ∀ earlier < place, ∃ rows, fetches[earlier]? = some (.done (.ok rows))

/-- a step of a load, or the cancellation of its handle -/
inductive Step (storage : Storage σ) (d : Sql.Dialect) (policy : BatchPolicy) (q : CompiledQuery) :
    Loading σ → List Event → Loading σ → Prop where
  | cancel {link : Link (Logged σ)} {stage : Stage} : link.handle ≠ .unshared →
    Step storage d policy q ⟨link, stage⟩ [.cancelled] ⟨{ link with handle := .cancelled }, stage⟩
  | primary {link after : Link (Logged σ)} {progress next : Progress} {events : List Event} :
    Moves storage .primary progress link events next after →
    Step storage d policy q ⟨link, .primary progress⟩ events ⟨after, .primary next⟩
  | refused {link : Link (Logged σ)} {e : QueryError} :
    Step storage d policy q ⟨link, .primary (.done (.error e))⟩ [] ⟨link, .ended (.error e)⟩
  | empty {link : Link (Logged σ)} :
    Step storage d policy q ⟨link, .primary (.done (.ok []))⟩ [] ⟨link, .ended (.ok q.noRows)⟩
  | branch {link : Link (Logged σ)} {primary : List Row} : primary ≠ [] →
    Step storage d policy q ⟨link, .primary (.done (.ok primary))⟩ []
      ⟨link, .relations primary ((q.relationStatements d policy primary).map (.ready · []))⟩
  | relation {link after : Link (Logged σ)} {primary : List Row} {fetches : List Progress} {place : Nat}
    {progress next : Progress} {events : List Event} : fetches[place]? = some progress →
    Admits policy fetches place → Moves storage (.relation place) progress link events next after →
    Step storage d policy q ⟨link, .relations primary fetches⟩ events ⟨after, .relations primary (fetches.set place next)⟩
  | stop {link : Link (Logged σ)} {primary : List Row} {fetches : List Progress} {e : QueryError} :
    policy.concurrent = false → .done (.error e) ∈ fetches →
    Step storage d policy q ⟨link, .relations primary fetches⟩ [] ⟨link, .ended (.error e)⟩
  | finish {link : Link (Logged σ)} {primary : List Row} {results : List (Except QueryError (List Row))} :
    Step storage d policy q ⟨link, .relations primary (results.map .done)⟩ []
      ⟨link, .ended ((results.mapM id).map (q.withFetched primary))⟩

/-- steps one after another, with all that has happened in them -/
inductive Run (storage : Storage σ) (d : Sql.Dialect) (policy : BatchPolicy) (q : CompiledQuery) (start : Loading σ) :
    List Event → Loading σ → Prop where
  | start : Run storage d policy q start [] start
  | step {trace events : List Event} {now next : Loading σ} : Run storage d policy q start trace now →
    Step storage d policy q now events next → Run storage d policy q start (trace ++ events) next

/-- a load before its first step -/
def begun (q : CompiledQuery) (link : Link (Logged σ)) : Loading σ := ⟨link, .primary (.ready [q.primary] [])⟩

/-! ## What a trace does to a line -/

/-- The calls are in the log, the replies with rows are counted, and the handle is cancelled if it was before or if the
trace says so; from then on no call starts. -/
structure Effect (link : Link (Logged σ)) (trace : List Event) (after : Link (Logged σ)) : Prop where
  sent : after.storage.sent = link.storage.sent ++ calls trace
  counted : after.traffic = countRows trace link.traffic
  cancelled : after.handle = .cancelled ↔ link.handle = .cancelled ∨ .cancelled ∈ trace
  refused : link.handle = .cancelled → calls trace = []
  stops : ∀ before later, trace = before ++ .cancelled :: later → calls later = []

namespace Effect

variable {link middle after : Link (Logged σ)} {trace more : List Event}

theorem refl (link : Link (Logged σ)) : Effect link [] link where
  sent := (List.append_nil _).symm
  counted := rfl
  cancelled := by simp
  refused _ := rfl
  stops before later h := by simp at h

theorem trans (h : Effect link trace middle) (h' : Effect middle more after) : Effect link (trace ++ more) after where
  sent := by rw [h'.sent, h.sent, calls_append, List.append_assoc]
  counted := by rw [h'.counted, h.counted, countRows_append]
  cancelled := by rw [h'.cancelled, h.cancelled, List.mem_append, or_assoc]
  refused hlink := by
    rw [calls_append, h.refused hlink, h'.refused (h.cancelled.2 (.inl hlink))]
    rfl
  stops before later hsplit := by
    rcases append_eq_append_cons hsplit with ⟨between, htrace, rfl⟩ | ⟨between, -, hmore⟩
    · have hmiddle : middle.handle = .cancelled := h.cancelled.2 (.inr (htrace ▸ by simp))
      rw [calls_append, h.stops before between htrace, h'.refused hmiddle]
      rfl
    · exact h'.stops between later hmore

/-- An event list without a call starts none after any of its events. -/
theorem calls_later {before later : List Event} {event : Event} (h : trace = before ++ event :: later)
    (hcalls : calls trace = []) : calls later = [] := by
  rw [h, calls_append, ← List.singleton_append, calls_append] at hcalls
  simp only [List.append_eq_nil_iff] at hcalls
  exact hcalls.2.2

/-- a call, under a handle that is not cancelled -/
theorem call (storage : Storage σ) (hlink : link.handle ≠ .cancelled) (purpose : Purpose) (s : Statement) :
    Effect link [.sent purpose s] { link with storage := (storage.logged.read s.request link.storage).2 } where
  sent := rfl
  counted := rfl
  cancelled := by simp
  refused hcancelled := absurd hcancelled hlink
  stops before later h := by
    have hmem : Event.cancelled ∈ [Event.sent purpose s] := h ▸ by simp
    simp at hmem

/-- the cancellation -/
theorem cancel (link : Link (Logged σ)) : Effect link [.cancelled] { link with handle := .cancelled } where
  sent := (List.append_nil _).symm
  counted := rfl
  cancelled := by simp
  refused _ := rfl
  stops before later h := calls_later h rfl

/-- what happens inside a call -/
theorem inside {events : List Event} {handle : Handle} (h : Inside link.handle events handle) :
    Effect link events { link with handle := handle } := by
  generalize hbefore : link.handle = before at h
  cases h with
  | quiet =>
    obtain rfl := hbefore
    exact .refl link
  | cancelled => exact .cancel link

/-- a reply -/
theorem reply (link : Link (Logged σ)) (purpose : Purpose) (reply : Except QueryError (List Row)) :
    Effect link [.received purpose reply]
      { link with traffic := countRows [.received purpose reply] link.traffic } where
  sent := (List.append_nil _).symm
  counted := rfl
  cancelled := by simp
  refused _ := rfl
  stops before later h := calls_later h rfl

end Effect

variable {storage : Storage σ} {d : Sql.Dialect} {policy : BatchPolicy} {q : CompiledQuery}

theorem Moves.effect {purpose : Purpose} {progress next : Progress} {link after : Link (Logged σ)} {events : List Event}
    (h : Moves storage purpose progress link events next after) : Effect link events after := by
  cases h with
  | send hlink => exact .call storage hlink purpose _
  | refuse => exact .refl _
  | @receive _ _ more _ _ _ hlink hinside =>
    have hreply := (Effect.inside hinside).trans (.reply _ purpose (.ok more))
    cases purpose <;> exact hreply
  | @fail _ _ _ _ _ e hlink hinside =>
    have hreply := (Effect.inside hinside).trans (.reply _ purpose (.error e))
    cases purpose <;> exact hreply
  | giveUp => exact .refl _
  | finish => exact .refl _

theorem Step.effect {now next : Loading σ} {events : List Event} (h : Step storage d policy q now events next) :
    Effect now.link events next.link := by
  cases h with
  | cancel => exact .cancel _
  | primary hmoves => exact hmoves.effect
  | relation _ _ hmoves => exact hmoves.effect
  | refused | empty | branch | stop | finish => exact .refl _

theorem Run.effect {start now : Loading σ} {trace : List Event} (h : Run storage d policy q start trace now) :
    Effect start.link trace now.link := by
  induction h with
  | start => exact .refl _
  | step _ hstep ih => exact ih.trans hstep.effect

/-! ## What a stage says about the trace before it -/

/-- The rows of a load are those that its statements were answered with: the plan's own statement, and after it all
statements of each relation. -/
def Answered (d : Sql.Dialect) (policy : BatchPolicy) (q : CompiledQuery) (trace : List Event) (set : RowSet) : Prop :=
  ∃ primary fetched, set = q.withFetched primary fetched ∧ fetched.length = q.batched.length ∧
    eventsFor .primary trace = exchanges .primary [q.primary] [primary] ∧
    ∀ place statements, (q.relationStatements d policy primary)[place]? = some statements →
      ∃ replies, statements.length = replies.length ∧
        eventsFor (.relation place) trace = exchanges (.relation place) statements replies ∧
        fetched[place]? = some replies.flatten

/-- a failure is the cancellation, or an error that the storage has returned -/
def Explains (link : Link (Logged σ)) (trace : List Event) (e : QueryError) : Prop :=
  e = .cancelled ∧ link.handle = .cancelled ∨
    ∃ failure purpose, e = .storage failure ∧ .received purpose (.error e) ∈ trace

/-- How far statements have come tells what has happened for them. -/
def ProgressTells (purpose : Purpose) (statements : List Statement) (events : List Event)
    (explained : QueryError → Prop) : Progress → Prop
  | .ready rest rows => ∃ answered replies, statements = answered ++ rest ∧ answered.length = replies.length ∧
      events = exchanges purpose answered replies ∧ rows = replies.flatten
  | .waiting reply rest rows => (∃ result, reply = liftStorage result) ∧
      ∃ answered s replies, statements = answered ++ s :: rest ∧ answered.length = replies.length ∧
        events = exchanges purpose answered replies ++ [.sent purpose s] ∧ rows = replies.flatten
  | .done (.ok rows) => ∃ replies, statements.length = replies.length ∧
      events = exchanges purpose statements replies ∧ rows = replies.flatten
  | .done (.error e) => explained e

/-- How far a load has come tells what has happened. -/
def Stage.Tells (d : Sql.Dialect) (policy : BatchPolicy) (q : CompiledQuery) (trace : List Event)
    (explained : QueryError → Prop) : Stage → Prop
  | .primary progress => ProgressTells .primary [q.primary] (eventsFor .primary trace) explained progress ∧
      ∀ place, eventsFor (.relation place) trace = []
  | .relations rows fetches => eventsFor .primary trace = exchanges .primary [q.primary] [rows] ∧
      fetches.length = (q.relationStatements d policy rows).length ∧
      ∀ place statements progress, (q.relationStatements d policy rows)[place]? = some statements →
        fetches[place]? = some progress →
        ProgressTells (.relation place) statements (eventsFor (.relation place) trace) explained progress
  | .ended (.ok set) => Answered d policy q trace set
  | .ended (.error e) => explained e

theorem Explains.later {link after : Link (Logged σ)} {trace events : List Event} {e : QueryError}
    (h : Explains link trace e) (heffect : Effect link events after) : Explains after (trace ++ events) e := by
  rcases h with ⟨rfl, hlink⟩ | ⟨failure, purpose, rfl, hreceived⟩
  · exact .inl ⟨rfl, heffect.cancelled.2 (.inl hlink)⟩
  · exact .inr ⟨failure, purpose, rfl, List.mem_append_left _ hreceived⟩

theorem ProgressTells.mono {purpose : Purpose} {statements : List Statement} {events : List Event}
    {explained explained' : QueryError → Prop} {progress : Progress}
    (h : ProgressTells purpose statements events explained progress) (hmono : ∀ e, explained e → explained' e) :
    ProgressTells purpose statements events explained' progress := by
  match progress with
  | .ready .. | .waiting .. | .done (.ok _) => exact h
  | .done (.error e) => exact hmono e h

/-- What a stage says is not touched by what happens for nothing. -/
theorem Stage.Tells.mono {trace trace' : List Event} {explained explained' : QueryError → Prop} {stage : Stage}
    (h : stage.Tells d policy q trace explained) (hmono : ∀ e, explained e → explained' e)
    (hsame : ∀ purpose, eventsFor purpose trace' = eventsFor purpose trace) :
    stage.Tells d policy q trace' explained' := by
  match stage with
  | .primary progress =>
    obtain ⟨hprogress, hrelations⟩ := h
    refine ⟨?_, fun place => (hsame _).trans (hrelations place)⟩
    rw [hsame]
    exact hprogress.mono hmono
  | .relations rows fetches =>
    obtain ⟨hprimary, hlength, hfetches⟩ := h
    refine ⟨(hsame _).trans hprimary, hlength, fun place statements progress hstatements hprogress => ?_⟩
    rw [hsame]
    exact (hfetches place statements progress hstatements hprogress).mono hmono
  | .ended (.ok set) =>
    obtain ⟨primary, fetched, hset, hlength, hprimary, hfetched⟩ := h
    refine ⟨primary, fetched, hset, hlength, (hsame _).trans hprimary, fun place statements hstatements => ?_⟩
    rw [hsame]
    exact hfetched place statements hstatements
  | .ended (.error e) => exact hmono e h

/-- The cancellation happens for nothing. -/
theorem Inside.eventsFor {before after : Handle} {events : List Event} (h : Inside before events after)
    (purpose : Purpose) : eventsFor purpose events = [] := by
  cases h <;> rfl

theorem eventsFor_sent (purpose : Purpose) (s : Statement) :
    eventsFor purpose [.sent purpose s] = [.sent purpose s] := by
  simp [eventsFor, Event.purpose]

theorem eventsFor_received (purpose : Purpose) (reply : Except QueryError (List Row)) :
    eventsFor purpose [.received purpose reply] = [.received purpose reply] := by
  simp [eventsFor, Event.purpose]

/-- Statements for one purpose go on without anything happening for another. -/
theorem Moves.others {purpose other : Purpose} {progress next : Progress} {link after : Link (Logged σ)}
    {events : List Event} (h : Moves storage purpose progress link events next after) (hne : other ≠ purpose) :
    eventsFor other events = [] := by
  have hsent (s : Statement) : eventsFor other [.sent purpose s] = [] := by
    simp [eventsFor, Event.purpose, hne.symm]
  have hreceived (reply : Except QueryError (List Row)) : eventsFor other [.received purpose reply] = [] := by
    simp [eventsFor, Event.purpose, hne.symm]
  cases h with
  | send => exact hsent _
  | receive _ hinside => rw [eventsFor_append, hinside.eventsFor, hreceived]; rfl
  | fail _ hinside => rw [eventsFor_append, hinside.eventsFor, hreceived]; rfl
  | refuse | giveUp | finish => rfl

/-- **One step for one purpose** keeps what its progress says. -/
theorem Moves.tells {purpose : Purpose} {progress next : Progress} {link after : Link (Logged σ)}
    {events trace : List Event} {statements : List Statement}
    (h : Moves storage purpose progress link events next after)
    (hprogress : ProgressTells purpose statements (eventsFor purpose trace) (Explains link trace) progress) :
    ProgressTells purpose statements (eventsFor purpose (trace ++ events)) (Explains after (trace ++ events)) next := by
  rw [eventsFor_append]
  cases h with
  | @send s rest rows =>
    obtain ⟨answered, replies, hstatements, hlength, hevents, hrows⟩ := hprogress
    refine ⟨⟨_, rfl⟩, answered, s, replies, hstatements, hlength, ?_, hrows⟩
    rw [hevents, eventsFor_sent]
  | refuse hlink => exact .inl ⟨rfl, hlink⟩
  | @receive rest rows more link inside handle hlink hinside =>
    obtain ⟨-, answered, s, replies, hstatements, hlength, hevents, hrows⟩ := hprogress
    refine ⟨answered ++ [s], replies ++ [more], ?_, ?_, ?_, ?_⟩
    · rw [hstatements, List.append_assoc]
      rfl
    · rw [List.length_append, List.length_append, hlength]
      rfl
    · rw [exchanges_append hlength, eventsFor_append, hinside.eventsFor, eventsFor_received, hevents,
        List.nil_append, List.append_assoc]
      rfl
    · rw [hrows, List.flatten_append, List.flatten_singleton]
  | @fail rest rows link inside handle e hlink hinside =>
    obtain ⟨⟨result, hreply⟩, -⟩ := hprogress
    cases result with
    | ok rows => cases hreply
    | error failure =>
      obtain rfl : e = .storage failure := Except.error.inj hreply
      exact .inr ⟨failure, purpose, rfl, by simp⟩
  | giveUp hlink => exact .inl ⟨rfl, hlink⟩
  | finish =>
    obtain ⟨answered, replies, hstatements, hlength, hevents, hrows⟩ := hprogress
    rw [List.append_nil] at hstatements
    subst hstatements
    refine ⟨replies, hlength, ?_, hrows⟩
    rw [hevents]
    exact List.append_nil _

/-- The rows of the plan are what its own statement was answered with. -/
theorem ProgressTells.single {s : Statement} {purpose : Purpose} {events : List Event} {explained : QueryError → Prop}
    {rows : List Row} (h : ProgressTells purpose [s] events explained (.done (.ok rows))) :
    events = exchanges purpose [s] [rows] := by
  obtain ⟨replies, hlength, hevents, hrows⟩ := h
  obtain ⟨only, rfl⟩ : ∃ only, replies = [only] := List.length_eq_one_iff.1 hlength.symm
  rw [List.flatten_singleton] at hrows
  rw [hevents, hrows]

/-- Without rows no relation has a statement. -/
theorem relationStatements_noRows {place : Nat} {statements : List Statement}
    (h : (q.relationStatements d policy [])[place]? = some statements) : statements = [] := by
  obtain ⟨fetch, -, rfl⟩ := List.mem_map.1 (List.mem_of_getElem? h)
  rfl

/-- Without rows the load has all that it needed: no relation is asked for. -/
theorem answered_noRows {trace : List Event} (hprimary : eventsFor .primary trace = exchanges .primary [q.primary] [[]])
    (hrelations : ∀ place, eventsFor (.relation place) trace = []) : Answered d policy q trace q.noRows := by
  refine ⟨[], q.batched.map fun _ => [], ?_, List.length_map _, hprimary, ?_⟩
  · rw [CompiledQuery.withFetched, map_zip_map, CompiledQuery.noRows]
  · intro place statements hstatements
    refine ⟨[], congrArg List.length (relationStatements_noRows hstatements), ?_, ?_⟩
    · rw [hrelations, relationStatements_noRows hstatements]
      rfl
    · rw [CompiledQuery.relationStatements, List.getElem?_map] at hstatements
      rw [List.getElem?_map]
      cases hplace : q.batched[place]? with
      | none => rw [hplace] at hstatements; cases hstatements
      | some fetch => rfl

/-- **A step of one relation** keeps what is said of all of them. -/
theorem Moves.tells_relations {place : Nat} {progress next : Progress} {link after : Link (Logged σ)}
    {events trace : List Event} {primary : List Row} {fetches : List Progress}
    (h : Moves storage (.relation place) progress link events next after) (hplace : fetches[place]? = some progress)
    (hnow : (Stage.relations primary fetches).Tells d policy q trace (Explains link trace)) :
    (Stage.relations primary (fetches.set place next)).Tells d policy q (trace ++ events)
      (Explains after (trace ++ events)) := by
  obtain ⟨hprimary, hlength, hfetches⟩ := hnow
  refine ⟨?_, (List.length_set ..).trans hlength, fun other statements current hstatements hcurrent => ?_⟩
  · have hother : Purpose.primary ≠ .relation place := fun heq => by cases heq
    rw [eventsFor_append, hprimary, h.others hother, List.append_nil]
  · by_cases hother : place = other
    · subst hother
      rw [List.getElem?_set_self (List.getElem?_eq_some_iff.1 hplace).1] at hcurrent
      obtain rfl := Option.some.inj hcurrent
      exact h.tells (hfetches place statements progress hstatements hplace)
    · rw [List.getElem?_set_ne hother] at hcurrent
      have hne : Purpose.relation other ≠ .relation place := fun heq => hother (Purpose.relation.inj heq).symm
      rw [eventsFor_append, h.others hne, List.append_nil]
      exact (hfetches other statements current hstatements hcurrent).mono fun e hexplained =>
        hexplained.later h.effect

/-- A relation that has failed has failed for a reason. -/
theorem Stage.Tells.failed {primary : List Row} {fetches : List Progress} {trace : List Event}
    {explained : QueryError → Prop} (h : (Stage.relations primary fetches).Tells d policy q trace explained)
    {e : QueryError} (hfailed : .done (.error e) ∈ fetches) : explained e := by
  obtain ⟨-, hlength, hfetches⟩ := h
  obtain ⟨place, hplace⟩ := List.mem_iff_getElem?.1 hfailed
  have hlt := hlength ▸ (List.getElem?_eq_some_iff.1 hplace).1
  exact hfetches place _ _ (List.getElem?_eq_getElem hlt) hplace

/-- When all relations have succeeded every statement has been answered. -/
theorem Stage.Tells.answered {primary : List Row} {fetched : List (List Row)} {trace : List Event}
    {explained : QueryError → Prop}
    (h : (Stage.relations primary ((fetched.map .ok).map .done)).Tells d policy q trace explained) :
    Answered d policy q trace (q.withFetched primary fetched) := by
  obtain ⟨hprimary, hlength, hfetches⟩ := h
  rw [List.length_map, List.length_map] at hlength
  refine ⟨primary, fetched, rfl, ?_, hprimary, fun place statements hstatements => ?_⟩
  · rw [hlength, CompiledQuery.relationStatements, List.length_map]
  · have hlt : place < fetched.length := hlength ▸ (List.getElem?_eq_some_iff.1 hstatements).1
    have hplace : fetched[place]? = some fetched[place] := List.getElem?_eq_getElem hlt
    have hdone : ((fetched.map Except.ok).map Progress.done)[place]? = some (.done (.ok fetched[place])) := by
      rw [List.getElem?_map, List.getElem?_map, hplace]
      rfl
    obtain ⟨replies, hreplies, hevents, hrows⟩ := hfetches place statements _ hstatements hdone
    exact ⟨replies, hreplies, hevents, hplace.trans (congrArg some hrows)⟩

/-- **One step of a load** keeps what its stage says. -/
theorem Step.tells {now next : Loading σ} {trace events : List Event} (h : Step storage d policy q now events next)
    (hnow : now.stage.Tells d policy q trace (Explains now.link trace)) :
    next.stage.Tells d policy q (trace ++ events) (Explains next.link (trace ++ events)) := by
  cases h with
  | @cancel link stage hlink =>
    refine hnow.mono (fun e hexplained => hexplained.later (.cancel link)) fun purpose => ?_
    rw [eventsFor_append]
    exact List.append_nil _
  | primary hmoves =>
    obtain ⟨hprogress, hrelations⟩ := hnow
    refine ⟨hmoves.tells hprogress, fun place => ?_⟩
    have hother : Purpose.relation place ≠ .primary := fun heq => by cases heq
    rw [eventsFor_append, hrelations, hmoves.others hother]
    rfl
  | refused =>
    rw [List.append_nil]
    exact hnow.1
  | empty =>
    rw [List.append_nil]
    exact answered_noRows hnow.1.single hnow.2
  | @branch link primary =>
    rw [List.append_nil]
    obtain ⟨hprogress, hrelations⟩ := hnow
    refine ⟨hprogress.single, List.length_map _, fun place statements progress hstatements hprogress => ?_⟩
    rw [List.getElem?_map, hstatements] at hprogress
    obtain rfl := Option.some.inj hprogress
    exact ⟨[], [], rfl, rfl, hrelations place, rfl⟩
  | relation hplace _ hmoves => exact hmoves.tells_relations hplace hnow
  | stop _ hfailed =>
    rw [List.append_nil]
    exact hnow.failed hfailed
  | @finish link primary results =>
    rw [List.append_nil]
    cases hall : results.mapM id with
    | error e =>
      obtain ⟨result, hmem, rfl⟩ := exists_of_mapM_error hall
      exact hnow.failed (List.mem_map_of_mem hmem)
    | ok fetched =>
      have heach : results = fetched.map .ok :=
        List.forall₂_eq_eq_eq ▸ List.forall₂_map_right_iff.2 (forall₂_of_mapM_ok hall)
      rw [heach] at hnow
      exact hnow.answered

theorem Run.tells {link : Link (Logged σ)} {trace : List Event} {now : Loading σ}
    (h : Run storage d policy q (begun q link) trace now) :
    now.stage.Tells d policy q trace (Explains now.link trace) := by
  induction h with
  | start => exact ⟨⟨[], [], rfl, rfl, rfl, rfl⟩, fun _ => rfl⟩
  | step _ hstep ih => exact hstep.tells ih

/-! ## The plan's own statement comes first -/

/-- A call for a relation starts after the rows of the plan have come. -/
def RowsFirst (trace : List Event) : Prop :=
  ∀ before later place s, trace = before ++ .sent (.relation place) s :: later →
    ∃ rows, .received .primary (.ok rows) ∈ before

theorem Moves.purpose_of_sent {purpose other : Purpose} {progress next : Progress} {link after : Link (Logged σ)}
    {events : List Event} (h : Moves storage purpose progress link events next after) {s : Statement}
    (hsent : .sent other s ∈ events) : other = purpose := by
  have hinside {before after : Handle} {inside : List Event} (hinside : Inside before inside after)
      (reply : Except QueryError (List Row)) : .sent other s ∉ inside ++ [.received purpose reply] := by
    cases hinside <;> simp
  cases h with
  | send =>
    exact (Event.sent.inj (List.mem_singleton.1 hsent)).1
  | receive _ h => exact absurd hsent (hinside h _)
  | fail _ h => exact absurd hsent (hinside h _)
  | refuse | giveUp | finish => cases hsent

theorem Run.rowsFirst {link : Link (Logged σ)} {trace : List Event} {now : Loading σ}
    (h : Run storage d policy q (begun q link) trace now) : RowsFirst trace := by
  induction h with
  | start =>
    intro before later place s hsplit
    simp at hsplit
  | @step trace events now next hrun hstep ih =>
    intro before later place s hsplit
    rcases append_eq_append_cons hsplit with ⟨between, htrace, -⟩ | ⟨between, rfl, hevents⟩
    · exact ih before between place s htrace
    · -- the call is in the last step, and the stage before it tells of the rows
      have hsent : Event.sent (.relation place) s ∈ events := hevents ▸ by simp
      obtain ⟨rows, hmem⟩ : ∃ rows, Event.received .primary (.ok rows) ∈ trace := by
        have htells := hrun.tells
        cases hstep with
        | cancel => simp at hsent
        | primary hmoves => cases hmoves.purpose_of_sent hsent
        | @relation link after primary =>
          have hrows : Event.received .primary (.ok primary) ∈ exchanges .primary [q.primary] [primary] := by
            simp [exchanges]
          exact ⟨primary, mem_of_eventsFor (htells.1 ▸ hrows)⟩
        | refused | empty | branch | stop | finish => cases hsent
      exact ⟨rows, List.mem_append_left _ hmem⟩

end RowSet

end RelQuery
