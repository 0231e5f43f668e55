/-
Loads that take turns in any order.

What a statement is answered depends on its text and its bound values, so a load comes to the same in whatever order its
relations take turns, and when they are fetched one after another: the rows, or the error of the first failing statement
of the first failing relation (`RowSet.expected`). What is sent depends on the order, and after a failure on the manner
of fetching too: relations that take turns go on where the others stop. A load that succeeds has sent all its statements
and counted all of them; nothing is sent twice and nothing is left (`CompiledQuery.Sends`).
- `RowSet.load_sends`, `RowSet.LoadsInTurns.sends`: what a load that succeeds has sent and counted.
- `RowSet.load_any_order`: the load in turns against the load one after another.
-/
import RelQuery.Proofs.Fetch.Accounts
import RelQuery.Proofs.Lists

namespace RelQuery

variable {σ : Type}

/-! ## Loads in any order -/

/-- the line after the answer to a plan's own statement has been counted -/
def Link.countPrimary (link : Link σ) : Link σ := link.count fun t => { t with primary := t.primary + 1 }

namespace CompiledQuery

/-- the statements that fetch the relations of primary rows -/
def relationStatements (d : Sql.Dialect) (policy : BatchPolicy) (q : CompiledQuery) (primary : List Row) :
    List (List Statement) :=
  q.batched.map fun fetch => fetch.statements d policy primary

/-- the rows of a plan when it has none -/
def noRows (q : CompiledQuery) : RowSet := ⟨q.primary.columns, [], q.batched.map fun fetch => fetch.attach [] []⟩

/-- primary rows with the rows fetched for each relation -/
def withFetched (q : CompiledQuery) (primary : List Row) (fetched : List (List Row)) : RowSet :=
  ⟨q.primary.columns, primary, (q.batched.zip fetched).map fun pair => pair.1.attach primary pair.2⟩

/-- Between two states of a line the plan has been loaded: first its own statement was sent, then those of the relations
of its rows, each relation's in their order, and all of it has been counted. -/
def Sends (d : Sql.Dialect) (policy : BatchPolicy) (q : CompiledQuery) (primary : List Row)
    (link after : Link (Logged σ)) : Prop :=
  ∃ requests, Interleaves
      ((q.relationStatements d policy primary).map fun statements => statements.map Statement.request) requests ∧
    link.countPrimary.Sends after (q.primary.request :: requests) requests.length

/-- Without rows no relation has a statement. -/
theorem interleaves_noRows (d : Sql.Dialect) (policy : BatchPolicy) (q : CompiledQuery) :
    Interleaves ((q.relationStatements d policy []).map fun statements => statements.map Statement.request) [] := by
  apply Interleaves.nil
  intro items hitems
  obtain ⟨statements, hstatements, rfl⟩ := List.mem_map.1 hitems
  obtain ⟨fetch, -, rfl⟩ := List.mem_map.1 hstatements
  rfl

end CompiledQuery

theorem Link.Sends.countPrimary {link after : Link (Logged σ)} {requests : List Request} {counted : Nat}
    (h : link.Sends after requests counted) : link.countPrimary.Sends after.countPrimary requests counted :=
  ⟨h.sent, congrArg (fun t : Traffic => { t with primary := t.primary + 1 }) h.traffic⟩

namespace RowSet

/-- what a load comes to when each statement has its answer: the rows, or the error of the plan's own statement, or else
of the first failing statement of the first failing relation -/
def expected (answer : Statement → Except QueryError (List Row)) (d : Sql.Dialect) (policy : BatchPolicy)
    (q : CompiledQuery) : Except QueryError RowSet :=
  (answer q.primary).bind fun primary =>
    if primary.isEmpty then .ok q.noRows
    else ((q.relationStatements d policy primary).mapM (gather answer)).map (q.withFetched primary)

/-- how a load ends whose relations take turns, in whatever order, until each of them is at its end -/
inductive LoadsInTurns (storage : Storage σ) (d : Sql.Dialect) (policy : BatchPolicy) (q : CompiledQuery)
    (link : Link σ) : Except QueryError RowSet → Link σ → Prop where
  | refused {e : QueryError} {after : Link σ} : Link.read storage q.primary link = (.error e, after) →
    LoadsInTurns storage d policy q link (.error e) after
  | empty {after : Link σ} : Link.read storage q.primary link = (.ok [], after) →
    LoadsInTurns storage d policy q link (.ok q.noRows) after.countPrimary
  | fetched {primary : List Row} {middle after : Link σ} (order : List Nat) {fetches : List Progress} :
    Link.read storage q.primary link = (.ok primary, middle) → primary ≠ [] →
    Turns.run storage order ((q.relationStatements d policy primary).map (.ready · [])) middle.countPrimary =
      (fetches, after) →
    (∀ progress ∈ fetches, progress.left = 0) →
    LoadsInTurns storage d policy q link (((fetches.map Progress.result).mapM id).map (q.withFetched primary)) after

/-- A load is its primary read, and then what its relations come to. -/
theorem load_run (storage : Storage σ) (d : Sql.Dialect) (policy : BatchPolicy) (q : CompiledQuery) (link : Link σ) :
    load storage d policy q link =
      match Link.read storage q.primary link with
      | (.error e, middle) => (.error e, middle)
      | (.ok primary, middle) =>
        if primary.isEmpty then (.ok q.noRows, middle.countPrimary)
        else
          let (result, after) :=
            fetchRelations storage policy (q.relationStatements d policy primary) middle.countPrimary
          (result.map (q.withFetched primary), after) := by
  rw [load, LinkM.bind_run]
  rcases Link.read storage q.primary link with ⟨_ | primary, middle⟩
  · rfl
  · dsimp only
    rw [LinkM.bind_run]
    change (if primary.isEmpty then _ else _ : LinkM σ RowSet) middle.countPrimary = _
    split
    · next hempty =>
      obtain rfl := List.isEmpty_iff.1 hempty
      rfl
    · rw [LinkM.bind_run]
      unfold CompiledQuery.relationStatements
      split <;> next hfetched => rw [hfetched]; rfl

theorem length_mapM {α β : Type} {step : α → LinkM σ β} : {xs : List α} → ∀ {ys : List β} {link after : Link σ},
    xs.mapM step link = (.ok ys, after) → ys.length = xs.length
  | [], ys, link, after, h => by
    cases h
    rfl
  | x :: rest, ys, link, after, h => by
    rw [List.mapM_cons, LinkM.bind_run] at h
    rcases hx : step x link with ⟨_ | y, middle⟩
    · rw [hx] at h
      cases h
    · simp only [hx, LinkM.bind_run] at h
      rcases hrest : rest.mapM step middle with ⟨_ | more, last⟩
      · rw [hrest] at h
        cases h
      · rw [hrest] at h
        cases h
        rw [List.length_cons, List.length_cons, length_mapM hrest]

theorem length_run (storage : Storage σ) (order : List Nat) (fetches : List Progress) (link : Link σ) :
    (Turns.run storage order fetches link).1.length = fetches.length := by
  induction order generalizing fetches link with
  | nil => rfl
  | cons place order ih =>
    rw [Turns.run, ih, Turns.turnAt]
    split
    · rfl
    · exact List.length_set

/-- In either manner of fetching, each relation has rows of its own. -/
theorem length_fetchRelations {storage : Storage σ} {policy : BatchPolicy} {relations : List (List Statement)}
    {fetched : List (List Row)} {link after : Link σ}
    (h : fetchRelations storage policy relations link = (.ok fetched, after)) : fetched.length = relations.length := by
  unfold fetchRelations at h
  split at h
  · obtain ⟨hresults, -⟩ := Prod.mk.inj h
    rw [← (forall₂_of_mapM_ok hresults).length_eq]
    exact (List.length_map _).trans ((length_run ..).trans (List.length_map _))
  · exact length_mapM h

/-- What a load that succeeds has come to: primary rows with rows for each relation. -/
theorem load_withFetched {storage : Storage σ} {d : Sql.Dialect} {policy : BatchPolicy} {q : CompiledQuery}
    {link after : Link σ} {set : RowSet} (h : load storage d policy q link = (.ok set, after)) :
    ∃ primary fetched, fetched.length = q.batched.length ∧ set = q.withFetched primary fetched := by
  rw [load_run] at h
  split at h
  · cases h
  · next primary middle hread =>
    split at h
    · cases h
      refine ⟨[], q.batched.map fun _ => [], by simp, ?_⟩
      rw [CompiledQuery.withFetched, map_zip_map, CompiledQuery.noRows]
    · rcases hfetched : fetchRelations storage policy (q.relationStatements d policy primary) middle.countPrimary with
        ⟨_ | fetched, last⟩
      · rw [hfetched] at h
        cases h
      · rw [hfetched] at h
        cases h
        refine ⟨primary, fetched, ?_, rfl⟩
        rw [length_fetchRelations hfetched, CompiledQuery.relationStatements, List.length_map]

/-- The load of a plan with relations fetched side by side takes turns. -/
theorem load_turns (storage : Storage σ) (d : Sql.Dialect) (batchSize : Nat) (q : CompiledQuery) (link : Link σ) :
    LoadsInTurns storage d ⟨batchSize, true⟩ q link (load storage d ⟨batchSize, true⟩ q link).1
      (load storage d ⟨batchSize, true⟩ q link).2 := by
  rw [load_run]
  split
  · next e middle hread => exact .refused hread
  · next primary middle hread =>
    split
    · next hempty =>
      obtain rfl := List.isEmpty_iff.1 hempty
      exact .empty hread
    · next hprimary =>
      have hleft := Turns.left_around storage
        ((q.relationStatements d ⟨batchSize, true⟩ primary).map (.ready · [])) middle.countPrimary
      exact .fetched _ hread (fun h => hprimary (List.isEmpty_iff.2 h)) rfl hleft

section Answered

variable {storage : Storage σ} {answer : Statement → Except QueryError (List Row)} {d : Sql.Dialect}
  {policy : BatchPolicy} {q : CompiledQuery}

/-- What a read that is not cut off has come to. -/
theorem answer_of_read {s : Statement} {link middle : Link σ} {result : Except QueryError (List Row)}
    (hread : Link.read storage s link = (result, middle)) (hgives : storage.Gives s (answer s))
    (hlink : link.handle.Steady storage) : result = answer s ∧ middle.handle.Steady storage := by
  rw [Link.read_steady hlink, hgives] at hread
  cases hread
  exact ⟨rfl, hlink⟩

/-- One relation after another, a load comes to what is expected. -/
theorem load_expected {link : Link σ} (hgives : ∀ s, storage.Gives s (answer s)) (hlink : link.handle.Steady storage) :
    (load storage d policy q link).1 = expected answer d policy q := by
  rw [load_run, Link.read_steady hlink, hgives q.primary link.storage, expected]
  cases answer q.primary with
  | error e => rfl
  | ok primary =>
    dsimp only [Except.bind]
    split
    · rfl
    · have hsteady : (Link.countPrimary
          { link with storage := (storage.read q.primary.request link.storage).2 }).handle.Steady storage := hlink
      obtain ⟨after, hafter, -⟩ := fetchRelations_ends policy (fun _ _ s _ => hgives s) hsteady
      rw [hafter]

/-- In any order of turns, a load comes to what is expected. -/
theorem LoadsInTurns.expected {link after : Link σ} {result : Except QueryError RowSet}
    (h : LoadsInTurns storage d policy q link result after) (hgives : ∀ s, storage.Gives s (answer s))
    (hlink : link.handle.Steady storage) : result = RowSet.expected answer d policy q := by
  rw [RowSet.expected]
  cases h with
  | refused hread => rw [← (answer_of_read hread (hgives _) hlink).1]; rfl
  | empty hread => rw [← (answer_of_read hread (hgives _) hlink).1]; rfl
  | @fetched primary middle _ order fetches hread hne hrun hleft =>
    obtain ⟨hanswer, hmiddle⟩ := answer_of_read hread (hgives _) hlink
    have hsteady : middle.countPrimary.handle.Steady storage := hmiddle
    obtain ⟨hresults, -⟩ := Turns.results_of_left order (fun _ _ s _ => hgives s) hsteady (by rw [hrun]; exact hleft)
    rw [hrun] at hresults
    rw [hresults, ← hanswer, Except.bind, if_neg fun hempty => hne (List.isEmpty_iff.1 hempty)]

end Answered

section Sent

variable {storage : Storage σ} {d : Sql.Dialect} {policy : BatchPolicy} {q : CompiledQuery}
  {link after : Link (Logged σ)} {rows : RowSet}

/-- Fetches that have taken turns until all of them have succeeded are done. -/
theorem done_of_left {fetches : List Progress} {all : List (List Row)} (hleft : ∀ progress ∈ fetches, progress.left = 0)
    (hall : (fetches.map Progress.result).mapM id = .ok all) :
    ∀ progress ∈ fetches, ∃ rows, progress = .done (.ok rows) := by
  intro progress hprogress
  obtain ⟨rows, -, hrows⟩ := exists_of_mapM_ok hall (List.mem_map_of_mem hprogress)
  have hdone := hleft progress hprogress
  cases progress with
  | ready statements before => cases hdone
  | waiting reply statements before => cases hdone
  | done result => exact ⟨rows, congrArg Progress.done hrows⟩

/-- Relations that take turns until all of them have succeeded send and count all their statements. -/
theorem turns_sends {relations : List (List Statement)} {order : List Nat} {fetches : List Progress}
    (hrun : Turns.run storage.logged order (relations.map (.ready · [])) link = (fetches, after))
    (hleft : ∀ progress ∈ fetches, progress.left = 0) {all : List (List Row)}
    (hall : (fetches.map Progress.result).mapM id = .ok all) :
    ∃ requests, Interleaves (relations.map fun statements => statements.map Statement.request) requests ∧
      link.Sends after requests requests.length := by
  have hdone : ∀ progress ∈ (Turns.run storage.logged order (relations.map (.ready · [])) link).1,
      ∃ rows, progress = .done (.ok rows) := by
    rw [hrun]
    exact done_of_left hleft hall
  obtain ⟨requests, hrequests, hsends⟩ := Turns.run_sends order hdone
  have hawaited : Turns.awaited (relations.map (.ready · [])) = 0 := by
    rw [Turns.awaited, List.map_map]
    exact List.sum_eq_zero fun n hn => by
      obtain ⟨statements, -, rfl⟩ := List.mem_map.1 hn
      rfl
  rw [hawaited, hrun] at hsends
  refine ⟨requests, ?_, hsends⟩
  rwa [Turns.requests, List.map_map] at hrequests

/-- A load that succeeds in turns has sent and counted everything. -/
theorem LoadsInTurns.sends (h : LoadsInTurns storage.logged d policy q link (.ok rows) after) :
    q.Sends d policy rows.rows link after := by
  generalize hresult : Except.ok rows = result at h
  cases h with
  | refused hread => cases hresult
  | empty hread =>
    obtain rfl := Except.ok.inj hresult
    have hread' := (Link.read_sends storage q.primary _ _ _ hread).countPrimary
    exact ⟨[], q.interleaves_noRows d policy, hread'⟩
  | @fetched primary middle _ order fetches hread hne hrun hleft =>
    have hread' := (Link.read_sends storage q.primary _ _ _ hread).countPrimary
    cases hall : (fetches.map Progress.result).mapM id with
    | error e => rw [hall] at hresult; cases hresult
    | ok all =>
      rw [hall] at hresult
      obtain rfl := Except.ok.inj hresult
      obtain ⟨requests, hrequests, hsends⟩ := turns_sends hrun hleft hall
      refine ⟨requests, hrequests, ?_⟩
      have hboth := hread'.trans hsends
      rwa [Nat.zero_add] at hboth

/-- A load that succeeds with one relation after another has sent and counted everything. -/
theorem load_alone_sends {batchSize : Nat} (h : load storage.logged d ⟨batchSize, false⟩ q link = (.ok rows, after)) :
    q.Sends d ⟨batchSize, false⟩ rows.rows link after := by
  rw [load_run] at h
  split at h
  · cases h
  · next primary middle hread =>
    have hread' := (Link.read_sends storage q.primary _ _ _ hread).countPrimary
    split at h
    · next hempty =>
      obtain ⟨hrows, rfl⟩ := Prod.mk.inj h
      obtain rfl := Except.ok.inj hrows
      exact ⟨[], q.interleaves_noRows d _, hread'⟩
    · split at h
      next result last hfetched =>
      obtain ⟨hrows, rfl⟩ := Prod.mk.inj h
      cases result with
      | error e => cases hrows
      | ok fetched =>
        obtain rfl := Except.ok.inj hrows
        have hsends := LinkM.Sends.mapM (fetchRelation_sends storage) _ _ _ _ hfetched
        have hboth := hread'.trans hsends
        rw [Nat.zero_add] at hboth
        exact ⟨_, Interleaves.flatten _, hboth⟩

/-- A load that succeeds has sent and counted everything, in either manner of fetching. -/
theorem load_sends (h : load storage.logged d policy q link = (.ok rows, after)) :
    q.Sends d policy rows.rows link after := by
  obtain ⟨batchSize, _ | _⟩ := policy
  · exact load_alone_sends h
  · have hturns := load_turns storage.logged d batchSize q link
    rw [h] at hturns
    exact hturns.sends

/-- **In any order of turns a load that succeeds sends and counts what it does one relation after another.** -/
theorem LoadsInTurns.same_sent {batchSize : Nat}
    (h : LoadsInTurns storage.logged d ⟨batchSize, true⟩ q link (.ok rows) after) {alone : Link (Logged σ)}
    (halone : load storage.logged d ⟨batchSize, false⟩ q link = (.ok rows, alone)) :
    after.storage.sent.Perm alone.storage.sent ∧ after.traffic = alone.traffic := by
  obtain ⟨requests, hrequests, hsends⟩ := h.sends
  obtain ⟨others, hothers, hsends'⟩ := load_sends halone
  have hperm : requests.Perm others := hrequests.perm.trans hothers.perm.symm
  constructor
  · rw [hsends.sent, hsends'.sent]
    exact (hperm.cons _).append_left _
  · rw [hsends.traffic, hsends'.traffic, hperm.length_eq]

end Sent

/-- **Loads in turns and one after another agree.** When what a statement is answered depends on its text and its bound
values, and nothing is cancelled, the load that fetches relations side by side takes turns in some order; in whatever
order they take turns, and whichever replies are late, the load comes to what it comes to with one relation after another:
the rows, or the error of the first failing statement of the first failing relation. When it succeeds, the same statements
have been sent, each as often, and the same has been counted. -/
theorem load_any_order (storage : Storage σ) (answer : Request → Except StorageError (List Row))
    (hanswer : ∀ request state, (storage.read request state).1.result = answer request) (d : Sql.Dialect)
    (batchSize : Nat) (q : CompiledQuery) (link : Link (Logged σ)) (hlink : link.handle.Steady storage.logged) :
    LoadsInTurns storage.logged d ⟨batchSize, true⟩ q link
      (load storage.logged d ⟨batchSize, true⟩ q link).1 (load storage.logged d ⟨batchSize, true⟩ q link).2 ∧
    ∀ result after, LoadsInTurns storage.logged d ⟨batchSize, true⟩ q link result after →
      result = (load storage.logged d ⟨batchSize, false⟩ q link).1 ∧
      result = expected (fun s => liftStorage (answer s.request)) d ⟨batchSize, false⟩ q ∧
      ∀ rows, result = .ok rows →
        after.storage.sent.Perm (load storage.logged d ⟨batchSize, false⟩ q link).2.storage.sent ∧
        after.traffic = (load storage.logged d ⟨batchSize, false⟩ q link).2.traffic := by
  have hgives : ∀ s, storage.logged.Gives s (liftStorage (answer s.request)) :=
    fun s state => congrArg liftStorage (hanswer s.request state.inner)
  refine ⟨load_turns storage.logged d batchSize q link, fun result after h => ?_⟩
  have halone : (load storage.logged d ⟨batchSize, false⟩ q link).1 =
      expected (fun s => liftStorage (answer s.request)) d ⟨batchSize, false⟩ q := load_expected hgives hlink
  have hresult := h.expected hgives hlink
  refine ⟨hresult.trans halone.symm, hresult, fun rows hrows => ?_⟩
  subst hrows
  exact h.same_sent (Prod.ext (halone.trans hresult.symm) rfl)

/-- two books with their pages, by number; two of the pages may be broken -/
def sampleAnswer (broken : Bool) (request : Request) : Except StorageError (List Row) :=
  match broken, request.params with
  | _, [] => .ok [[.int 1, .int 3], [.int 2, .int 4]]
  | true, [.int 2] => .error (.backend "page 2 is broken")
  | true, [.int 3] => .error (.backend "page 3 is broken")
  | _, page => .ok [page]

/-- a storage whose replies are all late -/
def sampleLate (broken : Bool) : Storage Unit where
  read request state := (⟨sampleAnswer broken request, some .inFlight⟩, state)
  write _ state := (⟨.ok 0, none⟩, state)

def sampleFetch (relation : String) (localIndex : Nat) : BatchFetch where
  relation := relation
  cardinality := .toOne
  target := "page"
  localKey := relation
  localIndex := localIndex
  remoteKey := "id"
  keyIndex := 0
  columns := []
  query := Sql.Query.selecting [⟨.columnOf "t0" "id", none⟩]
  keyColumn := .columnOf "t0" "id"

def samplePages : CompiledQuery :=
  ⟨⟨"SELECT cover, index", [], []⟩, [sampleFetch "cover" 0, sampleFetch "index" 1], .mapping []⟩

def sampleLine : Link (Logged Unit) := ⟨⟨(), []⟩, .unshared, {}⟩

/-- With one page to a statement and all replies late, the two relations alternate; the four statements are those sent
when the second relation follows the first. Of two broken pages the one that counts belongs to the first relation,
though the other reply was there earlier. -/
theorem load_any_order_late :
    (let aside := load (sampleLate false).logged .sqlite ⟨1, true⟩ samplePages sampleLine
    let alone := load (sampleLate false).logged .sqlite ⟨1, false⟩ samplePages sampleLine
    (∃ rows, aside.1 = .ok rows) ∧ aside.1 = alone.1 ∧
      aside.2.storage.sent.map Request.params = [[], [.int 1], [.int 3], [.int 2], [.int 4]] ∧
      alone.2.storage.sent.map Request.params = [[], [.int 1], [.int 2], [.int 3], [.int 4]] ∧
      aside.2.storage.sent.Perm alone.2.storage.sent ∧ aside.2.traffic = alone.2.traffic) ∧
    (let aside := load (sampleLate true).logged .sqlite ⟨1, true⟩ samplePages sampleLine
    let alone := load (sampleLate true).logged .sqlite ⟨1, false⟩ samplePages sampleLine
    aside.1 = .error (.storage (.backend "page 2 is broken")) ∧ aside.1 = alone.1) := by
  obtain ⟨hturns, hall⟩ := load_any_order (sampleLate false) (sampleAnswer false) (fun _ _ => rfl) .sqlite 1 samplePages
    sampleLine (.inl rfl)
  obtain ⟨hsame, -, hsent⟩ := hall _ _ hturns
  obtain ⟨hfailing, hfailed⟩ := load_any_order (sampleLate true) (sampleAnswer true) (fun _ _ => rfl) .sqlite 1 samplePages
    sampleLine (.inl rfl)
  exact ⟨⟨⟨_, rfl⟩, hsame, rfl, rfl, hsent _ rfl⟩, rfl, (hfailed _ _ hfailing).1⟩

end RowSet

end RelQuery
