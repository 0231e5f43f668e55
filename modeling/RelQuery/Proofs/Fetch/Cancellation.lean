/-
Cancellation at any moment of a load.

Whatever the moments are at which replies come and the handle is cancelled, no call starts under a cancelled handle, what
is counted are the replies with rows, and a load that succeeds has been given the rows of every statement it needed
(`Respects`).
- `Hosts`: statements go on in the same way for the plan and for each of its relations.
- `load_is_run`: the load that takes the moments from its storage is among these loads.
- `load_respects_cancellation`: every load, and every moment.
-/
import RelQuery.Proofs.Fetch.Traces

namespace RelQuery

variable {σ : Type}

namespace RowSet

variable {storage : Storage σ} {d : Sql.Dialect} {policy : BatchPolicy} {q : CompiledQuery}

/-! ## The load that takes its moments from the storage -/

/-- some steps lead from one state of a load to another -/
def Reaches (storage : Storage σ) (d : Sql.Dialect) (policy : BatchPolicy) (q : CompiledQuery)
    (now next : Loading σ) : Prop :=
  ∃ trace, Run storage d policy q now trace next

namespace Reaches

variable {now middle next : Loading σ}

theorem refl (now : Loading σ) : Reaches storage d policy q now now := ⟨[], .start⟩

theorem step {events : List Event} (h : Reaches storage d policy q now middle)
    (hstep : Step storage d policy q middle events next) : Reaches storage d policy q now next :=
  h.elim fun _ hrun => ⟨_, hrun.step hstep⟩

theorem trans (h : Reaches storage d policy q now middle) (h' : Reaches storage d policy q middle next) :
    Reaches storage d policy q now next := by
  obtain ⟨trace, hrun⟩ := h'
  induction hrun with
  | start => exact h
  | step _ hstep ih => exact ih.step hstep

/-- An attempt to cancel: it changes a handle that somebody else has. -/
theorem cancel (link : Link (Logged σ)) (stage : Stage) :
    Reaches storage d policy q ⟨link, stage⟩ ⟨{ link with handle := link.handle.cancel }, stage⟩ := by
  cases hhandle : link.handle with
  | unshared =>
    have hsame : { link with handle := Handle.unshared.cancel } = link := by rw [Handle.cancel, ← hhandle]
    rw [hsame]
    exact refl _
  | live | cancelled => exact (refl _).step (.cancel (by rw [hhandle]; nofun))

end Reaches

/-- a place of a load at which statements for one purpose go on -/
def Hosts (storage : Storage σ) (d : Sql.Dialect) (policy : BatchPolicy) (q : CompiledQuery) (purpose : Purpose)
    (stage : Progress → Stage) : Prop :=
  ∀ {progress next : Progress} {link after : Link (Logged σ)} {events : List Event},
    Moves storage purpose progress link events next after →
      Step storage d policy q ⟨link, stage progress⟩ events ⟨after, stage next⟩

/-- statements after a reply: the rows are kept and counted, an error is the end -/
def settled (purpose : Purpose) (rest : List Statement) (rows : List Row) (stage : Progress → Stage) :
    Except QueryError (List Row) → Link (Logged σ) → Loading σ
  | .ok more, link => ⟨link.count purpose.count, stage (.ready rest (rows ++ more))⟩
  | .error e, link => ⟨link, stage (.done (.error e))⟩

theorem hosts_primary : Hosts storage d policy q .primary .primary := fun h => .primary h

theorem hosts_relation {fetches : List Progress} {place : Nat} (hplace : place < fetches.length)
    (hadmits : Admits policy fetches place) (primary : List Row) :
    Hosts storage d policy q (.relation place) fun progress => .relations primary (fetches.set place progress) := by
  intro progress next link after events hmoves
  have hadmits' : Admits policy (fetches.set place progress) place := by
    refine hadmits.imp_right fun hearlier earlier hlt => ?_
    rw [List.getElem?_set_ne hlt.ne']
    exact hearlier earlier hlt
  have hstep : Step storage d policy q ⟨link, .relations primary (fetches.set place progress)⟩ events
      ⟨after, .relations primary ((fetches.set place progress).set place next)⟩ :=
    .relation (List.getElem?_set_self hplace) hadmits' hmoves
  rwa [List.set_set] at hstep

namespace Hosts

variable {purpose : Purpose} {stage : Progress → Stage}

/-- A reply that is there is taken, whatever happens to the handle inside the call. -/
theorem take (h : Hosts storage d policy q purpose stage) (rest : List Statement) (rows : List Row)
    {link : Link (Logged σ)} (hlink : link.handle ≠ .cancelled) {inside : List Event} {handle : Handle}
    (hinside : Inside link.handle inside handle) (reply : Except QueryError (List Row)) :
    Reaches storage d policy q ⟨link, stage (.waiting reply rest rows)⟩
      (settled purpose rest rows stage reply { link with handle := handle }) := by
  cases reply with
  | ok more => exact (Reaches.refl _).step (h (.receive hlink hinside))
  | error e => exact (Reaches.refl _).step (h (.fail hlink hinside))

/-- A statement is sent, and its reply comes at once or is awaited. -/
theorem send (h : Hosts storage d policy q purpose stage) (s : Statement) (rest : List Statement) (rows : List Row)
    (link : Link (Logged σ)) :
    Reaches storage d policy q ⟨link, stage (.ready (s :: rest) rows)⟩
      (match link.send storage.logged s with
        | (.answered reply, after) => settled purpose rest rows stage reply after
        | (.awaited reply, after) => ⟨after, stage (.waiting reply rest rows)⟩) := by
  by_cases hlink : link.handle = .cancelled
  · rw [Link.send_cancelled _ _ _ hlink]
    exact (Reaches.refl _).step (h (.refuse hlink))
  · let called : Link (Logged σ) := { link with storage := (storage.logged.read s.request link.storage).2 }
    let reply := liftStorage (storage.logged.read s.request link.storage).1.result
    have hsent : Reaches storage d policy q ⟨link, stage (.ready (s :: rest) rows)⟩
        ⟨called, stage (.waiting reply rest rows)⟩ := (Reaches.refl _).step (h (.send hlink))
    have hcalled : called.handle ≠ .cancelled := hlink
    rw [Link.send, if_neg hlink]
    dsimp only
    cases (storage.logged.read s.request link.storage).1.interruption with
    | none => exact hsent.trans (h.take rest rows hcalled (.quiet _) reply)
    | some interruption =>
      cases interruption with
      | afterReply =>
        obtain ⟨inside, hinside⟩ : ∃ inside, Inside called.handle inside called.handle.cancel := by
          cases hhandle : called.handle with
          | unshared => exact ⟨[], .quiet _⟩
          | live => exact ⟨_, .cancelled⟩
          | cancelled => exact absurd hhandle hcalled
        exact hsent.trans (h.take rest rows hcalled hinside reply)
      | inFlight => exact hsent.trans (.cancel called _)

/-- A reply that was awaited is taken, or given up. -/
theorem receive (h : Hosts storage d policy q purpose stage) (reply : Except QueryError (List Row))
    (rest : List Statement) (rows : List Row) (link : Link (Logged σ)) :
    Reaches storage d policy q ⟨link, stage (.waiting reply rest rows)⟩
      (settled purpose rest rows stage (link.receive reply) link) := by
  by_cases hlink : link.handle = .cancelled
  · rw [Link.receive, if_pos hlink]
    exact (Reaches.refl _).step (h (.giveUp hlink))
  · rw [Link.receive, if_neg hlink]
    exact h.take rest rows hlink (.quiet _) reply

/-- A statement is read to its end. -/
theorem read (h : Hosts storage d policy q purpose stage) (s : Statement) (rest : List Statement) (rows : List Row)
    {link after : Link (Logged σ)} {result : Except QueryError (List Row)}
    (hread : Link.read storage.logged s link = (result, after)) :
    Reaches storage d policy q ⟨link, stage (.ready (s :: rest) rows)⟩ (settled purpose rest rows stage result after) := by
  have hsend := h.send s rest rows link
  have hstep : Link.readStep storage.logged s link = (result, after) := hread
  rw [Link.readStep] at hstep
  split at hstep
  · next heq =>
    rw [heq] at hsend
    cases hstep
    exact hsend
  · next heq =>
    rw [heq] at hsend
    cases hstep
    exact hsend.trans (h.receive _ rest rows _)

/-- The statements of a relation go on until a reply is late. -/
theorem sendAll {place : Nat} (h : Hosts storage d policy q (.relation place) stage) (statements : List Statement)
    (rows : List Row) (link : Link (Logged σ)) :
    Reaches storage d policy q ⟨link, stage (.ready statements rows)⟩
      ⟨(Progress.sendAll storage.logged statements rows link).2,
        stage (Progress.sendAll storage.logged statements rows link).1⟩ := by
  induction statements generalizing rows link with
  | nil => exact (Reaches.refl _).step (h .finish)
  | cons s rest ih =>
    have hsend := h.send s rest rows link
    rw [Progress.sendAll]
    split
    · next heq =>
      rw [heq] at hsend
      exact hsend
    · next heq =>
      rw [heq] at hsend
      exact hsend
    · next heq =>
      rw [heq] at hsend
      exact hsend.trans (ih _ _)

/-- a turn of a relation -/
theorem turn {place : Nat} (h : Hosts storage d policy q (.relation place) stage) (progress : Progress)
    (link : Link (Logged σ)) :
    Reaches storage d policy q ⟨link, stage progress⟩
      ⟨(progress.turn storage.logged link).2, stage (progress.turn storage.logged link).1⟩ := by
  cases progress with
  | ready statements rows => exact h.sendAll statements rows link
  | waiting reply rest rows =>
    have hreceive := h.receive reply rest rows link
    rw [Progress.turn]
    split
    · next heq =>
      rw [heq] at hreceive
      exact hreceive
    · next heq =>
      rw [heq] at hreceive
      exact hreceive.trans (h.sendAll _ _ _)
  | done result => exact .refl _

/-- One statement after another is read to its end. -/
theorem readAll {place : Nat} (h : Hosts storage d policy q (.relation place) stage) (statements : List Statement)
    (rows : List Row) {link after : Link (Logged σ)} {result : Except QueryError (List (List Row))}
    (hread : statements.mapM (readBatch storage.logged) link = (result, after)) :
    Reaches storage d policy q ⟨link, stage (.ready statements rows)⟩
      ⟨after, stage (.done (result.map fun pieces => rows ++ pieces.flatten))⟩ := by
  induction statements generalizing rows link result with
  | nil =>
    rw [List.mapM_nil] at hread
    cases hread
    have hrows : rows ++ [].flatten = rows := List.append_nil rows
    rw [Except.map, hrows]
    exact (Reaches.refl _).step (h .finish)
  | cons s rest ih =>
    rw [List.mapM_cons, LinkM.bind_run, readBatch, LinkM.bind_run] at hread
    rcases hfirst : Link.read storage.logged s link with ⟨e | more, middle⟩
    · rw [hfirst] at hread
      cases hread
      exact h.read s rest rows hfirst
    · have hcounted : (do Link.recordSecondary; return more : LinkM (Logged σ) (List Row)) middle =
        (.ok more, middle.count Traffic.addSecondary) := rfl
      rw [hfirst] at hread
      dsimp only at hread
      rw [hcounted] at hread
      dsimp only at hread
      rw [LinkM.bind_run] at hread
      rcases hrest : rest.mapM (readBatch storage.logged) (middle.count Traffic.addSecondary) with ⟨e | pieces, last⟩
      · rw [hrest] at hread
        cases hread
        exact (h.read s rest rows hfirst).trans (ih (rows ++ more) hrest)
      · rw [hrest] at hread
        cases hread
        have hall := (h.read s rest rows hfirst).trans (ih (rows ++ more) hrest)
        rw [Except.map, List.append_assoc] at hall
        exact hall

/-- a relation by itself -/
theorem fetch {place : Nat} (h : Hosts storage d policy q (.relation place) stage) {statements : List Statement}
    {link after : Link (Logged σ)} {result : Except QueryError (List Row)}
    (hfetch : fetchRelation storage.logged statements link = (result, after)) :
    Reaches storage d policy q ⟨link, stage (.ready statements [])⟩ ⟨after, stage (.done result)⟩ := by
  rw [fetchRelation, LinkM.bind_run] at hfetch
  rcases hall : statements.mapM (readBatch storage.logged) link with ⟨e | pieces, last⟩
  · rw [hall] at hfetch
    cases hfetch
    exact h.readAll statements [] hall
  · rw [hall] at hfetch
    cases hfetch
    exact h.readAll statements [] hall

end Hosts

/-- Relations side by side take turns. -/
theorem reaches_turns (primary : List Row) (hconcurrent : policy.concurrent = true) (order : List Nat)
    (fetches : List Progress) (link : Link (Logged σ)) :
    Reaches storage d policy q ⟨link, .relations primary fetches⟩
      ⟨(Turns.run storage.logged order fetches link).2,
        .relations primary (Turns.run storage.logged order fetches link).1⟩ := by
  induction order generalizing fetches link with
  | nil => exact .refl _
  | cons place order ih =>
    have hturn : Reaches storage d policy q ⟨link, .relations primary fetches⟩
        ⟨(Turns.turnAt storage.logged place fetches link).2,
          .relations primary (Turns.turnAt storage.logged place fetches link).1⟩ := by
      cases hplace : fetches[place]? with
      | none =>
        rw [Turns.turnAt_none hplace]
        exact .refl _
      | some progress =>
        obtain ⟨hlt, rfl⟩ := List.getElem?_eq_some_iff.1 hplace
        have hhosts : Hosts storage d policy q (.relation place) _ := hosts_relation hlt (.inl hconcurrent) primary
        have hone := hhosts.turn fetches[place] link
        rw [List.set_getElem_self] at hone
        rwa [Turns.turnAt_some hplace]
    exact hturn.trans (ih _ _)

/-- Fetches that have nothing left to do are done. -/
theorem eq_done_of_left {fetches : List Progress} (h : ∀ progress ∈ fetches, progress.left = 0) :
    fetches = (fetches.map Progress.result).map .done := by
  rw [List.map_map]
  refine (List.map_id fetches).symm.trans (List.map_congr_left fun progress hprogress => ?_)
  have hleft := h progress hprogress
  cases progress with
  | ready statements rows => cases hleft
  | waiting reply statements rows => cases hleft
  | done result => rfl

/-- Relations side by side end when all of them are done. -/
theorem reaches_sideBySide (primary : List Row) (hconcurrent : policy.concurrent = true)
    (relations : List (List Statement)) (link : Link (Logged σ)) :
    Reaches storage d policy q ⟨link, .relations primary (relations.map (.ready · []))⟩
      ⟨(fetchSideBySide storage.logged relations link).2,
        .ended ((fetchSideBySide storage.logged relations link).1.map (q.withFetched primary))⟩ := by
  let fetches : List Progress := relations.map (.ready · [])
  let order := Turns.around fetches.length (Turns.rounds fetches)
  have hturns : Reaches storage d policy q ⟨link, .relations primary fetches⟩ _ :=
    reaches_turns primary hconcurrent order fetches link
  rw [eq_done_of_left (Turns.left_around storage.logged fetches link)] at hturns
  exact hturns.step .finish

theorem mapM_id_ok (fetched : List (List Row)) :
    (fetched.map (Except.ok : _ → Except QueryError (List Row))).mapM id = .ok fetched := by
  rw [List.mapM_map]
  exact List.mapM_pure.trans (congrArg _ (List.map_id fetched))

/-- the first relations have succeeded with these rows, and these are the others -/
def succeeded (before : List (List Row)) (others : List Progress) : List Progress :=
  (before.map .ok).map .done ++ others

theorem succeeded_snoc (before : List (List Row)) (rows : List Row) (others : List Progress) :
    succeeded before (.done (.ok rows) :: others) = succeeded (before ++ [rows]) others := by
  unfold succeeded
  rw [List.map_append, List.map_append, List.append_assoc]
  rfl

/-- After relations that have succeeded the next one may go on. -/
theorem hosts_next (primary : List Row) (before : List (List Row)) (progress : Progress) (others : List Progress) :
    Hosts storage d policy q (.relation before.length) fun next =>
      .relations primary (succeeded before (next :: others)) := by
  have hlength : ((before.map Except.ok).map Progress.done).length = before.length := by
    rw [List.length_map, List.length_map]
  have hplace : before.length < (succeeded before (progress :: others)).length := by
    rw [succeeded, List.length_append, hlength, List.length_cons]
    omega
  have hearlier : ∀ earlier < before.length, ∃ rows,
      (succeeded before (progress :: others))[earlier]? = some (.done (.ok rows)) := by
    intro earlier hlt
    refine ⟨before[earlier], ?_⟩
    rw [succeeded, List.getElem?_append_left (hlength ▸ hlt), List.getElem?_map, List.getElem?_map,
      List.getElem?_eq_getElem hlt]
    rfl
  have hset (next : Progress) :
      (succeeded before (progress :: others)).set before.length next = succeeded before (next :: others) := by
    rw [succeeded, List.set_append_right _ _ hlength.le, hlength, Nat.sub_self]
    rfl
  have hhosts : Hosts storage d policy q (.relation before.length) _ := hosts_relation hplace (.inr hearlier) primary
  simp only [hset] at hhosts
  exact @hhosts

/-- Relations one after another: each that has succeeded is followed by the next one. -/
theorem reaches_alone (primary : List Row) (halone : policy.concurrent = false) (relations : List (List Statement))
    (before : List (List Row)) {link after : Link (Logged σ)} {result : Except QueryError (List (List Row))}
    (hfetch : relations.mapM (fetchRelation storage.logged) link = (result, after)) :
    Reaches storage d policy q ⟨link, .relations primary (succeeded before (relations.map (.ready · [])))⟩
      ⟨after, .ended (result.map fun fetched => q.withFetched primary (before ++ fetched))⟩ := by
  induction relations generalizing before link result with
  | nil =>
    rw [List.mapM_nil] at hfetch
    cases hfetch
    have hfinish : Step storage d policy q ⟨after, .relations primary ((before.map .ok).map .done)⟩ []
        ⟨after, .ended (((before.map .ok : List (Except QueryError (List Row))).mapM id).map
          (q.withFetched primary))⟩ := .finish
    rw [mapM_id_ok] at hfinish
    rw [Except.map, List.append_nil, succeeded, List.map_nil, List.append_nil]
    exact (Reaches.refl _).step hfinish
  | cons statements rest ih =>
    have hhosts : Hosts storage d policy q (.relation before.length) _ :=
      hosts_next primary before (.ready statements []) (rest.map (.ready · []))
    rw [List.mapM_cons, LinkM.bind_run] at hfetch
    rcases hfirst : fetchRelation storage.logged statements link with ⟨e | rows, middle⟩
    · have hone := hhosts.fetch hfirst
      rw [hfirst] at hfetch
      cases hfetch
      exact hone.step (.stop halone (List.mem_append_right _ List.mem_cons_self))
    · have hone := hhosts.fetch hfirst
      rw [succeeded_snoc] at hone
      rw [hfirst] at hfetch
      dsimp only at hfetch
      rw [LinkM.bind_run] at hfetch
      rcases hrest : rest.mapM (fetchRelation storage.logged) middle with ⟨e | fetched, last⟩
      · rw [hrest] at hfetch
        cases hfetch
        exact hone.trans (ih (before ++ [rows]) hrest)
      · rw [hrest] at hfetch
        cases hfetch
        have hall := hone.trans (ih (before ++ [rows]) hrest)
        rw [Except.map, List.append_assoc] at hall
        exact hall

/-- **The load is a run**: it takes the moments from its storage. -/
theorem load_is_run (storage : Storage σ) (d : Sql.Dialect) (policy : BatchPolicy) (q : CompiledQuery)
    (link : Link (Logged σ)) :
    Reaches storage d policy q (begun q link)
      ⟨(load storage.logged d policy q link).2, .ended (load storage.logged d policy q link).1⟩ := by
  rw [load_run]
  have hprimary : Hosts storage d policy q .primary .primary := hosts_primary
  split
  · next e middle hread => exact (hprimary.read q.primary [] [] hread).step .refused
  · next rows middle hread =>
    have hrows : Reaches storage d policy q (begun q link) ⟨middle.countPrimary, .primary (.done (.ok rows))⟩ :=
      (hprimary.read q.primary [] [] hread).step (hprimary .finish)
    split
    · next hempty =>
      obtain rfl := List.isEmpty_iff.1 hempty
      exact hrows.step .empty
    · next hsome =>
      have hbranch := hrows.step (.branch fun hnil => hsome (List.isEmpty_iff.2 hnil))
      rw [fetchRelations]
      by_cases hconcurrent : policy.concurrent = true
      · rw [if_pos hconcurrent]
        exact hbranch.trans (reaches_sideBySide rows hconcurrent _ _)
      · rw [if_neg hconcurrent]
        rcases hfetch : (q.relationStatements d policy rows).mapM (fetchRelation storage.logged) middle.countPrimary
          with ⟨result, after⟩
        exact hbranch.trans (reaches_alone rows (Bool.eq_false_iff.2 hconcurrent) _ [] hfetch)

/-! ## Every load, and every moment -/

/-- What holds of a load that has come so far, whatever moments its handle was cancelled at. -/
structure Respects (d : Sql.Dialect) (policy : BatchPolicy) (q : CompiledQuery) (link : Link (Logged σ))
    (trace : List Event) (now : Loading σ) : Prop where
  /-- the calls of the trace are what the storage has received -/
  sent : now.link.storage.sent = link.storage.sent ++ calls trace
  /-- under a handle that is cancelled beforehand nothing is sent -/
  refused : link.handle = .cancelled → calls trace = []
  /-- once the handle is cancelled no call starts -/
  stops : ∀ before later, trace = before ++ .cancelled :: later → calls later = []
  /-- cancelled before the rows of the plan have come, it asks for no relation -/
  rowsCut : ∀ before later, trace = before ++ .cancelled :: later →
    (∀ rows, .received .primary (.ok rows) ∉ before) → ∀ place s, .sent (.relation place) s ∉ trace
  /-- the counts grow by the replies with rows that it has received -/
  counted : now.link.traffic = countRows trace link.traffic
  /-- it succeeds only with the rows of every statement that it needed -/
  answered : ∀ set, now.stage = .ended (.ok set) → Answered d policy q trace set
  /-- it fails because it was cancelled, or with an error that the storage has returned -/
  failed : ∀ e, now.stage = .ended (.error e) →
    e = .cancelled ∧ (link.handle = .cancelled ∨ .cancelled ∈ trace) ∨
      ∃ failure purpose, e = .storage failure ∧ .received purpose (.error e) ∈ trace

theorem Run.respects {link : Link (Logged σ)} {trace : List Event} {now : Loading σ}
    (h : Run storage d policy q (begun q link) trace now) : Respects d policy q link trace now where
  sent := h.effect.sent
  refused := h.effect.refused
  stops := h.effect.stops
  rowsCut before later hsplit hnone place s hsent := by
    -- the call would have started before the cancellation, and the rows would have come before the call
    have hbefore : .sent (.relation place) s ∈ before := by
      rw [hsplit] at hsent
      rcases List.mem_append.1 hsent with hbefore | hlater
      · exact hbefore
      · rcases List.mem_cons.1 hlater with hcancel | hlater
        · cases hcancel
        · have hcall : s.request ∈ calls later := List.mem_filterMap.2 ⟨_, hlater, rfl⟩
          rw [h.effect.stops before later hsplit] at hcall
          cases hcall
    obtain ⟨first, rest, rfl⟩ := List.mem_iff_append.1 hbefore
    rw [List.append_assoc] at hsplit
    obtain ⟨rows, hrows⟩ := h.rowsFirst first _ place s hsplit
    exact hnone rows (List.mem_append_left _ hrows)
  counted := h.effect.counted
  answered set hstage := by
    have htells := h.tells
    rw [hstage] at htells
    exact htells
  failed e hstage := by
    have htells := h.tells
    rw [hstage] at htells
    rcases htells with ⟨rfl, hcancelled⟩ | hreceived
    · exact .inl ⟨rfl, h.effect.cancelled.1 hcancelled⟩
    · exact .inr hreceived

/-- **No call starts after the cancellation.** Take any plan, any storage, either manner of fetching and any size of a
batch, and let replies come and the handle be cancelled at any moments. Then a load respects its handle: from the
cancellation on nothing is sent, so that a plan cancelled before its rows have come asks for no relation; success means
that every statement has been answered, and failure that the load was cancelled or that the storage has returned this
error; what is counted are exactly the replies with rows. The load that takes the moments from its storage is one of
these. -/
theorem load_respects_cancellation (storage : Storage σ) (d : Sql.Dialect) (policy : BatchPolicy) (q : CompiledQuery)
    (link : Link (Logged σ)) :
    (∀ trace now, Run storage d policy q (begun q link) trace now → Respects d policy q link trace now) ∧
      ∃ trace, Run storage d policy q (begun q link) trace
        ⟨(load storage.logged d policy q link).2, .ended (load storage.logged d policy q link).1⟩ :=
  ⟨fun _ _ hrun => hrun.respects, load_is_run storage d policy q link⟩

/-- the rows of the plan come; the handle is cancelled inside the next call, which still brings its rows -/
def sampleInterrupted : Script :=
  [⟨.rows [[.int 1, .int 3], [.int 2, .int 4]], none⟩, ⟨.rows [[.int 1]], some .afterReply⟩]

/-- Of the relations side by side the second one is not asked for any more, and the first one goes no further. -/
theorem load_respects_cancellation_pages :
    let line : Link (Logged Script) := ⟨⟨sampleInterrupted, []⟩, .live, {}⟩
    let done := load Script.storage.logged .sqlite ⟨1, true⟩ samplePages line
    done.1 = .error .cancelled ∧ done.2.storage.sent.map Request.params = [[], [.int 1]] ∧
      done.2.traffic = ⟨1, 1, 0, 0, 0⟩ ∧
      ∃ trace, Event.cancelled ∈ trace ∧
        Respects .sqlite ⟨1, true⟩ samplePages line trace ⟨done.2, .ended (.error .cancelled)⟩ := by
  intro line done
  obtain ⟨hall, trace, hrun⟩ := load_respects_cancellation Script.storage .sqlite ⟨1, true⟩ samplePages line
  have hended : done.1 = .error .cancelled := rfl
  have hrespects : Respects .sqlite ⟨1, true⟩ samplePages line trace ⟨done.2, .ended (.error .cancelled)⟩ :=
    hall trace _ hrun
  have hcancelled : Event.cancelled ∈ trace := by
    rcases hrespects.failed _ rfl with ⟨-, hbefore | htrace⟩ | ⟨failure, purpose, hfailure, -⟩
    · cases hbefore
    · exact htrace
    · cases hfailure
  exact ⟨hended, rfl, rfl, trace, hcancelled, hrespects⟩

end RowSet

end RelQuery
