/-
Loads that nothing disturbs.

An audited storage records what it receives, whether one of its answers was a failure, and how many of them came with an
interruption. A load is undisturbed when no answer was a failure and nobody could cancel it or nothing interrupted it.
It succeeds then, in either manner of fetching, and so it has sent and counted all its statements.
- `LinkM.Reliable`: a step that succeeds unless it is disturbed, for reads one after another.
- `Progress.turn_reliable`, `Turns.run_reliable`: turns that are not disturbed meet no failure.
- `RowSet.load_undisturbed`: what an undisturbed load has sent and counted.
-/
import RelQuery.Proofs.Fetch.Orders

namespace RelQuery

variable {σ : Type}

/-! ## Audits -/

/-- a storage's state, whether an answer was a failure, and how many answers came with an interruption -/
structure Watched (σ : Type) where
  inner : σ
  failed : Bool
  interruptions : Nat

namespace Watched

/-- what is known after one more answer -/
def next {α : Type} (before : Watched σ) (answer : Answer α) (inner : σ) : Watched σ where
  inner := inner
  failed := before.failed || !answer.result.isOk
  interruptions := before.interruptions + if answer.interruption.isSome then 1 else 0

/-- Failures are not forgotten and interruptions not taken back. -/
structure Grows (before after : Watched σ) : Prop where
  failed : before.failed = true → after.failed = true
  interruptions : before.interruptions ≤ after.interruptions

theorem Grows.refl (w : Watched σ) : w.Grows w := ⟨id, le_rfl⟩

theorem Grows.trans {w w' w'' : Watched σ} (h : w.Grows w') (h' : w'.Grows w'') : w.Grows w'' :=
  ⟨fun hw => h'.failed (h.failed hw), h.interruptions.trans h'.interruptions⟩

theorem Grows.not_failed {w w' : Watched σ} (h : w.Grows w') (hw : w'.failed = false) : w.failed = false := by
  cases hfailed : w.failed
  · rfl
  · exact absurd (h.failed hfailed) (by simp [hw])

theorem grows_next {α : Type} (before : Watched σ) (answer : Answer α) (inner : σ) :
    before.Grows (before.next answer inner) :=
  ⟨fun h => by simp [next, h], Nat.le_add_right _ _⟩

/-- While no failure is known, the last answer was none. -/
theorem ok_of_next {α : Type} {before : Watched σ} {answer : Answer α} {inner : σ}
    (h : (before.next answer inner).failed = false) : ∃ a, answer.result = .ok a := by
  cases hresult : answer.result with
  | ok a => exact ⟨a, rfl⟩
  | error e => simp [next, hresult, Except.isOk, Except.toBool] at h

end Watched

/-- the same storage, its answers being watched -/
def Storage.watched (storage : Storage σ) : Storage (Watched σ) where
  read request state :=
    let (answer, inner) := storage.read request state.inner
    (answer, state.next answer inner)
  write request state :=
    let (answer, inner) := storage.write request state.inner
    (answer, state.next answer inner)

/-- a storage's state with all that is recorded of it -/
abbrev Audited (σ : Type) := Logged (Watched σ)

/-- the same storage, what it receives and answers being recorded -/
def Storage.audited (storage : Storage σ) : Storage (Audited σ) := storage.watched.logged

/-- the state of a storage of which nothing is recorded yet -/
def Audited.start (state : σ) : Audited σ := ⟨⟨state, false, 0⟩, []⟩

namespace Link

variable {link middle after : Link (Audited σ)}

/-- the recorded troubles of the storage -/
def watched (link : Link (Audited σ)) : Watched σ := link.storage.inner

/-- Between two states of a line no answer was a failure and no reader was cut off: nobody else had the handle, or
nothing interrupted. -/
structure Undisturbed (link after : Link (Audited σ)) : Prop where
  answered : after.watched.failed = false
  uncut : link.handle = .unshared ∨ link.handle = .live ∧ after.watched.interruptions = link.watched.interruptions

namespace Undisturbed

theorem first (h : link.Undisturbed after) (hfirst : link.watched.Grows middle.watched)
    (hlast : middle.watched.Grows after.watched) : link.Undisturbed middle := by
  refine ⟨hlast.not_failed h.answered, ?_⟩
  rcases h.uncut with hhandle | ⟨hhandle, hnone⟩
  · exact .inl hhandle
  · right
    exact ⟨hhandle, le_antisymm (hnone ▸ hlast.interruptions) hfirst.interruptions⟩

theorem last (h : link.Undisturbed after) (hfirst : link.watched.Grows middle.watched)
    (hlast : middle.watched.Grows after.watched) (hhandle : middle.handle = link.handle) :
    middle.Undisturbed after := by
  refine ⟨h.answered, ?_⟩
  rw [hhandle]
  rcases h.uncut with hunshared | ⟨hlive, hnone⟩
  · exact .inl hunshared
  · right
    exact ⟨hlive, le_antisymm (hnone.le.trans hfirst.interruptions) hlast.interruptions⟩

theorem ne_cancelled (h : link.Undisturbed after) : link.handle ≠ .cancelled := by
  rcases h.uncut with hhandle | ⟨hhandle, -⟩ <;> rw [hhandle] <;> decide

end Undisturbed

/-! ## One statement -/

variable {storage : Storage σ} {s : Statement}

theorem send_grows (storage : Storage σ) (s : Statement) (link : Link (Audited σ)) :
    link.watched.Grows (link.send storage.audited s).2.watched := by
  by_cases hlink : link.handle = .cancelled
  · rw [send_cancelled _ _ _ hlink]
    exact .refl _
  · rw [send, if_neg hlink]
    dsimp only
    split <;> exact Watched.grows_next _ _ _

/-- An answer that interrupts cancels no handle that is safe from it. -/
theorem cancel_of_uncut {α : Type} {w : Watched σ} {answer : Answer α} {inner : σ} {handle : Handle}
    (h : handle = .unshared ∨ handle = .live ∧ (w.next answer inner).interruptions = w.interruptions)
    (hsome : answer.interruption.isSome) : handle.cancel = handle := by
  rcases h with rfl | ⟨-, hnone⟩
  · rfl
  · simp only [Watched.next, if_pos hsome] at hnone
    omega

/-- A send that is not disturbed has its rows, or they are on their way. -/
theorem send_reliable (h : link.Undisturbed (link.send storage.audited s).2) :
    ∃ rows after, (link.send storage.audited s = (.answered (.ok rows), after) ∨
      link.send storage.audited s = (.awaited (.ok rows), after)) ∧ after.handle = link.handle := by
  have hread : storage.audited.read s.request link.storage =
      ((storage.read s.request link.watched.inner).1,
        ⟨link.watched.next (storage.read s.request link.watched.inner).1 (storage.read s.request link.watched.inner).2,
          link.storage.sent ++ [s.request]⟩) := rfl
  rw [send, if_neg h.ne_cancelled, hread] at h ⊢
  generalize storage.read s.request link.watched.inner = received at h ⊢
  obtain ⟨⟨result, interruption⟩, inner⟩ := received
  cases interruption with
  | none =>
    obtain ⟨rows, rfl⟩ := Watched.ok_of_next h.answered
    exact ⟨rows, _, .inl rfl, rfl⟩
  | some interruption =>
    cases interruption with
    | afterReply =>
      obtain ⟨rows, rfl⟩ := Watched.ok_of_next h.answered
      exact ⟨rows, _, .inl rfl, cancel_of_uncut h.uncut rfl⟩
    | inFlight =>
      obtain ⟨rows, rfl⟩ := Watched.ok_of_next h.answered
      exact ⟨rows, _, .inr rfl, cancel_of_uncut h.uncut rfl⟩

end Link

/-! ## One statement after another -/

/-- A step at the line succeeds unless it is disturbed, and then leaves the handle as it is. -/
structure LinkM.Reliable {α : Type} (step : LinkM (Audited σ) α) : Prop where
  grows : ∀ link : Link (Audited σ), link.watched.Grows (step link).2.watched
  succeeds : ∀ link : Link (Audited σ), link.Undisturbed (step link).2 →
    ∃ a after, step link = (.ok a, after) ∧ after.handle = link.handle

namespace LinkM.Reliable

variable {α β : Type}

theorem pure (a : α) : Reliable (Pure.pure a : LinkM (Audited σ) α) :=
  ⟨fun _ => .refl _, fun link _ => ⟨a, link, rfl, rfl⟩⟩

theorem record (change : Traffic → Traffic) : Reliable (Link.record change : LinkM (Audited σ) Unit) :=
  ⟨fun _ => .refl _, fun link _ => ⟨(), link.count change, rfl, rfl⟩⟩

theorem bind {step : LinkM (Audited σ) α} {next : α → LinkM (Audited σ) β} (h : Reliable step)
    (hnext : ∀ a, Reliable (next a)) : Reliable (step >>= next) := by
  constructor
  · intro link
    have hstep := h.grows link
    rw [bind_run]
    split
    · next e middle heq => rwa [heq] at hstep
    · next a middle heq =>
      rw [heq] at hstep
      exact hstep.trans ((hnext a).grows middle)
  · intro link hlink
    have hfirst := h.grows link
    rw [bind_run] at hlink ⊢
    split at hlink
    · next e middle heq =>
      obtain ⟨a, after, hok, -⟩ := h.succeeds link (by rwa [heq])
      rw [heq] at hok
      cases hok
    · next a middle heq =>
      rw [heq] at hfirst
      have hlast := (hnext a).grows middle
      have hstep : link.Undisturbed (step link).2 := by
        rw [heq]
        exact hlink.first hfirst hlast
      obtain ⟨_, _, hok, hhandle⟩ := h.succeeds link hstep
      rw [heq] at hok
      obtain rfl := (Prod.mk.inj hok).2
      obtain ⟨b, after, hafter, hhandle'⟩ := (hnext a).succeeds middle (hlink.last hfirst hlast hhandle)
      exact ⟨b, after, hafter, hhandle'.trans hhandle⟩

theorem mapM {step : α → LinkM (Audited σ) β} (h : ∀ a, Reliable (step a)) (xs : List α) : Reliable (xs.mapM step) := by
  induction xs with
  | nil => exact pure []
  | cons x xs ih =>
    rw [List.mapM_cons]
    exact (h x).bind fun y => ih.bind fun ys => pure _

end LinkM.Reliable

variable {storage : Storage σ}

theorem Link.read_reliable (storage : Storage σ) (s : Statement) : LinkM.Reliable (Link.read storage.audited s) := by
  constructor
  · intro link
    have hgrows := send_grows storage s link
    change link.watched.Grows (readStep storage.audited s link).2.watched
    rw [readStep]
    split <;> next heq => rwa [heq] at hgrows
  · intro link hlink
    change link.Undisturbed (readStep storage.audited s link).2 at hlink
    change ∃ a after, readStep storage.audited s link = _ ∧ _
    have hsent : link.Undisturbed (link.send storage.audited s).2 := by
      rw [readStep] at hlink
      split at hlink <;> next heq => rwa [heq]
    obtain ⟨rows, after, hsend | hsend, hhandle⟩ := send_reliable hsent
    · rw [readStep, hsend]
      exact ⟨rows, after, rfl, hhandle⟩
    · rw [readStep, hsend]
      refine ⟨rows, after, ?_, hhandle⟩
      have hne : after.handle ≠ .cancelled := hhandle ▸ hlink.ne_cancelled
      exact congrArg (·, after) (if_neg hne)

namespace RowSet

theorem fetchRelation_reliable (storage : Storage σ) (statements : List Statement) :
    LinkM.Reliable (fetchRelation storage.audited statements) := by
  have hbatch : ∀ s, LinkM.Reliable (readBatch storage.audited s) := fun s =>
    (Link.read_reliable storage s).bind fun rows => (LinkM.Reliable.record _).bind fun _ => .pure rows
  exact (LinkM.Reliable.mapM hbatch statements).bind fun pieces => .pure pieces.flatten

end RowSet

/-! ## Turns -/

namespace Progress

theorem sendAll_grows (storage : Storage σ) (statements : List Statement) (rows : List Row) (link : Link (Audited σ)) :
    link.watched.Grows (sendAll storage.audited statements rows link).2.watched := by
  induction statements generalizing rows link with
  | nil => exact .refl _
  | cons s rest ih =>
    have hsend := link.send_grows storage s
    rw [sendAll]
    split
    · next heq => rwa [heq] at hsend
    · next heq => rwa [heq] at hsend
    · next more middle heq =>
      rw [heq] at hsend
      exact hsend.trans (ih _ (middle.count Traffic.addSecondary))

theorem turn_grows (storage : Storage σ) (progress : Progress) (link : Link (Audited σ)) :
    link.watched.Grows (progress.turn storage.audited link).2.watched := by
  cases progress with
  | ready statements rows => exact sendAll_grows storage statements rows link
  | waiting reply statements rows =>
    rw [turn]
    split
    · exact .refl _
    · exact sendAll_grows storage statements _ (link.count Traffic.addSecondary)
  | done result => exact .refl _

theorem sendAll_reliable {statements : List Statement} {rows : List Row} {link : Link (Audited σ)}
    (h : link.Undisturbed (sendAll storage.audited statements rows link).2) :
    (sendAll storage.audited statements rows link).1.Fine ∧
      (sendAll storage.audited statements rows link).2.handle = link.handle := by
  induction statements generalizing rows link with
  | nil => exact ⟨⟨rows, rfl⟩, rfl⟩
  | cons s rest ih =>
    have hfirst := link.send_grows storage s
    have hsent : link.Undisturbed (link.send storage.audited s).2 := by
      rw [sendAll] at h
      split at h
      · next heq => rwa [heq]
      · next heq => rwa [heq]
      · next more middle heq =>
        rw [heq] at hfirst ⊢
        exact h.first hfirst (sendAll_grows storage rest _ (middle.count Traffic.addSecondary))
    obtain ⟨more, middle, hsend | hsend, hhandle⟩ := Link.send_reliable hsent
    · rw [sendAll, hsend] at h ⊢
      rw [hsend] at hfirst
      have hlast := sendAll_grows storage rest (rows ++ more) (middle.count Traffic.addSecondary)
      have hrest : (middle.count Traffic.addSecondary).Undisturbed
          (sendAll storage.audited rest (rows ++ more) (middle.count Traffic.addSecondary)).2 :=
        h.last hfirst hlast hhandle
      obtain ⟨hfine, hhandle'⟩ := ih hrest
      exact ⟨hfine, hhandle'.trans hhandle⟩
    · rw [sendAll, hsend]
      exact ⟨⟨more, rfl⟩, hhandle⟩

/-- A turn that is not disturbed meets no failure. -/
theorem turn_reliable {progress : Progress} {link : Link (Audited σ)}
    (h : link.Undisturbed (progress.turn storage.audited link).2) (hfine : progress.Fine) :
    (progress.turn storage.audited link).1.Fine ∧
      (progress.turn storage.audited link).2.handle = link.handle := by
  cases progress with
  | ready statements rows => exact sendAll_reliable h
  | waiting reply statements rows =>
    obtain ⟨more, rfl⟩ := hfine
    have hreceived : link.receive (.ok more) = .ok more := if_neg h.ne_cancelled
    rw [turn, hreceived] at h ⊢
    have hrest : (link.count Traffic.addSecondary).Undisturbed
        (sendAll storage.audited statements (rows ++ more) (link.count Traffic.addSecondary)).2 := ⟨h.answered, h.uncut⟩
    exact sendAll_reliable hrest
  | done result => exact ⟨hfine, rfl⟩

end Progress

namespace Turns

variable {fetches : List Progress} {link : Link (Audited σ)}

theorem turnAt_grows (storage : Storage σ) (place : Nat) (fetches : List Progress) (link : Link (Audited σ)) :
    link.watched.Grows (turnAt storage.audited place fetches link).2.watched := by
  unfold turnAt
  split
  · exact .refl _
  · exact Progress.turn_grows storage _ link

theorem run_grows (storage : Storage σ) (order : List Nat) (fetches : List Progress) (link : Link (Audited σ)) :
    link.watched.Grows (run storage.audited order fetches link).2.watched := by
  induction order generalizing fetches link with
  | nil => exact .refl _
  | cons place order ih => exact (turnAt_grows storage place fetches link).trans (ih _ _)

theorem turnAt_reliable {place : Nat} (h : link.Undisturbed (turnAt storage.audited place fetches link).2)
    (hfine : ∀ progress ∈ fetches, progress.Fine) :
    (∀ progress ∈ (turnAt storage.audited place fetches link).1, progress.Fine) ∧
      (turnAt storage.audited place fetches link).2.handle = link.handle := by
  cases hcurrent : fetches[place]? with
  | none =>
    rw [turnAt_none hcurrent]
    exact ⟨hfine, rfl⟩
  | some current =>
    rw [turnAt_some hcurrent] at h ⊢
    obtain ⟨hturned, hhandle⟩ := Progress.turn_reliable h (hfine current (List.mem_of_getElem? hcurrent))
    refine ⟨?_, hhandle⟩
    intro progress hprogress
    rcases List.mem_or_eq_of_mem_set hprogress with hold | rfl
    · exact hfine progress hold
    · exact hturned

/-- **Turns in any order that are not disturbed meet no failure.** -/
theorem run_reliable (order : List Nat) (h : link.Undisturbed (run storage.audited order fetches link).2)
    (hfine : ∀ progress ∈ fetches, progress.Fine) :
    (∀ progress ∈ (run storage.audited order fetches link).1, progress.Fine) ∧
      (run storage.audited order fetches link).2.handle = link.handle := by
  induction order generalizing fetches link with
  | nil => exact ⟨hfine, rfl⟩
  | cons place order ih =>
    have hfirst := turnAt_grows storage place fetches link
    have hlast := run_grows storage order (turnAt storage.audited place fetches link).1
      (turnAt storage.audited place fetches link).2
    obtain ⟨hturned, hhandle⟩ := turnAt_reliable (h.first hfirst hlast) hfine
    obtain ⟨hrun, hhandle'⟩ := ih (h.last hfirst hlast hhandle) hturned
    exact ⟨hrun, hhandle'.trans hhandle⟩

end Turns

/-! ## Loads -/

/-- A read that succeeds has the rows that the storage answered. -/
theorem Link.answer_of_read {storage : Storage σ} {s : Statement} {link after : Link σ} {rows : List Row}
    (h : read storage s link = (.ok rows, after)) :
    (storage.read s.request link.storage).1.result = .ok rows := by
  change readStep storage s link = _ at h
  by_cases hlink : link.handle = .cancelled
  · rw [readStep, send_cancelled _ _ _ hlink] at h
    cases h
  · rw [readStep, send, if_neg hlink] at h
    generalize storage.read s.request link.storage = received at h ⊢
    obtain ⟨⟨result, interruption⟩, state⟩ := received
    have hlift : liftStorage result = .ok rows := by
      rcases interruption with _ | _ | _
      · exact congrArg Prod.fst h
      · exact congrArg Prod.fst h
      · have hreceived := congrArg Prod.fst h
        dsimp only [receive] at hreceived
        split at hreceived
        · cases hreceived
        · exact hreceived
    cases result with
    | error e => cases hlift
    | ok found => exact congrArg Except.ok (Except.ok.inj hlift)

namespace RowSet

theorem exists_of_done {fetches : List Progress} (h : ∀ progress ∈ fetches, ∃ rows, progress = .done (.ok rows)) :
    ∃ all, (fetches.map Progress.result).mapM id = .ok all := by
  induction fetches with
  | nil => exact ⟨[], rfl⟩
  | cons progress rest ih =>
    obtain ⟨⟨rows, rfl⟩, hrest⟩ := List.forall_mem_cons.1 h
    obtain ⟨all, hall⟩ := ih hrest
    refine ⟨rows :: all, ?_⟩
    rw [List.map_cons, List.mapM_cons, hall]
    rfl

/-- Fetching side by side succeeds unless it is disturbed. -/
theorem fetchSideBySide_reliable (storage : Storage σ) (relations : List (List Statement)) :
    LinkM.Reliable (fetchSideBySide storage.audited relations) := by
  constructor
  · intro link
    exact Turns.run_grows storage _ _ link
  · intro link hlink
    let fetches : List Progress := relations.map (.ready · [])
    have hready : ∀ progress ∈ fetches, progress.Fine := by
      intro progress hprogress
      obtain ⟨statements, -, rfl⟩ := List.mem_map.1 hprogress
      trivial
    obtain ⟨hfine, hhandle⟩ := Turns.run_reliable _ hlink hready
    have hdone : ∀ progress ∈ (Turns.run storage.audited (Turns.around fetches.length (Turns.rounds fetches))
        fetches link).1, ∃ rows, progress = .done (.ok rows) := by
      intro progress hprogress
      have hleft := Turns.left_around storage.audited fetches link progress hprogress
      have hend := hfine progress hprogress
      cases progress with
      | ready statements rows => cases hleft
      | waiting reply statements rows => cases hleft
      | done result =>
        obtain ⟨rows, rfl⟩ := hend
        exact ⟨rows, rfl⟩
    obtain ⟨all, hall⟩ := exists_of_done hdone
    exact ⟨all, _, congrArg (·, _) hall, hhandle⟩

theorem fetchRelations_reliable (storage : Storage σ) (policy : BatchPolicy) (relations : List (List Statement)) :
    LinkM.Reliable (fetchRelations storage.audited policy relations) := by
  unfold fetchRelations
  split
  · exact fetchSideBySide_reliable storage relations
  · exact .mapM (fetchRelation_reliable storage) relations

theorem load_reliable (storage : Storage σ) (d : Sql.Dialect) (policy : BatchPolicy) (q : CompiledQuery) :
    LinkM.Reliable (load storage.audited d policy q) := by
  apply (Link.read_reliable storage q.primary).bind
  intro rows
  apply (LinkM.Reliable.record _).bind
  intro _
  split
  · exact .pure _
  · apply (fetchRelations_reliable storage policy _).bind
    intro fetched
    exact .pure _

/-- The rows of a load are those that the storage answered to the plan's own statement. -/
theorem answer_of_load {storage : Storage σ} {d : Sql.Dialect} {policy : BatchPolicy} {q : CompiledQuery}
    {link after : Link σ} {set : RowSet} (h : load storage d policy q link = (.ok set, after)) :
    (storage.read q.primary.request link.storage).1.result = .ok set.rows := by
  rw [load_run] at h
  split at h
  · cases h
  · next primary middle hread =>
    have hanswer := Link.answer_of_read hread
    split at h
    · next hempty =>
      obtain rfl := List.isEmpty_iff.1 hempty
      obtain rfl := Except.ok.inj (Prod.mk.inj h).1
      exact hanswer
    · split at h
      next result last hfetched =>
      obtain ⟨hset, -⟩ := Prod.mk.inj h
      cases result with
      | error e => cases hset
      | ok fetched =>
        obtain rfl := Except.ok.inj hset
        exact hanswer

/-- **A load that is not disturbed** succeeds with the rows that the storage answers, and has sent and counted all its
statements. -/
theorem load_undisturbed {storage : Storage σ} {d : Sql.Dialect} {policy : BatchPolicy} {q : CompiledQuery}
    {link : Link (Audited σ)} (h : link.Undisturbed (load storage.audited d policy q link).2) :
    ∃ set after, load storage.audited d policy q link = (.ok set, after) ∧
      (storage.read q.primary.request link.watched.inner).1.result = .ok set.rows ∧
      q.Sends d policy set.rows link after := by
  obtain ⟨set, after, hload, -⟩ := (load_reliable storage d policy q).succeeds link h
  exact ⟨set, after, hload, answer_of_load hload, load_sends hload⟩

end RowSet

end RelQuery
