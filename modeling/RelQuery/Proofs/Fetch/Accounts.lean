/-
What fetches send and count.

A logged storage tells what has been sent, and the traffic of its line what has been counted. Relations fetched one
after another send their statements one relation after another; relations that take turns send them interleaved, each
relation's in their order. In both manners every statement of a fetch that succeeds is sent once and counted once.
- `Interleaves`: a list made up of others, each in its own order.
- `RowSet.fetchRelation_sends`: one relation by itself.
- `Progress.turn_sends`, `Turns.run_sends`: one turn, and any order of turns.
-/
import RelQuery.Proofs.Fetch.Answers

namespace RelQuery

variable {σ : Type}

/-! ## Interleaved lists -/

/-- A list takes each item from the front of one of several lists, until all of them are used up. -/
inductive Interleaves {α : Type} : List (List α) → List α → Prop where
  | nil {lists : List (List α)} : (∀ items ∈ lists, items = []) → Interleaves lists []
  | cons {lists : List (List α)} {x : α} {items whole : List α} (place : Nat) : lists[place]? = some (x :: items) →
    Interleaves (lists.set place items) whole → Interleaves lists (x :: whole)

namespace Interleaves

variable {α : Type} {lists : List (List α)} {whole : List α}

/-- Several items may come from one list at a time. -/
theorem append {now later : List α} {place : Nat} (h : lists[place]? = some (now ++ later))
    (hrest : Interleaves (lists.set place later) whole) : Interleaves lists (now ++ whole) := by
  obtain ⟨hlt, -⟩ := List.getElem?_eq_some_iff.1 h
  induction now generalizing lists with
  | nil =>
    have hsame : lists.set place later = lists := by
      obtain ⟨-, rfl⟩ := List.getElem?_eq_some_iff.1 h
      exact List.set_getElem_self hlt
    rwa [hsame] at hrest
  | cons x now ih =>
    apply cons place h
    apply ih
    · exact List.getElem?_set_self hlt
    · rwa [List.set_set]
    · rwa [List.length_set]

theorem afterEmpty (h : Interleaves lists whole) : Interleaves ([] :: lists) whole := by
  induction h with
  | nil hempty => exact nil (List.forall_mem_cons.2 ⟨rfl, hempty⟩)
  | cons place hitem _ ih => exact cons (place + 1) hitem ih

/-- Lists one after another are a way to interleave them. -/
theorem flatten (lists : List (List α)) : Interleaves lists lists.flatten := by
  induction lists with
  | nil => exact nil nofun
  | cons items rest ih =>
    have hfirst : (items :: rest)[0]? = some (items ++ []) := by rw [List.append_nil]; rfl
    exact append hfirst ih.afterEmpty

theorem perm_set {x : α} {items : List α} {place : Nat} (h : lists[place]? = some (x :: items)) :
    lists.flatten.Perm (x :: (lists.set place items).flatten) := by
  induction lists generalizing place with
  | nil => cases h
  | cons first rest ih =>
    cases place with
    | zero =>
      obtain rfl : first = x :: items := Option.some.inj h
      exact .refl _
    | succ place =>
      rw [List.set_cons_succ, List.flatten_cons, List.flatten_cons]
      have hrest : (first ++ rest.flatten).Perm (first ++ x :: (rest.set place items).flatten) :=
        (ih h).append_left first
      exact hrest.trans List.perm_middle

theorem perm (h : Interleaves lists whole) : whole.Perm lists.flatten := by
  induction h with
  | nil hempty => rw [List.flatten_eq_nil_iff.2 hempty]
  | cons place hitem _ ih => exact (ih.cons _).trans (perm_set hitem).symm

theorem length_eq (h : Interleaves lists whole) : whole.length = (lists.map List.length).sum := by
  rw [h.perm.length_eq, List.length_flatten]

end Interleaves

/-! ## One statement after another -/

/-- more batches answered -/
def Traffic.later (n : Nat) (t : Traffic) : Traffic := { t with secondary := t.secondary + n }

theorem Traffic.later_later (m n : Nat) (t : Traffic) : (t.later m).later n = t.later (m + n) := by
  simp only [later, Nat.add_assoc]

/-- Between two states of a line these requests have been sent and so many batches counted. -/
structure Link.Sends (link after : Link (Logged σ)) (requests : List Request) (counted : Nat) : Prop where
  sent : after.storage.sent = link.storage.sent ++ requests
  traffic : after.traffic = link.traffic.later counted

namespace Link.Sends

variable {link middle after : Link (Logged σ)} {requests more : List Request} {m n : Nat}

theorem refl (link : Link (Logged σ)) : link.Sends link [] 0 := ⟨(List.append_nil _).symm, rfl⟩

theorem trans (h : link.Sends middle requests m) (h' : middle.Sends after more n) :
    link.Sends after (requests ++ more) (m + n) :=
  ⟨by rw [h'.sent, h.sent, List.append_assoc], by rw [h'.traffic, h.traffic, Traffic.later_later]⟩

theorem count (link : Link (Logged σ)) : link.Sends (link.count Traffic.addSecondary) [] 1 :=
  ⟨(List.append_nil _).symm, rfl⟩

end Link.Sends

/-- a step that sends these requests and counts so many batches, whenever it succeeds -/
def LinkM.Sends {α : Type} (step : LinkM (Logged σ) α) (requests : List Request) (counted : Nat) : Prop :=
  ∀ link a after, step link = (.ok a, after) → link.Sends after requests counted

namespace LinkM.Sends

variable {α β : Type} {requests more : List Request} {m n : Nat}

theorem pure (a : α) : Sends (Pure.pure a : LinkM (Logged σ) α) [] 0 := by
  intro link b after h
  obtain rfl : link = after := congrArg Prod.snd h
  exact .refl link

theorem bind {step : LinkM (Logged σ) α} {next : α → LinkM (Logged σ) β} (h : Sends step requests m)
    (hnext : ∀ a, Sends (next a) more n) : Sends (step >>= next) (requests ++ more) (m + n) := by
  intro link b after hrun
  rw [bind_run] at hrun
  split at hrun
  · cases hrun
  · next a middle hstep => exact (h link a middle hstep).trans (hnext a middle b after hrun)

theorem mapM {step : α → LinkM (Logged σ) β} {requests : α → List Request}
    (h : ∀ a, Sends (step a) (requests a) (requests a).length) (xs : List α) :
    Sends (xs.mapM step) (xs.flatMap requests) (xs.flatMap requests).length := by
  induction xs with
  | nil => exact pure []
  | cons x xs ih =>
    have hrun : Sends (step x >>= fun y => xs.mapM step >>= fun ys => Pure.pure (y :: ys))
        (requests x ++ (xs.flatMap requests ++ [])) ((requests x).length + ((xs.flatMap requests).length + 0)) :=
      (h x).bind fun y => ih.bind fun ys => pure (y :: ys)
    rwa [List.append_nil, Nat.add_zero, ← List.length_append, ← List.flatMap_cons, ← List.mapM_cons] at hrun

end LinkM.Sends

variable {storage : Storage σ}

/-- A statement is sent once, unless it is refused. -/
theorem Link.send_sends (storage : Storage σ) (s : Statement) (link : Link (Logged σ)) :
    link.send storage.logged s = (.answered (.error .cancelled), link) ∨
      link.Sends (link.send storage.logged s).2 [s.request] 0 := by
  by_cases hlink : link.handle = .cancelled
  · exact .inl (Link.send_cancelled _ _ _ hlink)
  · right
    rw [send, if_neg hlink]
    dsimp only
    split <;> exact ⟨rfl, rfl⟩

/-- A read that succeeds was sent once. -/
theorem Link.read_sends (storage : Storage σ) (s : Statement) :
    LinkM.Sends (Link.read storage.logged s) [s.request] 0 := by
  intro link rows after h
  change readStep storage.logged s link = _ at h
  rw [readStep] at h
  rcases link.send_sends storage s with hrefused | hsent
  · rw [hrefused] at h
    cases h
  · have hafter : (link.send storage.logged s).2 = after := by
      split at h <;> next heq => exact (congrArg Prod.snd heq).trans (congrArg Prod.snd h)
    rwa [hafter] at hsent

namespace RowSet

theorem readBatch_sends (storage : Storage σ) (s : Statement) :
    LinkM.Sends (readBatch storage.logged s) [s.request] 1 := by
  have hrecord : LinkM.Sends (Link.recordSecondary : LinkM (Logged σ) Unit) [] 1 := by
    intro link a after h
    obtain rfl : link.count Traffic.addSecondary = after := congrArg Prod.snd h
    exact .count link
  exact (Link.read_sends storage s).bind fun rows => hrecord.bind fun _ => .pure rows

/-- The statements of a relation are sent in their order, and each of them is counted. -/
theorem fetchRelation_sends (storage : Storage σ) (statements : List Statement) :
    LinkM.Sends (fetchRelation storage.logged statements) (statements.map Statement.request)
      (statements.map Statement.request).length := by
  have hone : ∀ s : Statement, LinkM.Sends (readBatch storage.logged s) [s.request] [s.request].length :=
    readBatch_sends storage
  have hrun : LinkM.Sends (fetchRelation storage.logged statements) _ _ :=
    (LinkM.Sends.mapM hone statements).bind fun pieces => .pure pieces.flatten
  rwa [← List.map_eq_flatMap, List.append_nil, Nat.add_zero] at hrun

end RowSet

/-! ## Turns -/

namespace Progress

/-- the requests that are still to be sent -/
def requests (progress : Progress) : List Request := progress.unsent.map Statement.request

/-- replies that are on their way -/
def awaited : Progress → Nat
  | .ready _ _ => 0
  | .waiting _ _ _ => 1
  | .done _ => 0

/-- no failure has come back, and none is on its way -/
def Fine : Progress → Prop
  | .ready _ _ => True
  | .waiting reply _ _ => ∃ rows, reply = .ok rows
  | .done result => ∃ rows, result = .ok rows

/-- A fetch goes on by sending these requests and counting so many batches: what it sends is no longer to be sent, and
what it has not counted of it is on its way. -/
structure Goes (progress after : Progress) (now : List Request) (counted : Nat) : Prop where
  requests : progress.requests = now ++ after.requests
  awaited : counted + after.awaited = now.length + progress.awaited

theorem sendAll_sends {statements : List Statement} {rows : List Row} {link : Link (Logged σ)}
    (hfine : (sendAll storage.logged statements rows link).1.Fine) :
    ∃ now counted, link.Sends (sendAll storage.logged statements rows link).2 now counted ∧
      (ready statements rows).Goes (sendAll storage.logged statements rows link).1 now counted := by
  induction statements generalizing rows link with
  | nil => exact ⟨[], 0, .refl link, rfl, rfl⟩
  | cons s rest ih =>
    rcases link.send_sends storage s with hrefused | hsent
    · rw [sendAll, hrefused] at hfine
      obtain ⟨rows, hrows⟩ := hfine
      cases hrows
    · rw [sendAll] at hfine ⊢
      split at hfine
      · next reply middle hsend =>
        rw [hsend] at hsent
        exact ⟨[s.request], 0, hsent, rfl, rfl⟩
      · obtain ⟨rows, hrows⟩ := hfine
        cases hrows
      · next more middle hsend =>
        rw [hsend] at hsent
        obtain ⟨now, counted, hrest, hgoes⟩ := ih hfine
        refine ⟨s.request :: now, 1 + counted, ?_, ?_, ?_⟩
        · have hcounted := (hsent.trans (.count middle)).trans hrest
          rwa [Nat.zero_add] at hcounted
        · exact congrArg (s.request :: ·) hgoes.requests
        · have hawaited := hgoes.awaited
          simp only [Progress.awaited, List.length_cons] at hawaited ⊢
          omega

/-- A turn that meets no failure sends a part of what is to be sent. -/
theorem turn_sends {progress : Progress} {link : Link (Logged σ)} (hfine : (progress.turn storage.logged link).1.Fine) :
    ∃ now counted, link.Sends (progress.turn storage.logged link).2 now counted ∧
      progress.Goes (progress.turn storage.logged link).1 now counted := by
  cases progress with
  | ready statements rows => exact sendAll_sends hfine
  | waiting reply statements rows =>
    rw [turn] at hfine ⊢
    split at hfine
    · obtain ⟨rows, hrows⟩ := hfine
      cases hrows
    · next more hreply =>
      obtain ⟨now, counted, hsends, hgoes⟩ := sendAll_sends hfine
      refine ⟨now, 1 + counted, (Link.Sends.count link).trans hsends, hgoes.requests, ?_⟩
      have hawaited := hgoes.awaited
      simp only [Progress.awaited] at hawaited ⊢
      omega
  | done result => exact ⟨[], 0, .refl link, rfl, rfl⟩

/-- A failure is not made good by a turn. -/
theorem fine_of_turn {storage : Storage σ} {progress : Progress} {link : Link σ}
    (hfine : (progress.turn storage link).1.Fine) : progress.Fine := by
  cases progress with
  | ready statements rows => trivial
  | waiting reply statements rows =>
    cases reply with
    | ok more => exact ⟨more, rfl⟩
    | error e =>
      have herror : ∃ e', link.receive (.error e) = .error e' := by
        unfold Link.receive
        split
        · exact ⟨_, rfl⟩
        · exact ⟨_, rfl⟩
      obtain ⟨e', he'⟩ := herror
      rw [turn, he'] at hfine
      obtain ⟨rows, hrows⟩ := hfine
      cases hrows
  | done result => exact hfine

end Progress

namespace Turns

variable {fetches : List Progress}

theorem turnAt_none {storage : Storage σ} {link : Link σ} {place : Nat} (h : fetches[place]? = none) :
    turnAt storage place fetches link = (fetches, link) := by rw [turnAt, h]

theorem turnAt_some {storage : Storage σ} {link : Link σ} {place : Nat} {current : Progress}
    (h : fetches[place]? = some current) : turnAt storage place fetches link =
      (fetches.set place (current.turn storage link).1, (current.turn storage link).2) := by rw [turnAt, h]

theorem fine_of_turnAt {storage : Storage σ} {link : Link σ} (place : Nat)
    (hfine : ∀ progress ∈ (turnAt storage place fetches link).1, progress.Fine) :
    ∀ progress ∈ fetches, progress.Fine := by
  intro progress hprogress
  unfold turnAt at hfine
  split at hfine
  · exact hfine progress hprogress
  · next current hcurrent =>
    obtain ⟨i, hi⟩ := List.getElem?_of_mem hprogress
    by_cases hplace : place = i
    · subst hplace
      obtain rfl : current = progress := Option.some.inj (hcurrent.symm.trans hi)
      obtain ⟨hlt, -⟩ := List.getElem?_eq_some_iff.1 hi
      apply Progress.fine_of_turn
      apply hfine
      exact List.mem_of_getElem? (List.getElem?_set_self hlt)
    · apply hfine
      have hstill : (fetches.set place (current.turn storage link).1)[i]? = some progress := by
        rwa [List.getElem?_set_ne hplace]
      exact List.mem_of_getElem? hstill

theorem fine_of_run {storage : Storage σ} {link : Link σ} (order : List Nat)
    (hfine : ∀ progress ∈ (run storage order fetches link).1, progress.Fine) :
    ∀ progress ∈ fetches, progress.Fine := by
  induction order generalizing fetches link with
  | nil => exact hfine
  | cons place order ih => exact fine_of_turnAt place (ih hfine)

variable {link : Link (Logged σ)}

/-- what all fetches have still to send -/
def requests (fetches : List Progress) : List (List Request) := fetches.map Progress.requests

/-- replies that are on their way to all fetches -/
def awaited (fetches : List Progress) : Nat := (fetches.map Progress.awaited).sum

/-- Replacing one fetch changes the replies on their way by those of that fetch. -/
theorem awaited_set {place : Nat} {current : Progress} (h : fetches[place]? = some current) (next : Progress) :
    awaited (fetches.set place next) + current.awaited = awaited fetches + next.awaited := by
  unfold awaited
  induction fetches generalizing place with
  | nil => cases h
  | cons progress rest ih =>
    cases place with
    | zero =>
      obtain rfl : progress = current := Option.some.inj h
      rw [List.set_cons_zero, List.map_cons, List.map_cons, List.sum_cons, List.sum_cons]
      omega
    | succ place =>
      have hrest := ih h
      rw [List.set_cons_succ, List.map_cons, List.map_cons, List.sum_cons, List.sum_cons]
      omega

/-- **Fetches that take turns in any order until all have succeeded** have sent what each of them had to send, in its
order, and have counted all of it. -/
theorem run_sends (order : List Nat)
    (hdone : ∀ progress ∈ (run storage.logged order fetches link).1, ∃ rows, progress = .done (.ok rows)) :
    ∃ whole, Interleaves (requests fetches) whole ∧
      link.Sends (run storage.logged order fetches link).2 whole (whole.length + awaited fetches) := by
  induction order generalizing fetches link with
  | nil =>
    have hrequests : ∀ items ∈ requests fetches, items = [] := by
      intro items hitems
      obtain ⟨progress, hprogress, rfl⟩ := List.mem_map.1 hitems
      obtain ⟨rows, rfl⟩ := hdone progress hprogress
      rfl
    have hawaited : awaited fetches = 0 := by
      apply List.sum_eq_zero
      intro n hn
      obtain ⟨progress, hprogress, rfl⟩ := List.mem_map.1 hn
      obtain ⟨rows, rfl⟩ := hdone progress hprogress
      rfl
    rw [hawaited]
    exact ⟨[], .nil hrequests, .refl link⟩
  | cons place order ih =>
    cases hcurrent : fetches[place]? with
    | none =>
      rw [run, turnAt_none hcurrent] at hdone ⊢
      exact ih hdone
    | some current =>
      rw [run, turnAt_some hcurrent] at hdone ⊢
      obtain ⟨whole, hwhole, hsends⟩ := ih hdone
      have hfine : ∀ progress ∈ fetches.set place (current.turn storage.logged link).1, progress.Fine := by
        apply fine_of_run order
        intro progress hprogress
        obtain ⟨rows, rfl⟩ := hdone progress hprogress
        exact ⟨rows, rfl⟩
      obtain ⟨hlt, -⟩ := List.getElem?_eq_some_iff.1 hcurrent
      have hturned := hfine _ (List.mem_of_getElem? (List.getElem?_set_self hlt))
      obtain ⟨now, counted, hnow, hgoes⟩ := Progress.turn_sends hturned
      refine ⟨now ++ whole, ?_, ?_⟩
      · have hplace : (requests fetches)[place]? = some (now ++ (current.turn storage.logged link).1.requests) := by
          rw [requests, List.getElem?_map, hcurrent, ← hgoes.requests]
          rfl
        apply Interleaves.append hplace
        rwa [requests, ← List.map_set]
      · have hall := hnow.trans hsends
        have hcount : counted + (whole.length + awaited (fetches.set place (current.turn storage.logged link).1)) =
            (now ++ whole).length + awaited fetches := by
          have hset := awaited_set hcurrent (current.turn storage.logged link).1
          have hawaited := hgoes.awaited
          rw [List.length_append]
          omega
        rwa [hcount] at hall

end Turns

end RelQuery
