/-
What is fetched from a storage that answers.

A statement that comes to the same at any time, rows or an error, may be sent early or late. So the relations of a plan
come to the same whether they are fetched one after another or take turns, and whichever replies are late: what a fetch
has, what is on its way and what the rest is answered make up what it comes to (`Progress.outcome`); a turn keeps that,
and after the last round nothing is left to ask for.
- `Progress.turn_keeps`, `Turns.run_keeps`: one turn, and any order of turns.
- `fetchRelations_ends`: what all relations come to, in either manner of fetching.
- `load_yields`: the rows of a plan with the rows of its relations.
-/
import Mathlib.Tactic
import RelQuery.Fetch.RowSet

namespace RelQuery

variable {σ : Type}

/-! ## Answers -/

/-- a statement has these rows for its answer, whenever it is sent -/
def Storage.Answers (storage : Storage σ) (s : Statement) (rows : List Row) : Prop :=
  ∀ state, (storage.read s.request state).1.result = .ok rows

/-- statements have these rows for their answers together -/
inductive Storage.AnswersAll (storage : Storage σ) : List Statement → List Row → Prop where
  | nil : AnswersAll storage [] []
  | cons {s : Statement} {rest : List Statement} {rows more : List Row} :
    storage.Answers s rows → AnswersAll storage rest more → AnswersAll storage (s :: rest) (rows ++ more)

/-- a statement comes to this, rows or an error, whenever it is sent -/
def Storage.Gives (storage : Storage σ) (s : Statement) (outcome : Except QueryError (List Row)) : Prop :=
  ∀ state, liftStorage (storage.read s.request state).1.result = outcome

theorem Storage.Answers.gives {storage : Storage σ} {s : Statement} {rows : List Row} (h : storage.Answers s rows) :
    storage.Gives s (.ok rows) := fun state => by rw [h state]; rfl

/-- what statements come to one after another: their rows together, or the error of the first that fails -/
def gather (answer : Statement → Except QueryError (List Row)) (statements : List Statement) :
    Except QueryError (List Row) := do
  let pieces ← statements.mapM answer
  return pieces.flatten

section Gathering

variable {answer : Statement → Except QueryError (List Row)}

@[simp] theorem gather_nil : gather answer [] = .ok [] := rfl

theorem gather_cons (s : Statement) (rest : List Statement) :
    gather answer (s :: rest) = (answer s).bind fun rows => (gather answer rest).map (rows ++ ·) := by
  rw [gather, gather, List.mapM_cons]
  cases answer s with
  | error e => rfl
  | ok rows => cases rest.mapM answer <;> rfl

/-- What all statements of a list are answered, each of them is answered at any time. -/
theorem Storage.AnswersAll.gives {storage : Storage σ} {statements : List Statement} {rows : List Row}
    (h : storage.AnswersAll statements rows) (state : σ) {s : Statement} (hs : s ∈ statements) :
    storage.Gives s (liftStorage (storage.read s.request state).1.result) := by
  induction h with
  | nil => cases hs
  | cons hfirst _ ih =>
    rcases List.mem_cons.1 hs with rfl | hs
    · rw [hfirst.gives state]
      exact hfirst.gives
    · exact ih hs

theorem gather_answered {storage : Storage σ} {statements : List Statement} {rows : List Row}
    (h : storage.AnswersAll statements rows) (state : σ) :
    gather (fun s => liftStorage (storage.read s.request state).1.result) statements = .ok rows := by
  induction h with
  | nil => rfl
  | cons hs _ ih =>
    rw [gather_cons, hs.gives state, ih]
    rfl

end Gathering

/-- a handle under which no read is cut off: nobody can cancel it, or nothing does -/
def Handle.Steady (storage : Storage σ) (handle : Handle) : Prop :=
  handle = .unshared ∨ handle = .live ∧ ∀ request state, (storage.read request state).1.interruption = none

theorem Handle.Steady.ne_cancelled {storage : Storage σ} {handle : Handle} (h : handle.Steady storage) :
    handle ≠ .cancelled := by
  rcases h with rfl | ⟨rfl, -⟩ <;> nofun

/-- a step at the line that comes to a result and leaves the handle as it is -/
def LinkM.Ends {α : Type} (step : LinkM σ α) (link : Link σ) (result : Except QueryError α) : Prop :=
  ∃ after, step link = (result, after) ∧ after.handle = link.handle

/-- a step at the line that gives a result and leaves the handle as it is -/
def LinkM.Yields {α : Type} (step : LinkM σ α) (link : Link σ) (a : α) : Prop :=
  ∃ after, step link = (.ok a, after) ∧ after.handle = link.handle

namespace LinkM

variable {α β : Type} {link : Link σ}

theorem bind_run (step : LinkM σ α) (next : α → LinkM σ β) (link : Link σ) :
    (step >>= next) link =
      match step link with
      | (.error e, middle) => (.error e, middle)
      | (.ok a, middle) => next a middle := by
  change ExceptT.bindCont next (step link).1 (step link).2 = _
  rcases step link with ⟨_ | a, middle⟩ <;> rfl

namespace Ends

theorem pure (a : α) : Ends (Pure.pure a) link (.ok a) := ⟨link, rfl, rfl⟩

theorem bind {step : LinkM σ α} {next : α → LinkM σ β} {result : Except QueryError α} {final : α → Except QueryError β}
    (h : Ends step link result)
    (hnext : ∀ a, result = .ok a → ∀ after, after.handle = link.handle → Ends (next a) after (final a)) :
    Ends (step >>= next) link (result.bind final) := by
  obtain ⟨middle, hstep, hhandle⟩ := h
  have hrun := bind_run step next link
  rw [hstep] at hrun
  cases result with
  | error e => exact ⟨middle, hrun, hhandle⟩
  | ok a =>
    obtain ⟨after, hafter, hhandle'⟩ := hnext a rfl middle hhandle
    exact ⟨after, hrun.trans hafter, hhandle'.trans hhandle⟩

theorem record (change : Traffic → Traffic) : Ends (Link.record change) link (.ok ()) := ⟨_, rfl, rfl⟩

/-- steps for the items of a list, one after another -/
theorem mapM {handle : Handle} {step : α → LinkM σ β} {final : α → Except QueryError β} : {xs : List α} →
    (∀ x ∈ xs, ∀ link : Link σ, link.handle = handle → Ends (step x) link (final x)) →
    ∀ link : Link σ, link.handle = handle → Ends (xs.mapM step) link (xs.mapM final)
  | [], _, link, _ => pure []
  | x :: rest, h, link, hlink => by
    rw [List.mapM_cons, List.mapM_cons]
    refine bind (h x (by simp) link hlink) fun y _ middle hmiddle => ?_
    have hrest := mapM fun other hother => h other (List.mem_cons_of_mem x hother)
    exact bind (hrest middle (hmiddle.trans hlink)) fun _ _ _ _ => pure _

end Ends

namespace Yields

theorem pure (a : α) : Yields (Pure.pure a) link a := Ends.pure a

theorem bind {step : LinkM σ α} {next : α → LinkM σ β} {a : α} {b : β} (h : Yields step link a)
    (hnext : ∀ after, after.handle = link.handle → Yields (next a) after b) : Yields (step >>= next) link b := by
  have hends : Ends (step >>= next) link ((Except.ok a).bind fun _ => .ok b) :=
    Ends.bind h fun x hx after hafter => by
      obtain rfl := Except.ok.inj hx
      exact hnext after hafter
  exact hends

theorem record (change : Traffic → Traffic) : Yields (Link.record change) link () := Ends.record change

end Yields

end LinkM

/-! ## One statement -/

namespace Link

variable {storage : Storage σ} {s : Statement} {rows : List Row} {link : Link σ}

/-- The reply to a statement that is not cut off is there at once or on its way. -/
theorem send_steady (hlink : link.handle.Steady storage) (s : Statement) :
    link.send storage s = (.answered (liftStorage (storage.read s.request link.storage).1.result),
        { link with storage := (storage.read s.request link.storage).2 }) ∨
      link.send storage s = (.awaited (liftStorage (storage.read s.request link.storage).1.result),
        { link with storage := (storage.read s.request link.storage).2 }) := by
  have hcancel : (storage.read s.request link.storage).1.interruption ≠ none → link.handle.cancel = link.handle := by
    intro hne
    rcases hlink with hunshared | ⟨-, hquiet⟩
    · rw [hunshared]
      rfl
    · exact absurd (hquiet s.request link.storage) hne
  unfold send
  rw [if_neg hlink.ne_cancelled]
  dsimp only
  split
  · exact .inl rfl
  · next hlate => exact .inl (by rw [hcancel (by simp [hlate])])
  · next hlate => exact .inr (by rw [hcancel (by simp [hlate])])

theorem receive_steady (hlink : link.handle.Steady storage) (result : Except QueryError (List Row)) :
    link.receive result = result := if_neg hlink.ne_cancelled

/-- A read that is not cut off comes to what the storage answers. -/
theorem read_steady (hlink : link.handle.Steady storage) (s : Statement) :
    read storage s link = (liftStorage (storage.read s.request link.storage).1.result,
      { link with storage := (storage.read s.request link.storage).2 }) := by
  change readStep storage s link = _
  rcases send_steady hlink s with hsend | hsend <;> rw [readStep, hsend]
  have hsteady : ({ link with storage := (storage.read s.request link.storage).2 } : Link σ).handle.Steady storage := hlink
  exact congrArg (·, _) (receive_steady hsteady _)

theorem read_ends (hlink : link.handle.Steady storage) (s : Statement) :
    LinkM.Ends (read storage s) link (liftStorage (storage.read s.request link.storage).1.result) :=
  ⟨_, read_steady hlink s, rfl⟩

theorem read_yields (hlink : link.handle.Steady storage)
    (hrows : (storage.read s.request link.storage).1.result = .ok rows) : LinkM.Yields (read storage s) link rows := by
  have h := read_ends hlink s
  rwa [hrows] at h

end Link

/-! ## One relation after another -/

namespace RowSet

variable {storage : Storage σ} {answer : Statement → Except QueryError (List Row)}

theorem readBatch_ends {s : Statement} (hs : storage.Gives s (answer s)) {link : Link σ}
    (hlink : link.handle.Steady storage) : LinkM.Ends (readBatch storage s) link (answer s) := by
  have hread : LinkM.Ends (Link.read storage s) link (answer s) := hs link.storage ▸ Link.read_ends hlink s
  have hcounted (rows : List Row) (after : Link σ) :
      LinkM.Ends (do Link.record Traffic.addSecondary; return rows) after ((Except.ok ()).bind fun _ => .ok rows) :=
    (LinkM.Ends.record _).bind fun _ _ _ _ => .pure rows
  have h : LinkM.Ends (readBatch storage s) link ((answer s).bind .ok) := hread.bind fun rows _ after _ => hcounted rows after
  cases hanswer : answer s <;> rwa [hanswer] at h

/-- A relation comes to what its statements come to one after another. -/
theorem fetchRelation_ends {statements : List Statement} (hgives : ∀ s ∈ statements, storage.Gives s (answer s))
    {link : Link σ} (hlink : link.handle.Steady storage) :
    LinkM.Ends (fetchRelation storage statements) link (gather answer statements) := by
  refine LinkM.Ends.bind (LinkM.Ends.mapM (fun s hs after hafter => ?_) link rfl) fun _ _ _ _ => .pure _
  exact readBatch_ends (hgives s hs) (hafter ▸ hlink)

end RowSet

/-! ## Turns -/

namespace Progress

/-- the statements that are still to be sent -/
def unsent : Progress → List Statement
  | .ready statements _ => statements
  | .waiting _ statements _ => statements
  | .done _ => []

/-- what a fetch comes to in the end: the rows it has, the reply on its way, and what the rest is answered -/
def outcome (answer : Statement → Except QueryError (List Row)) : Progress → Except QueryError (List Row)
  | .ready statements rows => (gather answer statements).map (rows ++ ·)
  | .waiting reply statements rows => reply.bind fun next => (gather answer statements).map (rows ++ next ++ ·)
  | .done result => result

variable {storage : Storage σ} {answer : Statement → Except QueryError (List Row)}

theorem sendAll_keeps {statements : List Statement} (hgives : ∀ s ∈ statements, storage.Gives s (answer s))
    (rows : List Row) {link : Link σ} (hlink : link.handle.Steady storage) :
    (sendAll storage statements rows link).1.outcome answer = (gather answer statements).map (rows ++ ·) ∧
      (sendAll storage statements rows link).1.unsent ⊆ statements ∧
      (sendAll storage statements rows link).2.handle = link.handle := by
  induction statements generalizing rows link with
  | nil => exact ⟨by simp [sendAll, outcome, Except.map], by simp [sendAll, unsent], rfl⟩
  | cons s rest ih =>
    obtain ⟨hs, hrest⟩ := List.forall_mem_cons.1 hgives
    rw [sendAll, gather_cons]
    rcases Link.send_steady hlink s with hsend | hsend
    · rw [hsend, hs link.storage]
      cases answer s with
      | error e => exact ⟨rfl, by simp [unsent], rfl⟩
      | ok first =>
        have hcounted : (Link.count Traffic.addSecondary
            { link with storage := (storage.read s.request link.storage).2 }).handle.Steady storage := hlink
        obtain ⟨houtcome, hunsent, hhandle⟩ := ih hrest (rows ++ first) hcounted
        refine ⟨houtcome.trans ?_, fun x hx => List.mem_cons_of_mem s (hunsent hx), hhandle⟩
        cases gather answer rest <;> simp [Except.map, Except.bind]
    · rw [hsend, hs link.storage]
      refine ⟨?_, List.subset_cons_self s rest, rfl⟩
      cases answer s with
      | error e => rfl
      | ok first =>
        simp only [outcome, Except.bind]
        cases gather answer rest <;> simp [Except.map]

/-- A turn keeps what a fetch comes to. -/
theorem turn_keeps {progress : Progress} (hgives : ∀ s ∈ progress.unsent, storage.Gives s (answer s)) {link : Link σ}
    (hlink : link.handle.Steady storage) :
    (progress.turn storage link).1.outcome answer = progress.outcome answer ∧
      (progress.turn storage link).1.unsent ⊆ progress.unsent ∧
      (progress.turn storage link).2.handle = link.handle := by
  cases progress with
  | ready statements rows => exact sendAll_keeps hgives rows hlink
  | waiting reply statements rows =>
    rw [turn, Link.receive_steady hlink]
    cases reply with
    | error e => exact ⟨rfl, by simp [unsent], rfl⟩
    | ok next =>
      have hcounted : (link.count Traffic.addSecondary).handle.Steady storage := hlink
      exact sendAll_keeps hgives (rows ++ next) hcounted
  | done result => exact ⟨rfl, List.Subset.refl _, rfl⟩

/-- With no turn left to take, a fetch has come to its end. -/
theorem result_of_left {progress : Progress} (hleft : progress.left = 0) :
    progress.result = progress.outcome answer := by
  cases progress with
  | ready statements rows => cases hleft
  | waiting reply statements rows => cases hleft
  | done result => rfl

end Progress

namespace Turns

variable {storage : Storage σ} {answer : Statement → Except QueryError (List Row)} {fetches : List Progress}
  {link : Link σ}

/-- whether every statement that is still to be sent comes to its answer -/
def Answered (storage : Storage σ) (answer : Statement → Except QueryError (List Row)) (fetches : List Progress) : Prop :=
  ∀ progress ∈ fetches, ∀ s ∈ progress.unsent, storage.Gives s (answer s)

/-- One turn keeps what all fetches come to. -/
theorem turnAt_keeps (h : Answered storage answer fetches) (hlink : link.handle.Steady storage) (place : Nat) :
    (turnAt storage place fetches link).1.map (Progress.outcome answer) = fetches.map (Progress.outcome answer) ∧
      Answered storage answer (turnAt storage place fetches link).1 ∧
      (turnAt storage place fetches link).2.handle = link.handle := by
  unfold turnAt
  split
  · exact ⟨rfl, h, rfl⟩
  · next current hcurrent =>
    have hmem := List.mem_of_getElem? hcurrent
    obtain ⟨houtcome, hunsent, hhandle⟩ := Progress.turn_keeps (h current hmem) hlink
    refine ⟨?_, fun progress hprogress s hs => ?_, hhandle⟩
    · obtain ⟨hlt, rfl⟩ := List.getElem?_eq_some_iff.1 hcurrent
      rw [List.map_set, houtcome, ← List.map_set, List.set_getElem_self]
    · rcases List.mem_or_eq_of_mem_set hprogress with hold | rfl
      · exact h progress hold s hs
      · exact h current hmem s (hunsent hs)

/-- **Any order of turns keeps what all fetches come to.** -/
theorem run_keeps (order : List Nat) (h : Answered storage answer fetches) (hlink : link.handle.Steady storage) :
    (run storage order fetches link).1.map (Progress.outcome answer) = fetches.map (Progress.outcome answer) ∧
      (run storage order fetches link).2.handle = link.handle := by
  induction order generalizing fetches link with
  | nil => exact ⟨rfl, rfl⟩
  | cons place order ih =>
    obtain ⟨hturn, hanswered, hhandle⟩ := turnAt_keeps h hlink place
    obtain ⟨hrun, hhandle'⟩ := ih hanswered (by rwa [hhandle])
    exact ⟨hrun.trans hturn, hhandle'.trans hhandle⟩

/-- Each turn at its place brings a fetch nearer to its end. -/
theorem left_run (storage : Storage σ) (order : List Nat) (fetches : List Progress) (link : Link σ) {i : Nat}
    {after : Progress} (hafter : (run storage order fetches link).1[i]? = some after) :
    ∃ progress, fetches[i]? = some progress ∧ after.left ≤ progress.left - order.count i := by
  induction order generalizing fetches link with
  | nil => exact ⟨after, hafter, by simp⟩
  | cons place order ih =>
    obtain ⟨middle, hmiddle, hle⟩ := ih (turnAt storage place fetches link).1 (turnAt storage place fetches link).2 hafter
    unfold turnAt at hmiddle
    split at hmiddle
    · next hnone =>
      have hne : place ≠ i := by
        rintro rfl
        simp [hnone] at hmiddle
      exact ⟨middle, hmiddle, by rwa [List.count_cons_of_ne hne]⟩
    · next current hcurrent =>
      by_cases hi : place = i
      · subst hi
        have hlt := (List.getElem?_eq_some_iff.1 hcurrent).1
        rw [List.getElem?_set_self hlt] at hmiddle
        obtain rfl := Option.some.inj hmiddle
        have hnearer := Progress.left_turn storage current link
        refine ⟨current, hcurrent, ?_⟩
        rw [List.count_cons_self]
        omega
      · rw [List.getElem?_set_ne hi] at hmiddle
        exact ⟨middle, hmiddle, by rwa [List.count_cons_of_ne hi]⟩

theorem count_around {places i : Nat} (hi : i < places) (rounds : Nat) : (around places rounds).count i = rounds := by
  unfold around
  induction rounds with
  | zero => rfl
  | succ rounds ih =>
    have honce : (List.range places).count i = 1 :=
      List.count_eq_one_of_mem List.nodup_range (List.mem_range.2 hi)
    rw [List.replicate_succ, List.flatten_cons, List.count_append, ih, honce]
    omega

theorem le_foldl_left (fetches : List Progress) (n : Nat) :
    n ≤ fetches.foldl (fun n progress => max n progress.left) n ∧
      ∀ progress ∈ fetches, progress.left ≤ fetches.foldl (fun n progress => max n progress.left) n := by
  induction fetches generalizing n with
  | nil => simp
  | cons progress rest ih =>
    obtain ⟨hbase, hrest⟩ := ih (max n progress.left)
    rw [List.foldl_cons, List.forall_mem_cons]
    exact ⟨(Nat.le_max_left _ _).trans hbase, (Nat.le_max_right _ _).trans hbase, hrest⟩

theorem left_le_rounds {progress : Progress} (h : progress ∈ fetches) : progress.left ≤ rounds fetches :=
  (le_foldl_left fetches 0).2 progress h

/-- **When the rounds are over every fetch is at its end.** -/
theorem left_around (storage : Storage σ) (fetches : List Progress) (link : Link σ) :
    ∀ after ∈ (run storage (around fetches.length (rounds fetches)) fetches link).1, after.left = 0 := by
  intro after hmem
  obtain ⟨i, hi⟩ := List.getElem?_of_mem hmem
  obtain ⟨progress, hprogress, hle⟩ := left_run storage _ fetches link hi
  have hlt := (List.getElem?_eq_some_iff.1 hprogress).1
  have hrounds := left_le_rounds (List.mem_of_getElem? hprogress)
  rw [count_around hlt] at hle
  omega

/-- **In every order of turns that brings all fetches to their ends, the relations come to what their statements come to,
the first failure counting.** -/
theorem results_of_left {relations : List (List Statement)} (order : List Nat)
    (hgives : ∀ statements ∈ relations, ∀ s ∈ statements, storage.Gives s (answer s))
    (hlink : link.handle.Steady storage)
    (hleft : ∀ after ∈ (run storage order (relations.map (.ready · [])) link).1, after.left = 0) :
    ((run storage order (relations.map (.ready · [])) link).1.map Progress.result).mapM id =
        relations.mapM (gather answer) ∧
      (run storage order (relations.map (.ready · [])) link).2.handle = link.handle := by
  have hready : Answered storage answer (relations.map (.ready · [])) := by
    intro progress hprogress
    obtain ⟨statements, hstatements, rfl⟩ := List.mem_map.1 hprogress
    exact hgives statements hstatements
  obtain ⟨hrun, hhandle⟩ := run_keeps order hready hlink
  refine ⟨?_, hhandle⟩
  have hnothing : (Progress.outcome answer ∘ fun statements => Progress.ready statements []) = gather answer := by
    funext statements
    change (gather answer statements).map ([] ++ ·) = _
    cases gather answer statements <;> rfl
  have hresults : (run storage order (relations.map (.ready · [])) link).1.map Progress.result =
      (run storage order (relations.map (.ready · [])) link).1.map (Progress.outcome answer) :=
    List.map_congr_left fun after hafter => Progress.result_of_left (hleft after hafter)
  rw [hresults, hrun, List.map_map, hnothing, List.mapM_map]
  rfl

end Turns

/-! ## Rows of a plan -/

namespace RowSet

variable {storage : Storage σ} {answer : Statement → Except QueryError (List Row)} {link : Link σ}

/-- In either manner of fetching, the relations come to what their statements come to, the first failure counting. -/
theorem fetchRelations_ends (policy : BatchPolicy) {relations : List (List Statement)}
    (hgives : ∀ statements ∈ relations, ∀ s ∈ statements, storage.Gives s (answer s))
    (hlink : link.handle.Steady storage) :
    LinkM.Ends (fetchRelations storage policy relations) link (relations.mapM (gather answer)) := by
  unfold fetchRelations
  split
  · obtain ⟨hresults, hhandle⟩ := Turns.results_of_left _ hgives hlink (Turns.left_around storage _ link)
    exact ⟨_, congrArg (·, _) hresults, hhandle⟩
  · exact LinkM.Ends.mapM (fun statements hstatements after hafter =>
      fetchRelation_ends (hgives statements hstatements) (hafter ▸ hlink)) link rfl

/-- What the storage answers in one state is what it answers at any time. -/
theorem gather_each {relations : List (List Statement)} {fetched : List (List Row)}
    (h : List.Forall₂ storage.AnswersAll relations fetched) (state : σ) :
    (∀ statements ∈ relations, ∀ s ∈ statements,
      storage.Gives s (liftStorage (storage.read s.request state).1.result)) ∧
    relations.mapM (gather fun s => liftStorage (storage.read s.request state).1.result) = .ok fetched := by
  induction h with
  | nil => exact ⟨nofun, rfl⟩
  | cons hrows _ ih =>
    obtain ⟨hgives, hfetched⟩ := ih
    refine ⟨List.forall_mem_cons.2 ⟨fun s hs => hrows.gives state hs, hgives⟩, ?_⟩
    rw [List.mapM_cons, gather_answered hrows, hfetched]
    rfl

/-- In either manner of fetching, every relation has the rows that answer its statements. -/
theorem fetchRelations_yields (policy : BatchPolicy) {relations : List (List Statement)} {fetched : List (List Row)}
    (h : List.Forall₂ storage.AnswersAll relations fetched) (hlink : link.handle.Steady storage) :
    LinkM.Yields (fetchRelations storage policy relations) link fetched := by
  obtain ⟨hgives, hfetched⟩ := gather_each h link.storage
  have hends := fetchRelations_ends policy hgives hlink
  rwa [hfetched] at hends

/-- The rows of a plan, and for each relation the fetched rows handed out to them. -/
theorem load_yields (d : Sql.Dialect) (policy : BatchPolicy) {q : CompiledQuery} {primary : List Row}
    (hprimary : (storage.read q.primary.request link.storage).1.result = .ok primary)
    (hlink : link.handle.Steady storage) {fetched : List (List Row)}
    (h : List.Forall₂ storage.AnswersAll (q.batched.map fun fetch => fetch.statements d policy primary) fetched) :
    LinkM.Yields (load storage d policy q) link
      ⟨q.primary.columns, primary, (q.batched.zip fetched).map fun pair => pair.1.attach primary pair.2⟩ := by
  refine (Link.read_yields hlink hprimary).bind fun after hafter => ?_
  refine (LinkM.Yields.record _).bind fun counted hcounted => ?_
  have hsteady : counted.handle.Steady storage := by rwa [hcounted, hafter]
  by_cases hempty : primary.isEmpty = true
  · rw [if_pos hempty]
    obtain rfl := List.isEmpty_iff.1 hempty
    have hlength : q.batched.length ≤ fetched.length := by simpa using h.length_eq.le
    have hattach : (fun pair : BatchFetch × List Row => pair.1.attach [] pair.2)
        = (fun fetch => fetch.attach [] []) ∘ Prod.fst := rfl
    rw [hattach, ← List.map_map, List.map_fst_zip hlength]
    exact .pure _
  · rw [if_neg hempty]
    exact (fetchRelations_yields policy h hsteady).bind fun _ _ => .pure _

end RowSet

end RelQuery
