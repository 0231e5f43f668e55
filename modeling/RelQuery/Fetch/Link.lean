/-
The line to a storage: a handle by which reading can be cancelled, and the count of what was sent.

A read is sent only while the handle is not cancelled, and a late reply is received only if it still is not. A handle
that nobody else holds is never cancelled, whatever happens in the storage: its reads wait for late replies.
- `send_cancelled`: nothing is sent under a cancelled handle.
-/
import RelQuery.Fetch.Storage
import RelQuery.Fetch.Traffic
import RelQuery.Statement.Basic

namespace RelQuery

inductive Handle where
  /-- nobody can cancel it -/
  | unshared
  | live
  | cancelled
deriving DecidableEq, Repr

/-- a handle after the attempt to cancel it -/
def Handle.cancel : Handle → Handle
  | .unshared => .unshared
  | .live => .cancelled
  | .cancelled => .cancelled

structure Link (σ : Type) where
  storage : σ
  handle : Handle
  traffic : Traffic

/-- a step at the line, which may fail and still has happened -/
abbrev LinkM (σ : Type) := ExceptT QueryError (StateM (Link σ))

/-- a statement as it is sent -/
def Statement.request (s : Statement) : Request := ⟨s.sql, s.params⟩

/-- a storage's result as a query's -/
def liftStorage {α : Type} (result : Except StorageError α) : Except QueryError α := result.mapError .storage

/-- what has become of a read -/
inductive Sent where
  /-- it has a result, be it that it was not sent -/
  | answered (result : Except QueryError (List Row))
  /-- its result is still on the way -/
  | awaited (result : Except QueryError (List Row))

namespace Link

variable {σ : Type}

/-- Sends a read, unless the handle is cancelled. -/
def send (storage : Storage σ) (s : Statement) (link : Link σ) : Sent × Link σ :=
  if link.handle = .cancelled then (.answered (.error .cancelled), link)
  else
    let (answer, state) := storage.read s.request link.storage
    let result := liftStorage answer.result
    match answer.interruption with
    | none => (.answered result, { link with storage := state })
    | some .afterReply => (.answered result, { link with storage := state, handle := link.handle.cancel })
    | some .inFlight => (.awaited result, { link with storage := state, handle := link.handle.cancel })

/-- a reply that was awaited, unless the handle has been cancelled meanwhile -/
def receive (result : Except QueryError (List Row)) (link : Link σ) : Except QueryError (List Row) :=
  if link.handle = .cancelled then .error .cancelled else result

/-- sends a read and waits for its reply -/
def readStep (storage : Storage σ) (s : Statement) (link : Link σ) : Except QueryError (List Row) × Link σ :=
  match link.send storage s with
  | (.answered result, link) => (result, link)
  | (.awaited result, link) => (link.receive result, link)

theorem send_cancelled (storage : Storage σ) (s : Statement) (link : Link σ) (h : link.handle = .cancelled) :
    link.send storage s = (.answered (.error .cancelled), link) := by
  simp [send, h]

/-- sends a write; it cannot be cancelled -/
def writeStep (storage : Storage σ) (s : Statement) (link : Link σ) : Except QueryError UInt64 × Link σ :=
  let (answer, state) := storage.write s.request link.storage
  (liftStorage answer.result, { link with storage := state })

def read (storage : Storage σ) (s : Statement) : LinkM σ (List Row) := readStep storage s

def write (storage : Storage σ) (s : Statement) : LinkM σ UInt64 := writeStep storage s

/-- the same line with something counted -/
def count (change : Traffic → Traffic) (link : Link σ) : Link σ := { link with traffic := change link.traffic }

/-- counts something that happened -/
def record (change : Traffic → Traffic) : LinkM σ Unit := modify (count change)

def recordPrimary : LinkM σ Unit := record fun t => { t with primary := t.primary + 1 }

def recordSecondary : LinkM σ Unit := record Traffic.addSecondary

def recordWrite : LinkM σ Unit := record fun t => { t with writes := t.writes + 1 }

def recordCacheHit : LinkM σ Unit := record fun t => { t with cacheHits := t.cacheHits + 1 }

def recordRefetch : LinkM σ Unit := record fun t => { t with refetches := t.refetches + 1 }

end Link

end RelQuery
