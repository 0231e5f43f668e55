/-
The storage that statements are sent to.

A storage is whatever answers a statement and changes by doing so; it may also be the place where the reader's handle
is cancelled, after the reply or while the reader waits for it. `Storage.logged` keeps a record of what is sent, and
`Script` is the storage that answers from a list of replies.
-/
import RelQuery.Error

namespace RelQuery

abbrev Row := List Value

/-- a statement as it is sent -/
structure Request where
  sql : String
  params : List Value
deriving DecidableEq, Repr

/-- a cancellation that happens while a statement is in the storage -/
inductive Interruption where
  /-- the reply arrives at once all the same -/
  | afterReply
  /-- the reply is late: a reader who can be cancelled gives up, any other waits for it -/
  | inFlight
deriving DecidableEq, Repr

structure Answer (α : Type) where
  result : Except StorageError α
  interruption : Option Interruption := none

/-- a storage with states `σ` -/
structure Storage (σ : Type) where
  /-- the rows that a statement yields -/
  read : Request → σ → Answer (List Row) × σ
  /-- the number of rows that a statement changes -/
  write : Request → σ → Answer UInt64 × σ

/-! ## Log -/

/-- a storage's state and the statements it has received, oldest first -/
structure Logged (σ : Type) where
  inner : σ
  sent : List Request

/-- the same storage, what it receives being recorded -/
def Storage.logged {σ : Type} (storage : Storage σ) : Storage (Logged σ) where
  read request state :=
    let (answer, inner) := storage.read request state.inner
    (answer, ⟨inner, state.sent ++ [request]⟩)
  write request state :=
    let (answer, inner) := storage.write request state.inner
    (answer, ⟨inner, state.sent ++ [request]⟩)

/-! ## Scripts -/

inductive Reply where
  | rows (rows : List Row)
  | changed (count : UInt64)
  | fail (error : StorageError)
deriving DecidableEq, Repr

/-- one line of a script -/
structure ScriptLine where
  reply : Reply
  interruption : Option Interruption
deriving DecidableEq, Repr

/-- the replies that are left -/
abbrev Script := List ScriptLine

namespace Script

/-- what a script answers when it has come to its end -/
def exhausted : StorageError := .backend "no scripted reply"

def rowsOf : Reply → Except StorageError (List Row)
  | .rows rows => .ok rows
  | .changed _ => .error (.backend "reply is not rows")
  | .fail e => .error e

def countOf : Reply → Except StorageError UInt64
  | .rows _ => .error (.backend "reply is not a row count")
  | .changed n => .ok n
  | .fail e => .error e

/-- takes the next line and reads its reply -/
def answer {α : Type} (read : Reply → Except StorageError α) : Script → Answer α × Script
  | [] => (⟨.error exhausted, none⟩, [])
  | line :: rest => (⟨read line.reply, line.interruption⟩, rest)

def storage : Storage Script where
  read _ := answer rowsOf
  write _ := answer countOf

end Script

end RelQuery
