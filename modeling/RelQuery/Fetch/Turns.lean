/-
Relations that are fetched side by side, taking turns at one line.

At its turn a relation receives the reply it was waiting for and sends its further statements, until a reply is late,
a statement fails or nothing is left to send. The turns go around in the order of the relations, over and over; a
relation that is done lets its turns pass.
- `left_turn`: every turn brings a relation nearer to its end, so that one with `n` statements is done after `n + 1`.
-/
import RelQuery.Fetch.Link

namespace RelQuery

/-- how far the fetch of one relation has come -/
inductive Progress where
  /-- statements to be sent, and the rows so far -/
  | ready (statements : List Statement) (rows : List Row)
  /-- a reply on its way, the statements after it, and the rows before it -/
  | waiting (reply : Except QueryError (List Row)) (statements : List Statement) (rows : List Row)
  | done (result : Except QueryError (List Row))

namespace Progress

variable {σ : Type}

/-- the rows fetched so far, or the failure -/
def result : Progress → Except QueryError (List Row)
  | .ready _ rows => .ok rows
  | .waiting _ _ rows => .ok rows
  | .done result => result

/-- turns that are needed at most to be done -/
def left : Progress → Nat
  | .ready statements _ => statements.length + 1
  | .waiting _ statements _ => statements.length + 1
  | .done _ => 0

/-- sends statements until a reply is late, one of them fails or none is left -/
def sendAll (storage : Storage σ) : List Statement → List Row → Link σ → Progress × Link σ
  | [], rows, link => (.done (.ok rows), link)
  | s :: rest, rows, link =>
    match link.send storage s with
    | (.awaited reply, link) => (.waiting reply rest rows, link)
    | (.answered (.error e), link) => (.done (.error e), link)
    | (.answered (.ok more), link) => sendAll storage rest (rows ++ more) (link.count Traffic.addSecondary)

def turn (storage : Storage σ) (progress : Progress) (link : Link σ) : Progress × Link σ :=
  match progress with
  | .ready statements rows => sendAll storage statements rows link
  | .waiting reply rest rows =>
    match link.receive reply with
    | .error e => (.done (.error e), link)
    | .ok more => sendAll storage rest (rows ++ more) (link.count Traffic.addSecondary)
  | .done result => (.done result, link)

theorem left_sendAll (storage : Storage σ) (statements : List Statement) (rows : List Row) (link : Link σ) :
    (sendAll storage statements rows link).1.left ≤ statements.length := by
  induction statements generalizing rows link with
  | nil => simp [sendAll, left]
  | cons s rest ih =>
    rw [sendAll]
    split
    · simp [left]
    · simp [left]
    · exact Nat.le_succ_of_le (ih _ _)

theorem left_turn (storage : Storage σ) (progress : Progress) (link : Link σ) :
    (progress.turn storage link).1.left ≤ progress.left - 1 := by
  cases progress with
  | ready statements rows => exact left_sendAll storage statements rows link
  | waiting reply rest rows =>
    rw [turn]
    split
    · simp [left]
    · exact left_sendAll storage rest _ _
  | done result => exact Nat.le_refl 0

end Progress

/-! ## Order of the turns -/

namespace Turns

variable {σ : Type}

/-- one turn of the relation at a place -/
def turnAt (storage : Storage σ) (place : Nat) (fetches : List Progress) (link : Link σ) :
    List Progress × Link σ :=
  match fetches[place]? with
  | none => (fetches, link)
  | some progress =>
    let (progress, link) := progress.turn storage link
    (fetches.set place progress, link)

/-- turns in an order of places -/
def run (storage : Storage σ) : List Nat → List Progress → Link σ → List Progress × Link σ
  | [], fetches, link => (fetches, link)
  | place :: order, fetches, link =>
    let (fetches, link) := turnAt storage place fetches link
    run storage order fetches link

/-- every place once in each round -/
def around (places rounds : Nat) : List Nat := (List.replicate rounds (List.range places)).flatten

/-- as many rounds as the relation that needs the most -/
def rounds (fetches : List Progress) : Nat := fetches.foldl (fun n progress => max n progress.left) 0

/-- what becomes of fetches that are taken around until all of them are done -/
def results (storage : Storage σ) (fetches : List Progress) (link : Link σ) :
    List (Except QueryError (List Row)) × Link σ :=
  let (fetches, link) := run storage (around fetches.length (rounds fetches)) fetches link
  (fetches.map Progress.result, link)

end Turns

end RelQuery
