/-
The rows of a plan with the rows of its batched relations.

After the primary rows have arrived, each batched relation is fetched by the different keys that occur in them, a
bounded number of keys to a statement, and every primary row is given the fetched rows that hold its key. Relations
are fetched one after another, or side by side; then they take turns, a relation that fails does not stop the others,
and the failure of the first relation counts.
- `flatten_chunks`: the statements of a relation together bind every key once, in order.
- `length_of_mem_chunks`: each of them binds at least one key and no more than the policy allows.
-/
import RelQuery.Fetch.Turns
import RelQuery.Statement.Batch

namespace RelQuery

/-- the rows of one relation for each primary row -/
structure AttachedRelation where
  relation : String
  cardinality : Cardinality
  target : String
  columns : List OutputColumn
  perRow : List (List Row)
deriving DecidableEq, Repr

structure RowSet where
  columns : List OutputColumn
  rows : List Row
  relations : List AttachedRelation
deriving DecidableEq, Repr

/-- how batched relations are fetched -/
structure BatchPolicy where
  batchSize : Nat
  concurrent : Bool
deriving DecidableEq, Repr

namespace BatchPolicy

/-- keys to a statement: at least one -/
def chunkSize (policy : BatchPolicy) : Nat := max policy.batchSize 1

theorem chunkSize_pos (policy : BatchPolicy) : 0 < policy.chunkSize := Nat.le_max_right _ _

end BatchPolicy

/-- a list in pieces of at most `size` items; `fuel` bounds their count -/
def chunksWithin {α : Type} (size : Nat) : Nat → List α → List (List α)
  | 0, _ => []
  | fuel + 1, xs => if xs.isEmpty then [] else xs.take size :: chunksWithin size fuel (xs.drop size)

/-- a list in pieces of at most `size` items, for a positive size -/
def chunks {α : Type} (size : Nat) (xs : List α) : List (List α) := chunksWithin size xs.length xs

theorem flatten_chunksWithin {α : Type} {size : Nat} (hsize : 0 < size) (fuel : Nat) (xs : List α)
    (h : xs.length ≤ fuel) : (chunksWithin size fuel xs).flatten = xs := by
  induction fuel generalizing xs with
  | zero => simp [chunksWithin, List.eq_nil_of_length_eq_zero (Nat.le_zero.1 h)]
  | succ fuel ih =>
    cases xs with
    | nil => simp [chunksWithin]
    | cons x xs =>
      have hdrop : ((x :: xs).drop size).length ≤ fuel := by
        simp only [List.length_drop, List.length_cons] at h ⊢
        omega
      simp [chunksWithin, ih _ hdrop]

/-- the pieces of a list make up the list -/
theorem flatten_chunks {α : Type} {size : Nat} (hsize : 0 < size) (xs : List α) : (chunks size xs).flatten = xs :=
  flatten_chunksWithin hsize xs.length xs (Nat.le_refl _)

theorem length_of_mem_chunksWithin {α : Type} {size : Nat} (hsize : 0 < size) (fuel : Nat) (xs : List α) :
    ∀ piece ∈ chunksWithin size fuel xs, 0 < piece.length ∧ piece.length ≤ size := by
  induction fuel generalizing xs with
  | zero => simp [chunksWithin]
  | succ fuel ih =>
    cases xs with
    | nil => simp [chunksWithin]
    | cons x xs =>
      intro piece hpiece
      simp only [chunksWithin, List.isEmpty_cons, Bool.false_eq_true, if_false, List.mem_cons] at hpiece
      rcases hpiece with rfl | hpiece
      · simp only [List.length_take, List.length_cons]
        omega
      · exact ih _ piece hpiece

/-- no piece is empty or too long -/
theorem length_of_mem_chunks {α : Type} {size : Nat} (hsize : 0 < size) (xs : List α) :
    ∀ piece ∈ chunks size xs, 0 < piece.length ∧ piece.length ≤ size :=
  length_of_mem_chunksWithin hsize xs.length xs

namespace BatchFetch

/-- the key of a primary row, unless it is null or missing -/
def keyOf (fetch : BatchFetch) (row : Row) : Option Value :=
  match row[fetch.localIndex]? with
  | some key => if key.isNull then none else some key
  | none => none

/-- the different keys of the primary rows, in the order of their first occurrence -/
def distinctKeys (fetch : BatchFetch) (primary : List Row) : List Value :=
  (primary.filterMap fetch.keyOf).eraseDups

/-- the statements that fetch the relation -/
def statements (d : Sql.Dialect) (policy : BatchPolicy) (fetch : BatchFetch) (primary : List Row) : List Statement :=
  (chunks policy.chunkSize (fetch.distinctKeys primary)).map (fetch.render d)

/-- the fetched rows that hold the key of one primary row -/
def matching (fetch : BatchFetch) (related : List Row) (row : Row) : List Row :=
  match fetch.keyOf row with
  | none => []
  | some key => related.filter fun r => r[fetch.keyIndex]? = some key

def attach (fetch : BatchFetch) (primary related : List Row) : AttachedRelation :=
  ⟨fetch.relation, fetch.cardinality, fetch.target, fetch.columns, primary.map (fetch.matching related)⟩

end BatchFetch

namespace RowSet

variable {σ : Type}

/-- one statement of a batch -/
def readBatch (storage : Storage σ) (s : Statement) : LinkM σ (List Row) := do
  let rows ← Link.read storage s
  Link.recordSecondary
  return rows

/-- all rows of one relation, statement by statement -/
def fetchRelation (storage : Storage σ) (statements : List Statement) : LinkM σ (List Row) := do
  let pieces ← statements.mapM (readBatch storage)
  return pieces.flatten

/-- the rows of each relation, all relations being fetched side by side -/
def fetchSideBySide (storage : Storage σ) (relations : List (List Statement)) : LinkM σ (List (List Row)) :=
  fun link =>
    let (results, link) := Turns.results storage (relations.map fun statements => .ready statements []) link
    (results.mapM id, link)

/-- the rows of each relation -/
def fetchRelations (storage : Storage σ) (policy : BatchPolicy) (relations : List (List Statement)) :
    LinkM σ (List (List Row)) :=
  if policy.concurrent then fetchSideBySide storage relations
  else relations.mapM (fetchRelation storage)

/-- the rows of a plan; without primary rows no relation is asked for -/
def load (storage : Storage σ) (d : Sql.Dialect) (policy : BatchPolicy) (q : CompiledQuery) : LinkM σ RowSet := do
  let rows ← Link.read storage q.primary
  Link.recordPrimary
  if rows.isEmpty then return ⟨q.primary.columns, rows, q.batched.map fun fetch => fetch.attach [] []⟩
  let fetched ← fetchRelations storage policy (q.batched.map fun fetch => fetch.statements d policy rows)
  return ⟨q.primary.columns, rows, (q.batched.zip fetched).map fun pair => pair.1.attach rows pair.2⟩

end RowSet

end RelQuery
