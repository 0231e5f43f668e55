/-
Rows fetched by their keys.

The different keys of the primary rows are split up among statements, and what the statements yield together is handed
out again by key. Since no key is bound twice, the rows of one key all come with one statement, in the order in which
a statement for that key alone yields them.
- `distinctKeys_firstSeen`: the keys that are asked for, told by the rows that hold them.
- `matching_pieces`: what a primary row is handed is the answer to its own key.
- `statements_answered`: the answers to a relation's statements, when the storage filters the target's rows by key.
-/
import Mathlib.Algebra.Order.Floor.Div
import RelQuery.Proofs.Fetch.Answers
import RelQuery.Proofs.Lists

namespace RelQuery

/-- the rows whose cell at a place is one of the keys -/
def rowsAmong (place : Nat) (keys : List Value) (rows : List Row) : List Row :=
  rows.filter fun row => row[place]?.any (· ∈ keys)

/-- the rows whose cell at a place is the key -/
def rowsOf (place : Nat) (key : Value) (rows : List Row) : List Row := rows.filter fun row => row[place]? = some key

theorem rowsAmong_singleton (place : Nat) (key : Value) (rows : List Row) :
    rowsAmong place [key] rows = rowsOf place key rows := by
  refine List.filter_congr fun row _ => ?_
  cases row[place]? <;> simp

/-- Of the rows of many keys, those of one of them. -/
theorem rowsOf_rowsAmong (place : Nat) (key : Value) (keys : List Value) (rows : List Row) :
    rowsOf place key (rowsAmong place keys rows) = if key ∈ keys then rowsOf place key rows else [] := by
  unfold rowsOf rowsAmong
  rw [List.filter_filter]
  by_cases hkey : key ∈ keys
  · rw [if_pos hkey]
    refine List.filter_congr fun row _ => ?_
    cases hcell : row[place]? with
    | none => simp
    | some cell =>
      by_cases heq : cell = key
      · simp [heq, hkey]
      · simp [heq]
  · rw [if_neg hkey, List.filter_eq_nil_iff]
    intro row _
    cases hcell : row[place]? with
    | none => simp
    | some cell =>
      by_cases heq : cell = key
      · simp [heq, hkey]
      · simp [heq]

/-! ## Pieces -/

theorem length_chunksWithin {α : Type} {size : Nat} (hsize : 0 < size) (fuel : Nat) (xs : List α)
    (h : xs.length ≤ fuel) : (chunksWithin size fuel xs).length = xs.length ⌈/⌉ size := by
  induction fuel generalizing xs with
  | zero =>
    obtain rfl := List.eq_nil_of_length_eq_zero (Nat.le_zero.1 h)
    exact (zero_ceilDiv size).symm
  | succ fuel ih =>
    cases xs with
    | nil => exact (zero_ceilDiv size).symm
    | cons x xs =>
      have hdrop : ((x :: xs).drop size).length ≤ fuel := by
        simp only [List.length_drop, List.length_cons] at h ⊢
        omega
      rw [chunksWithin, if_neg (by simp), List.length_cons, ih _ hdrop, List.length_drop]
      simp only [Nat.ceilDiv_eq_add_pred_div, List.length_cons]
      by_cases hlong : size ≤ xs.length + 1
      · have hone : xs.length + 1 + size - 1 = xs.length + 1 - size + size - 1 + size := by omega
        rw [hone, Nat.add_div_right _ hsize]
      · have hnone : (xs.length + 1 - size + size - 1) / size = 0 := Nat.div_eq_of_lt (by omega)
        have hone : (xs.length + 1 + size - 1) / size = 1 := Nat.div_eq_of_lt_le (by omega) (by omega)
        rw [hnone, hone]

/-- A list has as many pieces as it takes for its length. -/
theorem length_chunks {α : Type} {size : Nat} (hsize : 0 < size) (xs : List α) :
    (chunks size xs).length = xs.length ⌈/⌉ size := length_chunksWithin hsize xs.length xs (Nat.le_refl _)

/-- Only one of the pieces that make up a list without repetitions holds a given item. -/
theorem flatMap_ite_mem {α β : Type} [DecidableEq α] {pieces : List (List α)} (hnodup : pieces.flatten.Nodup) {x : α}
    (hx : x ∈ pieces.flatten) (ys : List β) : (pieces.flatMap fun piece => if x ∈ piece then ys else []) = ys := by
  induction pieces with
  | nil => simp at hx
  | cons piece rest ih =>
    rw [List.flatten_cons, List.nodup_append] at hnodup
    obtain ⟨-, hrest, hdisjoint⟩ := hnodup
    rw [List.flatMap_cons]
    by_cases hpiece : x ∈ piece
    · have hnone : (rest.flatMap fun piece => if x ∈ piece then ys else []) = [] := by
        rw [List.flatMap_eq_nil_iff]
        intro other hother
        refine if_neg fun hmem => ?_
        exact hdisjoint x hpiece x (List.mem_flatten.2 ⟨other, hother, hmem⟩) rfl
      rw [if_pos hpiece, hnone, List.append_nil]
    · rw [List.flatten_cons, List.mem_append] at hx
      rw [if_neg hpiece, List.nil_append]
      exact ih hrest (hx.resolve_left hpiece)

namespace BatchFetch

variable (fetch : BatchFetch)

/-- the answer that a primary row has of its own key -/
def ownRows (rows : List Row) (row : Row) : List Row :=
  match fetch.keyOf row with
  | none => []
  | some key => rowsOf fetch.keyIndex key rows

/-- **A primary row is handed the rows of its own key**, as often and in the order as they are in the target. -/
theorem matching_pieces {size : Nat} (hsize : 0 < size) {primary : List Row} {row : Row} (hrow : row ∈ primary)
    (rows : List Row) :
    fetch.matching ((chunks size (fetch.distinctKeys primary)).flatMap fun keys =>
      rowsAmong fetch.keyIndex keys rows) row = fetch.ownRows rows row := by
  unfold matching ownRows
  cases hkey : fetch.keyOf row with
  | none => rfl
  | some key =>
    have hpieces : (chunks size (fetch.distinctKeys primary)).flatten = fetch.distinctKeys primary :=
      flatten_chunks hsize _
    have hnodup : (chunks size (fetch.distinctKeys primary)).flatten.Nodup := by
      rw [hpieces]
      exact nodup_eraseDups _
    have hmem : key ∈ (chunks size (fetch.distinctKeys primary)).flatten := by
      rw [hpieces]
      exact List.mem_eraseDups.2 (List.mem_filterMap.2 ⟨row, hrow, hkey⟩)
    change rowsOf fetch.keyIndex key _ = _
    calc rowsOf fetch.keyIndex key ((chunks size (fetch.distinctKeys primary)).flatMap fun keys =>
          rowsAmong fetch.keyIndex keys rows)
        = (chunks size (fetch.distinctKeys primary)).flatMap fun keys =>
          rowsOf fetch.keyIndex key (rowsAmong fetch.keyIndex keys rows) := List.filter_flatMap
      _ = (chunks size (fetch.distinctKeys primary)).flatMap fun keys =>
          if key ∈ keys then rowsOf fetch.keyIndex key rows else [] := by simp only [rowsOf_rowsAmong]
      _ = rowsOf fetch.keyIndex key rows := flatMap_ite_mem hnodup hmem _

theorem keyOf_eq_some {row : Row} {key : Value} :
    fetch.keyOf row = some key ↔ row[fetch.localIndex]? = some key ∧ key.isNull = false := by
  unfold keyOf
  cases hcell : row[fetch.localIndex]? with
  | none => simp
  | some cell =>
    by_cases hnull : cell.isNull = true
    · simp only [if_pos hnull, Option.some.injEq]
      constructor
      · nofun
      · rintro ⟨rfl, hkey⟩
        exact absurd hnull (by simp [hkey])
    · simp only [if_neg hnull, Option.some.injEq]
      constructor
      · rintro rfl
        exact ⟨rfl, Bool.eq_false_iff.2 hnull⟩
      · exact And.left

/-- No null is ever bound. -/
theorem not_isNull_of_keyOf {row : Row} {key : Value} (h : fetch.keyOf row = some key) : key.isNull = false :=
  (fetch.keyOf_eq_some.1 h).2

/-- the number of the first row that holds a key, or the number of rows -/
def firstRow (rows : List Row) (key : Value) : Nat := rows.findIdx fun row => row[fetch.localIndex]? = some key

/-- Keys are the values that rows hold for a relation, each once, without null and in the order of the first rows that
hold them. -/
structure FirstSeen (rows : List Row) (keys : List Value) : Prop where
  nodup : keys.Nodup
  mem_iff : ∀ key, key ∈ keys ↔ key.isNull = false ∧ ∃ row ∈ rows, row[fetch.localIndex]? = some key
  order : keys.Pairwise fun key key' => fetch.firstRow rows key < fetch.firstRow rows key'

theorem mem_distinctKeys {rows : List Row} {key : Value} :
    key ∈ fetch.distinctKeys rows ↔ key.isNull = false ∧ ∃ row ∈ rows, row[fetch.localIndex]? = some key := by
  rw [distinctKeys, List.mem_eraseDups, List.mem_filterMap]
  simp only [keyOf_eq_some]
  constructor
  · rintro ⟨row, hrow, hcell, hkey⟩
    exact ⟨hkey, row, hrow, hcell⟩
  · rintro ⟨hkey, row, hrow, hcell⟩
    exact ⟨row, hrow, hcell, hkey⟩

theorem firstRow_cons_of_ne {row : Row} {key : Value} (h : row[fetch.localIndex]? ≠ some key) (rest : List Row) :
    fetch.firstRow (row :: rest) key = fetch.firstRow rest key + 1 := by
  rw [firstRow, List.findIdx_cons, decide_eq_false h]
  rfl

theorem firstRow_cons_self {row : Row} {key : Value} (h : row[fetch.localIndex]? = some key) (rest : List Row) :
    fetch.firstRow (row :: rest) key = 0 := by
  rw [firstRow, List.findIdx_cons, decide_eq_true h]
  rfl

/-- The key of the first row comes first, and not again. -/
theorem distinctKeys_cons (row : Row) (rest : List Row) : fetch.distinctKeys (row :: rest) =
    match fetch.keyOf row with
    | none => fetch.distinctKeys rest
    | some key => key :: (fetch.distinctKeys rest).filter fun other => !other == key := by
  rw [distinctKeys, List.filterMap_cons]
  cases fetch.keyOf row with
  | none => rfl
  | some key =>
    dsimp only
    rw [List.eraseDups_cons, eraseDups_filter]
    rfl

theorem distinctKeys_firstSeen (rows : List Row) : fetch.FirstSeen rows (fetch.distinctKeys rows) := by
  refine ⟨nodup_eraseDups _, fun _ => fetch.mem_distinctKeys, ?_⟩
  induction rows with
  | nil => exact .nil
  | cons row rest ih =>
    -- keys that the first row does not hold keep their order
    have hlater : ∀ {keys : List Value}, (∀ key ∈ keys, row[fetch.localIndex]? ≠ some key) →
        keys.Pairwise (fun key key' => fetch.firstRow rest key < fetch.firstRow rest key') →
        keys.Pairwise fun key key' => fetch.firstRow (row :: rest) key < fetch.firstRow (row :: rest) key' := by
      intro keys hkeys horder
      apply horder.imp_of_mem
      intro key key' hkey hkey' hlt
      rw [fetch.firstRow_cons_of_ne (hkeys key hkey), fetch.firstRow_cons_of_ne (hkeys key' hkey')]
      omega
    rw [distinctKeys_cons]
    cases hrow : fetch.keyOf row with
    | none =>
      apply hlater _ ih
      intro key hkey hcell
      have hheld := fetch.keyOf_eq_some.2 ⟨hcell, (fetch.mem_distinctKeys.1 hkey).1⟩
      cases hrow.symm.trans hheld
    | some key =>
      obtain ⟨hcell, -⟩ := fetch.keyOf_eq_some.1 hrow
      have hothers : ∀ other ∈ (fetch.distinctKeys rest).filter fun other => !other == key,
          row[fetch.localIndex]? ≠ some other := by
        intro other hother hheld
        obtain rfl := Option.some.inj (hcell.symm.trans hheld)
        simp at hother
      apply List.Pairwise.cons
      · intro other hother
        rw [fetch.firstRow_cons_self hcell, fetch.firstRow_cons_of_ne (hothers other hother)]
        omega
      · exact hlater hothers (ih.filter _)

theorem not_isNull_of_mem {size : Nat} (hsize : 0 < size) {primary : List Row} {keys : List Value}
    (hkeys : keys ∈ chunks size (fetch.distinctKeys primary)) {key : Value} (hkey : key ∈ keys) :
    key.isNull = false := by
  have hmem : key ∈ (chunks size (fetch.distinctKeys primary)).flatten := List.mem_flatten.2 ⟨keys, hkeys, hkey⟩
  rw [flatten_chunks hsize] at hmem
  exact (fetch.mem_distinctKeys.1 hmem).1

variable {fetch}

theorem statements_answered {σ : Type} {storage : Storage σ} {d : Sql.Dialect} {rows : List Row}
    (h : ∀ keys, (∀ key ∈ keys, key.isNull = false) →
      storage.Answers (fetch.render d keys) (rowsAmong fetch.keyIndex keys rows))
    (policy : BatchPolicy) (primary : List Row) :
    storage.AnswersAll (fetch.statements d policy primary)
      ((chunks policy.chunkSize (fetch.distinctKeys primary)).flatMap fun keys =>
        rowsAmong fetch.keyIndex keys rows) := by
  have hnull : ∀ keys ∈ chunks policy.chunkSize (fetch.distinctKeys primary), ∀ key ∈ keys, key.isNull = false :=
    fun keys hkeys key hkey => fetch.not_isNull_of_mem policy.chunkSize_pos hkeys hkey
  unfold statements
  generalize chunks policy.chunkSize (fetch.distinctKeys primary) = pieces at hnull
  induction pieces with
  | nil => exact .nil
  | cons keys rest ih =>
    rw [List.map_cons, List.flatMap_cons]
    exact .cons (h keys (hnull keys (by simp))) (ih fun piece hpiece => hnull piece (List.mem_cons_of_mem _ hpiece))

end BatchFetch

end RelQuery
