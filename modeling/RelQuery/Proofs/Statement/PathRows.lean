/-
The rows that joins make of a row, by relation path.

A joined row is a choice of a row, or of none, for each relation path (`PathRows`), which the names of the tables play no
part in. Joins extend such choices one path at a time (`joinedRows`). How often a choice comes out is a product over the
joins (`count_joinedRows`), so their order does not matter as long as a join stands after its parent
(`joinedRows_perm`).
-/
import RelQuery.Proofs.Sql.Meaning

namespace RelQuery

/-- a row or none for each relation path -/
abbrev PathRows := List String → Option Tuple

/-- the row of the root, before anything is joined -/
def PathRows.ofRoot (row : Tuple) : PathRows := fun path => if path = [] then some row else none

/-- a join apart from the names of its tables -/
structure PathJoin where
  path : List String
  kind : Sql.JoinKind
  relation : Relation
  table : String
deriving DecidableEq

namespace PathJoin

variable (db : Sql.Database) (join : PathJoin)

/-- the path that the join starts from -/
def parent : List String := join.path.dropLast

/-- the rows that match a row of the parent -/
def found (row : Option Tuple) : List Tuple :=
  (db.rows join.table).filter fun other =>
    db.equals (cell row join.relation.localColumn) (other join.relation.remoteColumn) = .yes

/-- what stands at the path of the join: each of the rows found; a left join that finds none leaves it without a row -/
def choices (row : Option Tuple) : List (Option Tuple) :=
  if join.kind = .left ∧ join.found db row = [] then [none] else (join.found db row).map some

/-- the choices of rows with one more join -/
def extend (rows : PathRows) : List PathRows :=
  (join.choices db (rows join.parent)).map (Function.update rows join.path)

end PathJoin

variable {db : Sql.Database}

/-- the choices of rows that joins make of one -/
def joinedRows (db : Sql.Database) : List PathJoin → PathRows → List PathRows
  | [], rows => [rows]
  | join :: rest, rows => (join.extend db rows).flatMap (joinedRows db rest)

theorem joinedRows_append (joins more : List PathJoin) (rows : PathRows) :
    joinedRows db (joins ++ more) rows = (joinedRows db joins rows).flatMap (joinedRows db more) := by
  induction joins generalizing rows with
  | nil => simp [joinedRows]
  | cons join rest ih =>
    simp only [List.cons_append, joinedRows, List.flatMap_assoc]
    exact List.flatMap_congr fun rows _ => ih rows

theorem joinedRows_snoc (joins : List PathJoin) (join : PathJoin) (rows : PathRows) :
    joinedRows db (joins ++ [join]) rows = (joinedRows db joins rows).flatMap (join.extend db) := by
  rw [joinedRows_append]
  refine List.flatMap_congr fun rows _ => ?_
  simp [joinedRows]

/-- Joins change nothing but the rows at their paths. -/
theorem joinedRows_apart {joins : List PathJoin} {path : List String} (hpath : ∀ join ∈ joins, join.path ≠ path)
    {base rows : PathRows} (h : rows ∈ joinedRows db joins base) : rows path = base path := by
  induction joins generalizing base with
  | nil =>
    obtain rfl := List.mem_singleton.1 h
    rfl
  | cons join rest ih =>
    obtain ⟨first, hfirst, hrows⟩ := List.mem_flatMap.1 h
    obtain ⟨row, -, rfl⟩ := List.mem_map.1 hfirst
    rw [ih (fun other hother => hpath other (by simp [hother])) hrows]
    exact Function.update_of_ne (hpath join (by simp)).symm _ _

/-! ## The order of joins -/

/-- Each join has a path of its own, and none is the parent of one before it. -/
structure Ordered (joins : List PathJoin) : Prop where
  paths : ∀ join ∈ joins, join.path ≠ []
  order : joins.Pairwise fun a b => a.path ≠ b.path ∧ a.parent ≠ b.path

namespace Ordered

theorem nil : Ordered [] := ⟨nofun, .nil⟩

theorem tail {join : PathJoin} {rest : List PathJoin} (h : Ordered (join :: rest)) : Ordered rest :=
  ⟨fun other hother => h.paths other (by simp [hother]), (List.pairwise_cons.1 h.order).2⟩

theorem parent_ne {join : PathJoin} {joins : List PathJoin} (h : Ordered joins) (hjoin : join ∈ joins) :
    join.parent ≠ join.path := by
  intro heq
  have hlength := congrArg List.length heq
  have hpos := List.length_pos_iff.2 (h.paths join hjoin)
  rw [PathJoin.parent, List.length_dropLast] at hlength
  omega

theorem nodup {joins : List PathJoin} (h : Ordered joins) : (joins.map (·.path)).Nodup :=
  List.pairwise_map.2 (h.order.imp fun hpair => hpair.1)

/-- Joins of one path are one. -/
theorem eq_of_path {joins : List PathJoin} (h : Ordered joins) {a b : PathJoin} (ha : a ∈ joins) (hb : b ∈ joins)
    (hpath : a.path = b.path) : a = b :=
  List.inj_on_of_nodup_map h.nodup ha hb hpath

end Ordered

theorem sum_map_ite_eq_count {α : Type} [BEq α] [LawfulBEq α] (xs : List α) (x : α) [∀ y, Decidable (x = y)] (k : ℕ) :
    (xs.map fun y => if x = y then k else 0).sum = xs.count x * k := by
  induction xs with
  | nil => simp
  | cons y rest ih =>
    rw [List.map_cons, List.sum_cons, ih, List.count_cons]
    by_cases h : x = y
    · rw [if_pos h, if_pos (by simp [h])]
      ring
    · rw [if_neg h, if_neg (by simpa using Ne.symm h)]
      ring

/-- The rest goes on from the first rows with the row chosen at the path of a join, which no later join changes. -/
theorem agrees_update {join : PathJoin} {rest : List PathJoin} (hlater : ∀ other ∈ rest, join.path ≠ other.path)
    (base target : PathRows) (row : Option Tuple) :
    (∀ path, (∀ other ∈ rest, other.path ≠ path) → target path = Function.update base join.path row path) ↔
      target join.path = row ∧ ∀ path, (∀ other ∈ join :: rest, other.path ≠ path) → target path = base path := by
  constructor
  · intro hall
    refine ⟨?_, fun path hpath => ?_⟩
    · have hrow := hall join.path fun other hother => (hlater other hother).symm
      rwa [Function.update_self] at hrow
    · have hrow := hall path fun other hother => hpath other (by simp [hother])
      rwa [Function.update_of_ne (hpath join (by simp)).symm] at hrow
  · rintro ⟨hrow, hall⟩ path hpath
    by_cases heq : path = join.path
    · rw [heq, Function.update_self, hrow]
    · rw [Function.update_of_ne heq]
      refine hall path fun other hother => ?_
      rcases List.mem_cons.1 hother with rfl | hother
      · exact Ne.symm heq
      · exact hpath other hother

open Classical in
/-- A choice of rows comes out as often as the choices at its paths do, and never when it differs from the first rows
at another path. -/
theorem count_joinedRows {joins : List PathJoin} (h : Ordered joins) (base target : PathRows) :
    (joinedRows db joins base).count target =
      (joins.map fun join => (join.choices db (target join.parent)).count (target join.path)).prod *
        if ∀ path, (∀ join ∈ joins, join.path ≠ path) → target path = base path then 1 else 0 := by
  induction joins generalizing base with
  | nil =>
    have hsame : (∀ path, target path = base path) ↔ base = target :=
      ⟨fun hpaths => (funext hpaths).symm, fun heq path => by rw [heq]⟩
    simp [joinedRows, List.count_singleton, hsame]
  | cons join rest ih =>
    obtain ⟨product, hproduct⟩ : ∃ product, product =
        (rest.map fun join => (join.choices db (target join.parent)).count (target join.path)).prod := ⟨_, rfl⟩
    obtain ⟨hfirst, -⟩ := List.pairwise_cons.1 h.order
    have hagrees := agrees_update (fun other hother => (hfirst other hother).1) base target
    have hsum : (joinedRows db (join :: rest) base).count target =
        ((join.choices db (base join.parent)).map fun row => if target join.path = row then
          product * if ∀ path, (∀ other ∈ join :: rest, other.path ≠ path) → target path = base path then 1 else 0
          else 0).sum := by
      rw [joinedRows, List.count_flatMap, PathJoin.extend, List.map_map]
      refine congrArg List.sum (List.map_congr_left fun row _ => ?_)
      rw [Function.comp_apply, Function.comp_apply, ih h.tail, ← hproduct]
      by_cases hrow : target join.path = row
      · rw [if_pos hrow]
        congr 1
        exact if_congr ((hagrees row).trans (and_iff_right hrow)) rfl rfl
      · rw [if_neg hrow, if_neg fun hall => hrow ((hagrees row).1 hall).1, Nat.mul_zero]
    rw [hsum, sum_map_ite_eq_count, List.map_cons, List.prod_cons, ← hproduct]
    by_cases hall : ∀ path, (∀ other ∈ join :: rest, other.path ≠ path) → target path = base path
    · have hparent : target join.parent = base join.parent := by
        refine hall _ fun other hother => ?_
        rcases List.mem_cons.1 hother with rfl | hother
        · exact (h.parent_ne (by simp)).symm
        · exact (hfirst other hother).2.symm
      rw [if_pos hall, hparent]
      ring
    · rw [if_neg hall]
      ring

/-- What joins make of a row: at each of their paths one of the choices there, and the first rows elsewhere. -/
theorem mem_joinedRows {joins : List PathJoin} (h : Ordered joins) {base target : PathRows} :
    target ∈ joinedRows db joins base ↔
      (∀ join ∈ joins, target join.path ∈ join.choices db (target join.parent)) ∧
        ∀ path, (∀ join ∈ joins, join.path ≠ path) → target path = base path := by
  classical
  rw [← List.count_pos_iff, count_joinedRows h, Nat.pos_iff_ne_zero, mul_ne_zero_iff, Ne, List.prod_eq_zero_iff]
  refine and_congr ?_ (by simp)
  simp only [List.mem_map, not_exists, not_and, List.count_eq_zero, not_not]

/-- Joins in another order make the same choices of rows, in some order. -/
theorem joinedRows_perm {joins others : List PathJoin} (h : Ordered joins) (hothers : Ordered others)
    (hperm : joins.Perm others) (base : PathRows) : (joinedRows db joins base).Perm (joinedRows db others base) := by
  classical
  refine List.perm_iff_count.2 fun target => ?_
  rw [count_joinedRows h, count_joinedRows hothers]
  have hproduct := (hperm.map fun join => (join.choices db (target join.parent)).count (target join.path)).prod_eq
  have hsame : (∀ path, (∀ join ∈ joins, join.path ≠ path) → target path = base path) ↔
      ∀ path, (∀ join ∈ others, join.path ≠ path) → target path = base path := by
    simp only [hperm.mem_iff]
  rw [hproduct]
  congr 1
  exact if_congr hsame rfl rfl

/-- So do joins that make the same choices wherever they come to. -/
theorem joinedRows_perm_of_choices {joins : List PathJoin} {f : PathJoin → PathJoin} (h : Ordered joins)
    (hothers : Ordered (joins.map f)) (hpath : ∀ join, (f join).path = join.path) {base : PathRows}
    (hchoices : ∀ rows, rows ∈ joinedRows db joins base ∨ rows ∈ joinedRows db (joins.map f) base → ∀ join ∈ joins,
      (f join).choices db (rows join.parent) = join.choices db (rows join.parent)) :
    (joinedRows db joins base).Perm (joinedRows db (joins.map f) base) := by
  classical
  refine List.perm_iff_count.2 fun target => ?_
  by_cases hmem : target ∈ joinedRows db joins base ∨ target ∈ joinedRows db (joins.map f) base
  · have hparent : ∀ join, (f join).parent = join.parent := fun join => congrArg List.dropLast (hpath join)
    rw [count_joinedRows h, count_joinedRows hothers, List.map_map]
    congr 1
    · refine congrArg List.prod (List.map_congr_left fun join hjoin => ?_)
      rw [Function.comp_apply, hparent, hpath, hchoices target hmem join hjoin]
    · simp only [List.forall_mem_map, hpath]
  · rw [List.count_eq_zero.2 (not_or.1 hmem).1, List.count_eq_zero.2 (not_or.1 hmem).2]

/-- Left joins drop nothing. -/
theorem joinedRows_ne_nil {joins : List PathJoin} (h : ∀ join ∈ joins, join.kind = .left) (rows : PathRows) :
    joinedRows db joins rows ≠ [] := by
  induction joins generalizing rows with
  | nil => exact List.cons_ne_nil _ _
  | cons join rest ih =>
    have hchoices : join.choices db (rows join.parent) ≠ [] := by
      unfold PathJoin.choices
      split
      · exact List.cons_ne_nil _ _
      · next hfound => simpa [h join (by simp)] using hfound
    obtain ⟨choice, more, hfirst⟩ := List.exists_cons_of_ne_nil hchoices
    have hrest := ih (fun other hother => h other (by simp [hother])) (Function.update rows join.path choice)
    simp [joinedRows, PathJoin.extend, hfirst, hrest]

end RelQuery
