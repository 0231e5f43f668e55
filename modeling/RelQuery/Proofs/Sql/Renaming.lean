/-
The tables of a statement renamed.

A renaming of tables reaches every qualifier and every table name of a statement at any depth, and nothing else
(`Query.rename`). Pairs of names that match one to one are followed by a bijective renaming
(`OneToOne.exists_renaming`). Up to such a renaming two statements may differ in the order of their joins and of their
conditions only (`Query.Reordered`).
-/
import Mathlib.Tactic
import Mathlib.Logic.Equiv.Basic
import RelQuery.Sql.Tree

namespace RelQuery.Sql

/-! ## Renaming -/

section Renaming

variable (ρ : String → String)

def TableRef.rename (t : TableRef) : TableRef := { t with aliasName := t.aliasName.map ρ }

mutual

/-- the expression with its tables renamed, also in its subqueries -/
def Expr.rename : Expr → Expr
  | .column table name => .column (table.map ρ) name
  | .int n => .int n
  | .param v => .param v
  | .binary op left right => .binary op left.rename right.rename
  | .not e => .not e.rename
  | .call function args distinct => .call function (renameList args) distinct
  | .case arms otherwise => .case (renameArms arms) (match otherwise with
      | none => none
      | some e => some e.rename)
  | .subquery q => .subquery q.rename
  | .existsRow q negated => .existsRow q.rename negated
  | .inList e values negated => .inList e.rename (renameList values) negated
  | .inQuery e q negated => .inQuery e.rename q.rename negated
  | .isNull e negated => .isNull e.rename negated
  | .star table => .star (table.map ρ)
  | .paren e => .paren e.rename
termination_by structural e => e

def renameList : List Expr → List Expr
  | [] => []
  | e :: rest => e.rename :: renameList rest
termination_by structural es => es

def renameArms : List (Expr × Expr) → List (Expr × Expr)
  | [] => []
  | (test, result) :: rest => (test.rename, result.rename) :: renameArms rest
termination_by structural arms => arms

def renameItems : List SelectItem → List SelectItem
  | [] => []
  | ⟨e, aliasName⟩ :: rest => ⟨e.rename, aliasName⟩ :: renameItems rest
termination_by structural items => items

def Source.rename : Source → Source
  | .table t => .table (t.rename ρ)
  | .derived q aliasName => .derived q.rename (ρ aliasName)
termination_by structural source => source

def renameJoins : List Join → List Join
  | [] => []
  | ⟨kind, table, on⟩ :: rest => ⟨kind, table.rename ρ, on.rename⟩ :: renameJoins rest
termination_by structural joins => joins

def renameKeys : List OrderKey → List OrderKey
  | [] => []
  | ⟨e, direction⟩ :: rest => ⟨e.rename, direction⟩ :: renameKeys rest
termination_by structural keys => keys

/-- the query with its tables renamed, also in its subqueries -/
def Query.rename : Query → Query
  | ⟨select, distinct, source, joins, condition, groupBy, having, orderBy, page⟩ =>
    ⟨renameItems select, distinct, (match source with
        | none => none
        | some source => some source.rename), renameJoins joins, (match condition with
        | none => none
        | some e => some e.rename), renameList groupBy, (match having with
        | none => none
        | some e => some e.rename), renameKeys orderBy, page⟩
termination_by structural q => q

end

def SelectItem.rename (item : SelectItem) : SelectItem := ⟨item.expr.rename ρ, item.aliasName⟩

def Join.rename (join : Join) : Join := ⟨join.kind, join.table.rename ρ, join.on.rename ρ⟩

def OrderKey.rename (key : OrderKey) : OrderKey := ⟨key.expr.rename ρ, key.direction⟩

variable {ρ}

theorem renameList_eq (es : List Expr) : renameList ρ es = es.map (Expr.rename ρ) := by
  induction es with
  | nil => rfl
  | cons e rest ih => rw [renameList, ih, List.map_cons]

theorem renameItems_eq (items : List SelectItem) : renameItems ρ items = items.map (SelectItem.rename ρ) := by
  induction items with
  | nil => rfl
  | cons item rest ih =>
    obtain ⟨e, aliasName⟩ := item
    rw [renameItems, ih, List.map_cons]
    rfl

theorem renameJoins_eq (joins : List Join) : renameJoins ρ joins = joins.map (Join.rename ρ) := by
  induction joins with
  | nil => rfl
  | cons join rest ih =>
    obtain ⟨kind, table, on⟩ := join
    rw [renameJoins, ih, List.map_cons]
    rfl

theorem renameKeys_eq (keys : List OrderKey) : renameKeys ρ keys = keys.map (OrderKey.rename ρ) := by
  induction keys with
  | nil => rfl
  | cons key rest ih =>
    obtain ⟨e, direction⟩ := key
    rw [renameKeys, ih, List.map_cons]
    rfl

theorem Query.rename_eq (q : Query) : q.rename ρ =
    ⟨q.select.map (SelectItem.rename ρ), q.distinct, q.source.map (Source.rename ρ), q.joins.map (Join.rename ρ),
      q.condition.map (Expr.rename ρ), q.groupBy.map (Expr.rename ρ), q.having.map (Expr.rename ρ),
      q.orderBy.map (OrderKey.rename ρ), q.page⟩ := by
  obtain ⟨select, distinct, source, joins, condition, groupBy, having, orderBy, page⟩ := q
  cases source <;> cases condition <;> cases having <;>
    simp only [rename, renameItems_eq, renameJoins_eq, renameList_eq, renameKeys_eq, Option.map_none, Option.map_some]

/-- A query renamed is the query that has its clauses renamed. -/
theorem Query.rename_of {q q' : Query} (hselect : q.select.map (SelectItem.rename ρ) = q'.select)
    (hdistinct : q.distinct = q'.distinct) (hsource : q.source.map (Source.rename ρ) = q'.source)
    (hjoins : q.joins.map (Join.rename ρ) = q'.joins) (hcondition : q.condition.map (Expr.rename ρ) = q'.condition)
    (hgroupBy : q.groupBy.map (Expr.rename ρ) = q'.groupBy) (hhaving : q.having.map (Expr.rename ρ) = q'.having)
    (horderBy : q.orderBy.map (OrderKey.rename ρ) = q'.orderBy) (hpage : q.page = q'.page) : q.rename ρ = q' := by
  rw [rename_eq, hselect, hdistinct, hsource, hjoins, hcondition, hgroupBy, hhaving, horderBy, hpage]
  cases q'
  rfl

theorem foldl_binary_rename (op : BinaryOp) (rest : List Expr) (e : Expr) :
    (rest.foldl (.binary op) e).rename ρ = (rest.map (Expr.rename ρ)).foldl (.binary op) (e.rename ρ) := by
  induction rest generalizing e with
  | nil => rfl
  | cons next rest ih => exact ih (.binary op e next)

theorem Expr.conjunction_rename (es : List Expr) :
    (conjunction es).map (Expr.rename ρ) = conjunction (es.map (Expr.rename ρ)) := by
  cases es with
  | nil => rfl
  | cons e rest => exact congrArg some (foldl_binary_rename .and rest e)

end Renaming

/-! ## Pairs of names -/

/-- pairs of names that share either no name or both -/
def OneToOne (pairs : List (String × String)) : Prop := ∀ a ∈ pairs, ∀ b ∈ pairs, a.1 = b.1 ↔ a.2 = b.2

/-- The renaming takes the first name of each pair to the second. -/
def Follows (ρ : String → String) (pairs : List (String × String)) : Prop := ∀ pair ∈ pairs, ρ pair.1 = pair.2

namespace OneToOne

variable {pairs more : List (String × String)}

theorem nil : OneToOne [] := by simp [OneToOne]

theorem single (pair : String × String) : OneToOne [pair] := by
  intro a ha b hb
  rw [List.mem_singleton.1 ha, List.mem_singleton.1 hb]
  exact iff_of_true rfl rfl

theorem append (h : OneToOne pairs) (hmore : OneToOne more) (hapart : ∀ a ∈ pairs, ∀ b ∈ more, a.1 ≠ b.1 ∧ a.2 ≠ b.2) :
    OneToOne (pairs ++ more) := by
  intro a ha b hb
  rcases List.mem_append.1 ha with ha | ha <;> rcases List.mem_append.1 hb with hb | hb
  · exact h a ha b hb
  · obtain ⟨hfirst, hsecond⟩ := hapart a ha b hb
    exact iff_of_false hfirst hsecond
  · obtain ⟨hfirst, hsecond⟩ := hapart b hb a ha
    exact iff_of_false hfirst.symm hsecond.symm
  · exact hmore a ha b hb

/-- Pairs that match one to one are followed by a bijective renaming. -/
theorem exists_renaming (h : OneToOne pairs) : ∃ ρ : Equiv.Perm String, Follows ρ pairs := by
  induction pairs with
  | nil => exact ⟨1, by simp [Follows]⟩
  | cons pair rest ih =>
    obtain ⟨ρ, hρ⟩ := ih fun a ha b hb => h a (List.mem_cons_of_mem _ ha) b (List.mem_cons_of_mem _ hb)
    -- what the renaming of the rest gives for the new name, and what it should give, change places
    refine ⟨ρ.trans (Equiv.swap (ρ pair.1) pair.2), fun other hother => ?_⟩
    rw [Equiv.trans_apply]
    rcases List.mem_cons.1 hother with rfl | hmem
    · exact Equiv.swap_apply_left _ _
    · have hsame := h pair List.mem_cons_self other hother
      by_cases hfirst : pair.1 = other.1
      · rw [← hfirst, Equiv.swap_apply_left]
        exact hsame.1 hfirst
      · have hold : ρ other.1 = other.2 := hρ other hmem
        have hsecond : other.2 ≠ pair.2 := fun heq => hfirst (hsame.2 heq.symm)
        have hapart : ρ other.1 ≠ ρ pair.1 := fun heq => hfirst (ρ.injective heq).symm
        rw [Equiv.swap_apply_of_ne_of_ne hapart (hold ▸ hsecond), hold]

end OneToOne

theorem follows_append {ρ : String → String} {pairs more : List (String × String)} :
    Follows ρ (pairs ++ more) ↔ Follows ρ pairs ∧ Follows ρ more := by
  simp only [Follows, List.mem_append, or_imp, forall_and]

/-! ## Another order -/

/-- conditions that are the same but for their order, once the tables of one are renamed -/
def SameConjuncts (ρ : String → String) (condition condition' : Option Expr) : Prop :=
  ∃ tests tests', condition = Expr.conjunction tests ∧ condition' = Expr.conjunction tests' ∧
    (tests.map (Expr.rename ρ)).Perm tests'

namespace Query

/-- The clauses of two queries apart from what they start from: once the tables of one are renamed they are the same,
but for the order of joins and of conditions. -/
structure SameClauses (ρ : String → String) (q q' : Query) : Prop where
  select : q.select.map (SelectItem.rename ρ) = q'.select
  distinct : q.distinct = q'.distinct
  joins : (q.joins.map (Join.rename ρ)).Perm q'.joins
  condition : SameConjuncts ρ q.condition q'.condition
  groupBy : q.groupBy.map (Expr.rename ρ) = q'.groupBy
  having : SameConjuncts ρ q.having q'.having
  orderBy : q.orderBy.map (OrderKey.rename ρ) = q'.orderBy
  page : q.page = q'.page

/-- Two queries are the same but for the order of joins and conditions, also in a derived table that they start from,
once the tables of one are renamed. -/
inductive Reordered (ρ : String → String) : Query → Query → Prop where
  | tables {q q' : Query} : q.SameClauses ρ q' → q.source.map (Source.rename ρ) = q'.source → Reordered ρ q q'
  | derived {q q' inner inner' : Query} {name : String} : q.SameClauses ρ q' → q.source = some (.derived inner name) →
    q'.source = some (.derived inner' (ρ name)) → Reordered ρ inner inner' → Reordered ρ q q'

end Query

end RelQuery.Sql
