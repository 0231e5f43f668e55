/-
What the expressions of a plan mean.

An expression is read for one row of the root entity: a field through its relation path, where a path that leads to no
row gives null, and an alias as the expression of its annotation (`Plan.value`). Aggregates and subplans need more than
a row and are left out; `Plan.Rowwise` says that an expression gets by without them, its annotations included.
- `value_congr`: only the aliases that an expression names matter to its value.
-/
import RelQuery.Proofs.Logic

namespace RelQuery

/-! ## Rows -/

/-- a stored row by its columns -/
abbrev Tuple := String → Value

/-- a column of a row that may be missing -/
def cell (row : Option Tuple) (column : String) : Value :=
  match row with
  | some tuple => tuple column
  | none => .null

@[simp] theorem cell_none (column : String) : cell none column = .null := rfl

@[simp] theorem cell_some (tuple : Tuple) (column : String) : cell (some tuple) column = tuple column := rfl

/-- what an expression is read from -/
structure RowView where
  /-- the row that a relation path leads to; the empty path is the row itself -/
  row : List String → Option Tuple
  /-- the fields of the enclosing row -/
  outer : String → Value

/-! ## Values -/

namespace Expr

variable (ops : Operators) (view : RowView) (aliases : String → Value)

mutual

/-- the value of an expression that needs no more than a row -/
def value : Expr → Value
  | .field ref => cell (view.row (ref.hops.map (·.name))) ref.column
  | .aliasRef name => aliases name
  | .literal v => v
  | .binary op left right => op.apply ops left.value right.value
  | .and operands => ops.allOf (valuesOf operands)
  | .or operands => ops.anyOf (valuesOf operands)
  | .not operand => (ops.truth operand.value).not.toValue
  | .isNull operand negated => .bool (operand.value.isNull != negated)
  | .inList operand values negated => ((ops.member operand.value (valuesOf values)).negateIf negated).toValue
  | .case arms none => valueOfArms arms .null
  | .case arms (some e) => valueOfArms arms e.value
  | .outer name => view.outer name
  | .aggregate .. | .correlated _ | .existsRow .. => .null
termination_by structural e => e

def valuesOf : List Expr → List Value
  | [] => []
  | e :: rest => e.value :: valuesOf rest
termination_by structural es => es

/-- the result of the first arm whose test holds -/
def valueOfArms : List (Expr × Expr) → Value → Value
  | [], otherwise => otherwise
  | (test, result) :: rest, otherwise =>
    (ops.truth test.value).choose result.value (valueOfArms rest otherwise)
termination_by structural arms => arms

end

/-- whether an expression is more than a row can tell -/
def needsRows : Expr → Bool
  | .aggregate .. | .correlated _ | .existsRow .. => true
  | _ => false

end Expr

/-! ## Aliases -/

namespace Expr

theorem mem_nodes_self (e : Expr) : e ∈ e.nodes := by
  cases e with
  | aggregate function arg distinct => cases arg <;> simp [nodes]
  | case arms otherwise => cases otherwise <;> simp [nodes]
  | _ => simp [nodes]

/-- the aliases of an expression are nodes of it -/
theorem mem_aliases {e : Expr} {name : String} : name ∈ e.aliases ↔ .aliasRef name ∈ e.nodes := by
  constructor
  · intro h
    obtain ⟨node, hnode, hname⟩ := List.mem_filterMap.1 h
    cases node <;> simp at hname
    exact hname ▸ hnode
  · exact fun h => List.mem_filterMap.2 ⟨_, h, rfl⟩

variable {ops : Operators} {view : RowView} {f g : String → Value}

mutual

theorem value_congr : (e : Expr) → (∀ name ∈ e.aliases, f name = g name) → e.value ops view f = e.value ops view g
  | .field _, _ | .literal _, _ | .outer _, _ | .aggregate .., _ | .correlated _, _ | .existsRow .., _ => rfl
  | .aliasRef name, h => h name (by simp [aliases, nodes])
  | .binary op left right, h => by
    simp only [aliases, nodes, List.filterMap_cons, List.filterMap_append, List.mem_append] at h
    simp only [value, value_congr left fun name hn => h name (.inl hn),
      value_congr right fun name hn => h name (.inr hn)]
  | .and operands, h | .or operands, h => by
    simp only [aliases, nodes, List.filterMap_cons] at h
    simp only [value, valuesOf_congr operands h]
  | .not operand, h | .isNull operand _, h => by
    simp only [aliases, nodes, List.filterMap_cons] at h
    simp only [value, value_congr operand h]
  | .inList operand values _, h => by
    simp only [aliases, nodes, List.filterMap_cons, List.filterMap_append, List.mem_append] at h
    simp only [value, value_congr operand fun name hn => h name (.inl hn),
      valuesOf_congr values fun name hn => h name (.inr hn)]
  | .case arms none, h => by
    simp only [aliases, nodes, List.filterMap_cons, List.append_nil] at h
    exact valueOfArms_congr arms h .null
  | .case arms (some e), h => by
    simp only [aliases, nodes, List.filterMap_cons, List.filterMap_append, List.mem_append] at h
    simp only [value, value_congr e fun name hn => h name (.inr hn)]
    exact valueOfArms_congr arms (fun name hn => h name (.inl hn)) _
termination_by structural e => e

theorem valuesOf_congr : (es : List Expr) →
    (∀ name ∈ (nodesOfList es).filterMap (fun | .aliasRef name => some name | _ => none), f name = g name) →
    valuesOf ops view f es = valuesOf ops view g es
  | [], _ => rfl
  | e :: rest, h => by
    simp only [nodesOfList, List.filterMap_append, List.mem_append] at h
    simp only [valuesOf, value_congr e fun name hn => h name (.inl hn),
      valuesOf_congr rest fun name hn => h name (.inr hn)]
termination_by structural es => es

theorem valueOfArms_congr : (arms : List (Expr × Expr)) →
    (∀ name ∈ (nodesOfArms arms).filterMap (fun | .aliasRef name => some name | _ => none), f name = g name) →
    (otherwise : Value) → valueOfArms ops view f arms otherwise = valueOfArms ops view g arms otherwise
  | [], _, _ => rfl
  | (test, result) :: rest, h, otherwise => by
    simp only [nodesOfArms, List.filterMap_append, List.mem_append] at h
    simp only [valueOfArms, value_congr test fun name hn => h name (.inl (.inl hn)),
      value_congr result fun name hn => h name (.inl (.inr hn)),
      valueOfArms_congr rest (fun name hn => h name (.inr hn)) otherwise]
termination_by structural arms => arms

end

end Expr

namespace Plan

variable (p : Plan) (ops : Operators) (view : RowView)

/-- the value of an alias, annotations followed a number of steps -/
def aliasValue : Nat → String → Value
  | 0, _ => .null
  | budget + 1, name =>
    match p.annotationOf name with
    | none => .null
    | some e => e.value ops view (aliasValue budget)

/-- the value of an expression, an alias standing for its annotation -/
def value (e : Expr) : Value := e.value ops view (p.aliasValue ops view p.aliasBudget)

/-- An expression reaches its parts, and what the annotations of its aliases reach. -/
inductive Reaches : Expr → Expr → Prop where
  | part {e node : Expr} : node ∈ e.nodes → Reaches e node
  | through {e inner node : Expr} {name : String} :
    name ∈ e.aliases → p.annotationOf name = some inner → Reaches inner node → Reaches e node

/-- no aggregate and no subplan is reached from the expression -/
def Rowwise (e : Expr) : Prop := ∀ node, p.Reaches e node → node.needsRows = false

end Plan

end RelQuery
