/-
Three-valued logic, and what the operators of a database do with values.

A condition holds, fails or is unknown; unknown is what null makes of it. Which values other than null count as equal,
what their sum is and whether a text that is no boolean counts as true differ from one database to the next: they are
left open (`Operators`), and nothing depends on them but that integers are equal when they are the same number, which
the constants written for empty connectives rely on.
- `truth_toValue`: a truth value stored as a value is read back as itself.
- `allOf_eq`, `anyOf_eq`: connectives of conditions are those of three-valued logic.
- `apply_toSql`: an operator of a plan and the operator it is written as do the same.
-/
import Mathlib.Tactic
import RelQuery.Statement.Select

namespace RelQuery

/-! ## Truth values -/

/-- the truth of a condition -/
inductive Truth where
  | yes
  | no
  | unknown
deriving DecidableEq, Repr

namespace Truth

def ofBool : Bool → Truth
  | true => yes
  | false => no

def and : Truth → Truth → Truth
  | no, _ => no
  | _, no => no
  | yes, yes => yes
  | _, _ => unknown

def or : Truth → Truth → Truth
  | yes, _ => yes
  | _, yes => yes
  | no, no => no
  | _, _ => unknown

def not : Truth → Truth
  | yes => no
  | no => yes
  | unknown => unknown

/-- a test asked for the other way round -/
def negateIf (negated : Bool) (t : Truth) : Truth := if negated then t.not else t

/-- one thing when a condition holds, another when it fails or is unknown -/
def choose {α : Type} (t : Truth) (a b : α) : α := if t = yes then a else b

/-- a truth value as the value of an expression -/
def toValue : Truth → Value
  | yes => .bool true
  | no => .bool false
  | unknown => .null

@[simp] theorem and_yes (t : Truth) : t.and yes = t := by cases t <;> rfl

@[simp] theorem or_no (t : Truth) : t.or no = t := by cases t <;> rfl

theorem and_assoc (a b c : Truth) : (a.and b).and c = a.and (b.and c) := by
  cases a <;> cases b <;> cases c <;> rfl

theorem or_assoc (a b c : Truth) : (a.or b).or c = a.or (b.or c) := by
  cases a <;> cases b <;> cases c <;> rfl

theorem and_eq_yes {a b : Truth} : a.and b = yes ↔ a = yes ∧ b = yes := by
  cases a <;> cases b <;> simp [Truth.and]

end Truth

/-- whether a value is what a condition gives: a boolean, or null where it is unknown -/
def Value.isCondition : Value → Bool
  | .null | .bool _ => true
  | _ => false

@[simp] theorem Truth.isCondition_toValue (t : Truth) : t.toValue.isCondition := by cases t <;> rfl

/-! ## Operators -/

/-- what a database does with values that are not null, and with the rows of a group -/
structure Operators where
  equal : Value → Value → Bool
  less : Value → Value → Bool
  like : Value → Value → Bool
  plus : Value → Value → Value
  minus : Value → Value → Value
  times : Value → Value → Value
  divide : Value → Value → Value
  concat : Value → Value → Value
  /-- whether a value that is no boolean counts as true -/
  holds : Value → Bool
  /-- a function of the argument values on each row of a group; `true` for different ones only -/
  call : String → Bool → List (List Value) → Value
  /-- whether a value may stand before another in ascending order, null included -/
  before : Value → Value → Bool
  equal_int : ∀ m n : Int64, equal (.int m) (.int n) = decide (m = n)
  call_count : ∀ rows : List (List Value),
    call "COUNT" false rows = .int (Int64.ofNat (rows.countP fun values => values.all fun v => !v.isNull))

namespace Operators

variable (ops : Operators)

/-- what a value means as a condition -/
def truth : Value → Truth
  | .null => .unknown
  | .bool b => .ofBool b
  | v => .ofBool (ops.holds v)

/-- a test of two values, unknown where one of them is null -/
def test (f : Value → Value → Bool) (a b : Value) : Truth :=
  if a.isNull || b.isNull then .unknown else .ofBool (f a b)

/-- a value made of two others, null where one of them is -/
def combine (f : Value → Value → Value) (a b : Value) : Value :=
  if a.isNull || b.isNull then .null else f a b

def equals (a b : Value) : Truth := test ops.equal a b

/-- whether all of the values hold -/
def all (values : List Value) : Truth := values.foldr (fun v t => (ops.truth v).and t) .yes

/-- whether one of the values holds -/
def any (values : List Value) : Truth := values.foldr (fun v t => (ops.truth v).or t) .no

/-- all of the conditions; a single operand stands for itself -/
def allOf : List Value → Value
  | [v] => v
  | values => (ops.all values).toValue

/-- one of the conditions; a single operand stands for itself -/
def anyOf : List Value → Value
  | [v] => v
  | values => (ops.any values).toValue

/-- whether a value is one of a list -/
def member (v : Value) (values : List Value) : Truth := values.foldr (fun w t => (ops.equals v w).or t) .no

@[simp] theorem truth_toValue (t : Truth) : ops.truth t.toValue = t := by cases t <;> rfl

theorem toValue_truth {v : Value} (h : v.isCondition) : (ops.truth v).toValue = v := by
  cases v with
  | null => rfl
  | bool b => cases b <;> rfl
  | int | real | text => cases h

/-- operands that are conditions make a condition of three-valued logic, however many they are -/
theorem allOf_eq {values : List Value} (h : ∀ v ∈ values, v.isCondition) :
    ops.allOf values = (ops.all values).toValue := by
  match values with
  | [] => rfl
  | [v] => simp [allOf, all, ops.toValue_truth (h v (by simp))]
  | _ :: _ :: _ => rfl

theorem anyOf_eq {values : List Value} (h : ∀ v ∈ values, v.isCondition) :
    ops.anyOf values = (ops.any values).toValue := by
  match values with
  | [] => rfl
  | [v] => simp [anyOf, any, ops.toValue_truth (h v (by simp))]
  | _ :: _ :: _ => rfl

theorem equals_int (m n : Int64) : ops.equals (.int m) (.int n) = .ofBool (decide (m = n)) := by
  simp [equals, test, Value.isNull, ops.equal_int]

/-- operators that tell values apart as they are, order integers and count rows -/
def exact : Operators where
  equal a b := a = b
  less a b :=
    match a, b with
    | .int m, .int n => m < n
    | _, _ => false
  like _ _ := false
  plus a _ := a
  minus a _ := a
  times a _ := a
  divide a _ := a
  concat a _ := a
  holds _ := false
  call _ _ rows := .int (Int64.ofNat (rows.countP fun values => values.all fun v => !v.isNull))
  before a b :=
    match a, b with
    | .int m, .int n => m ≤ n
    | _, _ => true
  equal_int := by simp
  call_count _ := rfl

end Operators

/-! ## Binary operators -/

/-- an operator of a plan, applied to two values -/
def BinaryOp.apply (ops : Operators) (a b : Value) : BinaryOp → Value
  | .eq => (ops.equals a b).toValue
  | .ne => (ops.equals a b).not.toValue
  | .lt => (Operators.test ops.less a b).toValue
  | .lte => (Operators.test (fun a b => ops.less a b || ops.equal a b) a b).toValue
  | .gt => (Operators.test ops.less b a).toValue
  | .gte => (Operators.test (fun a b => ops.less a b || ops.equal a b) b a).toValue
  | .add => Operators.combine ops.plus a b
  | .sub => Operators.combine ops.minus a b
  | .mul => Operators.combine ops.times a b
  | .div => Operators.combine ops.divide a b
  | .like => (Operators.test ops.like a b).toValue
  | .concat => Operators.combine ops.concat a b

/-- an operator of a statement, applied to two values -/
def Sql.BinaryOp.apply (ops : Operators) (a b : Value) : Sql.BinaryOp → Value
  | .eq => (ops.equals a b).toValue
  | .ne => (ops.equals a b).not.toValue
  | .lt => (Operators.test ops.less a b).toValue
  | .gt => (Operators.test ops.less b a).toValue
  | .lte => (Operators.test (fun a b => ops.less a b || ops.equal a b) a b).toValue
  | .gte => (Operators.test (fun a b => ops.less a b || ops.equal a b) b a).toValue
  | .and => ((ops.truth a).and (ops.truth b)).toValue
  | .or => ((ops.truth a).or (ops.truth b)).toValue
  | .plus => Operators.combine ops.plus a b
  | .minus => Operators.combine ops.minus a b
  | .times => Operators.combine ops.times a b
  | .divide => Operators.combine ops.divide a b
  | .concat => Operators.combine ops.concat a b
  | .like => (Operators.test ops.like a b).toValue

theorem BinaryOp.apply_toSql (ops : Operators) (op : BinaryOp) (a b : Value) :
    op.toSql.apply ops a b = op.apply ops a b := by
  cases op <;> rfl

end RelQuery
