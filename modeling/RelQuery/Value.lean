/-
Scalar values: what literals, parameters and result cells hold.

Two values are equal when they have the same kind and the same content, a real by its bits; kinds are never mixed.
`ScalarType.coerce` is the one place where a cell changes kind: an integer read for a boolean or real column.
-/
import RelQuery.Json

namespace RelQuery

inductive Value where
  | null
  | bool (b : Bool)
  | int (n : Int64)
  | real (d : Double)
  | text (s : String)
deriving DecidableEq, Repr, Inhabited, Hashable

/-- the declared type of a field -/
inductive ScalarType where
  | int
  | text
  | bool
  | float
deriving DecidableEq, Repr, Inhabited, Hashable

namespace ScalarType

def name : ScalarType → String
  | int => "int"
  | text => "text"
  | bool => "bool"
  | float => "float"

def all : List ScalarType := [int, text, bool, float]

/-- the type of a given name -/
def ofName? (s : String) : Option ScalarType := all.find? (·.name = s)

/-- A cell of a column of this type: storage may hand booleans and whole reals over as integers. -/
def coerce : ScalarType → Value → Value
  | bool, .int n => .bool (n ≠ 0)
  | float, .int n => .real (.ofInt n.toInt)
  | _, v => v

end ScalarType

namespace Value

def isNull : Value → Bool
  | null => true
  | _ => false

/-- a boolean, an integer counting as true unless it is zero -/
def asBool : Value → Option Bool
  | bool b => some b
  | int n => some (n ≠ 0)
  | _ => none

/-- an integer, a boolean counting as one or zero -/
def asInt : Value → Option Int64
  | int n => some n
  | bool b => some (if b then 1 else 0)
  | _ => none

/-- a real, an integer being rounded to the nearest -/
def asReal : Value → Option Double
  | real d => some d
  | int n => some (.ofInt n.toInt)
  | _ => none

def asText : Value → Option String
  | text s => some s
  | _ => none

/-- the plain JSON of a value in a result -/
def toJson : Value → Json
  | null => .null
  | bool b => .bool b
  | int n => .int n.toInt
  | real d => .real d
  | text s => .text s

/-- the tagged JSON of a literal, which tells the kinds apart -/
def toTaggedJson : Value → Json
  | null => .text "Null"
  | bool b => .object [("Bool", .bool b)]
  | int n => .object [("Int", .int n.toInt)]
  | real d => .object [("Float", .real d)]
  | text s => .object [("Text", .text s)]

/-- the text shown for a real -/
def realDisplay (d : Double) : String :=
  if d.isFinite then Decimal.Layout.display.write d
  else if d.isNaN then "NaN"
  else if d.isNegative then "-inf"
  else "inf"

/-- the text shown for a value -/
def display : Value → String
  | null => "NULL"
  | bool b => if b then "true" else "false"
  | int n => toString n.toInt
  | real d => realDisplay d
  | text s => Text.displayQuote s

/-- how many different values a list holds -/
def countDistinct (values : List Value) : Nat := values.eraseDups.length

end Value

end RelQuery
