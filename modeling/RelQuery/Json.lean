/-
JSON documents and their compact text.

Object members keep the order in which they are given; `Json.sorted` builds an object whose keys are in ascending
order, a repeated key keeping its last value. A real that is no number is written `null`.
-/
import RelQuery.Decimal.Layout
import RelQuery.NameMap
import RelQuery.Text.Quoted

namespace RelQuery

inductive Json where
  | null
  | bool (b : Bool)
  | int (n : Int)
  | real (d : Double)
  | text (s : String)
  | array (items : List Json)
  | object (members : List (String × Json))
deriving Repr, Inhabited

namespace Json

/-- a member list as written, keys ascending and unique -/
def sorted (members : List (String × Json)) : Json :=
  object (NameMap.ofList members).entries

/-- `null` or the written value -/
def ofOption {α : Type} (encode : α → Json) : Option α → Json
  | none => null
  | some a => encode a

/-- the text of a real: infinities and NaN have none -/
def realText (d : Double) : String :=
  if d.isFinite then Decimal.Layout.document.write d else "null"

mutual

/-- compact text, without blanks -/
def write : Json → String
  | .null => "null"
  | .bool b => if b then "true" else "false"
  | .int n => toString n
  | .real d => realText d
  | .text s => Text.documentQuote s
  | .array items => "[" ++ writeItems items ++ "]"
  | .object members => "\x7b" ++ writeMembers members ++ "\x7d"

/-- items with commas between them -/
def writeItems : List Json → String
  | [] => ""
  | [item] => item.write
  | item :: next :: rest => item.write ++ "," ++ writeItems (next :: rest)

/-- members with commas between them -/
def writeMembers : List (String × Json) → String
  | [] => ""
  | [(key, value)] => Text.documentQuote key ++ ":" ++ value.write
  | (key, value) :: next :: rest =>
    Text.documentQuote key ++ ":" ++ value.write ++ "," ++ writeMembers (next :: rest)

end

end Json

end RelQuery
