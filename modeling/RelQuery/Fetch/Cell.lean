/-
Cells as a database keeps them.

The database knows integers, reals, text and bytes. A truth value is kept as one or zero and a real that is no number
as null; everything else comes back as it went in. Text comes back only when its bytes are well-formed, and plain
bytes never.
-/
import RelQuery.Fetch.Storage
import RelQuery.Text.Utf8

namespace RelQuery

inductive Cell where
  | null
  | integer (n : Int64)
  | real (d : Double)
  | text (data : List UInt8)
  | blob (data : List UInt8)
deriving DecidableEq, Repr

namespace Cell

/-- the cell in which a value is kept -/
def ofValue : Value → Cell
  | .null => .null
  | .bool b => .integer (if b then 1 else 0)
  | .int n => .integer n
  | .real d => if d.isNaN then .null else .real d
  | .text s => .text s.toUTF8.toList

/-- the value of a cell in the given column -/
def toValue (index : Nat) : Cell → Except StorageError Value
  | .null => .ok .null
  | .integer n => .ok (.int n)
  | .real d => .ok (.real d)
  | .text data =>
    match Text.decode data with
    | .ok s => .ok (.text s)
    | .error fault => .error (.conversion index fault.message)
  | .blob _ => .error (.conversion index "blob columns are not supported")

/-- the values of a row from column `index` on, or the first column that has none -/
def rowFrom (index : Nat) : List Cell → Except StorageError Row
  | [] => return []
  | cell :: rest => do
    let v ← cell.toValue index
    let row ← rowFrom (index + 1) rest
    return v :: row

end Cell

end RelQuery
