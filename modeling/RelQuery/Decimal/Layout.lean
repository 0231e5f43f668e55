/-
How a double is written out: where positional notation ends, and what marks an exponent.

`Layout` is the record of those decisions and `Layout.write` the one function that follows it. Two layouts are in use:
`Layout.document` for JSON text and `Layout.display` for values shown to people. They agree on the range of positional
notation (leading digit between 10^-5 and 10^15, with a final `.0` on whole numbers) and differ in the sign of a
positive exponent.
-/
import RelQuery.Decimal.Shortest

namespace RelQuery.Decimal

structure Layout where
  /-- least exponent of the leading digit written positionally -/
  positionalFrom : Int
  /-- greatest exponent of the leading digit written positionally -/
  positionalTo : Int
  /-- what stands before a positive exponent -/
  positiveSign : String
deriving DecidableEq, Repr

namespace Layout

/-- JSON text writes the sign of every exponent. -/
def document : Layout := ⟨-5, 15, "+"⟩

/-- Displayed values leave out the sign of a positive exponent. -/
def display : Layout := ⟨-5, 15, ""⟩

end Layout

/-- the digits as text, most significant first -/
def Digits.text (d : Digits) : List Char := Nat.toDigits 10 d.digits

/-- the same number without trailing zeros; `fuel` bounds their count -/
def Digits.trimmed : Nat → Digits → Digits
  | 0, d => d
  | fuel + 1, d =>
    if d.digits != 0 && d.digits % 10 = 0 then Digits.trimmed fuel ⟨d.digits / 10, d.scale + 1⟩ else d

/-- Positional notation: whole numbers end in `.0`, numbers below one begin with `0.`. -/
def positional (text : List Char) (leading : Int) : String :=
  if leading < 0 then
    "0." ++ String.ofList (List.replicate (leading.natAbs - 1) '0' ++ text)
  else
    let whole := leading.toNat + 1
    if text.length ≤ whole then
      String.ofList (text ++ List.replicate (whole - text.length) '0') ++ ".0"
    else
      String.ofList (text.take whole) ++ "." ++ String.ofList (text.drop whole)

/-- Scientific notation: one digit before the point, no point when it is the only one. -/
def scientific (positiveSign : String) (text : List Char) (leading : Int) : String :=
  let mantissa := match text with
    | [] => ""
    | [c] => String.ofList [c]
    | c :: rest => String.ofList (c :: '.' :: rest)
  let exponent := if leading < 0 then "-" ++ toString leading.natAbs else positiveSign ++ toString leading.natAbs
  mantissa ++ "e" ++ exponent

/-- The text of a finite double; the sign of a negative zero is kept. -/
def Layout.write (layout : Layout) (d : Double) : String :=
  let digits := (shortest d).trimmed 20
  let text := digits.text
  let leading := (text.length : Int) - 1 + digits.scale
  let body :=
    if layout.positionalFrom ≤ leading ∧ leading ≤ layout.positionalTo then positional text leading
    else scientific layout.positiveSign text leading
  if d.isNegative then "-" ++ body else body

end RelQuery.Decimal
