/-
IEEE 754 doubles as bit patterns.

A stored real is compared, hashed and sent to storage by its 64 bits: two zeros of opposite sign differ, and a NaN
equals itself. `Magnitude` is the exact rational value of a finite pattern, `m * 2^q`, which is what decimal text is
computed from; `Double.ofInt` rounds an integer to the nearest double, a half to the even neighbour.
-/
namespace RelQuery

/-- a double, known by its bit pattern -/
structure Double where
  bits : UInt64
deriving DecidableEq, Repr, Inhabited, Hashable

namespace Double

/-- the sign bit -/
def isNegative (d : Double) : Bool := d.bits.toNat / Nat.pow 2 63 = 1

/-- the eleven exponent bits -/
def exponentField (d : Double) : Nat := d.bits.toNat / Nat.pow 2 52 % Nat.pow 2 11

/-- the fifty-two fraction bits -/
def fractionField (d : Double) : Nat := d.bits.toNat % Nat.pow 2 52

/-- neither an infinity nor a NaN -/
def isFinite (d : Double) : Bool := d.exponentField < 2047

def isNaN (d : Double) : Bool := d.exponentField = 2047 && d.fractionField != 0

/-- the value without its sign: `mantissa * 2 ^ exponent` -/
structure Magnitude where
  mantissa : Nat
  exponent : Int
deriving DecidableEq, Repr

/-- The value of a finite pattern without its sign; subnormals share the least exponent. -/
def magnitude (d : Double) : Magnitude :=
  if d.exponentField = 0 then ⟨d.fractionField, -1074⟩
  else ⟨Nat.pow 2 52 + d.fractionField, (d.exponentField : Int) - 1075⟩

/-- The gap to the next smaller double is half as wide at a power of two, the least normal one apart. -/
def hasNarrowLowerGap (d : Double) : Bool := d.fractionField = 0 && d.exponentField > 1

/-- the pattern with the given sign, exponent field and fraction -/
def ofFields (negative : Bool) (exponent fraction : Nat) : Double :=
  ⟨UInt64.ofNat ((if negative then Nat.pow 2 63 else 0) + exponent * Nat.pow 2 52 + fraction)⟩

/-- `n / 2^s` to the nearest integer, a half to the even neighbour -/
def roundShift (n s : Nat) : Nat :=
  let unit := Nat.pow 2 s
  let quotient := n / unit
  let twiceRest := 2 * (n % unit)
  if twiceRest < unit then quotient
  else if twiceRest = unit then quotient + quotient % 2
  else quotient + 1

/-- The double nearest to an integer of at most 64 bits; a carry out of the fraction moves into the exponent. -/
def ofInt (n : Int) : Double :=
  let size := n.natAbs
  if size = 0 then ⟨0⟩
  else
    let top := size.log2
    let scaled := if top ≤ 52 then size * Nat.pow 2 (52 - top) else roundShift size (top - 52)
    ofFields (n < 0) (1022 + top) scaled

end Double

end RelQuery
