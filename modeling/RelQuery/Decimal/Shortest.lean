/-
The shortest decimal that reads back as a given double.

A decimal reads back as `d` when it lies in the interval of reals that round to `d`; its ends belong to it when the
mantissa is even. `shortest` looks at ever finer grids of decimals, 1 digit, 2 digits and so on: the first grid with a
point in the interval wins, of two points the one nearer to `d`, of two equally near the even one. Seventeen digits
always suffice.
-/
import RelQuery.Double

namespace RelQuery.Decimal

/-- a positive decimal `digits * 10 ^ scale` -/
structure Digits where
  digits : Nat
  scale : Int
deriving DecidableEq, Repr

/-- an exact positive rational, as numerator and denominator -/
structure Ratio where
  num : Nat
  den : Nat
deriving DecidableEq, Repr

/-- `m * b ^ e` as a ratio -/
def Ratio.scaled (m b : Nat) (e : Int) : Ratio :=
  if e < 0 then ⟨m, Nat.pow b e.natAbs⟩ else ⟨m * Nat.pow b e.natAbs, 1⟩

def Ratio.lt (a b : Ratio) : Bool := a.num * b.den < b.num * a.den

def Ratio.le (a b : Ratio) : Bool := a.num * b.den ≤ b.num * a.den

/-- the reals that round to one double -/
structure Interval where
  low : Ratio
  high : Ratio
  closed : Bool
deriving DecidableEq, Repr

def Interval.contains (i : Interval) (r : Ratio) : Bool :=
  if i.closed then i.low.le r && r.le i.high else i.low.lt r && r.lt i.high

/-- Half a gap on either side of the value; in quarter units the lower gap may be the narrow one. -/
def intervalOf (d : Double) : Interval :=
  let v := d.magnitude
  let lowGap := if d.hasNarrowLowerGap then 1 else 2
  { low := .scaled (4 * v.mantissa - lowGap) 2 (v.exponent - 2)
    high := .scaled (4 * v.mantissa + 2) 2 (v.exponent - 2)
    closed := v.mantissa % 2 = 0 }

/-- the exact value of a finite double, without its sign -/
def valueOf (d : Double) : Ratio := .scaled d.magnitude.mantissa 2 d.magnitude.exponent

/-- how many decimal digits a number has, zero having one -/
def digitCount (n : Nat) : Nat := (Nat.toDigits 10 n).length

/-- The exponent of the leading digit of a positive double: 400 places show a digit of each of them. -/
def leadingExponent (r : Ratio) : Int :=
  (digitCount (r.num * Nat.pow 10 400 / r.den) : Int) - 401

/-- `r` in units of `10 ^ scale`, cut to an integer -/
def floorAt (r : Ratio) (scale : Int) : Nat :=
  if scale < 0 then r.num * Nat.pow 10 scale.natAbs / r.den else r.num / (r.den * Nat.pow 10 scale.natAbs)

/-- Of the two neighbours `n` and `n + 1` of `r` on the grid of `10 ^ scale`, the one nearer, a tie to the even one. -/
def nearer (r : Ratio) (n : Nat) (scale : Int) : Nat :=
  let middle := Ratio.scaled (10 * n + 5) 10 (scale - 1)
  if r.lt middle then n else if middle.lt r then n + 1 else n + n % 2

/-- the point of the grid of `10 ^ scale` that reads back, if there is one -/
def pointOn (i : Interval) (r : Ratio) (scale : Int) : Option Nat :=
  let n := floorAt r scale
  let below := n != 0 && i.contains (.scaled n 10 scale)
  let above := i.contains (.scaled (n + 1) 10 scale)
  if below && above then some (nearer r n scale)
  else if below then some n
  else if above then some (n + 1)
  else none

/-- the first grid with a point, from coarse to fine; `n` grids are left to try -/
def search (i : Interval) (r : Ratio) : Nat → Int → Digits
  | 0, scale => ⟨floorAt r scale, scale⟩
  | n + 1, scale =>
    match pointOn i r scale with
    | some digits => ⟨digits, scale⟩
    | none => search i r n (scale - 1)

/-- The shortest digits of a finite double without its sign; zero has the digit 0. -/
def shortest (d : Double) : Digits :=
  let r := valueOf d
  if r.num = 0 then ⟨0, 0⟩ else search (intervalOf d) r 17 (leadingExponent r)

end RelQuery.Decimal
