/-
JSON text read as a raw document.

The reader settles the structure of a text and nothing more: strings are lists of units whose escapes are not yet
combined, numbers keep their digits, and repeated members stay. What a string or number means, and whether it means
anything, is decided only where it is used (`Raw.text?`, `Raw.number?`), so a part that nobody asks for need not make
sense.
-/
import RelQuery.Json

namespace RelQuery.Json

/-- one unit of a string: a character, or the code of a `\u` escape -/
inductive TextUnit where
  | plain (c : Char)
  | code (n : Nat)
deriving DecidableEq, Repr

/-- the digits of a number -/
structure RawNumber where
  negative : Bool
  whole : List Nat
  fraction : Option (List Nat)
  /-- sign and digits of the exponent; `true` is negative -/
  exponent : Option (Bool × List Nat)
deriving DecidableEq, Repr

inductive Raw where
  | null
  | bool (b : Bool)
  | number (n : RawNumber)
  | text (units : List TextUnit)
  | array (items : List Raw)
  | object (members : List (List TextUnit × Raw))
deriving Inhabited

/-! ## Reading -/

def isBlank (c : Char) : Bool := c = ' ' || c = '\n' || c = '\t' || c = '\r'

def skipBlanks (cs : List Char) : List Char := cs.dropWhile isBlank

/-- the value of a hexadecimal digit -/
def hexValue? (c : Char) : Option Nat :=
  if '0' ≤ c ∧ c ≤ '9' then some (c.toNat - 48)
  else if 'a' ≤ c ∧ c ≤ 'f' then some (c.toNat - 87)
  else if 'A' ≤ c ∧ c ≤ 'F' then some (c.toNat - 55)
  else none

/-- the value of a decimal digit -/
def digitValue? (c : Char) : Option Nat := if '0' ≤ c ∧ c ≤ '9' then some (c.toNat - 48) else none

/-- the leading decimal digits -/
def readDigits : List Char → List Nat × List Char
  | [] => ([], [])
  | c :: rest =>
    match digitValue? c with
    | none => ([], c :: rest)
    | some n =>
      let (ns, rest) := readDigits rest
      (n :: ns, rest)

/-- the characters that a one-letter escape can mean -/
def simpleEscape? (c : Char) : Option Char :=
  [('"', '"'), ('\\', '\\'), ('/', '/'), ('b', Char.ofNat 8), ('f', Char.ofNat 12), ('n', '\n'), ('r', '\r'),
    ('t', '\t')].lookup c

/-- the units of a string up to its closing quote -/
def readUnits : List Char → Option (List TextUnit × List Char)
  | [] => none
  | '"' :: rest => some ([], rest)
  | '\\' :: 'u' :: p :: q :: r :: s :: rest => do
    let p ← hexValue? p
    let q ← hexValue? q
    let r ← hexValue? r
    let s ← hexValue? s
    let (units, rest) ← readUnits rest
    return (.code (((p * 16 + q) * 16 + r) * 16 + s) :: units, rest)
  | '\\' :: c :: rest => do
    let c ← simpleEscape? c
    let (units, rest) ← readUnits rest
    return (.plain c :: units, rest)
  | c :: rest =>
    if c.toNat < 32 || c = '\\' then none
    else do
      let (units, rest) ← readUnits rest
      return (.plain c :: units, rest)

/-- the digits before the point: a zero stands alone -/
def readWhole (cs : List Char) : Option (List Nat × List Char) :=
  match readDigits cs with
  | ([], _) => none
  | (0 :: _ :: _, _) => none
  | found => some found

/-- the digits after the point, if there is one -/
def readFraction : List Char → Option (Option (List Nat) × List Char)
  | '.' :: rest =>
    match readDigits rest with
    | ([], _) => none
    | (ns, rest) => some (some ns, rest)
  | cs => some (none, cs)

/-- the sign before the digits of an exponent -/
def readSign : List Char → Bool × List Char
  | '-' :: rest => (true, rest)
  | '+' :: rest => (false, rest)
  | cs => (false, cs)

/-- the exponent, if there is one -/
def readExponent : List Char → Option (Option (Bool × List Nat) × List Char)
  | c :: rest =>
    if c = 'e' || c = 'E' then
      let (negative, rest) := readSign rest
      match readDigits rest with
      | ([], _) => none
      | (ns, rest) => some (some (negative, ns), rest)
    else some (none, c :: rest)
  | [] => some (none, [])

/-- a number after its sign -/
def readNumber (negative : Bool) (cs : List Char) : Option (RawNumber × List Char) := do
  let (whole, cs) ← readWhole cs
  let (fraction, cs) ← readFraction cs
  let (exponent, cs) ← readExponent cs
  return (⟨negative, whole, fraction, exponent⟩, cs)

mutual

/-- a value; `depth` bounds how far values can be nested -/
def readValue (depth : Nat) (cs : List Char) : Option (Raw × List Char) :=
  match depth, skipBlanks cs with
  | 0, _ => none
  | _, [] => none
  | _, 'n' :: 'u' :: 'l' :: 'l' :: rest => some (.null, rest)
  | _, 't' :: 'r' :: 'u' :: 'e' :: rest => some (.bool true, rest)
  | _, 'f' :: 'a' :: 'l' :: 's' :: 'e' :: rest => some (.bool false, rest)
  | _, '"' :: rest => (readUnits rest).map fun (units, rest) => (.text units, rest)
  | _, '-' :: rest => (readNumber true rest).map fun (n, rest) => (.number n, rest)
  | depth + 1, '[' :: rest =>
    match skipBlanks rest with
    | ']' :: rest => some (.array [], rest)
    | rest => (readItems depth rest).map fun (items, rest) => (.array items, rest)
  | depth + 1, '\x7b' :: rest =>
    match skipBlanks rest with
    | '\x7d' :: rest => some (.object [], rest)
    | rest => (readMembers depth rest).map fun (members, rest) => (.object members, rest)
  | _, cs => (readNumber false cs).map fun (n, rest) => (.number n, rest)
termination_by structural depth

/-- the items of an array, of which there is at least one -/
def readItems (depth : Nat) (cs : List Char) : Option (List Raw × List Char) :=
  match depth with
  | 0 => none
  | depth + 1 => do
    let (item, cs) ← readValue depth cs
    match skipBlanks cs with
    | ',' :: rest =>
      let (items, cs) ← readItems depth rest
      return (item :: items, cs)
    | ']' :: rest => return ([item], rest)
    | _ => none
termination_by structural depth

/-- the members of an object, of which there is at least one -/
def readMembers (depth : Nat) (cs : List Char) : Option (List (List TextUnit × Raw) × List Char) :=
  match depth, skipBlanks cs with
  | depth + 1, '"' :: rest => do
    let (key, cs) ← readUnits rest
    match skipBlanks cs with
    | ':' :: rest =>
      let (value, cs) ← readValue depth rest
      match skipBlanks cs with
      | ',' :: rest =>
        let (members, cs) ← readMembers depth rest
        return ((key, value) :: members, cs)
      | '\x7d' :: rest => return ([(key, value)], rest)
      | _ => none
    | _ => none
  | _, _ => none
termination_by structural depth

end

/-- the document that a whole text holds; every step into it takes a character -/
def read? (s : String) : Option Raw :=
  let cs := s.toList
  match readValue (2 * cs.length + 2) cs with
  | some (value, rest) => if (skipBlanks rest).isEmpty then some value else none
  | none => none

/-! ## Meaning -/

/-- The text of units: a leading surrogate needs a trailing one after it, and a trailing one a leading one before. -/
def decodeUnits : List TextUnit → Option (List Char)
  | [] => some []
  | .plain c :: rest => (decodeUnits rest).map (c :: ·)
  | .code n :: rest =>
    if n < 0xD800 || 0xDFFF < n then (decodeUnits rest).map (Char.ofNat n :: ·)
    else if 0xDBFF < n then none
    else
      match rest with
      | .code m :: rest =>
        if 0xDC00 ≤ m && m ≤ 0xDFFF then
          (decodeUnits rest).map (Char.ofNat (0x10000 + (n - 0xD800) * 1024 + (m - 0xDC00)) :: ·)
        else none
      | _ => none

/-- a number as it is used -/
inductive Number where
  | int (n : Int)
  | real (d : Double)
deriving DecidableEq, Repr

/-- the significant part and power of ten of a number, the significant part in 64 bits -/
structure Scaled where
  significand : Nat
  exponent : Int
  /-- whether a digit did not fit any more -/
  full : Bool
deriving DecidableEq, Repr

namespace Scaled

def fits (s : Scaled) (digit : Nat) : Bool := s.significand * 10 + digit < UInt64.size

/-- A digit before the point: what does not fit still counts as a place. -/
def pushWhole (s : Scaled) (digit : Nat) : Scaled :=
  if !s.full && s.fits digit then { s with significand := s.significand * 10 + digit }
  else { s with exponent := s.exponent + 1, full := true }

/-- A digit after the point: from the first that does not fit on they are dropped. -/
def pushFraction (s : Scaled) (digit : Nat) : Scaled :=
  if !s.full && s.fits digit then
    { s with significand := s.significand * 10 + digit, exponent := s.exponent - 1 }
  else { s with full := true }

end Scaled

/-- a power of ten, correctly rounded -/
def powerOfTen (n : Nat) : Float := Float.ofScientific 1 false n

/-- `f` times a power of ten by one multiplication or division; a power beyond the range is taken in steps -/
def scaleByTen : Nat → Float → Int → Option Float
  | 0, f, _ => some f
  | steps + 1, f, exponent =>
    if exponent.natAbs ≤ 308 then
      if exponent < 0 then some (f / powerOfTen exponent.natAbs)
      else
        let product := f * powerOfTen exponent.natAbs
        if product.isInf then none else some product
    else if f == 0 then some f
    else if exponent < 0 then scaleByTen steps (f / powerOfTen 308) (exponent + 308)
    else none

/-- the double of a number with a sign, unless it is out of range -/
def realOf (negative : Bool) (s : Scaled) : Option Double :=
  (scaleByTen 8 s.significand.toUInt64.toFloat s.exponent).map fun f => ⟨(if negative then -f else f).toBits⟩

/-- the exponent that is written, cut off far beyond the range of doubles -/
def writtenExponent (digits : List Nat) : Nat := digits.foldl (fun n d => min (n * 10 + d) 2147483648) 0

namespace RawNumber

/-- Whole numbers of 64 bits are integers; a negative zero and everything else is real. -/
def value? (n : RawNumber) : Option Number :=
  let start := n.whole.foldl Scaled.pushWhole ⟨0, 0, false⟩
  match n.fraction, n.exponent with
  | none, none =>
    if start.full then (realOf n.negative start).map .real
    else if !n.negative then some (.int start.significand)
    else if start.significand = 0 || start.significand > Nat.pow 2 63 then (realOf true start).map .real
    else some (.int (-(start.significand : Int)))
  | fraction, exponent =>
    let scaled := (fraction.getD []).foldl Scaled.pushFraction { start with full := false }
    match exponent with
    | none => (realOf n.negative scaled).map .real
    | some (negative, digits) =>
      let written := writtenExponent digits
      if written ≥ 2147483648 then
        if scaled.significand ≠ 0 && !negative then none
        else (realOf n.negative ⟨0, 0, false⟩).map .real
      else
        let shift : Int := if negative then -(written : Int) else written
        (realOf n.negative { scaled with exponent := scaled.exponent + shift }).map .real

end RawNumber

namespace Raw

def text? : Raw → Option String
  | .text units => (decodeUnits units).map String.ofList
  | _ => none

def bool? : Raw → Option Bool
  | .bool b => some b
  | _ => none

def number? : Raw → Option Number
  | .number n => n.value?
  | _ => none

def int? (raw : Raw) : Option Int := do
  match ← raw.number? with
  | .int n => some n
  | .real _ => none

/-- a real, whole numbers being rounded to the nearest -/
def real? (raw : Raw) : Option Double := do
  match ← raw.number? with
  | .int n => some (.ofInt n)
  | .real d => some d

/-- the members of an object, their names read -/
def members? : Raw → Option (List (String × Raw))
  | .object members => members.mapM fun member => (decodeUnits member.1).map fun key => (String.ofList key, member.2)
  | _ => none

end Raw

end RelQuery.Json
