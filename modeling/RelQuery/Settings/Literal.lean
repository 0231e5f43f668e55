/-
Words, strings and numbers as they stand in a settings document.

A string has one of four quotings: double quotes, in which characters can be escaped, or single quotes, in which they
cannot, and either threefold around several lines. Every reader takes the characters that are left and returns what it
has read with those after it.
-/
import RelQuery.Json.Decode

namespace RelQuery.Settings

/-! ## Blanks -/

def isBlank (c : Char) : Bool := c = ' ' || c = '\t'

def skipBlanks (cs : List Char) : List Char := cs.dropWhile isBlank

/-- characters that may not stand as they are in a comment or on a line of a string -/
def isControl (c : Char) : Bool := (c.toNat < 32 && c ≠ '\t') || c.toNat = 127

/-- what follows a line end, if there is one here -/
def lineEnd? : List Char → Option (List Char)
  | '\n' :: rest => some rest
  | '\r' :: '\n' :: rest => some rest
  | _ => none

/-- what follows blanks and line ends -/
def skipLines : Nat → List Char → List Char
  | 0, cs => cs
  | fuel + 1, cs =>
    match lineEnd? (skipBlanks cs) with
    | some rest => skipLines fuel rest
    | none => skipBlanks cs

/-- what follows a comment, up to its line end -/
def skipComment : List Char → List Char
  | '#' :: rest => rest.dropWhile fun c => !isControl c
  | cs => cs

/-- what follows blanks, line ends and comments -/
def skipSpaceWithin : Nat → List Char → List Char
  | 0, cs => cs
  | fuel + 1, cs =>
    let cs := skipComment (skipBlanks cs)
    match lineEnd? cs with
    | some rest => skipSpaceWithin fuel rest
    | none => cs

/-- what follows the space between the parts of a table or a list -/
def skipSpace (cs : List Char) : List Char := skipSpaceWithin (cs.length + 1) cs

/-- what follows the rest of a line that holds nothing more -/
def closeLine? (cs : List Char) : Option (List Char) :=
  match skipComment (skipBlanks cs) with
  | [] => some []
  | cs => lineEnd? cs

/-! ## Strings -/

/-- the characters that a one-letter escape can mean -/
def simpleEscape? (c : Char) : Option Char :=
  [('"', '"'), ('\\', '\\'), ('b', Char.ofNat 8), ('e', Char.ofNat 27), ('f', Char.ofNat 12), ('n', '\n'),
    ('r', '\r'), ('t', '\t')].lookup c

/-- how many hexadecimal digits follow the letter of an escape that gives a code point -/
def escapeWidth? (c : Char) : Option Nat := [('x', 2), ('u', 4), ('U', 8)].lookup c

/-- the value of hexadecimal digits -/
def hexNumber? (cs : List Char) : Option Nat := do
  let ns ← cs.mapM Json.hexValue?
  return ns.foldl (fun n d => n * 16 + d) 0

/-- the character of a code point -/
def character? (n : Nat) : Option Char := if n.isValidChar then some (Char.ofNat n) else none

/-- the character whose code point is written with a number of digits -/
def readCodePoint? (width : Nat) (cs : List Char) : Option (Char × List Char) := do
  let digits := cs.take width
  if digits.length < width then none
  else
    let c ← character? (← hexNumber? digits)
    return (c, cs.drop width)

/-- the character of an escape after its backslash -/
def readEscape? : List Char → Option (Char × List Char)
  | [] => none
  | c :: rest =>
    match escapeWidth? c with
    | some width => readCodePoint? width rest
    | none => (simpleEscape? c).map fun c => (c, rest)

/-- a string in double quotes, after the opening one -/
def readBasic? : Nat → List Char → Option (List Char × List Char)
  | 0, _ => none
  | _, [] => none
  | _, '"' :: rest => some ([], rest)
  | fuel + 1, '\\' :: rest => do
    let (c, rest) ← readEscape? rest
    let (cs, rest) ← readBasic? fuel rest
    return (c :: cs, rest)
  | fuel + 1, c :: rest =>
    if isControl c then none
    else do
      let (cs, rest) ← readBasic? fuel rest
      return (c :: cs, rest)

/-- a string in single quotes, after the opening one; nothing is escaped in it -/
def readLiteral? : List Char → Option (List Char × List Char)
  | [] => none
  | '\'' :: rest => some ([], rest)
  | c :: rest =>
    if isControl c then none
    else do
      let (cs, rest) ← readLiteral? rest
      return (c :: cs, rest)

/-- a string in three double quotes, after the opening ones; a backslash at a line end joins the lines -/
def readBasicLines? : Nat → List Char → Option (List Char × List Char)
  | 0, _ => none
  | _, [] => none
  | _, '"' :: '"' :: '"' :: rest => some ([], rest)
  | fuel + 1, '\\' :: rest =>
    match lineEnd? (skipBlanks rest) with
    | some rest => readBasicLines? fuel (skipLines rest.length rest)
    | none => do
      let (c, rest) ← readEscape? rest
      let (cs, rest) ← readBasicLines? fuel rest
      return (c :: cs, rest)
  | fuel + 1, c :: rest =>
    match lineEnd? (c :: rest) with
    | some rest => do
      let (cs, rest) ← readBasicLines? fuel rest
      return ('\n' :: cs, rest)
    | none =>
      if isControl c then none
      else do
        let (cs, rest) ← readBasicLines? fuel rest
        return (c :: cs, rest)

/-- a string in three single quotes, after the opening ones -/
def readLiteralLines? : Nat → List Char → Option (List Char × List Char)
  | 0, _ => none
  | _, [] => none
  | _, '\'' :: '\'' :: '\'' :: rest => some ([], rest)
  | fuel + 1, c :: rest =>
    match lineEnd? (c :: rest) with
    | some rest => do
      let (cs, rest) ← readLiteralLines? fuel rest
      return ('\n' :: cs, rest)
    | none =>
      if isControl c then none
      else do
        let (cs, rest) ← readLiteralLines? fuel rest
        return (c :: cs, rest)

/-- The first line end of a string of several lines does not belong to it. -/
def dropFirstLineEnd (cs : List Char) : List Char := (lineEnd? cs).getD cs

/-- a string in one of the four quotings -/
def readString? : List Char → Option (String × List Char)
  | '"' :: '"' :: '"' :: rest =>
    (readBasicLines? (rest.length + 1) (dropFirstLineEnd rest)).map fun (cs, rest) => (String.ofList cs, rest)
  | '\'' :: '\'' :: '\'' :: rest =>
    (readLiteralLines? (rest.length + 1) (dropFirstLineEnd rest)).map fun (cs, rest) => (String.ofList cs, rest)
  | '"' :: rest => (readBasic? (rest.length + 1) rest).map fun (cs, rest) => (String.ofList cs, rest)
  | '\'' :: rest => (readLiteral? rest).map fun (cs, rest) => (String.ofList cs, rest)
  | _ => none

/-! ## Keys -/

def isBare (c : Char) : Bool := c.isAlphanum || c = '_' || c = '-'

/-- a key of one word, bare or quoted -/
def readKey? : List Char → Option (String × List Char)
  | '"' :: rest => (readBasic? (rest.length + 1) rest).map fun (cs, rest) => (String.ofList cs, rest)
  | '\'' :: rest => (readLiteral? rest).map fun (cs, rest) => (String.ofList cs, rest)
  | cs =>
    let word := cs.takeWhile isBare
    if word.isEmpty then none else some (String.ofList word, cs.dropWhile isBare)

/-- keys joined by dots, with blanks around each of them; `fuel` bounds their count -/
def readPathWithin? : Nat → List Char → Option (List String × List Char)
  | 0, _ => none
  | fuel + 1, cs => do
    let (key, cs) ← readKey? (skipBlanks cs)
    match skipBlanks cs with
    | '.' :: rest =>
      let (keys, cs) ← readPathWithin? fuel rest
      return (key :: keys, cs)
    | cs => return ([key], cs)

/-- keys joined by dots, with the blanks around them -/
def readPath? (cs : List Char) : Option (List String × List Char) := readPathWithin? (cs.length + 1) cs

/-! ## Numbers -/

/-- digits of a base, with single underscores between them -/
def digits? (valueOf : Char → Option Nat) : List Char → Option (List Nat)
  | [] => none
  | [c] => (valueOf c).map ([·])
  | c :: '_' :: rest => do
    let n ← valueOf c
    let ns ← digits? valueOf rest
    return n :: ns
  | c :: rest => do
    let n ← valueOf c
    let ns ← digits? valueOf rest
    return n :: ns

/-- the digit values below a base -/
def digitBelow (base : Nat) (c : Char) : Option Nat := (Json.hexValue? c).filter (· < base)

def numberOf (base : Nat) (ns : List Nat) : Nat := ns.foldl (fun n d => n * base + d) 0

/-- decimal digits without a leading zero -/
def decimal? (word : List Char) : Option Nat := do
  let ns ← digits? (digitBelow 10) word
  match ns with
  | 0 :: _ :: _ => none
  | ns => some (numberOf 10 ns)

/-- a whole number: decimal with a sign or none, or with a base in front -/
def wholeNumber? : List Char → Option Int
  | '0' :: 'x' :: word => (digits? (digitBelow 16) word).map fun ns => (numberOf 16 ns : Int)
  | '0' :: 'o' :: word => (digits? (digitBelow 8) word).map fun ns => (numberOf 8 ns : Int)
  | '0' :: 'b' :: word => (digits? (digitBelow 2) word).map fun ns => (numberOf 2 ns : Int)
  | '-' :: word => (decimal? word).map fun n => -(n : Int)
  | '+' :: word => (decimal? word).map fun n => (n : Int)
  | word => (decimal? word).map fun n => (n : Int)

end RelQuery.Settings
