/-
The lines of a settings document.

A line is a header `[path]`, an assignment `path = value`, empty, or a comment from `#` on. A path is a key or keys
joined by dots; a value is a string, a whole number, a truth value, an empty table or list, or a table whose only key
has an empty table or list. No setting is anything else, such as a date or a real, so a document that has one is
refused, as is a header of a list of tables.
-/
import RelQuery.Settings.Literal

namespace RelQuery.Settings

inductive Entry where
  | text (s : String)
  | whole (n : Int)
  | truth (b : Bool)
  /-- a table or a list with nothing in it -/
  | empty
  /-- a choice written as a table with its name as the only key -/
  | choice (name : String)
deriving DecidableEq, Repr

inductive Line where
  /-- what follows is assigned in the table of this path -/
  | header (path : List String)
  | assignment (path : List String) (entry : Entry)
deriving DecidableEq, Repr

/-! ## Values -/

/-- what follows an empty table or list -/
def skipEmpty? : List Char → Option (List Char)
  | '\x7b' :: rest =>
    match skipSpace rest with
    | '\x7d' :: rest => some rest
    | _ => none
  | '[' :: rest =>
    match skipSpace rest with
    | ']' :: rest => some rest
    | _ => none
  | _ => none

/-- The last member of a table may have a comma after it. -/
def skipComma : List Char → List Char
  | ',' :: rest => rest
  | cs => cs

/-- a table after its opening brace, with one key that has an empty table or list -/
def readChoice? (cs : List Char) : Option (String × List Char) := do
  let (name, cs) ← readKey? (skipSpace cs)
  match skipSpace cs with
  | '=' :: rest =>
    let cs ← skipEmpty? (skipSpace rest)
    match skipSpace (skipComma (skipSpace cs)) with
    | '\x7d' :: rest => some (name, rest)
    | _ => none
  | _ => none

/-- a table or a list -/
def readTable? (cs : List Char) : Option (Entry × List Char) :=
  match skipEmpty? cs with
  | some rest => some (.empty, rest)
  | none =>
    match cs with
    | '\x7b' :: rest => (readChoice? rest).map fun (name, rest) => (.choice name, rest)
    | _ => none

/-- characters of an unquoted value -/
def isWordChar (c : Char) : Bool := isBare c || c = '+'

/-- a truth value or a whole number -/
def readWord? (cs : List Char) : Option (Entry × List Char) :=
  let word := cs.takeWhile isWordChar
  let rest := cs.dropWhile isWordChar
  if word = ['t', 'r', 'u', 'e'] then some (.truth true, rest)
  else if word = ['f', 'a', 'l', 's', 'e'] then some (.truth false, rest)
  else (wholeNumber? word).map fun n => (.whole n, rest)

def readEntry? (cs : List Char) : Option (Entry × List Char) :=
  match cs with
  | [] => none
  | c :: _ =>
    if c = '"' || c = '\'' then (readString? cs).map fun (s, rest) => (.text s, rest)
    else if c = '\x7b' || c = '[' then readTable? cs
    else readWord? cs

/-! ## Lines -/

/-- a header, after its opening bracket -/
def readHeader? (cs : List Char) : Option (Line × List Char) := do
  let (path, cs) ← readPath? cs
  match cs with
  | ']' :: rest =>
    let cs ← closeLine? rest
    return (.header path, cs)
  | _ => none

def readAssignment? (cs : List Char) : Option (Line × List Char) := do
  let (path, cs) ← readPath? cs
  match cs with
  | '=' :: rest =>
    let (entry, cs) ← readEntry? (skipBlanks rest)
    let cs ← closeLine? cs
    return (.assignment path entry, cs)
  | _ => none

/-- the lines that say something; `fuel` bounds the count of all lines -/
def readLinesWithin? : Nat → List Char → Option (List Line)
  | 0, _ => none
  | fuel + 1, cs =>
    match skipBlanks cs with
    | [] => some []
    | c :: rest =>
      if c = '#' || c = '\n' || c = '\r' then do
        let cs ← closeLine? (c :: rest)
        readLinesWithin? fuel cs
      else do
        let (line, cs) ← if c = '[' then readHeader? rest else readAssignment? (c :: rest)
        let lines ← readLinesWithin? fuel cs
        return line :: lines

/-- a document without the mark that some editors put at its beginning -/
def withoutMark : List Char → List Char
  | c :: rest => if c.toNat = 0xFEFF then rest else c :: rest
  | [] => []

/-- the lines of a document that say something -/
def readLines? (s : String) : Option (List Line) :=
  let cs := withoutMark s.toList
  readLinesWithin? (cs.length + 1) cs

end RelQuery.Settings
