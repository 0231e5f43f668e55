/-
The five dialects in which statements are written, and the decisions in which they differ.

Each decision is one function of the dialect: how a name is quoted (the closing quote doubled inside), how truth
values and placeholders are spelled, how a page of rows is asked for, whether there is a concatenation operator and a
RETURNING clause. Everything else about a statement is common to all of them.
- `textsFrom_append`: a statement is written token by token, and all that one part leaves to the next is the number of
  values bound so far.
-/
import RelQuery.Sql.Token
import RelQuery.Text.UpperCase

namespace RelQuery.Sql

inductive Dialect where
  | sqlite
  | duckdb
  | postgres
  | mysql
  | tsql
deriving DecidableEq, Repr, Inhabited

namespace Dialect

def all : List Dialect := [sqlite, duckdb, postgres, mysql, tsql]

def name : Dialect → String
  | sqlite => "sqlite"
  | duckdb => "duckdb"
  | postgres => "postgres"
  | mysql => "mysql"
  | tsql => "tsql"

/-- the dialect of exactly this name -/
def ofName? (s : String) : Option Dialect := all.find? (·.name = s)

/-- other names a dialect goes by -/
def nicknames : List (String × Dialect) := [("postgresql", postgres), ("mssql", tsql)]

/-- The dialect named by a text in any ASCII case, or the text that names none. -/
def read (s : String) : Except String Dialect :=
  let folded := String.ofList (s.toList.map Char.toLower)
  match ofName? folded with
  | some d => .ok d
  | none =>
    match nicknames.lookup folded with
    | some d => .ok d
    | none => .error ("unknown dialect: " ++ folded)

/-! ## Names and literals -/

/-- the characters around a name -/
def quotes : Dialect → Char × Char
  | sqlite | duckdb | postgres => ('"', '"')
  | mysql => ('`', '`')
  | tsql => ('[', ']')

/-- a name between quotes, its closing quotes doubled -/
def quoteChars (d : Dialect) (s : List Char) : List Char :=
  d.quotes.1 :: (s.flatMap (fun c => if c = d.quotes.2 then [c, c] else [c]) ++ [d.quotes.2])

def quote (d : Dialect) (s : String) : String := String.ofList (d.quoteChars s.toList)

/-- whether truth values have words of their own -/
def hasTruthWords : Dialect → Bool
  | duckdb | postgres => true
  | sqlite | mysql | tsql => false

def truthText (d : Dialect) (b : Bool) : String :=
  if d.hasTruthWords then (if b then "true" else "false") else (if b then "1" else "0")

/-- the placeholder of the `n`-th bound value, counted from one -/
def placeholder (d : Dialect) (n : Nat) : String :=
  match d with
  | sqlite | duckdb | mysql => "?"
  | postgres => "$" ++ toString n
  | tsql => "@p" ++ toString n

/-! ## Operators and clauses -/

/-- the concatenation operator as it is spelled -/
def concatText : Dialect → String
  | tsql => "+"
  | _ => "||"

/-- Where the operator means something else, concatenation is a function call. -/
def hasConcatOperator : Dialect → Bool
  | mysql => false
  | _ => true

def hasReturning : Dialect → Bool
  | sqlite | duckdb | postgres => true
  | mysql | tsql => false

/-- whether a page of rows may only be asked for in a stated order -/
def pageNeedsOrder : Dialect → Bool
  | tsql => true
  | _ => false

/-! ## Pages -/

/-- a bound of a page; it is written as a signed number -/
def boundToken (n : UInt64) : Token := .int n.toInt64

/-- `LIMIT n OFFSET m`, either part left out when it is not asked for -/
def standardPage (limit offset : Option UInt64) : List Token :=
  match limit, offset with
  | none, none => []
  | some l, none => [.word .limit, .blank, boundToken l]
  | none, some o => [.word .offset, .blank, boundToken o]
  | some l, some o => [.word .limit, .blank, boundToken l, .blank, .word .offset, .blank, boundToken o]

/-- The same where an offset must follow a limit: `unlimited` stands in for a limit not asked for. -/
def limitedPage (unlimited : Token) (limit offset : Option UInt64) : List Token :=
  match limit, offset with
  | none, some o => [.word .limit, .blank, unlimited, .blank, .word .offset, .blank, boundToken o]
  | _, _ => standardPage limit offset

/-- `OFFSET m ROWS FETCH NEXT n ROWS ONLY`; the offset is always there -/
def fetchPage (limit offset : Option UInt64) : List Token :=
  let start : List Token := [.word .offset, .blank, boundToken (offset.getD 0), .blank, .word .rows]
  match limit with
  | none => start
  | some l =>
    start ++ [.blank, .word .fetch, .blank, .word .next, .blank, boundToken l, .blank, .word .rows, .blank, .word .only]

/-- the clause that asks for a page of rows -/
def page (d : Dialect) (limit offset : Option UInt64) : List Token :=
  match d with
  | sqlite => limitedPage (.int (-1)) limit offset
  | mysql => limitedPage (.natural 18446744073709551615) limit offset
  | duckdb | postgres => standardPage limit offset
  | tsql => fetchPage limit offset

end Dialect

/-! ## Text -/

def Sign.text (d : Dialect) : Sign → String
  | .comma => ","
  | .dot => "."
  | .star => "*"
  | .open => "("
  | .close => ")"
  | .eq => "="
  | .ne => "<>"
  | .lt => "<"
  | .gt => ">"
  | .lte => "<="
  | .gte => ">="
  | .plus => "+"
  | .minus => "-"
  | .times => "*"
  | .divide => "/"
  | .concat => d.concatText

/-- the text of a token that stands alone; a bound value is then the first one -/
def Token.text (d : Dialect) : Token → String
  | .word w => w.text
  | .sign s => s.text d
  | .blank => " "
  | .lineBreak => "\n"
  | .name s => d.quote s
  | .int n => toString n.toInt
  | .natural n => toString n.toNat
  | .truth b => d.truthText b
  | .bound _ => d.placeholder 1
  | .function s => Text.upperCase s

/-- statement text and the values bound to its placeholders, in the order of the placeholders -/
structure Rendered where
  sql : String
  params : List Value
deriving DecidableEq, Repr

namespace Token

/-- the texts of tokens before which `n` values have been bound -/
def textsFrom (d : Dialect) : Nat → List Token → List String
  | _, [] => []
  | n, .bound _ :: rest => d.placeholder (n + 1) :: textsFrom d (n + 1) rest
  | n, token :: rest => token.text d :: textsFrom d n rest

/-- Placeholders are numbered from left to right. -/
def render (d : Dialect) (tokens : List Token) : Rendered :=
  ⟨String.join (textsFrom d 0 tokens), boundValues tokens⟩

theorem boundValues_append (a b : List Token) : boundValues (a ++ b) = boundValues a ++ boundValues b := by
  simp [boundValues]

/-- Tokens are written one after another, the later ones counting on from the values bound by the earlier. -/
theorem textsFrom_append (d : Dialect) (n : Nat) (a b : List Token) :
    textsFrom d n (a ++ b) = textsFrom d n a ++ textsFrom d (n + (boundValues a).length) b := by
  induction a generalizing n with
  | nil => rfl
  | cons token rest ih =>
    cases token with
    | bound v =>
      have h := ih (n + 1)
      simp only [List.cons_append, textsFrom, h, boundValues, List.filterMap_cons, List.length_cons]
      rw [Nat.add_right_comm, Nat.add_assoc]
    | _ => simp [textsFrom, ih, boundValues]

end Token

end RelQuery.Sql
