/-
The tokens of a statement.

A statement is a list of tokens before it is text: words, signs, blanks, names, literals and bound values. Names and
truth values are spelled by the dialect; a bound value never becomes part of the text, it leaves a placeholder.
-/
import RelQuery.Value

namespace RelQuery.Sql

inductive Word where
  | select | fromSource | whereTrue | and | or | not | as | on | join | inner | left | outer
  | groupBy | having | orderBy | asc | desc | limit | offset | fetch | next | rows | only
  | case | caseWhen | caseThen | caseElse | caseEnd | isIn | like | isNull | isNotNull | existsRow | distinct | null
  | insert | into | values | defaultValues | update | set | delete | returning
deriving DecidableEq, Repr

def Word.text : Word → String
  | .select => "SELECT"
  | .fromSource => "FROM"
  | .whereTrue => "WHERE"
  | .and => "AND"
  | .or => "OR"
  | .not => "NOT"
  | .as => "AS"
  | .on => "ON"
  | .join => "JOIN"
  | .inner => "INNER"
  | .left => "LEFT"
  | .outer => "OUTER"
  | .groupBy => "GROUP BY"
  | .having => "HAVING"
  | .orderBy => "ORDER BY"
  | .asc => "ASC"
  | .desc => "DESC"
  | .limit => "LIMIT"
  | .offset => "OFFSET"
  | .fetch => "FETCH"
  | .next => "NEXT"
  | .rows => "ROWS"
  | .only => "ONLY"
  | .case => "CASE"
  | .caseWhen => "WHEN"
  | .caseThen => "THEN"
  | .caseElse => "ELSE"
  | .caseEnd => "END"
  | .isIn => "IN"
  | .like => "LIKE"
  | .isNull => "IS NULL"
  | .isNotNull => "IS NOT NULL"
  | .existsRow => "EXISTS"
  | .distinct => "DISTINCT"
  | .null => "NULL"
  | .insert => "INSERT"
  | .into => "INTO"
  | .values => "VALUES"
  | .defaultValues => "DEFAULT VALUES"
  | .update => "UPDATE"
  | .set => "SET"
  | .delete => "DELETE"
  | .returning => "RETURNING"

inductive Sign where
  | comma | dot | star | open | close
  | eq | ne | lt | gt | lte | gte | plus | minus | times | divide
  /-- string concatenation, spelled by the dialect -/
  | concat
deriving DecidableEq, Repr

inductive Token where
  | word (w : Word)
  | sign (s : Sign)
  | blank
  | lineBreak
  /-- a table, column or alias -/
  | name (s : String)
  | int (n : Int64)
  /-- a bound beyond the signed range -/
  | natural (n : UInt64)
  | truth (b : Bool)
  /-- a bound value, shown as a placeholder -/
  | bound (v : Value)
  /-- a function name, shown in capitals -/
  | function (s : String)
deriving DecidableEq, Repr

namespace Token

/-- token lists with a comma and a blank between them -/
def commaSeparated : List (List Token) → List Token
  | [] => []
  | [piece] => piece
  | piece :: next :: rest => piece ++ .sign .comma :: .blank :: commaSeparated (next :: rest)

/-- a token list in parentheses -/
def parenthesized (inner : List Token) : List Token :=
  .sign .open :: (inner ++ [.sign .close])

/-- the values bound in a list, in order -/
def boundValues (tokens : List Token) : List Value :=
  tokens.filterMap fun
    | .bound v => some v
    | _ => none

end Token

end RelQuery.Sql
