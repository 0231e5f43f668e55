/-
Statement trees written as tokens.

Operands of an operator stand in parentheses exactly when they are operator expressions other than a negation
(`isOperation`), so precedence decides only how a negated operand reads. An empty IN list, which is not a statement, is
written as the constant comparison it means. Each clause of a query begins a line.
-/
import RelQuery.Sql.Dialect
import RelQuery.Sql.Tree

namespace RelQuery.Sql

def BinaryOp.token : BinaryOp → Token
  | .eq => .sign .eq
  | .ne => .sign .ne
  | .lt => .sign .lt
  | .gt => .sign .gt
  | .lte => .sign .lte
  | .gte => .sign .gte
  | .and => .word .and
  | .or => .word .or
  | .plus => .sign .plus
  | .minus => .sign .minus
  | .times => .sign .times
  | .divide => .sign .divide
  | .concat => .sign .concat
  | .like => .word .like

def SortDirection.word : SortDirection → Word
  | .asc => .asc
  | .desc => .desc

/-- ` AS alias`, or nothing -/
def aliasTokens : Option String → List Token
  | none => []
  | some aliasName => [.blank, .word .as, .blank, .name aliasName]

/-- `table.`, or nothing -/
def qualifierTokens : Option String → List Token
  | none => []
  | some table => [.name table, .sign .dot]

def TableRef.tokens (t : TableRef) : List Token := .name t.table :: aliasTokens t.aliasName

def JoinKind.tokens : JoinKind → List Token
  | .inner => [.word .inner]
  | .left => [.word .left, .blank, .word .outer]

/-- whether an expression stands in parentheses as an operand -/
def Expr.isOperation : Expr → Bool
  | .binary .. | .inList .. | .inQuery .. | .isNull .. => true
  | _ => false

/-- parentheses around the tokens of an operation -/
def operandTokens (e : Expr) (tokens : List Token) : List Token :=
  if e.isOperation then Token.parenthesized tokens else tokens

/-- the keyword that negates a membership test -/
def negationTokens (negated : Bool) : List Token :=
  if negated then [.blank, .word .not] else []

/-- the constant an empty IN list stands for -/
def emptyMembership (negated : Bool) : List Token :=
  [.truth negated, .blank, .sign .eq, .blank, .truth true]

/-- a line that begins with a keyword -/
def clause (w : Word) (body : List Token) : List Token := .lineBreak :: .word w :: .blank :: body

/-- `ORDER BY (SELECT NULL)` names an order without imposing one. -/
def anyOrder : List Token :=
  clause .orderBy (Token.parenthesized [.word .select, .blank, .word .null])

mutual

def Expr.tokens (d : Dialect) : Expr → List Token
  | .column table name => qualifierTokens table ++ [.name name]
  | .int n => [.int n]
  | .param .null => [.word .null]
  | .param v => [.bound v]
  | .binary op left right =>
    if op = .concat && !d.hasConcatOperator then
      .function "CONCAT" :: Token.parenthesized (left.tokens d ++ .sign .comma :: .blank :: right.tokens d)
    else
      operandTokens left (left.tokens d) ++ .blank :: op.token :: .blank :: operandTokens right (right.tokens d)
  | .not e => .word .not :: .blank :: operandTokens e (e.tokens d)
  | .call function args distinct =>
    .function function :: Token.parenthesized
      ((if distinct then [.word .distinct, .blank] else []) ++ Token.commaSeparated (exprTokens d args))
  | .case arms otherwise =>
    .word .case :: (armTokens d arms
      ++ (match otherwise with
        | none => []
        | some e => .blank :: .word .caseElse :: .blank :: e.tokens d)
      ++ [.blank, .word .caseEnd])
  | .subquery q => Token.parenthesized (q.tokens d)
  | .existsRow q negated =>
    (if negated then [.word .not, .blank] else [])
      ++ .word .existsRow :: .blank :: Token.parenthesized (q.tokens d)
  | .inList e values negated =>
    if values.isEmpty then emptyMembership negated
    else
      operandTokens e (e.tokens d) ++ negationTokens negated
        ++ .blank :: .word .isIn :: .blank :: Token.parenthesized (Token.commaSeparated (exprTokens d values))
  | .inQuery e q negated =>
    operandTokens e (e.tokens d) ++ negationTokens negated
      ++ .blank :: .word .isIn :: .blank :: Token.parenthesized (q.tokens d)
  | .isNull e negated =>
    operandTokens e (e.tokens d) ++ [.blank, .word (if negated then .isNotNull else .isNull)]
  | .star table => qualifierTokens table ++ [.sign .star]
  | .paren e => Token.parenthesized (e.tokens d)
termination_by structural e => e

/-- each expression of a list -/
def exprTokens (d : Dialect) : List Expr → List (List Token)
  | [] => []
  | e :: rest => e.tokens d :: exprTokens d rest
termination_by structural es => es

/-- the arms of a CASE -/
def armTokens (d : Dialect) : List (Expr × Expr) → List Token
  | [] => []
  | (test, result) :: rest =>
    .blank :: .word .caseWhen :: .blank :: test.tokens d
      ++ .blank :: .word .caseThen :: .blank :: result.tokens d
      ++ armTokens d rest
termination_by structural arms => arms

/-- each item of a select list -/
def itemTokens (d : Dialect) : List SelectItem → List (List Token)
  | [] => []
  | ⟨e, aliasName⟩ :: rest => (e.tokens d ++ aliasTokens aliasName) :: itemTokens d rest
termination_by structural items => items

def Source.tokens (d : Dialect) : Source → List Token
  | .table t => t.tokens
  | .derived q aliasName => Token.parenthesized (q.tokens d) ++ aliasTokens (some aliasName)
termination_by structural source => source

/-- the JOIN lines -/
def joinTokens (d : Dialect) : List Join → List Token
  | [] => []
  | ⟨kind, table, on⟩ :: rest =>
    .lineBreak :: kind.tokens ++ .blank :: .word .join :: .blank :: table.tokens
      ++ .blank :: .word .on :: .blank :: on.tokens d
      ++ joinTokens d rest
termination_by structural joins => joins

/-- each order key -/
def orderTokens (d : Dialect) : List OrderKey → List (List Token)
  | [] => []
  | ⟨e, direction⟩ :: rest =>
    (e.tokens d ++ (match direction with
      | none => []
      | some direction => [.blank, .word direction.word])) :: orderTokens d rest
termination_by structural keys => keys

def Query.tokens (d : Dialect) : Query → List Token
  | ⟨select, distinct, source, joins, condition, groupBy, having, orderBy, page⟩ =>
    .word .select :: (if distinct then [.blank, .word .distinct] else [])
      ++ (if select.isEmpty then [] else .blank :: Token.commaSeparated (itemTokens d select))
      ++ (match source with
        | none => []
        | some source => clause .fromSource (source.tokens d))
      ++ joinTokens d joins
      ++ (match condition with
        | none => []
        | some e => clause .whereTrue (e.tokens d))
      ++ (if groupBy.isEmpty then [] else clause .groupBy (Token.commaSeparated (exprTokens d groupBy)))
      ++ (match having with
        | none => []
        | some e => clause .having (e.tokens d))
      ++ (if !orderBy.isEmpty then clause .orderBy (Token.commaSeparated (orderTokens d orderBy))
        else if d.pageNeedsOrder && page.isSome then anyOrder
        else [])
      ++ (match page with
        | none => []
        | some page => .lineBreak :: d.page page.limit page.offset)
termination_by structural q => q

end

def Query.render (d : Dialect) (q : Query) : Rendered := Token.render d (q.tokens d)

/-! ## Statements that change rows -/

/-- ` WHERE condition`, or nothing -/
def conditionTokens (d : Dialect) : Option Expr → List Token
  | none => []
  | some e => .blank :: .word .whereTrue :: .blank :: e.tokens d

/-- names with commas between them -/
def nameTokens (names : List String) : List Token := Token.commaSeparated (names.map fun name => [.name name])

def Insert.tokens (d : Dialect) (s : Insert) : List Token :=
  .word .insert :: .blank :: .word .into :: .blank :: .name s.table
    :: (if s.columns.isEmpty then [.blank, .word .defaultValues]
      else .blank :: Token.parenthesized (nameTokens s.columns)
        ++ .blank :: .word .values :: .blank :: Token.parenthesized (Token.commaSeparated (exprTokens d s.values)))
    ++ (if s.returning.isEmpty || !d.hasReturning then []
      else .blank :: .word .returning :: .blank :: nameTokens s.returning)

/-- `column = value` -/
def assignmentTokens (d : Dialect) (assignment : String × Expr) : List Token :=
  .name assignment.1 :: .blank :: .sign .eq :: .blank :: assignment.2.tokens d

def Update.tokens (d : Dialect) (s : Update) : List Token :=
  .word .update :: .blank :: .name s.table :: .blank :: .word .set :: .blank
    :: Token.commaSeparated (s.assignments.map (assignmentTokens d)) ++ conditionTokens d s.condition

def Delete.tokens (d : Dialect) (s : Delete) : List Token :=
  .word .delete :: .blank :: .word .fromSource :: .blank :: .name s.table :: conditionTokens d s.condition

end RelQuery.Sql
