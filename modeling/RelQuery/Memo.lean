/-
Compiled statements kept for plans that come again.

A memo is asked before a plan is compiled. When it holds the plan's fingerprint that is a hit, and nothing is
compiled; otherwise it is a miss, and what is compiled without an error is kept. Clearing drops what is kept, not the
counts.
-/
import RelQuery.Fingerprint
import RelQuery.Statement.Compile

namespace RelQuery

structure Memo where
  /-- row queries by fingerprint -/
  queries : NameMap CompiledQuery := .empty
  /-- counts and existence tests by fingerprint -/
  statements : NameMap Statement := .empty
  hits : Nat := 0
  misses : Nat := 0

namespace Memo

def empty : Memo := {}

/-- how many statements are kept -/
def size (m : Memo) : Nat := m.queries.entries.length + m.statements.entries.length

def clear (m : Memo) : Memo := { m with queries := .empty, statements := .empty }

/-- the statements for a plan's rows -/
def query (schema : Schema) (d : Sql.Dialect) (p : Plan) (m : Memo) : Except QueryError CompiledQuery × Memo :=
  let key := fingerprint .rows d p
  match m.queries.get? key with
  | some q => (.ok q, { m with hits := m.hits + 1 })
  | none =>
    let m := { m with misses := m.misses + 1 }
    match p.compile schema d with
    | .ok q => (.ok q, { m with queries := m.queries.insert key q })
    | .error e => (.error e, m)

/-- the statement of a count or existence test, compiled by `compile` -/
def statement (kind : StatementKind) (compile : Schema → Sql.Dialect → Plan → Except QueryError Statement)
    (schema : Schema) (d : Sql.Dialect) (p : Plan) (m : Memo) : Except QueryError Statement × Memo :=
  let key := fingerprint kind d p
  match m.statements.get? key with
  | some s => (.ok s, { m with hits := m.hits + 1 })
  | none =>
    let m := { m with misses := m.misses + 1 }
    match compile schema d p with
    | .ok s => (.ok s, { m with statements := m.statements.insert key s })
    | .error e => (.error e, m)

/-- the statement that counts a plan's rows -/
def count : Schema → Sql.Dialect → Plan → Memo → Except QueryError Statement × Memo :=
  statement .count fun schema d p => p.compileCount schema d

/-- the statement that tells whether a plan has a row -/
def existsRow : Schema → Sql.Dialect → Plan → Memo → Except QueryError Statement × Memo :=
  statement .existsRow fun schema d p => p.compileExists schema d

end Memo

end RelQuery
