/-
Statements sent, by what they were sent for.
-/
import RelQuery.Json

namespace RelQuery

structure Traffic where
  /-- statements for the rows, count or existence of a plan -/
  primary : Nat := 0
  /-- statements for batches of related rows -/
  secondary : Nat := 0
  /-- statements that change rows -/
  writes : Nat := 0
  /-- relations that were asked for and already loaded; no statement is sent for them -/
  cacheHits : Nat := 0
  /-- statements for single fields and relations loaded late -/
  refetches : Nat := 0
deriving DecidableEq, Repr, Inhabited

/-- all statements that were answered -/
def Traffic.statements (t : Traffic) : Nat := t.primary + t.secondary + t.writes + t.refetches

/-- one more batch answered -/
def Traffic.addSecondary (t : Traffic) : Traffic := { t with secondary := t.secondary + 1 }

def Traffic.toJson (t : Traffic) : Json :=
  .object [("primary", .int t.primary), ("secondary", .int t.secondary), ("writes", .int t.writes),
    ("cache_hits", .int t.cacheHits), ("refetches", .int t.refetches), ("statements", .int t.statements)]

end RelQuery
