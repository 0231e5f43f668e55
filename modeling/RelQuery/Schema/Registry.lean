/-
The registry in which entities are declared before the first use of the schema.

It is open until a schema is first asked for and found valid; from then on it is sealed, that schema is the only one
it gives out, and nothing can be declared any more. A schema that turns out invalid leaves the registry open and
unchanged.
-/
import RelQuery.Schema.Draft

namespace RelQuery

inductive Registry where
  /-- declarations so far, oldest first -/
  | opened (drafts : List EntityDraft)
  | sealed (schema : Schema)
deriving DecidableEq, Repr

namespace Registry

def empty : Registry := .opened []

def isSealed : Registry → Bool
  | .opened _ => false
  | .sealed _ => true

/-- declares an entity -/
def register (draft : EntityDraft) : Registry → Except QueryError Registry
  | .sealed _ => .error (.lateRegistration draft.name)
  | .opened drafts =>
    if drafts.any (·.name = draft.name) then .error (.duplicateEntity draft.name)
    else .ok (.opened (drafts ++ [draft]))

/-- the schema, and the registry after it was asked for -/
def schema : Registry → Except QueryError Schema × Registry
  | .sealed schema => (.ok schema, .sealed schema)
  | .opened drafts =>
    match Schema.ofDrafts drafts with
    | .ok schema => (.ok schema, .sealed schema)
    | .error e => (.error e, .opened drafts)

/-- A question to the schema: it seals the registry even when the answer is an error. -/
def read {α : Type} (question : Schema → Except QueryError α) (registry : Registry) : Except QueryError α × Registry :=
  match registry.schema with
  | (.ok schema, registry) => (question schema, registry)
  | (.error e, registry) => (.error e, registry)

end Registry

end RelQuery
