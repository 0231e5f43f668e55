/-
What a plan is recognised by.

The fingerprint of a plan is the digest of its JSON text together with the kind of statement and the dialect it is
compiled for.
-/
import RelQuery.Digest
import RelQuery.Plan.Encoding
import RelQuery.Statement.Basic

namespace RelQuery

/-- the document that is digested -/
def fingerprintDocument (kind : StatementKind) (d : Sql.Dialect) (p : Plan) : Json :=
  .array [.text kind.name, .text d.name, p.toJson]

def fingerprint (kind : StatementKind) (d : Sql.Dialect) (p : Plan) : String :=
  Digest.ofText (fingerprintDocument kind d p).write

end RelQuery
