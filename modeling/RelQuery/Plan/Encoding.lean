/-
Plans and expressions as JSON.

Each expression is tagged with its kind and literals with theirs; a plan names its root entity and holds everything
that was asked of it. The encoding is what a plan is recognised by (`RelQuery.Fingerprint`).
-/
import RelQuery.Plan.Nodes

namespace RelQuery

/-- an object with one member, which tells the kind of its value -/
def Json.tagged (kind : String) (value : Json) : Json := .object [(kind, value)]

def Projection.toJson (projection : Projection) : Json :=
  .object [("kind", .text projection.kind.name), ("names", .array (projection.names.map Json.text))]

/-- a bound of a page -/
def pageBoundJson (bound : Option UInt64) : Json := .ofOption (fun n => .int n.toNat) bound

mutual

def Expr.toJson : Expr → Json
  | .field ref => .tagged "Field" ref.toJson
  | .aliasRef name => .tagged "Alias" (.text name)
  | .literal value => .tagged "Literal" value.toTaggedJson
  | .binary op left right =>
    .tagged "Binary" (.object [("op", .text op.name), ("left", left.toJson), ("right", right.toJson)])
  | .and operands => .tagged "And" (.array (exprsToJson operands))
  | .or operands => .tagged "Or" (.array (exprsToJson operands))
  | .not operand => .tagged "Not" operand.toJson
  | .isNull operand negated => .tagged "IsNull" (.object [("expr", operand.toJson), ("negated", .bool negated)])
  | .inList operand values negated =>
    .tagged "InList" (.object [("expr", operand.toJson), ("values", .array (exprsToJson values)),
      ("negated", .bool negated)])
  | .case arms otherwise =>
    .tagged "Case" (.object [("whens", .array (armsToJson arms)), ("default", match otherwise with
      | none => .null
      | some e => e.toJson)])
  | .aggregate function arg distinct =>
    .tagged "Aggregate" (.object [("func", .text function.name), ("arg", match arg with
      | none => .null
      | some e => e.toJson), ("distinct", .bool distinct)])
  | .outer field => .tagged "Outer" (.object [("field", .text field)])
  | .correlated plan => .tagged "Correlated" plan.toJson
  | .existsRow plan negated => .tagged "Exists" (.object [("plan", plan.toJson), ("negated", .bool negated)])
termination_by structural e => e

def exprsToJson : List Expr → List Json
  | [] => []
  | e :: rest => e.toJson :: exprsToJson rest
termination_by structural es => es

def armsToJson : List (Expr × Expr) → List Json
  | [] => []
  | (test, result) :: rest => .array [test.toJson, result.toJson] :: armsToJson rest
termination_by structural arms => arms

def annotationsToJson : List Annotation → List Json
  | [] => []
  | ⟨aliasName, e⟩ :: rest => .object [("alias", .text aliasName), ("expr", e.toJson)] :: annotationsToJson rest
termination_by structural annotations => annotations

def orderingToJson : List OrderKey → List Json
  | [] => []
  | ⟨e, direction⟩ :: rest =>
    .object [("expr", e.toJson), ("direction", .text direction.name)] :: orderingToJson rest
termination_by structural keys => keys

def Plan.toJson : Plan → Json
  | ⟨root, filters, annotations, projection, ordering, limit, offset, distinct, loadings⟩ =>
    .object [("root", .text root.name), ("filters", .array (exprsToJson filters)),
      ("annotations", .array (annotationsToJson annotations)),
      ("projection", .ofOption Projection.toJson projection),
      ("ordering", .array (orderingToJson ordering)),
      ("limit", pageBoundJson limit), ("offset", pageBoundJson offset), ("distinct", .bool distinct),
      ("relations", .object (loadings.entries.map fun entry => (entry.1, .text entry.2.name)))]
termination_by structural p => p

end

end RelQuery
