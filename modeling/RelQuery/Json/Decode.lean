/-
Values, fields, relations and settings read back from their JSON.

A structure is an object with each of its members once, in any order and beside members of other names, or an array of
its members in order. A choice is its name, or an object with its name as the only member. The settings may leave
members out, which then have their defaults, but have no others.
-/
import RelQuery.Json.Reader
import RelQuery.Schema.Entity
import RelQuery.Settings.Basic

namespace RelQuery.Json

/-- the name of a choice and what it holds; a choice that holds nothing is its name alone -/
def Raw.choice? : Raw → Option (String × Option Raw)
  | .text units => (decodeUnits units).map fun name => (String.ofList name, none)
  | raw =>
    match raw.members? with
    | some [(name, content)] => some (name, some content)
    | _ => none

/-- a choice that holds nothing -/
def plainChoice? {α : Type} (ofName : String → Option α) (raw : Raw) : Option α :=
  match raw.choice? with
  | some (name, none) => ofName name
  | some (name, some .null) => ofName name
  | _ => none

def scalarType? : Raw → Option ScalarType := plainChoice? ScalarType.ofName?

def cardinality? : Raw → Option Cardinality := plainChoice? Cardinality.ofName?

def dialect? : Raw → Option Sql.Dialect := plainChoice? Sql.Dialect.ofName?

/-- an integer of 64 bits -/
def int64? (raw : Raw) : Option Int64 := do
  let n ← raw.int?
  if Int64.minValue.toInt ≤ n ∧ n ≤ Int64.maxValue.toInt then some (Int64.ofInt n) else none

/-- a natural number of 64 bits -/
def natural64? (raw : Raw) : Option UInt64 := do
  let n ← raw.int?
  if 0 ≤ n ∧ n.toNat < UInt64.size then some (UInt64.ofNat n.toNat) else none

/-- a tagged value -/
def value? (raw : Raw) : Option Value := do
  match ← raw.choice? with
  | ("Null", none) => some .null
  | ("Null", some .null) => some .null
  | ("Bool", some content) => content.bool?.map .bool
  | ("Int", some content) => (int64? content).map .int
  | ("Float", some content) => content.real?.map .real
  | ("Text", some content) => content.text?.map .text
  | _ => none

/-- the content of a member that occurs once -/
def single? (members : List (String × Raw)) (name : String) : Option Raw :=
  match members.filter fun member => member.1 = name with
  | [member] => some member.2
  | _ => none

/-- the contents of the members of a structure, in the order of their names -/
def structure? (names : List String) (raw : Raw) : Option (List Raw) :=
  match raw with
  | .array items => if items.length = names.length then some items else none
  | raw => do
    let members ← raw.members?
    names.mapM (single? members)

def field? (raw : Raw) : Option Field := do
  match ← structure? ["name", "ty", "nullable"] raw with
  | [name, type, nullable] => return ⟨← name.text?, ← scalarType? type, ← nullable.bool?⟩
  | _ => none

def relation? (raw : Raw) : Option Relation := do
  match ← structure? ["name", "target", "cardinality", "local_column", "remote_column"] raw with
  | [name, target, cardinality, localColumn, remoteColumn] =>
    return ⟨← name.text?, ← target.text?, ← cardinality? cardinality, ← localColumn.text?, ← remoteColumn.text?⟩
  | _ => none

/-! ## Settings -/

/-- the names of the settings, in order -/
def settingNames : List String := ["dialect", "lazy_refetch", "batch_size", "concurrent_batches", "compile_cache"]

/-- settings with one of them read anew -/
def applySetting (s : Settings) (name : String) (raw : Raw) : Option Settings :=
  match name with
  | "dialect" => (dialect? raw).map fun d => { s with dialect := d }
  | "lazy_refetch" => raw.bool?.map fun b => { s with lazyRefetch := b }
  | "batch_size" => (natural64? raw).map fun n => { s with batchSize := n }
  | "concurrent_batches" => raw.bool?.map fun b => { s with concurrentBatches := b }
  | "compile_cache" => raw.bool?.map fun b => { s with compileCache := b }
  | _ => none

/-- settings with each given one read anew, none of them twice -/
def applySettings (members : List (String × Raw)) : Option Settings :=
  if (members.map Prod.fst).Nodup then
    members.foldlM (fun s member => applySetting s member.1 member.2) {}
  else none

def settings? : Raw → Option Settings
  | .array items => if items.length ≤ settingNames.length then applySettings (settingNames.zip items) else none
  | raw => raw.members?.bind applySettings

/-! ## Texts -/

/-- the kinds of document that can be read back -/
inductive Kind where
  | value | field | relation | scalarType | cardinality | dialect | settings
deriving DecidableEq, Repr

/-- the compact text of a document of a given kind, or nothing when the text is not of that kind -/
def normalize (kind : Kind) (s : String) : Option String := do
  let raw ← read? s
  let json ← match kind with
    | .value => (value? raw).map Value.toTaggedJson
    | .field => (field? raw).map Field.toJson
    | .relation => (relation? raw).map Relation.toJson
    | .scalarType => (scalarType? raw).map fun t => .text t.name
    | .cardinality => (cardinality? raw).map fun c => .text c.name
    | .dialect => (dialect? raw).map fun d => .text d.name
    | .settings => (settings? raw).map Settings.toJson
  return json.write

end RelQuery.Json
