/-
Settings written as a document of headers and assignments.

Every setting is assigned at most once, and nothing else is. A dialect can be given by its name or as a table with its
name as the only key; such a table is written as a value, by an assignment to a path, or by headers. The header of the
table of the dialect may stand before or after that of the dialect's name.
-/
import RelQuery.Settings.Basic
import RelQuery.Settings.Line

namespace RelQuery.Settings

/-! ## Dialect -/

/-- what the lines so far say about the dialect -/
inductive DialectChoice where
  | unset
  /-- given by a header, which the header of the table around it may still follow -/
  | named (d : Sql.Dialect)
  /-- the header of its table stands, and its name has to follow -/
  | opened
  | settled (d : Sql.Dialect)
deriving DecidableEq, Repr

def Entry.dialect? : Entry → Option Sql.Dialect
  | .text s => Sql.Dialect.ofName? s
  | .choice s => Sql.Dialect.ofName? s
  | _ => none

namespace DialectChoice

/-- an assignment to the dialect, or to a path below it -/
def assign (choice : DialectChoice) (below : List String) (e : Entry) : Option DialectChoice :=
  match choice, below with
  | .unset, [] => e.dialect?.map .settled
  | .unset, [name] => if e = .empty then (Sql.Dialect.ofName? name).map .settled else none
  | .opened, [name] => if e = .empty then (Sql.Dialect.ofName? name).map .settled else none
  | _, _ => none

/-- a header of the dialect's table, or of a path below it -/
def openTable (choice : DialectChoice) (below : List String) : Option DialectChoice :=
  match choice, below with
  | .unset, [] => some .opened
  | .named d, [] => some (.settled d)
  | .unset, [name] => (Sql.Dialect.ofName? name).map .named
  | .opened, [name] => (Sql.Dialect.ofName? name).map .settled
  | _, _ => none

/-- the settings with the dialect that was chosen; a table that stayed empty chooses none -/
def complete (choice : DialectChoice) (s : Settings) : Option Settings :=
  match choice with
  | .unset => some s
  | .opened => none
  | .named d => some { s with dialect := d }
  | .settled d => some { s with dialect := d }

end DialectChoice

/-! ## Settings -/

def Entry.truth? : Entry → Option Bool
  | .truth b => some b
  | _ => none

def Entry.natural64? : Entry → Option UInt64
  | .whole n => if 0 ≤ n ∧ n.toNat < UInt64.size then some (UInt64.ofNat n.toNat) else none
  | _ => none

/-- settings with one of them assigned, other than the dialect -/
def assign (s : Settings) (name : String) (e : Entry) : Option Settings :=
  match name with
  | "lazy_refetch" => e.truth?.map fun b => { s with lazyRefetch := b }
  | "batch_size" => e.natural64?.map fun n => { s with batchSize := n }
  | "concurrent_batches" => e.truth?.map fun b => { s with concurrentBatches := b }
  | "compile_cache" => e.truth?.map fun b => { s with compileCache := b }
  | _ => none

/-- what the lines so far have assigned -/
structure Gathered where
  settings : Settings := {}
  dialect : DialectChoice := .unset
  /-- the settings assigned, other than the dialect -/
  names : List String := []
  /-- the path of the last header -/
  table : List String := []
deriving DecidableEq, Repr

namespace Gathered

/-- an assignment to a path from the root -/
def assign (g : Gathered) (path : List String) (e : Entry) : Option Gathered :=
  match path with
  | "dialect" :: below => (g.dialect.assign below e).map fun choice => { g with dialect := choice }
  | [name] =>
    if name ∈ g.names then none
    else (g.settings.assign name e).map fun s => { g with settings := s, names := name :: g.names }
  | _ => none

/-- Only the dialect can have a table. -/
def openTable (g : Gathered) (path : List String) : Option Gathered :=
  match path with
  | "dialect" :: below =>
    (g.dialect.openTable below).map fun choice => { g with dialect := choice, table := path }
  | _ => none

def add (g : Gathered) : Line → Option Gathered
  | .header path => g.openTable path
  | .assignment path e => g.assign (g.table ++ path) e

def settings? (g : Gathered) : Option Settings := g.dialect.complete g.settings

end Gathered

/-- the settings that lines assign, the others having their defaults -/
def ofLines? (lines : List Line) : Option Settings := (lines.foldlM Gathered.add {}).bind Gathered.settings?

/-- the settings that a document assigns, the others having their defaults -/
def ofDocument (s : String) : Except SettingsError Settings :=
  match (readLines? s).bind ofLines? with
  | none => .error .unreadable
  | some settings => settings.validate

/-! ## Places -/

/-- where settings can be written -/
structure Places where
  /-- a file that is named explicitly; its content, if it exists -/
  named : Option (Option String)
  /-- the file beside the program -/
  here : Option String
  /-- the file of the user -/
  user : Option String

/-- A file that is named is the only one that counts; else the nearest one does, and the defaults without any. -/
def load (places : Places) : Except SettingsError Settings :=
  match places with
  | ⟨some none, _, _⟩ => .error .fileNotFound
  | ⟨some (some s), _, _⟩ => ofDocument s
  | ⟨none, some s, _⟩ => ofDocument s
  | ⟨none, none, some s⟩ => ofDocument s
  | ⟨none, none, none⟩ => .ok {}

end RelQuery.Settings
