/-
The settings of an engine.
-/
import RelQuery.Sql.Dialect

namespace RelQuery

structure Settings where
  dialect : Sql.Dialect := .sqlite
  /-- whether fields and relations that are not loaded are fetched when they are asked for -/
  lazyRefetch : Bool := false
  /-- keys to a statement of a batch -/
  batchSize : UInt64 := 500
  /-- whether batched relations are fetched side by side -/
  concurrentBatches : Bool := true
  /-- whether compiled statements are kept -/
  compileCache : Bool := true
deriving DecidableEq, Repr, Inhabited

inductive SettingsError where
  | fileNotFound
  | unreadable
  | batchSizeZero
deriving DecidableEq, Repr

def SettingsError.message : SettingsError → String
  | .fileNotFound => "Config file not found"
  | .unreadable => "Failed to parse config file"
  | .batchSizeZero => "Invalid configuration: batch_size must be at least 1"

namespace Settings

/-- A batch holds at least one key. -/
def validate (s : Settings) : Except SettingsError Settings :=
  if s.batchSize = 0 then .error .batchSizeZero else .ok s

def toJson (s : Settings) : Json :=
  .object [("dialect", .text s.dialect.name), ("lazy_refetch", .bool s.lazyRefetch),
    ("batch_size", .int s.batchSize.toNat), ("concurrent_batches", .bool s.concurrentBatches),
    ("compile_cache", .bool s.compileCache)]

end Settings

end RelQuery
