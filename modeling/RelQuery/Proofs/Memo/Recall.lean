/-
What a memo gives back.

A memo is asked request after request and cleared now and then. Each request that it holds is answered from what was
compiled for a request of the same fingerprint (`Memo.Recalls`, kept by every step), and requests have one fingerprint,
as long as no digest collides, when they differ in nothing but which infinity or NaN their literals are
(`Memo.Request.text_eq_iff`). So a memo is transparent to requests that are compiled alike whenever they differ in that only,
and to no others (`Memo.run_direct_iff`).
-/
import RelQuery.Memo
import RelQuery.Proofs.Plan.Encoding

namespace RelQuery

/-! ## Requests -/

theorem StatementKind.name_injective : Function.Injective StatementKind.name := by
  intro k k' h
  cases k <;> cases k' <;> first | rfl | exact absurd h (by decide)

theorem Sql.Dialect.name_injective : Function.Injective Sql.Dialect.name := by
  intro d d' h
  cases d <;> cases d' <;> first | rfl | exact absurd h (by decide)

namespace Memo

/-- what is to be compiled -/
structure Request where
  kind : StatementKind
  dialect : Sql.Dialect
  plan : Plan

/-- what a request is compiled to -/
inductive Compiled where
  | query (q : CompiledQuery)
  | statement (s : Statement)

namespace Request

/-- compiling without a memo -/
def compile (schema : Schema) (r : Request) : Except QueryError Compiled :=
  match r.kind with
  | .rows => (r.plan.compile schema r.dialect).map .query
  | .count => (r.plan.compileCount schema r.dialect).map .statement
  | .existsRow => (r.plan.compileExists schema r.dialect).map .statement

def fingerprint (r : Request) : String := RelQuery.fingerprint r.kind r.dialect r.plan

/-- the text that is digested -/
def text (r : Request) : String := (fingerprintDocument r.kind r.dialect r.plan).write

/-- the request as far as its text tells it -/
def encoded (r : Request) : Request := { r with plan := r.plan.encoded }

/-- Requests over one schema have one text when they differ in nothing but their reals that are no number. -/
theorem text_eq_iff {schema : Schema} {r s : Request} (hr : r.plan.Over schema) (hs : s.plan.Over schema) :
    r.text = s.text ↔ r.encoded = s.encoded := by
  rw [text, text, Json.write_eq_iff]
  simp only [fingerprintDocument, Json.plain, Json.plainItems, Json.array.injEq, List.cons.injEq, Json.text.injEq,
    and_true, Plan.toJson_eq_iff hr hs, encoded, mk.injEq]
  rw [StatementKind.name_injective.eq_iff, Sql.Dialect.name_injective.eq_iff]

end Request

/-! ## Runs -/

/-- what can be asked of a memo -/
inductive Call where
  | compile (r : Request)
  | clear

/-- the answer without a memo -/
def Call.direct (schema : Schema) : Call → Option (Except QueryError Compiled)
  | .compile r => some (r.compile schema)
  | .clear => none

/-- a request answered from the memo, or compiled -/
def answer (schema : Schema) (r : Request) (m : Memo) : Except QueryError Compiled × Memo :=
  match r.kind with
  | .rows => ((m.query schema r.dialect r.plan).1.map .query, (m.query schema r.dialect r.plan).2)
  | .count => ((m.count schema r.dialect r.plan).1.map .statement, (m.count schema r.dialect r.plan).2)
  | .existsRow => ((m.existsRow schema r.dialect r.plan).1.map .statement, (m.existsRow schema r.dialect r.plan).2)

def step (schema : Schema) (m : Memo) : Call → Option (Except QueryError Compiled) × Memo
  | .compile r => (some (m.answer schema r).1, (m.answer schema r).2)
  | .clear => (none, m.clear)

/-- the answers to calls in a row -/
def run (schema : Schema) : Memo → List Call → List (Option (Except QueryError Compiled))
  | _, [] => []
  | m, call :: rest => (m.step schema call).1 :: run schema (m.step schema call).2 rest

/-- what is held for a request -/
def held (m : Memo) (r : Request) : Option Compiled :=
  match r.kind with
  | .rows => (m.queries.get? r.fingerprint).map .query
  | .count | .existsRow => (m.statements.get? r.fingerprint).map .statement

section Tables

variable {α : Type} (table : NameMap α) (key : String) (result : Except QueryError α)

/-- what a table gives for a key whose value is computed when it is missing -/
def lookedUp : Except QueryError α :=
  match table.get? key with
  | some a => .ok a
  | none => result

/-- the table after that: a missing value that could be computed is kept -/
def kept : NameMap α :=
  match table.get? key, result with
  | none, .ok a => table.insert key a
  | _, _ => table

variable {table key result}

/-- What is kept was there or has just been computed for its key. -/
theorem of_kept {β : Type} {f : α → β} {other : String} {b : β}
    (h : ((kept table key result).get? other).map f = some b) :
    (table.get? other).map f = some b ∨ other = key ∧ result.map f = .ok b := by
  unfold kept at h
  split at h
  · by_cases hkey : other = key
    · rw [hkey, NameMap.get?_insert_self] at h
      exact .inr ⟨hkey, congrArg Except.ok (Option.some.inj h)⟩
    · rw [NameMap.get?_insert_of_ne _ hkey] at h
      exact .inl h
  · exact .inl h

theorem kept_self {β : Type} {f : α → β} {b : β} (hmissing : table.get? key = none) (h : result.map f = .ok b) :
    ((kept table key result).get? key).map f = some b := by
  unfold kept
  cases result with
  | error e => cases h
  | ok a =>
    rw [hmissing]
    dsimp only
    rw [NameMap.get?_insert_self]
    exact congrArg some (Except.ok.inj h)

end Tables

section Query

variable (schema : Schema) (d : Sql.Dialect) (p : Plan) (m : Memo)

theorem query_eq : (m.query schema d p).1 = lookedUp m.queries (fingerprint .rows d p) (p.compile schema d) ∧
    (m.query schema d p).2.queries = kept m.queries (fingerprint .rows d p) (p.compile schema d) ∧
    (m.query schema d p).2.statements = m.statements := by
  unfold query lookedUp kept
  dsimp only
  cases m.queries.get? (fingerprint .rows d p) with
  | some q => exact ⟨rfl, rfl, rfl⟩
  | none => cases p.compile schema d <;> exact ⟨rfl, rfl, rfl⟩

theorem statement_eq (kind : StatementKind)
    (compile : Schema → Sql.Dialect → Plan → Except QueryError Statement) :
    (m.statement kind compile schema d p).1 =
        lookedUp m.statements (fingerprint kind d p) (compile schema d p) ∧
      (m.statement kind compile schema d p).2.statements =
        kept m.statements (fingerprint kind d p) (compile schema d p) ∧
      (m.statement kind compile schema d p).2.queries = m.queries := by
  unfold statement lookedUp kept
  dsimp only
  cases m.statements.get? (fingerprint kind d p) with
  | some q => exact ⟨rfl, rfl, rfl⟩
  | none => cases compile schema d p <;> exact ⟨rfl, rfl, rfl⟩

end Query

section Answer

variable {schema : Schema} {m : Memo} {r s : Request}

/-- A request that is held is answered with what is held, every other one with what it is compiled to. -/
theorem answer_fst : (m.answer schema r).1 = match m.held r with
    | some c => .ok c
    | none => r.compile schema := by
  obtain ⟨kind, d, p⟩ := r
  cases kind with
  | rows =>
    simp only [answer, held, Request.compile, Request.fingerprint, (query_eq schema d p m).1, lookedUp]
    cases m.queries.get? (fingerprint .rows d p) <;> rfl
  | count =>
    simp only [answer, held, Request.compile, Request.fingerprint, count, (statement_eq schema d p m _ _).1, lookedUp]
    cases m.statements.get? (fingerprint .count d p) <;> rfl
  | existsRow =>
    simp only [answer, held, Request.compile, Request.fingerprint, existsRow, (statement_eq schema d p m _ _).1,
      lookedUp]
    cases m.statements.get? (fingerprint .existsRow d p) <;> rfl

theorem answer_queries : (m.answer schema r).2.queries = match r.kind with
    | .rows => kept m.queries r.fingerprint (r.plan.compile schema r.dialect)
    | .count | .existsRow => m.queries := by
  obtain ⟨kind, d, p⟩ := r
  cases kind with
  | rows => exact (query_eq schema d p m).2.1
  | count => exact (statement_eq schema d p m _ _).2.2
  | existsRow => exact (statement_eq schema d p m _ _).2.2

theorem answer_statements : (m.answer schema r).2.statements = match r.kind with
    | .rows => m.statements
    | .count => kept m.statements r.fingerprint (r.plan.compileCount schema r.dialect)
    | .existsRow => kept m.statements r.fingerprint (r.plan.compileExists schema r.dialect) := by
  obtain ⟨kind, d, p⟩ := r
  cases kind with
  | rows => exact (query_eq schema d p m).2.2
  | count => exact (statement_eq schema d p m _ _).2.1
  | existsRow => exact (statement_eq schema d p m _ _).2.1

/-- What is held after an answer was held before or is what the request was compiled to. -/
theorem of_held_answer {c : Compiled} (h : (m.answer schema r).2.held s = some c) :
    m.held s = some c ∨ s.fingerprint = r.fingerprint ∧ r.compile schema = .ok c := by
  obtain ⟨kind, d, p⟩ := r
  obtain ⟨kind', d', p'⟩ := s
  cases kind' with
  | rows =>
    rw [held, answer_queries] at h
    cases kind with
    | rows => exact of_kept h
    | count => exact .inl h
    | existsRow => exact .inl h
  | count =>
    rw [held, answer_statements] at h
    cases kind with
    | rows => exact .inl h
    | count => exact of_kept h
    | existsRow => exact of_kept h
  | existsRow =>
    rw [held, answer_statements] at h
    cases kind with
    | rows => exact .inl h
    | count => exact of_kept h
    | existsRow => exact of_kept h

/-- A request that was compiled is held for the next one of its kind and fingerprint. -/
theorem held_answer {c : Compiled} (hmissing : m.held r = none) (hkind : s.kind = r.kind)
    (hprint : s.fingerprint = r.fingerprint) (h : r.compile schema = .ok c) :
    (m.answer schema r).2.held s = some c := by
  obtain ⟨kind, d, p⟩ := r
  obtain ⟨kind', d', p'⟩ := s
  obtain rfl : kind' = kind := hkind
  cases kind' with
  | rows =>
    rw [held, answer_queries, hprint]
    exact kept_self (Option.map_eq_none_iff.1 hmissing) h
  | count =>
    rw [held, answer_statements, hprint]
    exact kept_self (Option.map_eq_none_iff.1 hmissing) h
  | existsRow =>
    rw [held, answer_statements, hprint]
    exact kept_self (Option.map_eq_none_iff.1 hmissing) h

end Answer

/-! ## Transparency -/

section Transparent

variable {schema : Schema} {pool : List Request}

/-- a memo that holds nothing but what requests of a pool are compiled to, each for its fingerprint -/
def Recalls (schema : Schema) (pool : List Request) (m : Memo) : Prop :=
  ∀ s c, m.held s = some c → ∃ r ∈ pool, r.fingerprint = s.fingerprint ∧ r.compile schema = .ok c

theorem held_empty (s : Request) : (empty.held s) = none := by
  obtain ⟨kind, d, p⟩ := s
  cases kind <;> rfl

theorem held_clear (m : Memo) (s : Request) : m.clear.held s = none := by
  obtain ⟨kind, d, p⟩ := s
  cases kind <;> rfl

theorem recalls_empty : Recalls schema pool empty := fun s c h => by
  rw [held_empty] at h
  cases h

/-- Every step holds what it held or what it has compiled. -/
theorem Recalls.step {m : Memo} (hm : m.Recalls schema pool) {call : Call}
    (hcall : ∀ r, call = .compile r → r ∈ pool) : (m.step schema call).2.Recalls schema pool := by
  cases call with
  | compile r =>
    intro s c h
    rcases of_held_answer h with hheld | ⟨hprint, hcompile⟩
    · exact hm s c hheld
    · exact ⟨r, hcall r rfl, hprint.symm, hcompile⟩
  | clear =>
    intro s c h
    cases (held_clear m s).symm.trans h

/-- A memo that holds what requests of one fingerprint are all compiled to answers as compiling does. -/
theorem Recalls.run_direct (halike : ∀ r ∈ pool, ∀ s ∈ pool, r.fingerprint = s.fingerprint →
      ∀ c, r.compile schema = .ok c → s.compile schema = .ok c)
    {m : Memo} (hm : m.Recalls schema pool) (calls : List Call) (hcalls : ∀ r, .compile r ∈ calls → r ∈ pool) :
    m.run schema calls = calls.map (Call.direct schema) := by
  induction calls generalizing m with
  | nil => rfl
  | cons call rest ih =>
    have hnext := hm.step fun r hr => hcalls r (hr ▸ List.mem_cons_self)
    have hrest := ih hnext fun r hr => hcalls r (List.mem_cons_of_mem _ hr)
    have hfirst : (m.step schema call).1 = call.direct schema := by
      cases call with
      | clear => rfl
      | compile s =>
        rw [Memo.step, answer_fst, Call.direct]
        cases hheld : m.held s with
        | none => rfl
        | some c =>
          obtain ⟨r, hr, hprint, hcompile⟩ := hm s c hheld
          rw [halike r hr s (hcalls s List.mem_cons_self) hprint c hcompile]
    rw [run, hfirst, hrest, List.map_cons]

/-- As long as no digest collides, every sequence of calls is answered as if there were no memo exactly when requests
that differ in nothing but which infinity or NaN their literals are, are compiled alike. -/
theorem run_direct_iff (schema : Schema) (pool : List Request) (hover : ∀ r ∈ pool, r.plan.Over schema)
    (hdigest : ∀ r ∈ pool, ∀ s ∈ pool, r.fingerprint = s.fingerprint → r.text = s.text) :
    (∀ calls : List Call, (∀ r, .compile r ∈ calls → r ∈ pool) →
        run schema empty calls = calls.map (Call.direct schema)) ↔
      ∀ r ∈ pool, ∀ s ∈ pool, r.encoded = s.encoded →
        ∀ c, r.compile schema = .ok c → s.compile schema = .ok c := by
  constructor
  · intro hdirect r hr s hs hencoded c hcompile
    have htext := (Request.text_eq_iff (hover r hr) (hover s hs)).2 hencoded
    have hkind : s.kind = r.kind := (congrArg Request.kind hencoded).symm
    have hheld : ((empty.step schema (.compile r)).2.held s) = some c :=
      held_answer (held_empty r) hkind (congrArg Digest.ofText htext).symm hcompile
    have hanswers := hdirect [.compile r, .compile s] fun x hx => by
      rcases List.mem_pair.1 hx with h | h
      · exact Call.compile.inj h ▸ hr
      · exact Call.compile.inj h ▸ hs
    have hsecond := (List.cons.inj (List.cons.inj hanswers).2).1
    rw [Memo.step, answer_fst, hheld] at hsecond
    exact (Option.some.inj hsecond).symm
  · intro halike calls hcalls
    refine recalls_empty.run_direct (fun r hr s hs hprint => halike r hr s hs ?_) calls hcalls
    exact (Request.text_eq_iff (hover r hr) (hover s hs)).1 (hdigest r hr s hs hprint)

end Transparent

/-! ## Reals that are no number -/

def ratedEntry : Entity := ⟨"entry", "entry", "id", [⟨"id", .int, false⟩, ⟨"rating", .float, false⟩], []⟩

def ratedSchema : Schema := ⟨[ratedEntry]⟩

/-- whether the rating of an entry is above a bound -/
def ratedAbove (bound : Double) : Expr :=
  .binary .gt (.field ⟨"entry", "rating", [], ⟨"rating", .float, false⟩⟩) (.literal (.real bound))

/-- the entries rated above a bound -/
def entriesAbove (bound : Double) : Request :=
  ⟨.rows, .sqlite, { Plan.ofEntity ratedEntry with filters := [ratedAbove bound] }⟩

/-- the number of entries, in the order of being above a bound or not -/
def countOrdered (bound : Double) : Request :=
  ⟨.count, .sqlite, { Plan.ofEntity ratedEntry with ordering := [⟨ratedAbove bound, .asc⟩] }⟩

def nan : Double := ⟨0x7ff8000000000000⟩

def infinity : Double := ⟨0x7ff0000000000000⟩

/-- the entries without a condition -/
def entriesQuery : Sql.Query :=
  { select := [⟨.column (some "t0") "id", none⟩, ⟨.column (some "t0") "rating", none⟩], distinct := false,
    source := some (.table ⟨"entry", some "t0"⟩), joins := [], condition := none, groupBy := [], having := none,
    orderBy := [], page := none }

/-- the entries above a bound, their statement -/
def aboveQuery (bound : Double) : Sql.Query :=
  { entriesQuery with condition := some (.binary .gt (.column (some "t0") "rating") (.param (.real bound))) }

def aboveCompiled (bound : Double) : CompiledQuery :=
  ⟨.ofTokens .sqlite ((aboveQuery bound).tokens .sqlite) ratedEntry.columns, [], .record "entry"⟩

theorem entriesAbove_compile (bound : Double) :
    (entriesAbove bound).compile ratedSchema = .ok (.query (aboveCompiled bound)) := by
  have hselection : (entriesAbove bound).plan.rowSelection ratedSchema =
      .ok ⟨aboveQuery bound, ratedEntry.columns, .record "entry"⟩ := rfl
  have hbatches : (entriesAbove bound).plan.batches ratedSchema ratedEntry.columns = .ok [] := rfl
  have hcompile : (entriesAbove bound).plan.compile ratedSchema .sqlite = .ok (aboveCompiled bound) := by
    simp only [Plan.compile, hselection, bind, Except.bind, ResultShape.isMapping, Bool.false_eq_true, if_false,
      hbatches]
    rfl
  change ((entriesAbove bound).plan.compile ratedSchema .sqlite).map Compiled.query = _
  rw [hcompile]
  rfl

/-- A count leaves out the order, and with it the bound. -/
theorem countOrdered_compile (bound : Double) : (countOrdered bound).compile ratedSchema =
    .ok (.statement (.ofTokens .sqlite ((Sql.Query.tokens .sqlite { entriesQuery with
      select := [⟨.countRows, none⟩] })) [Plan.countColumn])) := by
  have hquery : (countOrdered bound).plan.countQuery ratedSchema =
      .ok { entriesQuery with select := [⟨.countRows, none⟩] } := rfl
  have hcompile : (countOrdered bound).plan.compileCount ratedSchema .sqlite =
      .ok (.ofTokens .sqlite ((Sql.Query.tokens .sqlite { entriesQuery with
        select := [⟨.countRows, none⟩] })) [Plan.countColumn]) := by
    rw [Plan.compileCount, hquery]
    rfl
  change ((countOrdered bound).plan.compileCount ratedSchema .sqlite).map Compiled.statement = _
  rw [hcompile]
  rfl

/-- NaN and infinity may stand for each other where the bound is left out. -/
theorem run_direct_unordered :
    (∀ r ∈ [countOrdered nan, countOrdered infinity], r.plan.Over ratedSchema) ∧
      (∀ r ∈ [countOrdered nan, countOrdered infinity], ∀ s ∈ [countOrdered nan, countOrdered infinity],
        r.fingerprint = s.fingerprint → r.text = s.text) ∧
      ∀ calls : List Call, (∀ r, .compile r ∈ calls → r ∈ [countOrdered nan, countOrdered infinity]) →
        run ratedSchema empty calls = calls.map (Call.direct ratedSchema) := by
  have hover : ∀ r ∈ [countOrdered nan, countOrdered infinity], r.plan.Over ratedSchema := by
    intro r hr e he
    rcases List.mem_pair.1 hr with rfl | rfl <;> obtain rfl := List.mem_singleton.1 he <;> rfl
  have htext : ∀ r ∈ [countOrdered nan, countOrdered infinity], r.text = (countOrdered nan).text := by
    intro r hr
    rcases List.mem_pair.1 hr with rfl | rfl <;> exact Json.write_eq_iff.2 rfl
  have hcompile : ∀ r ∈ [countOrdered nan, countOrdered infinity],
      r.compile ratedSchema = (countOrdered nan).compile ratedSchema := by
    intro r hr
    rcases List.mem_pair.1 hr with rfl | rfl
    · rfl
    · rw [countOrdered_compile, countOrdered_compile]
  have hdigest : ∀ r ∈ [countOrdered nan, countOrdered infinity], ∀ s ∈ [countOrdered nan, countOrdered infinity],
      r.fingerprint = s.fingerprint → r.text = s.text := fun r hr s hs _ => (htext r hr).trans (htext s hs).symm
  refine ⟨hover, hdigest, (run_direct_iff ratedSchema _ hover hdigest).2 ?_⟩
  intro r hr s hs _ c h
  rw [hcompile s hs, ← hcompile r hr]
  exact h

/-- The texts of two plans are one, so that asked for the entries above NaN and then for those above infinity, a memo
gives the first statement twice, with NaN as the bound value. -/
theorem run_repeats_nan :
    (entriesAbove nan).text = (entriesAbove infinity).text ∧
      run ratedSchema empty [.compile (entriesAbove nan), .compile (entriesAbove infinity)] ≠
        [Call.compile (entriesAbove nan), .compile (entriesAbove infinity)].map (Call.direct ratedSchema) := by
  have htext : (entriesAbove nan).text = (entriesAbove infinity).text := Json.write_eq_iff.2 rfl
  refine ⟨htext, fun h => ?_⟩
  have hheld : (empty.step ratedSchema (.compile (entriesAbove nan))).2.held (entriesAbove infinity) =
      some (.query (aboveCompiled nan)) :=
    held_answer (held_empty _) rfl (congrArg Digest.ofText htext).symm (entriesAbove_compile nan)
  have hsecond := (List.cons.inj (List.cons.inj h).2).1
  rw [Memo.step, answer_fst, hheld, Call.direct, entriesAbove_compile] at hsecond
  have hsame : aboveCompiled nan = aboveCompiled infinity :=
    Compiled.query.inj (Except.ok.inj (Option.some.inj hsecond))
  have hparams : [Value.real nan] = [Value.real infinity] := congrArg (fun c => c.primary.params) hsame
  exact absurd hparams (by decide)

end Memo

end RelQuery
