/-
What a memo counts.

A use of a memo asks it for a plan, with a compilation of the caller's own that may fail, or clears it. The compilation
runs in the caller's monad, so that a run of it can be told from none (`ask`); `visit` makes one use and counts the
runs, `visits` makes one use after another. A memo has two tables, and a fingerprint is asked of one of them: the two
together are a `Place`.
- `course`: what one use does, a hit, a failure, an entry or a clearance.
- `Tallied.visit`: each use keeps the memo to what was compiled since it was last cleared.
- `memo_accounts`: counters, entries and runs of compilations over all sequences of uses.
-/
import RelQuery.Proofs.Memo.Recall

namespace RelQuery

namespace Memo

/-! ## Asking -/

section Asking

variable {μ : Type → Type} [Monad μ]

/-- Asks a table for a key. What it holds is a hit; otherwise that is a miss, and what the compilation gives without an
error is put into the table. -/
def ask {α : Type} (table : NameMap α) (put : NameMap α → Memo → Memo) (key : String)
    (compile : μ (Except QueryError α)) (m : Memo) : μ (Except QueryError α × Memo) :=
  match table.get? key with
  | some a => pure (.ok a, { m with hits := m.hits + 1 })
  | none => do
    let result ← compile
    let m := { m with misses := m.misses + 1 }
    match result with
    | .ok a => return (.ok a, put (table.insert key a) m)
    | .error e => return (.error e, m)

/-- the statements for a plan's rows, compiled by the caller -/
def askQuery (d : Sql.Dialect) (p : Plan) (compile : μ (Except QueryError CompiledQuery)) (m : Memo) :
    μ (Except QueryError CompiledQuery × Memo) :=
  ask m.queries (fun queries m => { m with queries }) (fingerprint .rows d p) compile m

/-- a single statement of a plan, compiled by the caller -/
def askStatement (kind : StatementKind) (d : Sql.Dialect) (p : Plan) (compile : μ (Except QueryError Statement))
    (m : Memo) : μ (Except QueryError Statement × Memo) :=
  ask m.statements (fun statements m => { m with statements }) (fingerprint kind d p) compile m

end Asking

/-- A memo that compiles is one that is asked with its own compilation. -/
theorem query_eq_askQuery (schema : Schema) (d : Sql.Dialect) (p : Plan) (m : Memo) :
    m.query schema d p = Id.run (askQuery d p (pure (p.compile schema d)) m) := by
  unfold query askQuery ask
  dsimp only
  cases m.queries.get? (fingerprint .rows d p) with
  | some q => rfl
  | none => cases p.compile schema d <;> rfl

theorem statement_eq_askStatement (kind : StatementKind)
    (compile : Schema → Sql.Dialect → Plan → Except QueryError Statement) (schema : Schema) (d : Sql.Dialect) (p : Plan)
    (m : Memo) :
    m.statement kind compile schema d p = Id.run (askStatement kind d p (pure (compile schema d p)) m) := by
  unfold statement askStatement ask
  dsimp only
  cases m.statements.get? (fingerprint kind d p) with
  | some s => rfl
  | none => cases compile schema d p <;> rfl

/-! ## Uses -/

/-- the tables of a memo -/
inductive Table where
  | queries
  | statements
deriving DecidableEq, Repr

/-- a fingerprint in a table -/
abbrev Place := Table × String

/-- a call of a memo, with what the caller's compilation gives when it is run -/
inductive Use where
  | query (d : Sql.Dialect) (p : Plan) (result : Except QueryError CompiledQuery)
  | statement (kind : StatementKind) (d : Sql.Dialect) (p : Plan) (result : Except QueryError Statement)
  | clear

namespace Use

/-- what is asked for, and where -/
def place : Use → Option Place
  | .query d p _ => some (.queries, fingerprint .rows d p)
  | .statement kind d p _ => some (.statements, fingerprint kind d p)
  | .clear => none

/-- a request with its own compilation -/
def own (schema : Schema) (r : Request) : Use :=
  match r.kind with
  | .rows => .query r.dialect r.plan (r.plan.compile schema r.dialect)
  | .count => .statement .count r.dialect r.plan (r.plan.compileCount schema r.dialect)
  | .existsRow => .statement .existsRow r.dialect r.plan (r.plan.compileExists schema r.dialect)

/-- what is to be compiled -/
def request : Use → Option Request
  | .query d p _ => some ⟨.rows, d, p⟩
  | .statement kind d p _ => some ⟨kind, d, p⟩
  | .clear => none

/-- what the compilation gives -/
def result : Use → Option (Except QueryError Compiled)
  | .query _ _ result => some (result.map .query)
  | .statement _ _ _ result => some (result.map .statement)
  | .clear => none

/-- whether the compilation gives no error -/
def succeeds : Use → Bool
  | .query _ _ result => result.isOk
  | .statement _ _ _ result => result.isOk
  | .clear => false

end Use

/-- a compilation that counts its runs -/
def counted {α : Type} (result : Except QueryError α) : StateM Nat (Except QueryError α) := fun runs =>
  (result, runs + 1)

/-- one use of a memo -/
structure Visit where
  use : Use
  before : Memo
  answer : Option (Except QueryError Compiled)
  after : Memo
  /-- how often the compilation was run -/
  runs : Nat

def visit (m : Memo) (u : Use) : Visit :=
  match u with
  | .query d p result =>
    let ((answer, after), runs) := (askQuery d p (counted result) m).run 0
    ⟨u, m, some (answer.map .query), after, runs⟩
  | .statement kind d p result =>
    let ((answer, after), runs) := (askStatement kind d p (counted result) m).run 0
    ⟨u, m, some (answer.map .statement), after, runs⟩
  | .clear => ⟨u, m, none, m.clear, 0⟩

/-- uses in a row -/
def visits : Memo → List Use → List Visit
  | _, [] => []
  | m, u :: rest => m.visit u :: visits (m.visit u).after rest

/-- the memo after uses in a row -/
def final (m : Memo) (uses : List Use) : Memo := uses.foldl (fun m u => (m.visit u).after) m

/-! ## One use -/

/-- the places where something is held -/
def places (m : Memo) : List Place :=
  m.queries.names.map (Prod.mk .queries) ++ m.statements.names.map (Prod.mk .statements)

namespace Visit

/-- counted as a hit -/
def Hits (v : Visit) : Prop := v.after.hits = v.before.hits + 1 ∧ v.after.misses = v.before.misses

/-- counted as a miss -/
def Misses (v : Visit) : Prop := v.after.hits = v.before.hits ∧ v.after.misses = v.before.misses + 1

/-- the compilation was run and gave no error -/
def compiled (v : Visit) : Bool := v.runs = 1 && v.use.succeeds

/-- What a use does. -/
inductive Course (v : Visit) : Prop where
  | cleared (use : v.use = .clear) (after : v.after = v.before.clear) (runs : v.runs = 0)
  | hit (place : Place) (use : v.use.place = some place) (held : place ∈ v.before.places)
    (answer : ∃ c, v.answer = some (.ok c)) (after : v.after = { v.before with hits := v.before.hits + 1 })
    (runs : v.runs = 0)
  | failed (place : Place) (use : v.use.place = some place) (missing : place ∉ v.before.places)
    (fails : v.use.succeeds = false) (answer : v.answer = v.use.result)
    (after : v.after = { v.before with misses := v.before.misses + 1 }) (runs : v.runs = 1)
  | kept (place : Place) (use : v.use.place = some place) (missing : place ∉ v.before.places)
    (succeeds : v.use.succeeds = true) (answer : v.answer = v.use.result) (misses : v.Misses)
    (places : v.after.places.Perm (place :: v.before.places)) (runs : v.runs = 1)

end Visit

section Tables

variable {α : Type} {table : NameMap α} {put : NameMap α → Memo → Memo} {key : String} {m : Memo}

theorem ask_hit {a : α} (h : table.get? key = some a) (result : Except QueryError α) :
    (ask table put key (counted result) m).run 0 = ((.ok a, { m with hits := m.hits + 1 }), 0) := by
  rw [ask, h]
  rfl

theorem ask_failed (h : table.get? key = none) (e : QueryError) :
    (ask table put key (counted (.error e)) m).run 0 = ((.error e, { m with misses := m.misses + 1 }), 1) := by
  rw [ask, h]
  rfl

theorem ask_kept (h : table.get? key = none) (a : α) :
    (ask table put key (counted (.ok a)) m).run 0 =
      ((.ok a, put (table.insert key a) { m with misses := m.misses + 1 }), 1) := by
  rw [ask, h]
  rfl

end Tables

/-- Counting the runs of a compilation changes nothing else. -/
theorem ask_counted {α : Type} (table : NameMap α) (put : NameMap α → Memo → Memo) (key : String)
    (result : Except QueryError α) (m : Memo) :
    ((ask table put key (counted result) m).run 0).1 = Id.run (ask table put key (pure result) m) := by
  unfold ask
  cases table.get? key with
  | some a => rfl
  | none => cases result <;> rfl

/-- A request answered from the memo, or compiled, is a use with the compilation of that request. -/
theorem visit_own (schema : Schema) (r : Request) (m : Memo) :
    (m.visit (.own schema r)).answer = some (m.answer schema r).1 ∧
      (m.visit (.own schema r)).after = (m.answer schema r).2 := by
  obtain ⟨kind, d, p⟩ := r
  cases kind with
  | rows =>
    rw [answer, query_eq_askQuery, askQuery, ← ask_counted]
    exact ⟨rfl, rfl⟩
  | count =>
    rw [answer, count, statement_eq_askStatement, askStatement, ← ask_counted]
    exact ⟨rfl, rfl⟩
  | existsRow =>
    rw [answer, existsRow, statement_eq_askStatement, askStatement, ← ask_counted]
    exact ⟨rfl, rfl⟩

theorem mem_places_queries {m : Memo} {key : String} : (Table.queries, key) ∈ m.places ↔ key ∈ m.queries.names := by
  simp [places]

theorem mem_places_statements {m : Memo} {key : String} :
    (Table.statements, key) ∈ m.places ↔ key ∈ m.statements.names := by
  simp [places]

/-- A use that asks a table for a place hits, fails, or enters what was compiled there. -/
theorem course_ask {α : Type} {table : NameMap α} {put : NameMap α → Memo → Memo} {key : String} {m : Memo} {u : Use}
    {place : Place} {wrap : α → Compiled} {result : Except QueryError α}
    (hvisit : ∀ {answer after runs}, (ask table put key (counted result) m).run 0 = ((answer, after), runs) →
      m.visit u = ⟨u, m, some (answer.map wrap), after, runs⟩)
    (huse : u.place = some place) (hresult : u.result = some (result.map wrap))
    (hsucceeds : u.succeeds = result.isOk) (hheld : place ∈ m.places ↔ key ∈ table.names)
    (hput : ∀ a, table.get? key = none → let after := put (table.insert key a) { m with misses := m.misses + 1 }
      after.hits = m.hits ∧ after.misses = m.misses + 1 ∧ after.places.Perm (place :: m.places)) :
    (m.visit u).Course := by
  cases hget : table.get? key with
  | some a =>
    rw [hvisit (ask_hit hget result)]
    exact .hit place huse (hheld.2 (NameMap.mem_names_of_get? hget)) ⟨_, rfl⟩ rfl rfl
  | none =>
    have hmissing : place ∉ m.places := hheld.not.2 (NameMap.get?_eq_none.1 hget)
    cases result with
    | error e =>
      rw [hvisit (ask_failed hget e)]
      exact .failed place huse hmissing hsucceeds hresult.symm rfl rfl
    | ok a =>
      obtain ⟨hhits, hmisses, hplaces⟩ := hput a hget
      rw [hvisit (ask_kept hget a)]
      exact .kept place huse hmissing hsucceeds hresult.symm ⟨hhits, hmisses⟩ hplaces rfl

theorem course (m : Memo) (u : Use) : (m.visit u).Course := by
  cases u with
  | clear => exact .cleared rfl rfl rfl
  | query d p result =>
    have hvisit : ∀ {answer after runs}, (askQuery d p (counted result) m).run 0 = ((answer, after), runs) →
        m.visit (.query d p result) = ⟨.query d p result, m, some (answer.map .query), after, runs⟩ := by
      intro answer after runs h
      rw [visit, h]
    refine course_ask hvisit rfl rfl rfl mem_places_queries fun a hget => ⟨rfl, rfl, ?_⟩
    exact ((NameMap.names_insert_perm hget a).map (Prod.mk Table.queries)).append_right _
  | statement kind d p result =>
    have hvisit : ∀ {answer after runs}, (askStatement kind d p (counted result) m).run 0 = ((answer, after), runs) →
        m.visit (.statement kind d p result) =
          ⟨.statement kind d p result, m, some (answer.map .statement), after, runs⟩ := by
      intro answer after runs h
      rw [visit, h]
    refine course_ask hvisit rfl rfl rfl mem_places_statements fun a hget => ⟨rfl, rfl, ?_⟩
    exact (((NameMap.names_insert_perm hget a).map (Prod.mk Table.statements)).append_left _).trans List.perm_middle

/-! ## What is held -/

/-- the visits since the memo was last cleared, the latest first -/
def sinceClear (log : List Visit) : List Visit := log.reverse.takeWhile fun v => v.use.place.isSome

/-- the places for which something was compiled without an error since the memo was last cleared -/
def compiledPlaces (log : List Visit) : List Place :=
  ((sinceClear log).filter Visit.compiled).filterMap fun v => v.use.place

section

variable {log : List Visit} {v : Visit}

theorem compiledPlaces_cleared (h : v.use.place = none) : compiledPlaces (log ++ [v]) = [] := by
  simp [compiledPlaces, sinceClear, h]

theorem compiledPlaces_asked {place : Place} (h : v.use.place = some place) :
    compiledPlaces (log ++ [v]) = if v.compiled then place :: compiledPlaces log else compiledPlaces log := by
  have hsince : sinceClear (log ++ [v]) = v :: sinceClear log := by simp [sinceClear, h]
  rw [compiledPlaces, hsince]
  split
  · rw [List.filter_cons_of_pos ‹_›, compiledPlaces]
    simp only [List.filterMap_cons, h]
  · rw [List.filter_cons_of_neg ‹_›, compiledPlaces]

end

/-- What a memo holds and counts after the visits of a log. -/
structure Tallied (log : List Visit) (m : Memo) : Prop where
  held : m.places.Perm (compiledPlaces log)
  nodup : m.places.Nodup
  asked : m.hits + m.misses = log.countP fun v => v.use.place.isSome
  misses : m.misses = (log.map Visit.runs).sum
  bounded : (compiledPlaces log).length ≤ m.misses

theorem Tallied.empty : Tallied [] Memo.empty := ⟨.refl _, .nil, rfl, rfl, Nat.le_refl 0⟩

theorem visit_use (m : Memo) (u : Use) : (m.visit u).use = u := by
  cases u <;> rfl

theorem visit_before (m : Memo) (u : Use) : (m.visit u).before = m := by
  cases u <;> rfl

/-- Each use keeps the memo to what was compiled since it was last cleared. -/
theorem Tallied.visit {log : List Visit} {m : Memo} (hm : Tallied log m) (u : Use) :
    Tallied (log ++ [m.visit u]) (m.visit u).after := by
  have hbefore := visit_before m u
  have hcourse := course m u
  generalize m.visit u = v at hbefore hcourse ⊢
  subst hbefore
  have hasked : (log ++ [v]).countP (fun v => v.use.place.isSome) =
      log.countP (fun v => v.use.place.isSome) + if v.use.place.isSome then 1 else 0 := by
    rw [List.countP_append, List.countP_singleton]
  have hruns : ((log ++ [v]).map Visit.runs).sum = (log.map Visit.runs).sum + v.runs := by simp
  obtain ⟨held, nodup, asked, misses, bounded⟩ := hm
  rcases hcourse with ⟨use, after, runs⟩ | ⟨place, use, -, -, after, runs⟩ | ⟨place, use, -, fails, -, after, runs⟩ |
    ⟨place, use, missing, succeeds, -, ⟨hhits, hmisses⟩, places, runs⟩
  · have hplace : v.use.place = none := by rw [use]; rfl
    have hnone : compiledPlaces (log ++ [v]) = [] := compiledPlaces_cleared hplace
    rw [hplace] at hasked
    rw [after]
    exact ⟨hnone ▸ .refl _, .nil, asked.trans hasked.symm, by rw [hruns, runs]; exact misses, by simp [hnone]⟩
  · have hsame : compiledPlaces (log ++ [v]) = compiledPlaces log := by
      rw [compiledPlaces_asked use, if_neg (by simp [Visit.compiled, runs])]
    rw [use] at hasked
    rw [after]
    refine ⟨hsame ▸ held, nodup, ?_, by rw [hruns, runs]; exact misses, hsame ▸ bounded⟩
    dsimp only [Option.isSome_some] at hasked ⊢
    rw [hasked, ← asked, if_pos rfl]
    omega
  · have hsame : compiledPlaces (log ++ [v]) = compiledPlaces log := by
      rw [compiledPlaces_asked use, if_neg (by simp [Visit.compiled, fails])]
    rw [use] at hasked
    rw [after]
    refine ⟨hsame ▸ held, nodup, ?_, by rw [hruns, runs, ← misses], hsame ▸ Nat.le_succ_of_le bounded⟩
    dsimp only [Option.isSome_some] at hasked ⊢
    rw [hasked, ← asked, if_pos rfl, Nat.add_assoc]
  · have hcons : compiledPlaces (log ++ [v]) = place :: compiledPlaces log := by
      rw [compiledPlaces_asked use, if_pos (by simp [Visit.compiled, runs, succeeds])]
    rw [use] at hasked
    refine ⟨hcons ▸ places.trans (held.cons place), ?_, ?_, by rw [hruns, runs, hmisses, ← misses], ?_⟩
    · exact places.nodup_iff.2 (List.nodup_cons.2 ⟨missing, nodup⟩)
    · rw [hhits, hmisses, hasked, ← asked, if_pos (by rfl), Nat.add_assoc]
    · rw [hcons, hmisses]
      exact Nat.succ_le_succ bounded

theorem visits_append (m : Memo) (uses : List Use) (u : Use) :
    visits m (uses ++ [u]) = visits m uses ++ [(final m uses).visit u] := by
  induction uses generalizing m with
  | nil => rfl
  | cons first rest ih => exact congrArg ((m.visit first) :: ·) (ih (m.visit first).after)

theorem final_append (m : Memo) (uses : List Use) (u : Use) :
    final m (uses ++ [u]) = ((final m uses).visit u).after := by
  rw [final, List.foldl_append]
  rfl

theorem visits_use (m : Memo) (uses : List Use) : (visits m uses).map Visit.use = uses := by
  induction uses generalizing m with
  | nil => rfl
  | cons first rest ih => rw [visits, List.map_cons, visit_use, ih]

/-- What a memo holds and counts after uses in a row. -/
theorem tallied (uses : List Use) : Tallied (visits empty uses) (final empty uses) := by
  induction uses using List.reverseRecOn with
  | nil => exact .empty
  | append_singleton uses u ih =>
    rw [visits_append, final_append]
    exact ih.visit u

/-! ## Accounts -/

section Accounts

variable {κ : Type} (key : Place → κ)

/-- What one use does, told from the visits before it. Places are told apart by their keys. -/
structure Told (past : List Visit) (v : Visit) : Prop where
  /-- It is a hit when something was compiled under its key since the memo was last cleared, -/
  hits_iff : ∀ place, v.use.place = some place → (v.Hits ↔ key place ∈ (compiledPlaces past).map key)
  /-- and otherwise a miss. -/
  misses_iff : ∀ place, v.use.place = some place → (v.Misses ↔ key place ∉ (compiledPlaces past).map key)
  hit : v.Hits → v.runs = 0 ∧ (∃ c, v.answer = some (.ok c)) ∧ v.after.places = v.before.places
  miss : v.Misses → v.runs = 1 ∧ v.answer = v.use.result
  failed : v.Misses → v.use.succeeds = false → v.after = { v.before with misses := v.before.misses + 1 }
  cleared : v.use = .clear → v.after.queries = .empty ∧ v.after.statements = .empty ∧
    v.after.hits = v.before.hits ∧ v.after.misses = v.before.misses ∧ v.runs = 0

/-- What is counted over uses of a memo, from an empty one. -/
structure Accounted [DecidableEq κ] (uses : List Use) : Prop where
  asked : (final empty uses).hits + (final empty uses).misses = uses.countP fun u => u.place.isSome
  misses : (final empty uses).misses = ((visits empty uses).map Visit.runs).sum
  entries : (final empty uses).size = ((compiledPlaces (visits empty uses)).map key).dedup.length
  entries_le : (final empty uses).size ≤ (final empty uses).misses
  told : ∀ past u, past ++ [u] <+: uses → Told key (visits empty past) ((final empty past).visit u)

end Accounts

theorem size_eq (m : Memo) : m.size = m.places.length := by
  simp [size, places, NameMap.names]

theorem compiledPlaces_subset {uses : List Use} {place : Place}
    (h : place ∈ compiledPlaces (visits empty uses)) : place ∈ uses.filterMap Use.place := by
  obtain ⟨v, hv, hplace⟩ := List.mem_filterMap.1 h
  have hlog : v ∈ visits empty uses :=
    List.mem_reverse.1 ((List.takeWhile_sublist _).subset (List.mem_of_mem_filter hv))
  rw [← visits_use empty uses, List.filterMap_map]
  exact List.mem_filterMap.2 ⟨v, hlog, hplace⟩

namespace Visit.Course

variable {v : Visit} {place : Place}

/-- An asking use is a hit or a miss, and never both: which of them, the place tells. -/
theorem tells (h : v.Course) (use : v.use.place = some place) :
    v.Hits ∧ ¬v.Misses ∧ place ∈ v.before.places ∨ v.Misses ∧ ¬v.Hits ∧ place ∉ v.before.places := by
  have hexcludes : v.Hits → ¬v.Misses := fun hhits hmisses => by
    have := hhits.1.symm.trans hmisses.1
    omega
  rcases h with ⟨cleared, -, -⟩ | ⟨other, asked, held, -, after, -⟩ | ⟨other, asked, missing, -, -, after, -⟩ |
    ⟨other, asked, missing, -, -, hmisses, -, -⟩
  · rw [cleared] at use
    cases use
  · obtain rfl := Option.some.inj (asked.symm.trans use)
    have hhits : v.Hits := by rw [Hits, after]; exact ⟨rfl, rfl⟩
    exact .inl ⟨hhits, hexcludes hhits, held⟩
  · obtain rfl := Option.some.inj (asked.symm.trans use)
    have hmisses : v.Misses := by rw [Misses, after]; exact ⟨rfl, rfl⟩
    exact .inr ⟨hmisses, fun hhits => hexcludes hhits hmisses, missing⟩
  · obtain rfl := Option.some.inj (asked.symm.trans use)
    exact .inr ⟨hmisses, fun hhits => hexcludes hhits hmisses, missing⟩

theorem hits_iff (h : v.Course) (use : v.use.place = some place) : v.Hits ↔ place ∈ v.before.places := by
  rcases h.tells use with ⟨hhits, -, held⟩ | ⟨-, hhits, missing⟩
  · exact iff_of_true hhits held
  · exact iff_of_false hhits missing

theorem misses_iff (h : v.Course) (use : v.use.place = some place) : v.Misses ↔ place ∉ v.before.places := by
  rcases h.tells use with ⟨-, hmisses, held⟩ | ⟨hmisses, -, missing⟩
  · exact iff_of_false hmisses (not_not.2 held)
  · exact iff_of_true hmisses missing

/-- Counters tell a clearance from an asking use. -/
theorem asks (h : v.Course) (hcounted : v.Hits ∨ v.Misses) : ∃ place, v.use.place = some place := by
  rcases h with ⟨-, after, -⟩ | ⟨place, use⟩ | ⟨place, use⟩ | ⟨place, use⟩
  · simp [Hits, Misses, after, clear] at hcounted
  all_goals exact ⟨place, use⟩

theorem of_hits (h : v.Course) (hhits : v.Hits) :
    v.runs = 0 ∧ (∃ c, v.answer = some (.ok c)) ∧ v.after.places = v.before.places := by
  obtain ⟨place, use⟩ := h.asks (.inl hhits)
  have held := (h.hits_iff use).1 hhits
  rcases h with ⟨cleared, -, -⟩ | ⟨-, -, -, answer, after, runs⟩ | ⟨other, asked, missing⟩ | ⟨other, asked, missing⟩
  · rw [cleared] at use
    cases use
  · exact ⟨runs, answer, by rw [after]; rfl⟩
  all_goals
    obtain rfl := Option.some.inj (asked.symm.trans use)
    exact absurd held missing

theorem of_misses (h : v.Course) (hmisses : v.Misses) : v.runs = 1 ∧ v.answer = v.use.result ∧
    (v.use.succeeds = false → v.after = { v.before with misses := v.before.misses + 1 }) := by
  obtain ⟨place, use⟩ := h.asks (.inr hmisses)
  have missing := (h.misses_iff use).1 hmisses
  rcases h with ⟨cleared, -, -⟩ | ⟨other, asked, held⟩ | ⟨-, -, -, -, answer, after, runs⟩ |
    ⟨-, -, -, succeeds, answer, -, -, runs⟩
  · rw [cleared] at use
    cases use
  · obtain rfl := Option.some.inj (asked.symm.trans use)
    exact absurd held missing
  · exact ⟨runs, answer, fun _ => after⟩
  · exact ⟨runs, answer, fun fails => absurd (succeeds.symm.trans fails) (by decide)⟩

end Visit.Course

section Told

variable {κ : Type} {key : Place → κ} {past : List Use} {u : Use}

/-- What a memo holds, by keys. -/
theorem key_mem_compiledPlaces
    (hkey : ∀ a ∈ (past ++ [u]).filterMap Use.place, ∀ b ∈ (past ++ [u]).filterMap Use.place, key a = key b → a = b)
    {place : Place} (hplace : u.place = some place) :
    key place ∈ (compiledPlaces (visits empty past)).map key ↔ place ∈ (final empty past).places := by
  rw [(tallied past).held.mem_iff, List.mem_map]
  constructor
  · rintro ⟨other, hother, hsame⟩
    have hasked : other ∈ (past ++ [u]).filterMap Use.place := by
      rw [List.filterMap_append]
      exact List.mem_append_left _ (compiledPlaces_subset hother)
    have hlast : place ∈ (past ++ [u]).filterMap Use.place :=
      List.mem_filterMap.2 ⟨u, List.mem_append_right _ List.mem_cons_self, hplace⟩
    exact hkey other hasked place hlast hsame ▸ hother
  · exact fun h => ⟨place, h, rfl⟩

theorem told
    (hkey : ∀ a ∈ (past ++ [u]).filterMap Use.place, ∀ b ∈ (past ++ [u]).filterMap Use.place, key a = key b → a = b) :
    Told key (visits empty past) ((final empty past).visit u) where
  hits_iff place hplace := by
    rw [visit_use] at hplace
    rw [key_mem_compiledPlaces hkey hplace, (course _ u).hits_iff (by rwa [visit_use]), visit_before]
  misses_iff place hplace := by
    rw [visit_use] at hplace
    rw [key_mem_compiledPlaces hkey hplace, (course _ u).misses_iff (by rwa [visit_use]), visit_before]
  hit := (course _ u).of_hits
  miss hmisses := ⟨((course _ u).of_misses hmisses).1, ((course _ u).of_misses hmisses).2.1⟩
  failed hmisses := ((course _ u).of_misses hmisses).2.2
  cleared huse := by
    rw [visit_use] at huse
    rw [huse]
    exact ⟨rfl, rfl, rfl, rfl, rfl⟩

/-- The accounts of uses whose places are told apart by their keys. -/
theorem accounted [DecidableEq κ] {uses : List Use}
    (hkey : ∀ a ∈ uses.filterMap Use.place, ∀ b ∈ uses.filterMap Use.place, key a = key b → a = b) :
    Accounted key uses := by
  obtain ⟨held, nodup, asked, misses, bounded⟩ := tallied uses
  have hsize : (final empty uses).size = (compiledPlaces (visits empty uses)).length := by
    rw [size_eq, held.length_eq]
  have hnodup : ((compiledPlaces (visits empty uses)).map key).Nodup :=
    (held.nodup_iff.1 nodup).map_on fun a ha b hb =>
      hkey a (compiledPlaces_subset ha) b (compiledPlaces_subset hb)
  refine ⟨?_, misses, ?_, hsize ▸ bounded, ?_⟩
  · rw [asked]
    conv_rhs => rw [← visits_use empty uses, List.countP_map]
    rfl
  · rw [hsize, hnodup.dedup, List.length_map]
  · intro past u hpast
    have hsub : ∀ a ∈ (past ++ [u]).filterMap Use.place, a ∈ uses.filterMap Use.place :=
      fun a ha => (hpast.sublist.filterMap Use.place).subset ha
    exact told fun a ha b hb => hkey a (hsub a ha) b (hsub b hb)

end Told

/-- A place is the fingerprint of a request in the table of its kind. -/
theorem Use.place_request {u : Use} {place : Place} (h : u.place = some place) :
    ∃ r, u.request = some r ∧ place.2 = r.fingerprint ∧ (place.1 = .queries → r.kind = .rows) ∧
      (place.1 = .statements → ∃ result, u = .statement r.kind r.dialect r.plan result) := by
  cases u with
  | query d p result =>
    obtain rfl := Option.some.inj h
    exact ⟨_, rfl, rfl, fun _ => rfl, (fun h => by cases h)⟩
  | statement kind d p result =>
    obtain rfl := Option.some.inj h
    exact ⟨_, rfl, rfl, (fun h => by cases h), fun _ => ⟨result, rfl⟩⟩
  | clear => cases h

/-- Texts tell the kinds of requests. -/
theorem Request.kind_of_text {r s : Request} (h : r.text = s.text) : r.kind = s.kind := by
  rw [text, text, Json.write_eq_iff] at h
  simp only [fingerprintDocument, Json.plain, Json.plainItems, Json.array.injEq, List.cons.injEq, Json.text.injEq] at h
  exact StatementKind.name_injective h.1

/-- Row queries and statements of the other kinds have different fingerprints, unless digests collide. -/
theorem fingerprints_tell {uses : List Use}
    (hkind : ∀ kind d p result, .statement kind d p result ∈ uses → kind ≠ .rows)
    (hdigest : ∀ r ∈ uses.filterMap Use.request, ∀ s ∈ uses.filterMap Use.request,
      r.fingerprint = s.fingerprint → r.text = s.text) :
    ∀ a ∈ uses.filterMap Use.place, ∀ b ∈ uses.filterMap Use.place, a.2 = b.2 → a = b := by
  intro a ha b hb hsame
  obtain ⟨u, hu, hplace⟩ := List.mem_filterMap.1 ha
  obtain ⟨v, hv, hplace'⟩ := List.mem_filterMap.1 hb
  obtain ⟨r, hr, hprint, hrows, hother⟩ := Use.place_request hplace
  obtain ⟨s, hs, hprint', hrows', hother'⟩ := Use.place_request hplace'
  have hkinds : r.kind = s.kind := Request.kind_of_text (hdigest r (List.mem_filterMap.2 ⟨u, hu, hr⟩) s
    (List.mem_filterMap.2 ⟨v, hv, hs⟩) (hprint.symm.trans (hsame.trans hprint')))
  obtain ⟨table, print⟩ := a
  obtain ⟨table', print'⟩ := b
  refine Prod.ext ?_ hsame
  cases table <;> cases table'
  · rfl
  · obtain ⟨result, rfl⟩ := hother' rfl
    exact absurd (hkinds.symm.trans (hrows rfl)) (hkind _ _ _ _ hv)
  · obtain ⟨result, rfl⟩ := hother rfl
    exact absurd (hkinds.trans (hrows' rfl)) (hkind _ _ _ _ hu)
  · rfl

end Memo

end RelQuery
