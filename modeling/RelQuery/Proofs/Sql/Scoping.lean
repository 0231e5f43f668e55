/-
Names in statements.

A query introduces the names of its tables. The columns that it reads itself, apart from the statements nested in its
expressions, are `Query.Reads`: those of its own clauses and of its derived table. A statement is well scoped
(`Query.WellScoped`) when no name hides another and each column is read from a table of its own query, or from the one
table of the enclosing query that is open to it.
- `WellScoped.mentions`: whatever is mentioned at any depth of a well scoped statement is introduced inside it, or
  read by the statement itself from the table open to it.
- `WellScoped.of_part`: leaving out clauses keeps a statement well scoped.
-/
import RelQuery.Proofs.Sql.Meaning

namespace RelQuery.Sql

/-! ## What clauses take from outside -/

/-- the qualifier and the name of a column -/
abbrev ColumnName := Option String × String

/-- a part of an expression that is no operator: a column, or a statement nested in it -/
inductive Leaf where
  | column (c : ColumnName)
  | statement (q : Query)

mutual

/-- the columns of an expression and the statements nested in it -/
def Expr.leaves : Expr → List Leaf
  | .column table name => [.column (table, name)]
  | .star (some table) => [.column (some table, "*")]
  | .int _ | .param _ | .star none => []
  | .binary _ left right => left.leaves ++ right.leaves
  | .not e | .isNull e _ | .paren e => e.leaves
  | .call _ args _ => listLeaves args
  | .case arms none => armLeaves arms
  | .case arms (some e) => armLeaves arms ++ e.leaves
  | .subquery q | .existsRow q _ => [.statement q]
  | .inList e values _ => e.leaves ++ listLeaves values
  | .inQuery e q _ => e.leaves ++ [.statement q]
termination_by structural e => e

def listLeaves : List Expr → List Leaf
  | [] => []
  | e :: rest => e.leaves ++ listLeaves rest
termination_by structural es => es

def armLeaves : List (Expr × Expr) → List Leaf
  | [] => []
  | (test, result) :: rest => test.leaves ++ result.leaves ++ armLeaves rest
termination_by structural arms => arms

end

/-- the name of the table or derived table that a query starts from -/
def Source.name : Source → String
  | .table t => t.name
  | .derived _ aliasName => aliasName

namespace Query

/-- the expressions of all clauses -/
def expressions (q : Query) : List Expr :=
  q.select.map (·.expr) ++ q.joins.map (·.on) ++ q.condition.toList ++ q.groupBy ++ q.having.toList ++
    q.orderBy.map (·.expr)

def leaves (q : Query) : List Leaf := q.expressions.flatMap Expr.leaves

/-- the name of the table that a query starts from -/
def rootName (q : Query) : Option String := q.source.map Source.name

/-- the names that a query introduces: that of the table it starts from and those of its joins -/
def names (q : Query) : List String :=
  q.rootName.toList ++ q.joins.map (·.table.name)

/-- a query is part of a statement: the statement itself, its derived table, or a statement nested in either -/
inductive Within : Query → Query → Prop
  | refl (q : Query) : Within q q
  | nested {q inner r : Query} : .statement inner ∈ q.leaves → Within inner r → Within q r
  | derived {q inner r : Query} {name : String} : q.source = some (.derived inner name) → Within inner r → Within q r

/-- whether a name is introduced at any depth of a statement -/
def Introduces (q : Query) (name : String) : Prop := ∃ r, q.Within r ∧ name ∈ r.names

/-- whether a column stands at any depth of a statement -/
def Mentions (q : Query) (c : ColumnName) : Prop := ∃ r, q.Within r ∧ .column c ∈ r.leaves

/-- a column of a statement whose table is introduced nowhere in it -/
def Free (q : Query) (c : ColumnName) : Prop := q.Mentions c ∧ ¬∃ name, c.1 = some name ∧ q.Introduces name

/-- at most one column is taken from outside -/
def ReadsOneOuter (q : Query) : Prop := ∀ c d, q.Free c → q.Free d → c = d

/-- Inside queries that introduce the names `enclosing`, with the table `outer` of the query around it open: names are
introduced once and hide none, a column is of an own table or the open one, a nested statement sees the root table of
the query it stands in and reads at most one column from outside, and a derived table sees what its query sees. -/
inductive WellScoped : (enclosing : List String) → (outer : Option String) → Query → Prop
  | mk {enclosing : List String} {outer : Option String} {q : Query}
    (distinct : q.names.Nodup)
    (apart : ∀ name ∈ q.names, name ∉ enclosing)
    (columns : ∀ c, .column c ∈ q.leaves →
      (∃ name ∈ q.names, c.1 = some name) ∨ ∃ name, outer = some name ∧ c.1 = outer)
    (nested : ∀ inner, .statement inner ∈ q.leaves → WellScoped (q.names ++ enclosing) q.rootName inner)
    (oneOuter : ∀ inner, .statement inner ∈ q.leaves → inner.ReadsOneOuter)
    (derived : ∀ inner name, q.source = some (.derived inner name) → WellScoped (q.names ++ enclosing) outer inner) :
    WellScoped enclosing outer q

/-- a column that a statement reads itself, statements nested in expressions left out -/
inductive Reads : Query → ColumnName → Prop
  | own {q : Query} {c : ColumnName} : .column c ∈ q.leaves → Reads q c
  | derived {q inner : Query} {name : String} {c : ColumnName} : q.source = some (.derived inner name) →
    Reads inner c → Reads q c

variable {q q' inner : Query} {enclosing : List String} {outer : Option String} {name : String} {c : ColumnName}

/-! ## Depth -/

theorem Introduces.nested (hinner : .statement inner ∈ q.leaves) (h : inner.Introduces name) : q.Introduces name :=
  h.imp fun _ hr => ⟨.nested hinner hr.1, hr.2⟩

theorem Introduces.derived {tableName : String} (hinner : q.source = some (.derived inner tableName))
    (h : inner.Introduces name) : q.Introduces name :=
  h.imp fun _ hr => ⟨.derived hinner hr.1, hr.2⟩

/-- A name is introduced by the query itself, by a statement nested in it or by its derived table. -/
theorem Introduces.cases (h : q.Introduces name) :
    name ∈ q.names ∨ (∃ inner, .statement inner ∈ q.leaves ∧ inner.Introduces name) ∨
      ∃ inner tableName, q.source = some (.derived inner tableName) ∧ inner.Introduces name := by
  obtain ⟨r, hwithin, hname⟩ := h
  cases hwithin with
  | refl => exact .inl hname
  | nested hinner hr => exact .inr (.inl ⟨_, hinner, r, hr, hname⟩)
  | derived hinner hr => exact .inr (.inr ⟨_, _, hinner, r, hr, hname⟩)

/-- What a well scoped statement mentions is introduced inside it, or read by itself from the table open to it. -/
theorem WellScoped.mentions (h : q.WellScoped enclosing outer) (hc : q.Mentions c) :
    (∃ name, c.1 = some name ∧ q.Introduces name) ∨ (q.Reads c ∧ ∃ name, outer = some name ∧ c.1 = outer) := by
  obtain ⟨r, hwithin, hc⟩ := hc
  induction hwithin generalizing enclosing outer with
  | refl q =>
    obtain ⟨-, -, columns, -, -, -⟩ := h
    rcases columns c hc with ⟨name, hname, hc'⟩ | hopen
    · exact .inl ⟨name, hc', q, .refl q, hname⟩
    · exact .inr ⟨.own hc, hopen⟩
  | @nested q inner r hinner hr ih =>
    obtain ⟨-, -, -, nested, -, -⟩ := h
    rcases ih (nested inner hinner) hc with ⟨name, hname, hintro⟩ | ⟨-, name, hroot, hname⟩
    · exact .inl ⟨name, hname, hintro.nested hinner⟩
    · refine .inl ⟨name, hname.trans hroot, q, .refl q, ?_⟩
      simp [names, hroot]
  | @derived q inner r tableName hinner hr ih =>
    obtain ⟨-, -, -, -, -, derived⟩ := h
    rcases ih (derived inner tableName hinner) hc with ⟨name, hname, hintro⟩ | ⟨hreads, hopen⟩
    · exact .inl ⟨name, hname, hintro.derived hinner⟩
    · exact .inr ⟨.derived hinner hreads, hopen⟩

/-! ## Parts -/

/-- the same tables with fewer clauses -/
structure Part (q' q : Query) : Prop where
  source : q'.source = q.source
  joins : q'.joins = q.joins
  leaves : q'.leaves ⊆ q.leaves

theorem Part.trans {r : Query} (h : q'.Part q) (h' : q.Part r) : q'.Part r :=
  ⟨h.source.trans h'.source, h.joins.trans h'.joins, fun _ hleaf => h'.leaves (h.leaves hleaf)⟩

/-- Clauses left out, and others put in their place that read nothing. -/
theorem Part.of_expressions (hsource : q'.source = q.source) (hjoins : q'.joins = q.joins)
    (h : ∀ e ∈ q'.expressions, e.leaves = [] ∨ e ∈ q.expressions) : q'.Part q := by
  refine ⟨hsource, hjoins, fun leaf hleaf => ?_⟩
  obtain ⟨e, he, hmem⟩ := List.mem_flatMap.1 hleaf
  rcases h e he with hnone | hold
  · rw [hnone] at hmem
    cases hmem
  · exact List.mem_flatMap.2 ⟨e, hold, hmem⟩

theorem Part.names_eq (h : q'.Part q) : q'.names = q.names := by
  simp only [names, rootName, h.source, h.joins]

theorem WellScoped.of_part (hpart : q'.Part q) (h : q.WellScoped enclosing outer) : q'.WellScoped enclosing outer := by
  obtain ⟨distinct, apart, columns, nested, oneOuter, derived⟩ := h
  have hroot : q'.rootName = q.rootName := by rw [rootName, hpart.source, rootName]
  rw [← hpart.names_eq] at distinct
  simp only [← hpart.names_eq] at apart columns nested derived
  rw [← hroot] at nested
  exact ⟨distinct, apart, fun c hc => columns c (hpart.leaves hc),
    fun inner hinner => nested inner (hpart.leaves hinner), fun inner hinner => oneOuter inner (hpart.leaves hinner),
    fun inner name hinner => derived inner name (hpart.source ▸ hinner)⟩

theorem Introduces.of_part (hpart : q'.Part q) (h : q'.Introduces name) : q.Introduces name := by
  rcases h.cases with hname | ⟨inner, hinner, h⟩ | ⟨inner, tableName, hinner, h⟩
  · exact ⟨q, .refl q, hpart.names_eq ▸ hname⟩
  · exact h.nested (hpart.leaves hinner)
  · exact h.derived (hpart.source ▸ hinner)

theorem Reads.of_part (hpart : q'.Part q) (h : q'.Reads c) : q.Reads c := by
  cases h with
  | own hc => exact .own (hpart.leaves hc)
  | derived hinner h => exact .derived (hpart.source ▸ hinner) h

end Query

end RelQuery.Sql
