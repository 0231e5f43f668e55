/-
The rows that a change is made to.

UPDATE and DELETE find their rows by themselves: they apply the filters directly, or ask for the keys of the rows in a
statement that selects nothing else. Both ways they are made to rows with the keys of the records that the plan's own
statement gives, on every database that keeps to the schema (`changes_selected_rows`). For a page this needs that the
statement of the keys joins every relation to many rows that the other does: a relation that only an annotation is
reached by makes more rows of one record there, and the keys of the page go further than its records
(`changes_selected_rows_authors`).
- `direct_keys`: filters that are applied directly.
- `keyed_chosen`, `keyed_page`: the keys selected, of all rows and of a page.
-/
import RelQuery.Proofs.Statement.Inherited
import RelQuery.Proofs.Statement.RecordKeys

namespace RelQuery

open Sql (Query Frame Context)

/-! ## Changes -/

namespace Sql

/-- the rows of a table that a condition is true of, and that a change with this condition is made to -/
def Database.chosen (db : Database) (table : String) (condition : Option Expr) : List Tuple :=
  (db.rows table).filter fun row => evalCondition db condition (.ofFrame (Frame.empty.enter table row)) = .yes

def Update.rows (db : Database) (statement : Update) : List Tuple := db.chosen statement.table statement.condition

def Delete.rows (db : Database) (statement : Delete) : List Tuple := db.chosen statement.table statement.condition

/-- Two rows have equal keys only when they have the same key. -/
def Database.Identifies (db : Database) (e : Entity) : Prop :=
  ∀ row ∈ db.rows e.table, ∀ other ∈ db.rows e.table,
    db.equals (row e.primaryKey) (other e.primaryKey) = .yes ↔ row e.primaryKey = other e.primaryKey

/-- Rows that a query may give in either order have the same value of a column of the table it starts from. -/
def Query.Settles (db : Database) (q : Query) (column : String) : Prop :=
  ∀ a ∈ (q.clauses db .empty).kept, ∀ b ∈ (q.clauses db .empty).kept, q.putsBefore db a b = true →
    q.putsBefore db b a = true → cell (a none) column = cell (b none) column

end Sql

theorem Truth.or_eq_yes {a b : Truth} : a.or b = yes ↔ a = yes ∨ b = yes := by
  cases a <;> cases b <;> simp [Truth.or]

theorem Operators.member_eq_yes (ops : Operators) {v : Value} {values : List Value} :
    ops.member v values = .yes ↔ ∃ w ∈ values, ops.equals v w = .yes := by
  induction values with
  | nil => simp [member]
  | cons w rest ih =>
    rw [member, List.foldr_cons, Truth.or_eq_yes, ← member, ih]
    simp

/-! ## Filters applied directly -/

/-- Nothing is joined where the target table is the only one. -/
theorem Resolves.unqualified {scope : Scope} {expand : Expansion} (hqualifier : scope.qualifier = none)
    {rs : List Reference} (hplain : ∀ r ∈ rs, ∀ name role, r ≠ .aliased name role) {s s' : JoinState}
    {leaves : List Sql.Leaf} (h : Resolves scope expand rs s s' leaves) :
    s'.nodes = s.nodes ∧ ∀ r ∈ rs, ∀ c, r.column? = some c → c.ref.hops = [] := by
  induction h with
  | nil => exact ⟨rfl, nofun⟩
  | @cons r rest s s₁ s' x leaves hr _ ih =>
    obtain ⟨hnodes, hlocal⟩ := ih fun r hr => hplain r (by simp [hr])
    rcases r.resolve_cases (hplain r (by simp)) hr with ⟨_, _, name, _, -, hname, -⟩ | ⟨hsame, hfirst⟩
    · rw [hqualifier] at hname
      cases hname
    · exact ⟨hnodes.trans hsame, List.forall_mem_cons.2 ⟨hfirst, hlocal⟩⟩

namespace Plan

variable {schema : Schema} {p : Plan}

theorem lowerAll_unqualified {scope : Scope} (hqualifier : scope.qualifier = none) {items : List (Expr × Role)}
    {s s' : JoinState} {xs : List Sql.Expr} (h : p.lowerAll scope items s = .ok (xs, s')) :
    s'.nodes = s.nodes ∧ ∀ item ∈ items, ∀ r ∈ p.columns item.1 item.2, r.ref.hops = [] := by
  have hresolves := lowerAll_resolves (fun _ name => throw (.unknownPath p.root.name name)) h
  have hplain : ∀ r ∈ items.flatMap fun item => p.sources item.1 item.2, ∀ name role, r ≠ .aliased name role := by
    intro r hr
    obtain ⟨item, -, hsource⟩ := List.mem_flatMap.1 hr
    obtain ⟨asked, -, hflat⟩ := List.mem_flatMap.1 hsource
    exact (Reference.of_mem_flatten p.aliasBudget hflat).2
  obtain ⟨hnodes, hlocal⟩ := hresolves.unqualified hqualifier hplain
  refine ⟨hnodes, fun item hitem r hr => ?_⟩
  have hcolumn : r ∈ (items.flatMap fun item => p.sources item.1 item.2).filterMap Reference.column? := by
    rw [p.filterMap_sources]
    exact List.mem_flatMap.2 ⟨item, hitem, hr⟩
  obtain ⟨source, hsource, hc⟩ := List.mem_filterMap.1 hcolumn
  exact hlocal source hsource r hc

theorem lowerInChange_nodes {e : Expr} {s s' : JoinState} {x : Sql.Expr}
    (h : p.lowerInChange schema e.lower s = .ok (x, s')) : s'.nodes = s.nodes := by
  have hone : p.lowerAll (.ofChange schema p.root) [(e, .filter)] s = .ok ([x], s') := by
    rw [lowerAll, List.mapM_cons]
    exact Lowering.bind_eq (show e.lower (.ofChange schema p.root) _ .filter s = _ from h) _
  exact (lowerAll_unqualified rfl hone).1

/-- The conditions of a change that needs no keys are the plan's filters. -/
theorem lowerCondition_direct {s s' : JoinState} {condition : Option Sql.Expr}
    (h : p.lowerCondition schema none s = .ok (condition, s')) :
    ∃ xs, p.lowerAll (.ofChange schema p.root) (p.filters.map fun e => (e, .filter)) s = .ok (xs, s') ∧
      condition = Sql.Expr.conjunction xs := by
  obtain ⟨xs, hxs, rfl⟩ := Lowering.bind_pure_ok h
  rw [show p.fragments.filters = p.filters.map fun e => (e, e.lower) from filterFragments_eq p.filters,
    List.mapM_map] at hxs
  exact ⟨xs, by rw [lowerAll, List.mapM_map]; exact hxs, rfl⟩

section Direct

variable {db : Sql.Database} {selection : Selection} (parts : p.Parts schema selection)

omit parts in
theorem enter_alias (htable : ∀ m, p.root.table ≠ tableAlias m) (around : Frame) (row : Tuple) (m : Nat) :
    around.enter p.root.table row (some (tableAlias m)) = around (some (tableAlias m)) := by
  simp [Frame.enter, (htable m).symm]

/-- The one row in scope of a change. -/
theorem meets_direct (htable : ∀ m, p.root.table ≠ tableAlias m) {t : JoinState} (hnodes : t.nodes = []) {base : Nat}
    {rows : PathRows} {row : Tuple} (hrow : rows [] = some row) :
    MeetsIn (p.site schema 0 none) ⟨.ofChange schema p.root, base⟩ parts.final t
      (.ofFrame (parts.frame .empty rows)) (.ofFrame (Frame.empty.enter p.root.table row)) := by
  have hstart : parts.frame .empty rows (some (tableAlias 0)) = rows [] :=
    Scope.frame_root _ _ (Parts.numbered : (p.site schema 0 none).scope.Numbered 0) _
  have henter : ∀ name, name = none ∨ name = some p.root.table →
      rows [] = (Frame.empty.enter p.root.table row) name := by
    intro name hname
    rw [hrow, Frame.enter, if_pos hname]
  refine ⟨⟨hstart.trans (henter _ (.inl rfl)), hstart.trans (henter _ (.inr rfl)), ?_, (fun o o' ho => by cases ho),
    site_clear rows fun _ _ _ => rfl, fun m _ _ _ _ => ?_⟩, .nil⟩
  · intro node _ other hother
    rw [hnodes] at hother
    cases hother
  · exact enter_alias htable .empty row m

/-- A row meets the filters applied to it directly when its joined rows meet them. -/
theorem direct_iff (htable : ∀ m, p.root.table ≠ tableAlias m) {t t' : JoinState} (ht : t.nodes = [])
    {xs : List Sql.Expr}
    (h : p.lowerAll (.ofChange schema p.root) (p.filters.map fun e => (e, .filter)) t = .ok (xs, t')) {rows : PathRows}
    {row : Tuple} (hrow : rows [] = some row) :
    Sql.evalCondition db (Sql.Expr.conjunction xs) (.ofFrame (Frame.empty.enter p.root.table row)) = .yes ↔
      parts.keeps db .empty rows = true := by
  have htwins : (p.site schema 0 none).Twins ⟨.ofChange schema p.root, t.next⟩ := ⟨rfl, rfl, nofun⟩
  have htidy : Site.Tidy ⟨.ofChange schema p.root, t.next⟩ t := by
    refine ⟨Nat.le_refl _, fun node hnode => ?_, fun m _ => htable m⟩
    rw [ht] at hnode
    cases hnode
  have hlower : p.lowerAll (.ofChange schema p.root) ([] ++ (p.filters.map fun e => (e, .filter)) ++ []) t =
      .ok ([] ++ xs ++ [], t') := by simpa using h
  have halike : List.Forall₂ (Sql.Expr.Alike db _) parts.conditions xs :=
    lowerAll_agrees_within htwins rfl (by simp [Function.comp_def]) site_tidy htidy parts.lower hlower
      (by simp [parts.results_length]) (by simp [parts.conditions_length]) rfl (lowerAll_length h)
  have hnodes : t'.nodes = [] := (lowerAll_unqualified rfl h).1.trans ht
  have hboth := Sql.conjunction_alike halike (meets_direct parts htable hnodes hrow)
  rw [← hboth, Sql.evalCondition_conjunction]
  simp [Parts.keeps]

end Direct

/-! ## Filters applied through keys -/

/-- the plan for the keys of a plan's rows -/
def keyed (p : Plan) : Plan :=
  { p with
    projection := some ⟨.mapping, [p.root.primaryKey]⟩
    ordering := if p.isPaged then p.ordering else [] }

theorem keyPlan_ok {k : Plan} (h : p.keyPlan schema = .ok k) : k = p.keyed := by
  obtain ⟨projected, hprojected, hpure⟩ := ok_of_bind h
  obtain ⟨-, -, hmade⟩ := ok_of_bind hprojected
  obtain rfl := Except.ok.inj hmade
  obtain rfl := Except.ok.inj hpure
  obtain ⟨⟩ := p
  unfold keyed
  split <;> rfl

/-- The statement of a change that needs keys. -/
theorem keyQuery_ok {keys : Option Query} {n : Nat} (h : p.keyQuery schema = .ok (keys, n)) :
    (p.needsKeys = false ∧ keys = none) ∨ (p.needsKeys = true ∧
      ∃ selection, p.keyed.rowSelection schema = .ok selection ∧ keys = some selection.query) := by
  unfold keyQuery at h
  split at h
  · next hneeds =>
    obtain ⟨k, hk, hmore⟩ := ok_of_bind h
    obtain ⟨⟨selection, m⟩, hselect, hpure⟩ := ok_of_bind hmore
    obtain rfl := keyPlan_ok hk
    obtain ⟨rfl, rfl⟩ := Prod.mk.inj (Except.ok.inj hpure)
    exact .inr ⟨hneeds, selection, by rw [rowSelection, hselect]; rfl, rfl⟩
  · next hneeds =>
    obtain ⟨rfl, rfl⟩ := Prod.mk.inj (Except.ok.inj h)
    exact .inl ⟨by simpa using hneeds, rfl⟩

section Keyed

variable {db : Sql.Database} {selection keys : Selection} (parts : p.Parts schema selection)
  (keyParts : p.keyed.Parts schema keys) (hplain : schema.Plain) (hroot : schema.entity p.root.name = .ok p.root)
  (hkey : p.annotationOf p.root.primaryKey = none)

include hplain hroot hkey

/-- The keys are a column of the root. -/
theorem keyed_outputs {outputs : List Output} {shape : ResultShape}
    (h : p.keyed.outputs schema .rows = .ok (outputs, shape)) :
    ∃ f aliasName, f.name = p.root.primaryKey ∧ outputs = [⟨⟨f.name, .root, some f.type⟩, .field (p.root.ref f),
      .output, aliasName⟩] := by
  have hroot' := Schema.mem_of_entity hroot
  obtain ⟨f, hf, hname⟩ := hplain.exists_primaryKey hroot'
  obtain ⟨named, hnamed, hpure⟩ := ok_of_bind h
  obtain ⟨rfl, -⟩ := Prod.mk.inj (Except.ok.inj hpure)
  have hone : p.keyed.namedOutput schema p.root.primaryKey =
      .ok ⟨⟨f.name, .root, some f.type⟩, .field (p.root.ref f), .output, some f.name⟩ := by
    have hnote : p.keyed.annotationOf p.root.primaryKey = none := hkey
    unfold namedOutput
    rw [hnote, ← hname, if_neg (by simp)]
    change (FieldRef.resolve schema p.root.name f.name >>= _) = _
    rw [hplain.resolve hroot' hroot hf]
    rfl
  rw [List.mapM_cons, hone] at hnamed
  exact ⟨f, some f.name, hname, (Except.ok.inj hnamed).symm⟩

omit hplain hroot hkey in
theorem keyed_ungrouped (hgrouped : p.isGrouped = false) : p.keyed.isGrouped = false := by
  have hsame : p.keyed.exprAggregates = p.exprAggregates := funext (exprAggregates_congr (p := p) rfl)
  have hnotes : p.keyed.hasAggregates = p.hasAggregates := hasAggregates_congr rfl
  simp only [isGrouped, Bool.or_eq_false_iff] at hgrouped ⊢
  rw [hnotes, hsame]
  refine ⟨hgrouped.1, ?_⟩
  unfold keyed
  split
  · exact hgrouped.2
  · rfl

/-- The key statement gives the keys of the rows of its root. -/
theorem keyed_values (hgrouped : p.isGrouped = false) (hdistinct : p.distinct = false) (around : Frame) :
    (keys.query.eval db around).map Sql.firstValue =
      (keyParts.chosen db around).map fun rows => cell (rows []) p.root.primaryKey := by
  obtain ⟨f, aliasName, hname, houtputs⟩ := keyed_outputs hplain hroot hkey keyParts.outputs_eq
  have hlength := keyParts.results_length
  rw [houtputs] at hlength
  obtain ⟨x, hx⟩ := List.length_eq_one_iff.1 hlength
  rw [keyParts.eval_eq (keyed_ungrouped hgrouped) hdistinct, List.map_map]
  refine List.map_congr_left fun rows _ => ?_
  have hfirst : x.eval db (.ofFrame (keyParts.frame around rows)) = cell (rows []) f.name :=
    keyParts.result_eval (by rw [houtputs, hx]; exact List.mem_singleton_self _) rfl around rows
  rw [Function.comp_apply, hx, ← hname]
  exact hfirst

/-- The key statement joins the rows that conditions and order keys need, and the statement of the rows more. -/
theorem keyed_widens (hshape : selection.shape.isMapping = false) :
    Widens keyParts.references parts.references := by
  obtain ⟨f, aliasName, hname, houtputs⟩ := keyed_outputs hplain hroot hkey keyParts.outputs_eq
  obtain ⟨fields, -, -, hrecord⟩ := recordOutputs_of_shape hplain hroot parts.outputs_eq hshape
  have hcolumns : ∀ e role, p.keyed.columns e role = p.columns e role := columns_congr rfl
  have hrole : ∀ e, p.keyed.filterRole e = p.filterRole e := filterRole_congr rfl
  constructor
  · intro r hr
    obtain ⟨item, hitem, hr⟩ := List.mem_flatMap.1 hr
    rw [hcolumns] at hr
    simp only [items, List.mem_append, List.mem_map] at hitem
    rcases hitem with (⟨o, ho, rfl⟩ | ⟨e, he, rfl⟩) | ⟨key, hmem, rfl⟩
    · -- the key itself is joined by nothing
      rw [houtputs] at ho
      obtain rfl := List.mem_singleton.1 ho
      obtain rfl : r = ⟨p.root.ref f, .output⟩ := by
        simpa [columns, OutputTerm.expr, Expr.references, Reference.columns] using hr
      exact .inl rfl
    · rw [hrole] at hr
      refine .inr (List.mem_flatMap.2 ⟨(e, p.filterRole e), ?_, hr⟩)
      exact List.mem_append_left _ (List.mem_append_right _ (List.mem_map_of_mem he))
    · have hordered : key ∈ p.ordering := by
        unfold keyed at hmem
        split at hmem
        · exact hmem
        · cases hmem
      exact .inr (List.mem_flatMap.2 ⟨(key.expr, .output), List.mem_append_right _ (List.mem_map_of_mem hordered), hr⟩)
  · intro r hr hfilter
    obtain ⟨e, he, hr⟩ := references_filter hrecord.role hr hfilter
    rw [← hrole, ← hcolumns] at hr
    refine .inr (List.mem_flatMap.2 ⟨(e, p.keyed.filterRole e), ?_, hr⟩)
    exact List.mem_append_left _ (List.mem_append_right _ (List.mem_map_of_mem he))

end Keyed

/-! ## The keys chosen -/

theorem keyed_expressions {e : Expr} (he : e ∈ p.keyed.expressions) : e ∈ p.expressions := by
  rcases List.mem_append.1 he with he | he
  · exact List.mem_append_left _ he
  · refine List.mem_append_right _ ?_
    unfold keyed at he
    split at he
    · exact he
    · cases he

section Chosen

variable {db : Sql.Database} {selection keys : Selection} (parts : p.Parts schema selection)
  (keyParts : p.keyed.Parts schema keys) {around : Frame} (haround : ∀ m, around (some (tableAlias m)) = none)

include haround

/-- Rows that are the same on the paths of the key statement meet the conditions of both statements, or of neither. -/
theorem keyed_keeps {rows base : PathRows}
    (h : PathRows.SameOn ((layout schema p.root keyParts.references).map (·.path)) rows base) :
    keyParts.keeps db around base = parts.keeps db .empty rows := by
  refine keyParts.keeps_eq parts haround (fun _ => rfl) rfl rfl rfl (h [] (.inl rfl)).symm fun path hpath _ => ?_
  rw [keyParts.map_path_final] at hpath
  exact (h path (.inr hpath)).symm

theorem keyed_puts (hpaged : p.isPaged = true) {rows base others other : PathRows}
    (h : PathRows.SameOn ((layout schema p.root keyParts.references).map (·.path)) rows base)
    (h' : PathRows.SameOn ((layout schema p.root keyParts.references).map (·.path)) others other) :
    keyParts.puts db around base other = parts.puts db .empty rows others := by
  have hordering : p.ordering = p.keyed.ordering := by simp [keyed, hpaged]
  refine keyParts.puts_eq parts haround (fun _ => rfl) rfl rfl hordering (h [] (.inl rfl)).symm
    (h' [] (.inl rfl)).symm fun path hpath _ => ?_
  rw [keyParts.map_path_final] at hpath
  exact ⟨(h path (.inr hpath)).symm, (h' path (.inr hpath)).symm⟩

variable (hplain : schema.Plain) (hroot : schema.entity p.root.name = .ok p.root)
  (hkey : p.annotationOf p.root.primaryKey = none) (hshape : selection.shape.isMapping = false)
  (hresolved : ∀ e ∈ p.expressions, ∀ ref ∈ e.fieldRefs, ∃ path, FieldRef.resolve schema p.root.name path = .ok ref)
  (href : db.Referential schema) (hpresent : db.KeysPresent schema)

include hplain hroot hkey hshape hresolved href hpresent

/-- Without a page both statements choose rows with the same keys. -/
theorem keyed_chosen (hpaged : p.isPaged = false) (v : Value) :
    v ∈ ((keyParts.chosen db around).map fun rows => cell (rows []) p.root.primaryKey) ↔
      v ∈ (parts.chosen db .empty).map fun rows => cell (rows []) p.root.primaryKey := by
  obtain ⟨drafts, hdrafts⟩ := hplain.checked
  have hroot' := Schema.mem_of_entity hroot
  obtain ⟨hdown, hup⟩ := joinedPaths_widened (fun e he => (Schema.ofDrafts_keys hdrafts he).2) href hpresent
    hroot' (references_lead (p := p.keyed) hroot (fun e he => hresolved e (keyed_expressions he)) keyParts.outputs_eq)
    (references_lead hroot hresolved parts.outputs_eq) (keyed_widens parts keyParts hplain hroot hkey hshape)
  simp only [List.mem_map]
  constructor
  · rintro ⟨base, hbase, rfl⟩
    obtain ⟨hjoined, hkept⟩ := (keyParts.mem_chosen hpaged).1 hbase
    obtain ⟨rows, hrows, hsame⟩ := hup base hjoined
    refine ⟨rows, (parts.mem_chosen hpaged).2 ⟨hrows, ?_⟩, by rw [hsame [] (.inl rfl)]⟩
    rw [← keyed_keeps parts keyParts haround hsame, hkept]
  · rintro ⟨rows, hrows, rfl⟩
    obtain ⟨hjoined, hkept⟩ := (parts.mem_chosen hpaged).1 hrows
    obtain ⟨base, hbase, hsame⟩ := hdown rows hjoined
    refine ⟨base, (keyParts.mem_chosen hpaged).2 ⟨hbase, ?_⟩, by rw [hsame [] (.inl rfl)]⟩
    rw [keyed_keeps parts keyParts haround hsame, hkept]

/-- A page of rows has the keys of the page of the key statement, when no relation to many rows is joined for an output
alone and rows that may change places have one key. -/
theorem keyed_page (hpaged : p.isPaged = true) (hordered : db.toOperators.Preorders)
    (hfans : ∀ path ∈ parts.references.flatMap (fun r => fanPaths r.ref.hops []),
      path ∈ (layout schema p.root keyParts.references).map (·.path))
    (hties : ∀ rows ∈ joinedPaths db schema p.root parts.references, parts.keeps db .empty rows = true →
      ∀ others ∈ joinedPaths db schema p.root parts.references, parts.keeps db .empty others = true →
      parts.puts db .empty rows others = true → parts.puts db .empty others rows = true →
      cell (rows []) p.root.primaryKey = cell (others []) p.root.primaryKey) :
    ((keyParts.chosen db around).map fun rows => cell (rows []) p.root.primaryKey) =
      (parts.chosen db .empty).map fun rows => cell (rows []) p.root.primaryKey := by
  obtain ⟨drafts, hdrafts⟩ := hplain.checked
  have hroot' := Schema.mem_of_entity hroot
  obtain ⟨extended, hperm, hsame⟩ := joinedPaths_widened_once
    (fun e he => (Schema.ofDrafts_keys hdrafts he).2) href hpresent hroot'
    (references_lead (p := p.keyed) hroot (fun e he => hresolved e (keyed_expressions he)) keyParts.outputs_eq)
    (references_lead hroot hresolved parts.outputs_eq) (keyed_widens parts keyParts hplain hroot hkey hshape) hfans
  obtain ⟨kept, hkept⟩ : ∃ kept, kept =
      (joinedPaths db schema p.keyed.root keyParts.references).filter (keyParts.keeps db around) := ⟨_, rfl⟩
  have hmem : ∀ base ∈ kept, base ∈ joinedPaths db schema p.root keyParts.references := fun base hbase =>
    (List.mem_filter.1 (hkept ▸ hbase)).1
  -- the rows kept are those that the key statement keeps, with more paths
  have hrows : ((joinedPaths db schema p.root parts.references).filter (parts.keeps db .empty)).Perm
      (kept.map extended) := by
    refine (hperm.filter _).trans (List.Perm.of_eq ?_)
    rw [List.filter_map, hkept]
    refine congrArg _ (List.filter_congr fun base hbase => ?_)
    exact (keyed_keeps parts keyParts haround (hsame base hbase)).symm
  have hsorted := Sql.map_mergeSort_eq (f := fun rows => cell (rows []) p.root.primaryKey)
    (fun a b => by simpa using parts.puts_total hordered .empty a b) (parts.puts_trans hordered .empty) hrows
    fun rows hrow others hother => hties rows (List.mem_filter.1 hrow).1 (List.mem_filter.1 hrow).2 others
      (List.mem_filter.1 hother).1 (List.mem_filter.1 hother).2
  have hmoved : (kept.mergeSort (keyParts.puts db around)).map extended =
      (kept.map extended).mergeSort (parts.puts db .empty) :=
    List.map_mergeSort fun a ha b hb =>
      keyed_puts parts keyParts haround hpaged (hsame a (hmem a ha)) (hsame b (hmem b hb))
  have hpage : keys.query.page = selection.query.page := by
    rw [keyParts.query_eq, parts.query_eq]
    rfl
  rw [Parts.chosen, Parts.chosen, ← Sql.sliced_map, ← Sql.sliced_map, hpage, hsorted, ← hmoved, List.map_map]
  refine congrArg _ ?_
  rw [← hkept]
  refine List.map_congr_left fun base hbase => ?_
  rw [Function.comp_apply, hsame base (hmem base ((List.mergeSort_perm _ _).mem_iff.1 hbase)) [] (.inl rfl)]

end Chosen

/-! ## The keys changed -/

/-- Every relation to many rows that an output is reached by is one that a condition or an order key is reached by. -/
def FansSettled (p : Plan) (outputs : List Output) : Prop :=
  ∀ r ∈ p.references outputs, ∀ path ∈ fanPaths r.ref.hops [],
    path ∈ (p.references []).flatMap fun other => hopPaths other.ref.hops []

section Changed

variable {db : Sql.Database} {selection : Selection} (parts : p.Parts schema selection)

theorem references_nil_subset {keys : Selection} (keyParts : p.keyed.Parts schema keys) (hpaged : p.isPaged = true) :
    ∀ r ∈ p.references [], r ∈ keyParts.references := by
  intro r hr
  obtain ⟨item, hitem, hr⟩ := List.mem_flatMap.1 hr
  have hcolumns : ∀ e role, p.keyed.columns e role = p.columns e role := columns_congr rfl
  refine List.mem_flatMap.2 ⟨item, ?_, (hcolumns item.1 item.2).symm ▸ hr⟩
  have hordering : p.keyed.ordering = p.ordering := by simp [keyed, hpaged]
  have hrole : p.keyed.filterRole = p.filterRole := funext (filterRole_congr rfl)
  have hfilters : p.keyed.filters = p.filters := rfl
  rw [items, hordering, hrole, hfilters, List.append_assoc]
  exact List.mem_append_right _ (by simpa [items] using hitem)

variable (hplain : schema.Plain) (hroot : schema.entity p.root.name = .ok p.root)
  (hkey : p.annotationOf p.root.primaryKey = none) (htable : ∀ m, p.root.table ≠ tableAlias m)
  (hgrouped : p.isGrouped = false) (hdistinct : p.distinct = false) (hshape : selection.shape.isMapping = false)
  (hresolved : ∀ e ∈ p.expressions, ∀ ref ∈ e.fieldRefs, ∃ path, FieldRef.resolve schema p.root.name path = .ok ref)
  (hfans : p.isPaged = true → p.FansSettled parts.outputs) (href : db.Referential schema)
  (hpresent : db.KeysPresent schema) (hidentifies : db.Identifies p.root)
  (hordered : p.isPaged = true → db.toOperators.Preorders ∧ selection.query.Settles db p.root.primaryKey)

include hplain hroot hshape hresolved href hpresent htable hgrouped in
/-- Where no key is needed the filters choose the rows by themselves. -/
theorem direct_keys (hpaged : p.isPaged = false) {t t' : JoinState} (ht : t.nodes = []) {xs : List Sql.Expr}
    (h : p.lowerAll (.ofChange schema p.root) (p.filters.map fun e => (e, .filter)) t = .ok (xs, t')) (v : Value) :
    v ∈ ((db.chosen p.root.table (Sql.Expr.conjunction xs)).map fun row => row p.root.primaryKey) ↔
      v ∈ (parts.chosen db .empty).map fun rows => cell (rows []) p.root.primaryKey := by
  obtain ⟨drafts, hdrafts⟩ := hplain.checked
  obtain ⟨fields, -, -, hrecord⟩ := recordOutputs_of_shape hplain hroot parts.outputs_eq hshape
  have hwidens : Widens [] parts.references := by
    refine ⟨nofun, fun r hr hfilter => .inl ?_⟩
    obtain ⟨e, he, hr⟩ := references_filter hrecord.role hr hfilter
    have hrole : p.filterRole e = .filter := by
      simp [filterRole, (exprAggregates_of_ungrouped hgrouped parts.outputs).1 e he]
    exact (lowerAll_unqualified rfl h).2 (e, .filter) (List.mem_map_of_mem he) r (hrole ▸ hr)
  obtain ⟨-, hup⟩ := joinedPaths_widened (fun e he => (Schema.ofDrafts_keys hdrafts he).2) href hpresent
    (Schema.mem_of_entity hroot) (fun _ hr => absurd hr List.not_mem_nil) (references_lead hroot hresolved parts.outputs_eq) hwidens
  have hdirect : ∀ {rows : PathRows} {row : Tuple}, rows [] = some row →
      (Sql.evalCondition db (Sql.Expr.conjunction xs) (.ofFrame (Frame.empty.enter p.root.table row)) = .yes ↔
        parts.keeps db .empty rows = true) := fun hrow => direct_iff parts htable ht h hrow
  simp only [List.mem_map, Sql.Database.chosen, List.mem_filter, decide_eq_true_iff]
  constructor
  · rintro ⟨row, ⟨hrow, hmeets⟩, rfl⟩
    obtain ⟨rows, hrows, hsame⟩ := hup (PathRows.ofRoot row) (List.mem_flatMap.2 ⟨row, hrow, List.mem_singleton_self _⟩)
    have hfirst : rows [] = some row := hsame [] (.inl rfl)
    exact ⟨rows, (parts.mem_chosen hpaged).2 ⟨hrows, (hdirect hfirst).1 hmeets⟩, by rw [hfirst, cell_some]⟩
  · rintro ⟨rows, hrows, rfl⟩
    obtain ⟨hjoined, hkept⟩ := (parts.mem_chosen hpaged).1 hrows
    obtain ⟨row, hrow, hfirst⟩ := joinedPaths_root hjoined
    exact ⟨row, ⟨hrow, (hdirect hfirst).2 hkept⟩, by rw [hfirst, cell_some]⟩

include hplain hroot hkey htable hgrouped hdistinct hshape hresolved hfans href hpresent hordered in
/-- The key statement, run for a row of the table changed, gives the keys of the rows chosen. -/
theorem keyed_gives {keys : Selection} (keyParts : p.keyed.Parts schema keys) (row : Tuple) (w : Value) :
    w ∈ (keys.query.eval db (Frame.empty.enter p.root.table row)).map Sql.firstValue ↔
      w ∈ (parts.chosen db .empty).map fun rows => cell (rows []) p.root.primaryKey := by
  have hclear : ∀ m, (Frame.empty.enter p.root.table row) (some (tableAlias m)) = none := fun m =>
    enter_alias htable .empty row m
  rw [keyed_values keyParts hplain hroot hkey hgrouped hdistinct]
  cases hpaged : p.isPaged with
  | false => exact keyed_chosen parts keyParts hclear hplain hroot hkey hshape hresolved href hpresent hpaged w
  | true =>
    obtain ⟨hpreorders, hsettles⟩ := hordered hpaged
    have hleads := references_lead (p := p.keyed) hroot (fun e he => hresolved e (keyed_expressions he))
      keyParts.outputs_eq
    have hpaths : ∀ path ∈ parts.references.flatMap (fun r => fanPaths r.ref.hops []),
        path ∈ (layout schema p.root keyParts.references).map (·.path) := by
      intro path hpath
      obtain ⟨r, hr, hfan⟩ := List.mem_flatMap.1 hpath
      obtain ⟨other, hother, hhop⟩ := List.mem_flatMap.1 (hfans hpaged r hr path hfan)
      exact (mem_paths_layout fun r hr => (hleads r hr).finds).2
        (List.mem_flatMap.2 ⟨other, references_nil_subset keyParts hpaged other hother, hhop⟩)
    rw [keyed_page parts keyParts hclear hplain hroot hkey hshape hresolved href hpresent hpaged hpreorders hpaths]
    intro rows hrows hkept others hothers hkept' hputs hputs'
    refine hsettles _ (parts.mem_kept hgrouped hrows hkept) _ (parts.mem_kept hgrouped hothers hkept') ?_ ?_
    · rwa [parts.putsBefore_eq]
    · rwa [parts.putsBefore_eq]

/-- The rows chosen have keys of rows of the table. -/
theorem Parts.chosen_key {v : Value} (hv : v ∈ (parts.chosen db .empty).map fun rows => cell (rows []) p.root.primaryKey) :
    ∃ row ∈ db.rows p.root.table, row p.root.primaryKey = v := by
  obtain ⟨rows, hrows, rfl⟩ := List.mem_map.1 hv
  obtain ⟨row, hrow, hfirst⟩ := joinedPaths_root (parts.chosen_subset hrows)
  exact ⟨row, hrow, by rw [hfirst, cell_some]⟩

include hplain hroot hkey htable hgrouped hdistinct hshape hresolved hfans href hpresent hidentifies hordered in
/-- Where keys are needed the rows chosen are those with the keys of the key statement. -/
theorem keyed_keys {keys : Selection} (keyParts : p.keyed.Parts schema keys) (v : Value) :
    v ∈ ((db.chosen p.root.table (some (.inQuery (.column none p.root.primaryKey) keys.query false))).map
        fun row => row p.root.primaryKey) ↔
      v ∈ (parts.chosen db .empty).map fun rows => cell (rows []) p.root.primaryKey := by
  have hchosen : ∀ row w, w ∈ (keys.query.eval db (Frame.empty.enter p.root.table row)).map Sql.firstValue ↔
      w ∈ (parts.chosen db .empty).map fun rows => cell (rows []) p.root.primaryKey :=
    keyed_gives parts hplain hroot hkey htable hgrouped hdistinct hshape hresolved hfans href hpresent hordered keyParts
  have hmeets : ∀ row ∈ db.rows p.root.table, Sql.evalCondition db
      (some (.inQuery (.column none p.root.primaryKey) keys.query false)) (.ofFrame (Frame.empty.enter p.root.table row))
        = .yes ↔
      row p.root.primaryKey ∈ (parts.chosen db .empty).map fun rows => cell (rows []) p.root.primaryKey := by
    intro row hrow
    have hread : cell ((Frame.empty.enter p.root.table row) none) p.root.primaryKey = row p.root.primaryKey := by
      simp [Frame.enter]
    simp only [Sql.evalCondition, Sql.Expr.eval, Context.ofFrame, hread, Truth.negateIf, Bool.false_eq_true, if_false,
      Operators.truth_toValue, Operators.member_eq_yes]
    constructor
    · rintro ⟨w, hw, hequal⟩
      have hchosenKey := (hchosen row w).1 hw
      obtain ⟨other, hother, rfl⟩ := parts.chosen_key hchosenKey
      rwa [(hidentifies row hrow other hother).1 hequal]
    · intro hmem
      exact ⟨_, (hchosen row _).2 hmem, (hidentifies row hrow row hrow).2 rfl⟩
  simp only [List.mem_map, Sql.Database.chosen, List.mem_filter, decide_eq_true_iff]
  constructor
  · rintro ⟨row, ⟨hrow, hcondition⟩, rfl⟩
    simpa using (hmeets row hrow).1 hcondition
  · intro hv
    obtain ⟨row, hrow, rfl⟩ := parts.chosen_key (by simpa using hv)
    exact ⟨row, ⟨hrow, (hmeets row hrow).2 (by simpa using hv)⟩, rfl⟩

include hplain hroot hkey htable hgrouped hdistinct hshape hresolved hfans href hpresent hidentifies hordered in
/-- A change is made to rows with the keys of the rows that the statement of the plan gives. -/
theorem chosen_keys {keys : Option Query} {n : Nat} (hquery : p.keyQuery schema = .ok (keys, n)) {t t' : JoinState}
    (ht : t.nodes = []) {condition : Option Sql.Expr} (h : p.lowerCondition schema keys t = .ok (condition, t'))
    (v : Value) : v ∈ ((db.chosen p.root.table condition).map fun row => row p.root.primaryKey) ↔
      v ∈ (selection.query.eval db .empty).map (rootValue selection.columns p.root.primaryKey) := by
  rw [parts.map_rootValue hplain hroot hgrouped hdistinct hshape]
  rcases keyQuery_ok hquery with ⟨hneeds, rfl⟩ | ⟨-, selected, hselected, rfl⟩
  · obtain ⟨xs, hxs, rfl⟩ := lowerCondition_direct h
    have hpaged : p.isPaged = false := by
      rw [needsKeys, Bool.or_eq_false_iff] at hneeds
      exact hneeds.1
    exact direct_keys parts hplain hroot htable hgrouped hshape hresolved href hpresent hpaged ht hxs v
  · obtain ⟨rfl, -⟩ := Lowering.pure_ok.1 h
    obtain ⟨keyParts⟩ := exists_parts hselected
    exact keyed_keys parts hplain hroot hkey htable hgrouped hdistinct hshape hresolved hfans href hpresent hidentifies
      hordered keyParts v

/-- Assignments need no joins. -/
theorem assignments_nodes : {assignments : List (String × Expr)} → ∀ {s s' assigned},
    (assignments.mapM fun a => p.lowerAssignment schema a.1 a.2) s = .ok (assigned, s') → s'.nodes = s.nodes
  | [], s, s', assigned, h => by
    obtain ⟨-, rfl⟩ := Lowering.pure_ok.1 h
    rfl
  | a :: rest, s, s', assigned, h => by
    rw [List.mapM_cons] at h
    obtain ⟨first, s₁, hfirst, hmore⟩ := Lowering.bind_ok h
    obtain ⟨others, s₂, hothers, hpure⟩ := Lowering.bind_ok hmore
    obtain ⟨-, rfl⟩ := Lowering.pure_ok.1 hpure
    obtain ⟨f, x, -, -, hx, rfl⟩ := lowerAssignment_ok hfirst
    rw [assignments_nodes hothers, lowerInChange_nodes hx]

end Changed

theorem compileDelete_ok {d : Sql.Dialect} {s : Statement} (h : p.compileDelete schema d = .ok s) :
    ∃ statement, p.delete schema = .ok statement ∧ s = .ofTokens d (statement.tokens d) [] := by
  obtain ⟨statement, hstatement, hpure⟩ := ok_of_bind h
  exact ⟨statement, hstatement, (Except.ok.inj hpure).symm⟩

theorem compileUpdate_ok {d : Sql.Dialect} {assignments : List (String × Expr)} {s : Statement}
    (h : p.compileUpdate schema d assignments = .ok s) :
    ∃ statement, p.update schema assignments = .ok statement ∧ s = .ofTokens d (statement.tokens d) [] := by
  obtain ⟨statement, hstatement, hpure⟩ := ok_of_bind h
  exact ⟨statement, hstatement, (Except.ok.inj hpure).symm⟩

/-- DELETE and UPDATE are made to rows with exactly the keys of the records that the plan's statement gives, whether
filters are applied directly or through keys, as long as a page holds no relation to many rows for an output alone. -/
theorem changes_selected_rows (schema : Schema) (hplain : schema.Plain) (d : Sql.Dialect) (p : Plan)
    (hroot : schema.entity p.root.name = .ok p.root) (htable : ∀ m, p.root.table ≠ tableAlias m)
    (hkey : p.annotationOf p.root.primaryKey = none)
    (hresolved : ∀ e ∈ p.expressions, ∀ ref ∈ e.fieldRefs, ∃ path, FieldRef.resolve schema p.root.name path = .ok ref)
    (hgrouped : p.isGrouped = false) (hdistinct : p.distinct = false)
    (hfans : p.isPaged = true → ∀ outputs shape, p.outputs schema .rows = .ok (outputs, shape) → p.FansSettled outputs)
    (compiled : CompiledQuery) (hcompile : p.compile schema d = .ok compiled)
    (hshape : compiled.shape.isMapping = false) :
    ∃ selection, p.rowSelection schema = .ok selection ∧
      compiled.primary = .ofTokens d (selection.query.tokens d) selection.columns ∧
      ∀ db : Sql.Database, db.Referential schema → db.KeysPresent schema → db.Identifies p.root →
        (p.isPaged = true → db.toOperators.Preorders ∧ selection.query.Settles db p.root.primaryKey) →
        (∀ s, p.compileDelete schema d = .ok s → ∃ statement, p.delete schema = .ok statement ∧
          s = .ofTokens d (statement.tokens d) [] ∧ statement.table = p.root.table ∧
          ∀ v, v ∈ (statement.rows db).map (fun row => row p.root.primaryKey) ↔
            v ∈ (selection.query.eval db .empty).map (rootValue selection.columns p.root.primaryKey)) ∧
        ∀ assignments s, p.compileUpdate schema d assignments = .ok s →
          ∃ statement, p.update schema assignments = .ok statement ∧ s = .ofTokens d (statement.tokens d) [] ∧
            statement.table = p.root.table ∧
            ∀ v, v ∈ (statement.rows db).map (fun row => row p.root.primaryKey) ↔
              v ∈ (selection.query.eval db .empty).map (rootValue selection.columns p.root.primaryKey) := by
  obtain ⟨selection, hselection, hmore⟩ := ok_of_bind hcompile
  obtain ⟨parts⟩ := exists_parts hselection
  have hrecord : selection.shape.isMapping = false := by
    obtain ⟨outputs, houtputs, -⟩ := compile_ok hcompile
    obtain ⟨-, hsame⟩ := Prod.mk.inj (Except.ok.inj (houtputs.symm.trans parts.outputs_eq))
    rw [← hsame, hshape]
  refine ⟨selection, hselection, compile_primary hselection hcompile,
    fun db href hpresent hidentifies hordered => ⟨fun s hs => ?_, fun assignments s hs => ?_⟩⟩
  · obtain ⟨statement, hdelete, rfl⟩ := compileDelete_ok hs
    obtain ⟨⟨keys, next⟩, hkeys, hrest⟩ := ok_of_bind hdelete
    obtain ⟨condition, hcondition, hpure⟩ := ok_of_bind hrest
    obtain rfl := Except.ok.inj hpure
    obtain ⟨⟨condition, t'⟩, hrun, rfl⟩ := map_ok hcondition
    exact ⟨_, hdelete, rfl, rfl, chosen_keys parts hplain hroot hkey htable hgrouped hdistinct hrecord hresolved
      (fun hpaged => hfans hpaged _ _ parts.outputs_eq) href hpresent hidentifies hordered hkeys rfl hrun⟩
  · obtain ⟨statement, hupdate, rfl⟩ := compileUpdate_ok hs
    obtain ⟨⟨keys, next⟩, hkeys, hrest⟩ := ok_of_bind hupdate
    obtain ⟨⟨statement, t'⟩, hrun, rfl⟩ := map_ok hrest
    obtain ⟨assigned, condition, t, hassigned, hcondition, rfl⟩ := Lowering.bind₂_pure_ok hrun
    exact ⟨_, hupdate, rfl, rfl, chosen_keys parts hplain hroot hkey htable hgrouped hdistinct hrecord hresolved
      (fun hpaged => hfans hpaged _ _ parts.outputs_eq) href hpresent hidentifies hordered hkeys
      (assignments_nodes hassigned) hcondition⟩

/-! ## A page of authors -/

/-- an author has books -/
def sampleAuthor : Entity :=
  ⟨"author", "authors", "id", [⟨"id", .int, false⟩], [⟨"books", "book", .toMany, "id", "author_id"⟩]⟩

def sampleBook : Entity := ⟨"book", "books", "id", [⟨"id", .int, false⟩, ⟨"author_id", .int, false⟩], []⟩

def sampleLibrary : Schema := ⟨[sampleAuthor, sampleBook]⟩

theorem sampleLibrary_plain : sampleLibrary.Plain where
  checked := ⟨[.declare "author" (some "authors") none [⟨"id", .int, false⟩]
      [.matching "books" "book" .toMany "id" "author_id"],
    .declare "book" (some "books") none [⟨"id", .int, false⟩, ⟨"author_id", .int, false⟩] []], by rfl⟩
  undotted := by decide
  distinct := by decide
  pk := by decide

/-- operators that put integers first and in order -/
def sampleOrdered : Operators :=
  { Operators.exact with
    before := fun a b =>
      match a, b with
      | .int m, .int n => m ≤ n
      | .int _, _ => true
      | _, .int _ => false
      | _, _ => true }

theorem sampleOrdered_preorders : sampleOrdered.Preorders where
  total a b := by
    cases a <;> cases b <;> simp [sampleOrdered, Int64.le_total]
  trans a b c := by
    cases a <;> cases b <;> cases c <;> simp [sampleOrdered]
    exact Int64.le_trans

/-- two authors, and two books of the first -/
def sampleShelves : Sql.Database where
  toOperators := sampleOrdered
  rows table :=
    if table = "authors" then [fun _ => .int 1, fun _ => .int 2]
    else if table = "books" then [fun _ => .int 1, fun column => if column = "id" then .int 2 else .int 1]
    else []

/-- the keys of an author's books -/
def sampleBooks : FieldRef := ⟨"author", "books.id", sampleAuthor.relations, ⟨"id", .int, false⟩⟩

/-- the first two authors by their key, with a book each -/
def sampleAuthors (filters : List Expr) : Plan :=
  { ofEntity sampleAuthor with
    filters
    annotations := [⟨"book", .field sampleBooks⟩]
    ordering := [⟨.field (sampleAuthor.ref ⟨"id", .int, false⟩), .asc⟩]
    limit := some 2 }

theorem sampleLibrary_toMany : ∀ e ∈ sampleLibrary.entities, ∀ relation ∈ e.relations, relation.cardinality = .toMany := by
  decide

theorem sampleShelves_referential : sampleShelves.Referential sampleLibrary := by
  intro e he name relation target hrelation hone
  cases hone.symm.trans (sampleLibrary_toMany e he relation (List.mem_of_find?_eq_some hrelation))

theorem sampleShelves_keysPresent : sampleShelves.KeysPresent sampleLibrary := by
  intro e he name relation f hrelation hone
  cases hone.symm.trans (sampleLibrary_toMany e he relation (List.mem_of_find?_eq_some hrelation))

theorem sampleShelves_identifies : sampleShelves.Identifies sampleAuthor := by
  unfold Sql.Database.Identifies
  decide

theorem sampleAuthor_table (m : Nat) : sampleAuthor.table ≠ tableAlias m := by
  intro heq
  have hfirst := congrArg (·.toList.head?) heq
  simp [sampleAuthor, tableAlias] at hfirst

/-- has a book of a positive key -/
def samplePublished : Expr := .binary .gt (.field sampleBooks) (.literal (.int 0))

/-- With a condition on the books both statements join them, and the page holds the first author twice. -/
theorem changes_selected_rows_published :
    ∃ selection statement, (sampleAuthors [samplePublished]).rowSelection sampleLibrary = .ok selection ∧
      (sampleAuthors [samplePublished]).delete sampleLibrary = .ok statement ∧
      ∀ v, v ∈ (statement.rows sampleShelves).map (fun row => row "id") ↔
        v ∈ (selection.query.eval sampleShelves .empty).map (rootValue selection.columns "id") := by
  have hresolved : ∀ e ∈ (sampleAuthors [samplePublished]).expressions, ∀ ref ∈ e.fieldRefs,
      ∃ path, FieldRef.resolve sampleLibrary "author" path = .ok ref := by
    have hrefs : ∀ e ∈ (sampleAuthors [samplePublished]).expressions, ∀ ref ∈ e.fieldRefs,
        ref = sampleBooks ∨ ref = sampleAuthor.ref ⟨"id", .int, false⟩ := by decide
    intro e he ref href
    rcases hrefs e he ref href with rfl | rfl
    · exact ⟨"books.id", rfl⟩
    · exact ⟨"id", rfl⟩
  have hfans : ∀ outputs shape, (sampleAuthors [samplePublished]).outputs sampleLibrary .rows = .ok (outputs, shape) →
      (sampleAuthors [samplePublished]).FansSettled outputs := by
    intro outputs shape houtputs
    obtain ⟨rfl, -⟩ := Prod.mk.inj (Except.ok.inj houtputs)
    unfold FansSettled
    decide
  obtain ⟨selection, hselection, -, hdb⟩ := changes_selected_rows sampleLibrary sampleLibrary_plain .sqlite
    (sampleAuthors [samplePublished]) rfl sampleAuthor_table rfl hresolved rfl rfl (fun _ => hfans) _ rfl rfl
  obtain rfl := Except.ok.inj hselection
  obtain ⟨hdelete, -⟩ := hdb sampleShelves sampleShelves_referential sampleShelves_keysPresent sampleShelves_identifies
    fun _ => ⟨sampleOrdered_preorders, by unfold Query.Settles; decide⟩
  obtain ⟨statement, hstatement, -, -, hkeys⟩ := hdelete _ rfl
  exact ⟨_, statement, rfl, hstatement, hkeys⟩

/-- the statement for the keys of the authors -/
def sampleAuthorKeys : Query :=
  { select := [⟨.column (some "t0") "id", some "id"⟩], distinct := false, source := some (.table ⟨"authors", some "t0"⟩),
    joins := [], condition := none, groupBy := [], having := none,
    orderBy := [⟨.column (some "t0") "id", some .asc⟩], page := some ⟨some 2, none⟩ }

/-- the statement that deletes them -/
def sampleAuthorDelete : Sql.Delete := ⟨"authors", some (.inQuery (.column none "id") sampleAuthorKeys false)⟩

theorem sampleAuthorKeys_eval (around : Frame) : sampleAuthorKeys.eval sampleShelves around = [[.int 1], [.int 2]] := by
  have hkept : (sampleAuthorKeys.clauses sampleShelves around).kept =
      [around.enter "t0" fun _ => .int 1, around.enter "t0" fun _ => .int 2] := rfl
  rw [Query.eval_sorted rfl rfl rfl hkept (List.pairwise_pair.2 rfl)]
  rfl

/-- Without a condition the page of authors holds the first one twice, for its books are joined, and the page of keys
holds the second as well: it is deleted although no record of it was given. -/
theorem changes_selected_rows_authors :
    sampleShelves.Referential sampleLibrary ∧ sampleShelves.KeysPresent sampleLibrary ∧
      sampleShelves.Identifies sampleAuthor ∧ sampleShelves.toOperators.Preorders ∧
      ∃ selection, (sampleAuthors []).rowSelection sampleLibrary = .ok selection ∧
        selection.query.Settles sampleShelves "id" ∧
        (selection.query.eval sampleShelves .empty).map (rootValue selection.columns "id") = [.int 1, .int 1] ∧
        (sampleAuthors []).delete sampleLibrary = .ok sampleAuthorDelete ∧
        (sampleAuthorDelete.rows sampleShelves).map (fun row => row "id") = [.int 1, .int 2] := by
  refine ⟨sampleShelves_referential, sampleShelves_keysPresent, sampleShelves_identifies, sampleOrdered_preorders, _,
    rfl, ?_, ?_, rfl, ?_⟩
  · unfold Query.Settles
    decide
  · rw [Query.eval_sorted rfl rfl rfl rfl (by decide)]
    rfl
  · simp only [Sql.Delete.rows, Sql.Database.chosen, sampleAuthorDelete, Sql.evalCondition, Sql.Expr.eval,
      Context.ofFrame, sampleAuthorKeys_eval]
    rfl

end Plan

end RelQuery
