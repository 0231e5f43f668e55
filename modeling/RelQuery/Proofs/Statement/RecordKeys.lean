/-
The keys of records.

A statement whose rows are records selects the key of its root, and the key of each record is that of the row of the
root which its joined row goes on from (`Parts.map_rootValue`). What such a statement reads as a condition, which is
what its inner joins are made for, it reads for its filters alone (`references_filter`).
-/
import RelQuery.Proofs.Record.Columns
import RelQuery.Proofs.Statement.KeptRows

namespace RelQuery

open Sql (Query Frame Context)

/-! ## Roles -/

/-- a reference that is not made for a condition which every row must meet -/
def Reference.IsLoose : Reference → Prop
  | .column _ role | .aliased _ role => role ≠ .filter
  | .outer _ | .scalar _ | .existence .. => True

theorem Role.weakened_ne_filter {role : Role} (h : role ≠ .filter) : role.weakened ≠ .filter := by
  cases role <;> simp_all [Role.weakened]

theorem Role.aggregated_ne_filter {role : Role} : role.aggregated ≠ .filter := by
  cases role <;> simp [Role.aggregated]

mutual

theorem Expr.references_loose : (e : Expr) → ∀ {role}, role ≠ .filter → ∀ r ∈ e.references role, r.IsLoose
  | .field ref, role, h, r, hr => by
    obtain rfl := List.mem_singleton.1 hr
    exact h
  | .aliasRef name, role, h, r, hr => by
    obtain rfl := List.mem_singleton.1 hr
    exact h
  | .literal _, _, _, r, hr => by cases hr
  | .binary _ left right, role, h, r, hr => by
    rcases List.mem_append.1 hr with hr | hr
    · exact left.references_loose h r hr
    · exact right.references_loose h r hr
  | .and operands, role, h, r, hr => referencesOfList_loose operands h r hr
  | .or operands, role, h, r, hr => referencesOfList_loose operands (Role.weakened_ne_filter h) r hr
  | .not operand, role, h, r, hr | .isNull operand _, role, h, r, hr =>
    operand.references_loose (Role.weakened_ne_filter h) r hr
  | .inList operand values negated, role, h, r, hr => by
    have hrole : (if negated then role.weakened else role) ≠ .filter := by
      split
      · exact Role.weakened_ne_filter h
      · exact h
    rcases List.mem_append.1 hr with hr | hr
    · exact operand.references_loose hrole r hr
    · exact referencesOfList_loose values hrole r hr
  | .case arms none, role, h, r, hr => referencesOfArms_loose arms (Role.weakened_ne_filter h) r hr
  | .case arms (some e), role, h, r, hr => by
    rcases List.mem_append.1 hr with hr | hr
    · exact referencesOfArms_loose arms (Role.weakened_ne_filter h) r hr
    · exact e.references_loose (Role.weakened_ne_filter h) r hr
  | .aggregate _ none _, _, _, r, hr => by cases hr
  | .aggregate _ (some arg) _, role, h, r, hr => arg.references_loose Role.aggregated_ne_filter r hr
  | .outer name, _, _, r, hr => by
    obtain rfl := List.mem_singleton.1 hr
    trivial
  | .correlated plan, _, _, r, hr => by
    obtain rfl := List.mem_singleton.1 hr
    trivial
  | .existsRow plan negated, _, _, r, hr => by
    obtain rfl := List.mem_singleton.1 hr
    trivial
termination_by structural e => e

theorem referencesOfList_loose : (es : List Expr) → ∀ {role}, role ≠ .filter →
    ∀ r ∈ Expr.referencesOfList es role, r.IsLoose
  | [], _, _, r, hr => by cases hr
  | e :: rest, role, h, r, hr => by
    rcases List.mem_append.1 hr with hr | hr
    · exact e.references_loose h r hr
    · exact referencesOfList_loose rest h r hr
termination_by structural es => es

theorem referencesOfArms_loose : (arms : List (Expr × Expr)) → ∀ {role}, role ≠ .filter →
    ∀ r ∈ Expr.referencesOfArms arms role, r.IsLoose
  | [], _, _, r, hr => by cases hr
  | (test, result) :: rest, role, h, r, hr => by
    rcases List.mem_append.1 hr with hr | hr
    · rcases List.mem_append.1 hr with hr | hr
      · exact test.references_loose h r hr
      · exact result.references_loose h r hr
    · exact referencesOfArms_loose rest h r hr
termination_by structural arms => arms

end

theorem Reference.columns_loose (p : Plan) : (budget : Nat) → {asked : Reference} → asked.IsLoose →
    ∀ r ∈ asked.columns p budget, r.role ≠ .filter
  | budget, .column ref role, h, r, hr => by
    obtain rfl : r = ⟨ref, role⟩ := by simpa [columns] using hr
    exact h
  | budget + 1, .aliased name role, h, r, hr => by
    simp only [columns] at hr
    split at hr
    · cases hr
    · next e _ =>
      obtain ⟨inner, hinner, hr⟩ := List.mem_flatMap.1 hr
      exact columns_loose p budget (e.references_loose h inner hinner) r hr
  | 0, .aliased .., _, _, hr => by cases hr
  | budget, .outer _, _, _, hr => by cases budget <;> cases hr
  | budget, .scalar _, _, _, hr => by cases budget <;> cases hr
  | budget, .existence .., _, _, hr => by cases budget <;> cases hr

namespace Plan

/-- Only a condition that every row must meet reads columns as such. -/
theorem columns_loose (p : Plan) (e : Expr) {role : Role} (h : role ≠ .filter) :
    ∀ r ∈ p.columns e role, r.role ≠ .filter := by
  intro r hr
  obtain ⟨asked, hasked, hr⟩ := List.mem_flatMap.1 hr
  exact Reference.columns_loose p p.aliasBudget (e.references_loose h asked hasked) r hr

variable {schema : Schema} {p : Plan} {outputs : List Output}

theorem RecordOutputs.role {kept : List String} (h : p.RecordOutputs schema kept outputs) :
    ∀ o ∈ outputs, o.role ≠ .filter := by
  intro o ho
  cases h.origin o ho with
  | path _ hrole => exact hrole
  | computed _ => exact nofun

/-- A statement reads columns as conditions only for its filters. -/
theorem references_filter (hroles : ∀ o ∈ outputs, o.role ≠ .filter) {r : ColumnReference}
    (hr : r ∈ p.references outputs) (hrole : r.role = .filter) :
    ∃ e ∈ p.filters, r ∈ p.columns e (p.filterRole e) := by
  obtain ⟨item, hitem, hr⟩ := List.mem_flatMap.1 hr
  simp only [items, List.mem_append, List.mem_map] at hitem
  rcases hitem with (⟨o, ho, rfl⟩ | ⟨e, he, rfl⟩) | ⟨key, hkey, rfl⟩
  · exact absurd hrole (p.columns_loose _ (hroles o ho) r hr)
  · exact ⟨e, he, hr⟩
  · exact absurd hrole (p.columns_loose _ (by simp) r hr)

/-! ## The key of a record -/

section Key

variable (hplain : schema.Plain) (hroot : schema.entity p.root.name = .ok p.root)

include hplain hroot

/-- A record has the key of its entity, and other fields. -/
theorem recordOutputs_of_shape {shape : ResultShape} (h : p.outputs schema .rows = .ok (outputs, shape))
    (hshape : shape.isMapping = false) : ∃ fields : List Field, (∀ f ∈ fields, f ∈ p.root.fields) ∧
      (∃ f ∈ fields, f.name = p.root.primaryKey) ∧ p.RecordOutputs schema (fields.map (·.name)) outputs := by
  rcases outputs_cases h with ⟨names, -, rfl⟩ | ⟨hrecord, rfl⟩ | ⟨names, hrecord, rfl⟩
  · cases hshape
  · exact ⟨p.root.fields, fun _ hf => hf, hplain.exists_primaryKey (Schema.mem_of_entity hroot), hrecord⟩
  · obtain ⟨fields, hfields, hnames⟩ := narrowedFields_eq hplain hroot names
    refine ⟨fields, hfields, ?_, hnames ▸ hrecord⟩
    have hkey : p.root.primaryKey ∈ fields.map (·.name) := by
      rw [hnames, narrowedFields, distinctNames, List.mem_eraseDups, List.cons_append]
      exact List.mem_cons_self
    simpa using hkey

/-- Columns of the root are its fields. -/
theorem RecordOutputs.root_output {fields : List Field} (hfields : ∀ f ∈ fields, f ∈ p.root.fields)
    (h : p.RecordOutputs schema (fields.map (·.name)) outputs) :
    (∀ f ∈ fields, p.root.output f ∈ outputs) ∧
      ∀ o ∈ outputs, o.column.source = .root → ∃ f ∈ fields, o = p.root.output f := by
  obtain @⟨_, own, joined, annotations, hown, hjoined, hannotations⟩ := h
  rw [ofRootFields_eq hplain hroot fields hfields] at hown
  obtain rfl := Except.ok.inj hown
  refine ⟨fun f hf => by simp [List.mem_map_of_mem hf], fun o ho hsource => ?_⟩
  rcases List.mem_append.1 ho with ho | ho
  · rcases List.mem_append.1 ho with ho | ho
    · obtain ⟨f, hf, rfl⟩ := List.mem_map.1 ho
      exact ⟨f, hf, rfl⟩
    · exact absurd hsource (joinedOutputs_column hjoined ho).2
  · obtain ⟨name, -, hname⟩ := mem_of_mapM_ok hannotations ho
    have hcolumn : p.RecordColumn schema o.column ∧ o.column.source ≠ .root := annotationOutput_column hname
    exact absurd hsource hcolumn.2

end Key

end Plan

/-- the value of a field of the root in a row with these columns -/
def rootValue (columns : List OutputColumn) (name : String) (row : List Value) : Value :=
  (((columns.zip row).find? fun cell => cell.1.source = .root && cell.1.key = name).map Prod.snd).getD .null

namespace Plan.Parts

variable {db : Sql.Database} {schema : Schema} {p : Plan} {selection : Selection} (parts : p.Parts schema selection)

/-- An output that is a field of the root reads the row of the root. -/
theorem result_eval {o : Output} {x : Sql.Expr} (h : (o, x) ∈ parts.outputs.zip parts.results) {f : Field}
    (hterm : o.term = .field (p.root.ref f)) (around : Frame) (rows : PathRows) :
    x.eval db (.ofFrame (parts.frame around rows)) = cell (rows []) f.name := by
  obtain ⟨s₁, -, hresults, -, -⟩ := lowerAll_parts parts.lower (by simp [parts.results_length])
    (by simp [parts.conditions_length])
  have hall := List.forall₂_map_left_iff.1 (lowerAll_forall₂ hresults)
  obtain ⟨t, t', hx⟩ := (List.forall₂_iff_zip.1 hall).2 h
  simp only [hterm, OutputTerm.expr] at hx
  have hcolumn := (Scope.column_ref (p.site schema 0 none).scope f o.role t).symm.trans hx
  obtain ⟨rfl, -⟩ := Prod.mk.inj (Except.ok.inj hcolumn)
  have hscope : (p.site schema 0 none).scope.Numbered 0 := numbered
  simp only [Scope.rootColumn, Sql.Expr.eval, Sql.Context.ofFrame, frame, Scope.frame_root _ _ hscope]

/-- The key of a record is that of its row. -/
theorem rootValue_key (hplain : schema.Plain) (hroot : schema.entity p.root.name = .ok p.root)
    (hshape : selection.shape.isMapping = false) (around : Frame) (rows : PathRows) :
    rootValue selection.columns p.root.primaryKey
      (parts.results.map fun x => x.eval db (.ofFrame (parts.frame around rows))) = cell (rows []) p.root.primaryKey := by
  obtain ⟨fields, hfields, ⟨f, hf, hkey⟩, hrecord⟩ :=
    recordOutputs_of_shape hplain hroot parts.outputs_eq hshape
  obtain ⟨hown, honly⟩ := hrecord.root_output hplain hroot hfields
  obtain ⟨i, hi, hfound⟩ := List.getElem_of_mem (hown f hf)
  have hlength : i < parts.results.length := parts.results_length ▸ hi
  rw [rootValue, parts.columns_eq, List.zip_map, List.find?_map, Option.map_map]
  cases hpair : (parts.outputs.zip parts.results).find? ((fun cell : OutputColumn × Value =>
      cell.1.source = .root && cell.1.key = p.root.primaryKey) ∘ Prod.map (·.column) fun x =>
        x.eval db (.ofFrame (parts.frame around rows))) with
  | none =>
    have hmem : (p.root.output f, parts.results[i]) ∈ parts.outputs.zip parts.results :=
      List.mem_of_getElem? (i := i) (by rw [List.getElem?_zip_eq_some]; simp [hi, hlength, hfound])
    have hmiss := List.find?_eq_none.1 hpair _ hmem
    simp [Entity.output, hkey] at hmiss
  | some pair =>
    obtain ⟨o, x⟩ := pair
    have hmem := List.mem_of_find?_eq_some hpair
    have hhit := List.find?_some hpair
    simp only [Function.comp_apply, Prod.map_apply, Bool.and_eq_true, decide_eq_true_eq] at hhit
    obtain ⟨other, -, rfl⟩ := honly o (List.of_mem_zip hmem).1 hhit.1
    have hname : other.name = p.root.primaryKey := hhit.2
    simp only [Option.map_some, Option.getD_some, Function.comp_apply, Prod.map_apply]
    rw [parts.result_eval hmem rfl around rows, hname]

/-- The keys of a statement's records are those of the rows chosen. -/
theorem map_rootValue (hplain : schema.Plain) (hroot : schema.entity p.root.name = .ok p.root)
    (hgrouped : p.isGrouped = false) (hdistinct : p.distinct = false) (hshape : selection.shape.isMapping = false) :
    (selection.query.eval db .empty).map (rootValue selection.columns p.root.primaryKey) =
      (parts.chosen db .empty).map fun rows => cell (rows []) p.root.primaryKey := by
  rw [parts.eval_eq hgrouped hdistinct, List.map_map]
  exact List.map_congr_left fun rows _ => parts.rootValue_key hplain hroot hshape .empty rows

end Plan.Parts

/-! ## Rows of the root -/

/-- Joined rows have a row of the root, unchanged. -/
theorem joinedPaths_root {db : Sql.Database} {schema : Schema} {root : Entity} {rs : List ColumnReference}
    {rows : PathRows} (h : rows ∈ joinedPaths db schema root rs) : ∃ row ∈ db.rows root.table, rows [] = some row := by
  obtain ⟨row, hrow, hrows⟩ := List.mem_flatMap.1 h
  exact ⟨row, hrow, joinedRows_apart layout_laidOut.paths hrows⟩

end RelQuery
