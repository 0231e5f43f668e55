/-
Records and the shapes of their plans.

The columns of a statement are listed by the compiler and read by the materializer, apart from each other. What the
two agree on is that the columns of the root are the fields in the shape, that each joined relation has a column for
each field of its target, and that annotations are columns of their own (`ShapeColumns`). A row of a storage is a cell
for each column, so a record has exactly what its shape shows (`Record.Carries`).
- `Plan.shapeColumns`: the columns of a plan whose rows become records.
- `Record.ofRow_carries`: the record of one row.
- `Plan.records_carry_shape`: all records of a load.
-/
import RelQuery.Proofs.Fetch.Orders
import RelQuery.Proofs.Plan.Building
import RelQuery.Proofs.Record.Batched

namespace RelQuery

/-- Records of this shape show a field of their entity. -/
def ResultShape.Shows (root : Entity) (name : String) : ResultShape → Prop
  | .record _ => name ∈ root.fields.map (·.name)
  | .narrowedRecord _ fields => name ∈ fields
  | .mapping _ => False

/-- the column of a field that is joined to rows by a relation -/
def Field.joinedColumn (relation : String) (f : Field) : OutputColumn := ⟨f.name, .joined relation, some f.type⟩

/-! ## Cells of columns -/

/-- The value is that of the row's last cell of this column, read for it: no later cell comes from the same source under
the same key. -/
def HasCell (columns : List OutputColumn) (row : Row) (c : OutputColumn) (v : Value) : Prop :=
  ∃ before cell after, columns.zip row = before ++ (c, cell) :: after ∧ c.coerce cell = v ∧
    ∀ other ∈ after, ¬(other.1.source = c.source ∧ other.1.key = c.key)

/-- A column has one value, which is that of its last cell. -/
theorem HasCell.lastCell {columns : List OutputColumn} {row : Row} {c : OutputColumn} {v : Value}
    (h : HasCell columns row c v) : Record.lastCell c.source c.key (coerceRow columns row) = some v := by
  obtain ⟨before, cell, after, hsplit, rfl, hlast⟩ := h
  rw [coerceRow, hsplit, List.map_append, List.map_cons]
  refine Record.lastCell_split (c, c.coerce cell) fun other hother => ?_
  obtain ⟨later, hlater, rfl⟩ := List.mem_map.1 hother
  exact hlast later hlater

/-- A row that is wide enough has a cell for each column, if no other column has the same source and key. -/
theorem exists_hasCell {columns : List OutputColumn} {row : Row} (hwidth : row.length = columns.length)
    {c : OutputColumn} (hc : c ∈ columns)
    (hunique : ∀ other ∈ columns, other.source = c.source → other.key = c.key → other = c) :
    ∃ v, HasCell columns row c v := by
  have hfound : ((columns.zip row).reverse.find? fun other =>
      other.1.source = c.source && other.1.key = c.key).isSome := by
    obtain ⟨i, hi⟩ := List.mem_iff_getElem?.1 hc
    have hlt : i < row.length := hwidth ▸ (List.getElem?_eq_some_iff.1 hi).1
    have hzip : (c, row[i]) ∈ columns.zip row :=
      List.mem_of_getElem? (List.getElem?_zip_eq_some.2 ⟨hi, List.getElem?_eq_getElem hlt⟩)
    exact List.find?_isSome.2 ⟨_, List.mem_reverse.2 hzip, by simp⟩
  obtain ⟨⟨other, cell⟩, hcell⟩ := Option.isSome_iff_exists.1 hfound
  obtain ⟨hsame, later, earlier, hsplit, hlater⟩ := List.find?_eq_some_iff_append.1 hcell
  have hzip : columns.zip row = earlier.reverse ++ (other, cell) :: later.reverse := by
    rw [← List.reverse_reverse (columns.zip row), hsplit]
    simp
  obtain rfl : other = c := by
    have hmem : (other, cell) ∈ columns.zip row := hzip ▸ by simp
    simp only [Bool.and_eq_true, decide_eq_true_eq] at hsame
    exact hunique other (List.of_mem_zip hmem).1 hsame.1 hsame.2
  refine ⟨other.coerce cell, earlier.reverse, cell, later.reverse, hzip, rfl, fun later' hmem => ?_⟩
  rw [not_and_or]
  simpa using hlater later' (List.mem_reverse.1 hmem)

/-! ## Columns of a shape -/

namespace Plan

/-- a column of a plan whose rows become records: a field of the root or an annotation that the shape shows, or any
field of a joined relation -/
inductive ShapeColumn (schema : Schema) (p : Plan) : OutputColumn → Prop where
  | own {f : Field} (declared : f ∈ p.root.fields) (shown : f.name ∈ p.shownFields) : ShapeColumn schema p f.column
  | joined {name : String} {target : Entity} {f : Field} (loaded : name ∈ p.relationsLoaded .join)
    (leads : p.root.LeadsTo schema name target) (declared : f ∈ target.fields) :
    ShapeColumn schema p (f.joinedColumn name)
  | computed {name : String} {e : Expr} (shown : name ∈ p.shownAliases) (annotated : p.annotationOf name = some e) :
    ShapeColumn schema p ⟨name, .computed, e.fieldType⟩

/-- The columns of a plan whose rows become records, those of a joined relation under different names. -/
structure ShapeColumns (schema : Schema) (p : Plan) (columns : List OutputColumn) : Prop where
  mem : ∀ c, c ∈ columns ↔ p.ShapeColumn schema c
  leads : ∀ name ∈ p.relationsLoaded .join, ∃ target, p.root.LeadsTo schema name target
  joined_distinct : ∀ name, columns.Pairwise fun a b =>
    a.source = .joined name → b.source = .joined name → a.key ≠ b.key

/-- the columns that a joined relation adds -/
def JoinedGroup (schema : Schema) (p : Plan) (name : String) (group : List OutputColumn) : Prop :=
  ∃ target, p.root.LeadsTo schema name target ∧ group = target.fields.map (·.joinedColumn name)

variable {schema : Schema} {p : Plan} {outputs : List Output}

/-- The columns that joined relations add, relation by relation. -/
theorem joinedOutputs_columns (h : p.joinedOutputs schema = .ok outputs) : ∃ groups : List (List OutputColumn),
    outputs.map (·.column) = groups.flatten ∧
      List.Forall₂ (p.JoinedGroup schema) (p.relationsLoaded .join) groups := by
  obtain ⟨groups, hgroups, hpure⟩ := ok_of_bind h
  obtain rfl := Except.ok.inj hpure
  refine ⟨groups.map fun group => group.map (·.column), List.map_flatten, List.forall₂_map_right_iff.2 ?_⟩
  refine (forall₂_of_mapM_ok hgroups).imp fun name group hgroup => ?_
  obtain ⟨relation, hrelation, hmore⟩ := ok_of_bind hgroup
  obtain ⟨target, htarget, hfields⟩ := ok_of_bind hmore
  refine ⟨target, ⟨relation, orFail_eq_ok.1 hrelation, htarget⟩, map_eq_map_iff_forall₂.2 ?_⟩
  refine (forall₂_of_mapM_ok hfields).flip.imp fun o f ho => ?_
  obtain ⟨ref, -, hpure⟩ := ok_of_bind ho
  obtain rfl := Except.ok.inj hpure
  rfl

section Groups

variable {names : List String} {groups : List (List OutputColumn)}
  (h : List.Forall₂ (p.JoinedGroup schema) names groups)

include h

theorem mem_joinedGroups {c : OutputColumn} : c ∈ groups.flatten ↔
    ∃ name ∈ names, ∃ target, p.root.LeadsTo schema name target ∧ ∃ f ∈ target.fields, f.joinedColumn name = c := by
  induction h with
  | nil => simp
  | @cons name group rest groups hgroup _ ih =>
    obtain ⟨target, hleads, rfl⟩ := hgroup
    rw [List.flatten_cons, List.mem_append, ih, List.mem_map, List.exists_mem_cons_iff]
    refine or_congr_left ⟨fun hfield => ⟨target, hleads, hfield⟩, ?_⟩
    rintro ⟨other, hother, hfield⟩
    exact hleads.unique hother ▸ hfield

/-- Columns of one relation have different keys, and those of different relations different sources. -/
theorem joinedGroups_pairwise (hdistinct : schema.DistinctFields) (hnames : names.Nodup) (name : String) :
    groups.flatten.Pairwise fun a b => a.source = .joined name → b.source = .joined name → a.key ≠ b.key := by
  induction h with
  | nil => exact List.Pairwise.nil
  | @cons first group rest groups hgroup hmore ih =>
    obtain ⟨target, hleads, rfl⟩ := hgroup
    obtain ⟨hfirst, hrest⟩ := List.nodup_cons.1 hnames
    rw [List.flatten_cons, List.pairwise_append]
    refine ⟨?_, ih hrest, fun a ha b hb hsourceA hsourceB => ?_⟩
    · rw [List.pairwise_map]
      exact (List.pairwise_map.1 (hdistinct target hleads.mem)).imp fun hne _ _ => hne
    · obtain ⟨f, -, rfl⟩ := List.mem_map.1 ha
      obtain ⟨other, hother, _, -, g, -, rfl⟩ := (mem_joinedGroups hmore).1 hb
      have hsame : first = other := ColumnSource.joined.inj (hsourceA.trans hsourceB.symm)
      exact absurd (hsame ▸ hother) hfirst

end Groups

/-- Columns from elsewhere do not matter for what holds between the columns of one relation. -/
theorem pairwise_joined_append {R : OutputColumn → OutputColumn → Prop} {name : String}
    {own joined computed : List OutputColumn} (hown : ∀ c ∈ own, c.source ≠ .joined name)
    (hcomputed : ∀ c ∈ computed, c.source ≠ .joined name)
    (h : joined.Pairwise fun a b => a.source = .joined name → b.source = .joined name → R a b) :
    (own ++ joined ++ computed).Pairwise fun a b => a.source = .joined name → b.source = .joined name → R a b := by
  refine List.pairwise_append.2 ⟨List.pairwise_append.2 ⟨?_, h, ?_⟩, ?_, ?_⟩
  · exact List.pairwise_of_forall_mem_list fun a ha _ _ hsource => absurd hsource (hown a ha)
  · exact fun a ha _ _ hsource => absurd hsource (hown a ha)
  · exact List.pairwise_of_forall_mem_list fun a ha _ _ hsource => absurd hsource (hcomputed a ha)
  · exact fun _ _ b hb _ hsource => absurd hsource (hcomputed b hb)

section Columns

variable (hkeyed : schema.Keyed) (hdistinct : schema.DistinctFields) (hp : p.Orderly schema)

include hkeyed hdistinct hp

/-- The outputs of fields that records have are the columns of these fields. -/
theorem ownOutputs_column (h : p.shownFields.mapM (Output.ofRootField schema p.root) = .ok outputs) (c : OutputColumn) :
    c ∈ outputs.map (·.column) ↔ ∃ f ∈ p.root.fields, f.name ∈ p.shownFields ∧ f.column = c := by
  have hmem := Schema.mem_of_entity hp.root
  have hcolumn : ∀ f ∈ p.root.fields, ∀ o, Output.ofRootField schema p.root f.name = .ok o → o.column = f.column := by
    intro f hf o ho
    rw [Output.ofRootField, hkeyed.resolve_field hp.root (hkeyed.field_eq hdistinct hmem hf)] at ho
    obtain rfl := Except.ok.inj ho
    rfl
  rw [List.mem_map]
  constructor
  · rintro ⟨o, ho, rfl⟩
    obtain ⟨name, hname, hone⟩ := mem_of_mapM_ok h ho
    obtain ⟨f, hf, rfl⟩ := shownFields_declared (hkeyed.keyedByFields hmem) name hname
    exact ⟨f, hf, hname, (hcolumn f hf o hone).symm⟩
  · rintro ⟨f, hf, hshown, rfl⟩
    obtain ⟨o, ho, hone⟩ := exists_of_mapM_ok h hshown
    exact ⟨o, ho, hcolumn f hf o hone⟩

omit hkeyed hdistinct hp in
theorem computedOutputs_column (h : p.shownAliases.mapM p.annotationOutput = .ok outputs) (c : OutputColumn) :
    c ∈ outputs.map (·.column) ↔
      ∃ name ∈ p.shownAliases, ∃ e, p.annotationOf name = some e ∧ ⟨name, .computed, e.fieldType⟩ = c := by
  rw [List.mem_map]
  constructor
  · rintro ⟨o, ho, rfl⟩
    obtain ⟨name, hname, hone⟩ := mem_of_mapM_ok h ho
    obtain ⟨e, he, rfl⟩ := annotationOutput_eq hone
    exact ⟨name, hname, e, he, rfl⟩
  · rintro ⟨name, hname, e, he, rfl⟩
    obtain ⟨o, ho, hone⟩ := exists_of_mapM_ok h hname
    obtain ⟨e', he', rfl⟩ := annotationOutput_eq hone
    obtain rfl := Option.some.inj (he.symm.trans he')
    exact ⟨_, ho, rfl⟩

/-- **The columns of a plan whose rows become records.** -/
theorem shapeColumns {shape : ResultShape} (h : p.outputs schema .rows = .ok (outputs, shape))
    (hrecords : ∀ names, ¬p.Maps names) :
    p.ShapeColumns schema (outputs.map (·.column)) ∧ shape = p.recordShape := by
  obtain ⟨names, hmaps, -⟩ | ⟨-, own, joined, computed, hown, hjoined, hcomputed, rfl, rfl⟩ := outputs_rows h
  · exact absurd hmaps (hrecords names)
  obtain ⟨groups, hgroups, heach⟩ := joinedOutputs_columns hjoined
  have howns := ownOutputs_column hkeyed hdistinct hp hown
  have hcomputeds := computedOutputs_column hcomputed
  rw [List.map_append, List.map_append, hgroups]
  refine ⟨⟨fun c => ?_, fun name hname => ?_, fun name => ?_⟩, rfl⟩
  · rw [List.mem_append, List.mem_append, howns, hcomputeds, mem_joinedGroups heach]
    constructor
    · rintro ((⟨f, hf, hshown, rfl⟩ | ⟨name, hname, target, hleads, f, hf, rfl⟩) | ⟨name, hname, e, he, rfl⟩)
      · exact .own hf hshown
      · exact .joined hname hleads hf
      · exact .computed hname he
    · rintro (⟨hf, hshown⟩ | ⟨hname, hleads, hf⟩ | ⟨hname, he⟩)
      · exact .inl (.inl ⟨_, hf, hshown, rfl⟩)
      · exact .inl (.inr ⟨_, hname, _, hleads, _, hf, rfl⟩)
      · exact .inr ⟨_, hname, _, he, rfl⟩
  · obtain ⟨group, -, target, hleads, -⟩ := exists_of_forall₂ heach hname
    exact ⟨target, hleads⟩
  · refine pairwise_joined_append (fun c hc hsource => ?_) (fun c hc hsource => ?_)
      (joinedGroups_pairwise heach hdistinct hp.nodup_loaded.1 name)
    · obtain ⟨f, -, -, rfl⟩ := (howns c).1 hc
      cases hsource
    · obtain ⟨_, -, e, -, rfl⟩ := (hcomputeds c).1 hc
      cases hsource

end Columns

/-- Records have the fields that their shape shows. -/
theorem shows_recordShape {name : String} : p.recordShape.Shows p.root name ↔ name ∈ p.shownFields := by
  unfold recordShape
  split
  · next hprojection => rw [shownFields, hprojection, ResultShape.Shows]
  · rw [ResultShape.Shows]

/-! ## Rows of a shape -/

namespace ShapeColumns

variable {columns : List OutputColumn} (hcolumns : p.ShapeColumns schema columns) {row : Row}

include hcolumns

/-- A field in the shape has a cell. -/
theorem lastCell_own (hdistinct : (p.root.fields.map (·.name)).Nodup) (hwidth : row.length = columns.length) {f : Field}
    (hf : f ∈ p.root.fields) (hshown : f.name ∈ p.shownFields) :
    ∃ v, HasCell columns row f.column v ∧ Record.lastCell .root f.name (coerceRow columns row) = some v := by
  suffices h : ∃ v, HasCell columns row f.column v from h.imp fun v hcell => ⟨hcell, hcell.lastCell⟩
  refine exists_hasCell hwidth ((hcolumns.mem _).2 (.own hf hshown)) fun other hother hsource hkey => ?_
  cases (hcolumns.mem other).1 hother with
  | own hg _ => rw [List.inj_on_of_nodup_map hdistinct hg hf hkey]
  | joined | computed => cases hsource

theorem lastCell_unshown {name : String} (hname : name ∉ p.shownFields) :
    Record.lastCell .root name (coerceRow columns row) = none := by
  refine Record.lastCell_eq_none fun cell hcell hsource hkey => hname ?_
  have hcolumn := (hcolumns.mem cell.1).1 (Record.mem_coerceRow hcell)
  generalize cell.1 = column at hcolumn hsource hkey
  cases hcolumn with
  | own _ hshown => exact hkey ▸ hshown
  | joined | computed => cases hsource

/-- An annotation in the shape has a cell. -/
theorem lastCell_computed (hwidth : row.length = columns.length) {name : String} (hname : name ∈ p.shownAliases)
    {e : Expr} (he : p.annotationOf name = some e) : ∃ v, HasCell columns row ⟨name, .computed, e.fieldType⟩ v ∧
      Record.lastCell .computed name (coerceRow columns row) = some v := by
  suffices h : ∃ v, HasCell columns row ⟨name, .computed, e.fieldType⟩ v from
    h.imp fun v hcell => ⟨hcell, hcell.lastCell⟩
  refine exists_hasCell hwidth ((hcolumns.mem _).2 (.computed hname he)) fun other hother hsource hkey => ?_
  cases (hcolumns.mem other).1 hother with
  | computed _ he' =>
    subst hkey
    rw [Option.some.inj (he.symm.trans he')]
  | own | joined => cases hsource

theorem lastCell_hidden {name : String} (hname : name ∉ p.shownAliases) :
    Record.lastCell .computed name (coerceRow columns row) = none := by
  refine Record.lastCell_eq_none fun cell hcell hsource hkey => hname ?_
  have hcolumn := (hcolumns.mem cell.1).1 (Record.mem_coerceRow hcell)
  generalize cell.1 = column at hcolumn hsource hkey
  cases hcolumn with
  | computed hshown _ => exact hkey ▸ hshown
  | own | joined => cases hsource

/-- No annotation has a name that the root declares. -/
theorem lastCell_declared (hundeclared : ∀ a ∈ p.annotations, p.root.declares a.aliasName = false) {name : String}
    (hname : p.root.declares name = true) : Record.lastCell .computed name (coerceRow columns row) = none := by
  refine hcolumns.lastCell_hidden fun hshown => ?_
  obtain ⟨a, ha, halias⟩ := shownAliases_annotated _ hshown
  have hfree := hundeclared a ha
  rw [halias, hname] at hfree
  cases hfree

/-- A field of a joined relation has a cell, besides those of its name from elsewhere. -/
theorem lastCell_joined (hwidth : row.length = columns.length) {name : String} (hname : name ∈ p.relationsLoaded .join)
    {target : Entity} (hleads : p.root.LeadsTo schema name target) {f : Field} (hf : f ∈ target.fields) :
    ∃ v, HasCell columns row (f.joinedColumn name) v ∧
      Record.lastCell (.joined name) f.name (coerceRow columns row) = some v := by
  have hcolumn := (hcolumns.mem _).2 (.joined hname hleads hf)
  obtain ⟨v, hcell⟩ := exists_hasCell hwidth hcolumn fun other hother hsource hkey =>
    eq_of_pairwise_key (hcolumns.joined_distinct name) hother hcolumn hsource rfl hkey
  exact ⟨v, hcell, hcell.lastCell⟩

/-- A row joins the relations that are declared to be joined. -/
theorem mem_joinedNames (hkeyed : schema.Keyed) (hwidth : row.length = columns.length) {name : String} :
    name ∈ Record.joinedNames (coerceRow columns row) ↔ name ∈ p.relationsLoaded .join := by
  rw [Record.mem_joinedNames]
  constructor
  · rintro ⟨cell, hcell, hsource⟩
    have hcolumn := (hcolumns.mem cell.1).1 (Record.mem_coerceRow hcell)
    generalize cell.1 = column at hcolumn hsource
    cases hcolumn with
    | joined hname _ _ => exact ColumnSource.joined.inj hsource ▸ hname
    | own | computed => cases hsource
  · intro hname
    obtain ⟨target, hleads⟩ := hcolumns.leads name hname
    obtain ⟨f, hf, -⟩ := (hkeyed.keyedByFields hleads.mem).primaryKey
    obtain ⟨v, -, hlast⟩ := hcolumns.lastCell_joined hwidth hname hleads hf
    obtain ⟨c, hmem, hsource, -⟩ := Record.mem_of_lastCell hlast
    exact ⟨(c, v), hmem, hsource⟩

theorem each {c : OutputColumn} (hc : c ∈ columns) : p.RecordColumn schema c := by
  cases (hcolumns.mem c).1 hc with
  | own hf _ => exact .field hf
  | joined _ hleads _ =>
    obtain ⟨relation, hrelation, htarget⟩ := hleads
    exact .joined hrelation htarget
  | computed _ he => exact .computed he

end ShapeColumns

end Plan

/-! ## Records -/

/-- The relation is one of the root's, with rows for each of so many primary rows. -/
structure AttachedRelation.IsOf (schema : Schema) (root : Entity) (count : Nat) (a : AttachedRelation)
    (relation : Relation) (target : Entity) : Prop where
  declared : root.relation a.relation = some relation
  found : schema.entity relation.target = .ok target
  leadsTo : a.target = target.name
  cardinality : a.cardinality = relation.cardinality
  columns : a.columns = target.columns
  perRow : a.perRow.length = count

section Attached

variable {schema : Schema} {root : Entity} {count i : Nat} {a : AttachedRelation} {relation : Relation}
  {target : Entity}

theorem AttachedRelation.IsOf.ofAttached (h : a.IsOf schema root count relation target) (rows : List Row) :
    Record.ofAttached schema a rows = .ok (.ofRecords relation.cardinality
      (rows.map fun row => .ofFields target (coerceRow target.columns row))) := by
  unfold Record.ofAttached
  rw [h.leadsTo, Schema.entity_name h.found, h.cardinality, h.columns]
  rfl

theorem AttachedRelation.IsOf.related (h : a.IsOf schema root count relation target) :
    attachedRelated schema i a = .ofRecords relation.cardinality
      ((a.perRow[i]?.getD []).map fun row => .ofFields target (coerceRow target.columns row)) := by
  rw [attachedRelated, h.ofAttached]

end Attached

namespace Record

/-- The record shows what its shape says: the fields and annotations in it have the cells of their columns, joined
relations those of their own columns and batched ones the rows attached to them, other fields and relations of the
entity are not loaded, and other annotations are unknown. -/
structure Carries (schema : Schema) (p : Plan) (shape : ResultShape) (columns : List OutputColumn)
    (attached : List AttachedRelation) (i : Nat) (row : Row) (r : Record) : Prop where
  entity : r.entity = p.root
  fields : ∀ f ∈ p.root.fields, shape.Shows p.root f.name → ∃ v, HasCell columns row f.column v ∧ r.get f.name = .ok v
  unloaded : ∀ f ∈ p.root.fields, ¬shape.Shows p.root f.name → r.get f.name = .error (.notLoaded p.root.name f.name)
  annotations : ∀ name ∈ p.shownAliases, ∃ e v, p.annotationOf name = some e ∧
    HasCell columns row ⟨name, .computed, e.fieldType⟩ v ∧ r.get name = .ok v
  hidden : ∀ a ∈ p.annotations, a.aliasName ∉ p.shownAliases →
    r.get a.aliasName = .error (.unknownPath p.root.name a.aliasName)
  /-- a joined relation is a record of its cells, or none when the key among them is null -/
  joined : ∀ name ∈ p.relationsLoaded .join, ∃ target related, p.root.LeadsTo schema name target ∧
    r.relation name = .ok (.one related) ∧ ∀ f ∈ target.fields, ∃ v, HasCell columns row (f.joinedColumn name) v ∧
      (f.name = target.primaryKey → (related = none ↔ v.isNull = true)) ∧ ∀ other ∈ related, other.get f.name = .ok v
  batched : ∀ name ∈ p.relationsLoaded .batched, ∃ relation target, p.root.relation name = some relation ∧
    schema.entity relation.target = .ok target ∧ ∃ a ∈ attached, a.relation = name ∧
      ∃ rows, a.perRow[i]? = some rows ∧ r.relation name = .ok (.ofRecords relation.cardinality
        (rows.map fun row => .ofFields target (coerceRow target.columns row)))
  others : ∀ relation ∈ p.root.relations, relation.name ∉ p.loadings.names →
    r.relation relation.name = .error (.notLoaded p.root.name relation.name)

/-- One record is the other with relations attached to it. -/
structure AttachedTo (schema : Schema) (attached : List AttachedRelation) (i : Nat) (r r' : Record) : Prop where
  same : SameCells r r'
  others : ∀ name, (∀ a ∈ attached, a.relation ≠ name) → r'.related.get? name = r.related.get? name
  related : ∀ a ∈ attached, r'.related.get? a.relation = some (attachedRelated schema i a)

/-- Relations under different names can be attached to any record. -/
theorem exists_attachedTo {schema : Schema} {root : Entity} {attached : List AttachedRelation} {count : Nat}
    (hof : ∀ a ∈ attached, ∃ relation target, a.IsOf schema root count relation target)
    (hnodup : (attached.map (·.relation)).Nodup) (i : Nat) (r : Record) :
    ∃ r', attached.foldlM (addAttached schema i) r = .ok r' ∧ AttachedTo schema attached i r r' := by
  have hadded : ∀ a ∈ attached, ofAttached schema a (a.perRow[i]?.getD []) = .ok (attachedRelated schema i a) := by
    intro a ha
    obtain ⟨relation, target, hisOf⟩ := hof a ha
    rw [hisOf.related]
    exact hisOf.ofAttached _
  obtain ⟨r', hr', hsame, hothers, hget⟩ := foldlM_addAttached hadded r
  refine ⟨r', hr', hsame, hothers, fun a ha => hget a ha fun other hother hname => ?_⟩
  rw [List.inj_on_of_nodup_map hnodup hother ha hname]

section Carries

variable {schema : Schema} {p : Plan} {columns : List OutputColumn} {row : Row} {attached : List AttachedRelation}
  {i count : Nat} {r r' : Record} (hkeyed : schema.Keyed) (hdistinct : schema.DistinctFields) (hp : p.Orderly schema)
  (haliases : ∀ a ∈ p.annotations, '.' ∉ a.aliasName.toList) (hcolumns : p.ShapeColumns schema columns)
  (hwidth : row.length = columns.length) (hnames : attached.map (·.relation) = p.relationsLoaded .batched)
  (hof : ∀ a ∈ attached, ∃ relation target, a.IsOf schema p.root count relation target) (hi : i < count)

section Joined

include hkeyed hdistinct hcolumns hwidth

/-- The record that is joined to a row has the cells of its relation. -/
theorem joinedRecord_carries {name : String} (hname : name ∈ p.relationsLoaded .join) {target : Entity}
    (hleads : p.root.LeadsTo schema name target) {f : Field} (hf : f ∈ target.fields) :
    ∃ v, HasCell columns row (f.joinedColumn name) v ∧
      (f.name = target.primaryKey →
        (joinedRecord target (joinedCells name (coerceRow columns row)) = none ↔ v.isNull = true)) ∧
      ∀ other ∈ joinedRecord target (joinedCells name (coerceRow columns row)), other.get f.name = .ok v := by
  obtain ⟨v, hcell, hlast⟩ := hcolumns.lastCell_joined hwidth hname hleads hf
  have hown : ∀ cell ∈ joinedCells name (coerceRow columns row),
      cell ∈ coerceRow columns row ∧ cell.1.source = .joined name := by
    intro cell hcell
    simpa [joinedCells] using hcell
  refine ⟨v, hcell, fun hkey => ?_, fun other hother => ?_⟩
  · obtain ⟨c, hmem, hsource, hname'⟩ := mem_of_lastCell hlast
    have hkeyCell : (c, v) ∈ joinedCells name (coerceRow columns row) := by simp [joinedCells, hmem, hsource]
    refine joinedRecord_eq_none hkeyCell (hname'.trans hkey) fun other hother hotherKey => ?_
    obtain ⟨hotherMem, hotherSource⟩ := hown other hother
    exact eq_of_pairwise_key (pairwise_coerceRow (hcolumns.joined_distinct name) row) hotherMem hmem hotherSource
      hsource (hotherKey.trans (hname'.trans hkey).symm)
  · unfold joinedRecord at hother
    split at hother
    · obtain rfl := Option.some.inj hother
      obtain ⟨hentity, hannotations⟩ := ofFields_entity target (joinedCells name (coerceRow columns row))
      have hfield := hkeyed.field_eq hdistinct hleads.mem hf
      rw [get_of_field (hkeyed.undotted.field hleads.mem hf) (hentity.symm ▸ hfield) (hannotations ▸ rfl),
        ofFields_field fun cell hcell => (hown cell hcell).2, lastCell_joinedCells, hlast]
      rfl
    · cases hother

end Joined

section Members

variable (hmade : r.MadeOf schema p.root (coerceRow columns row)) (hattached : AttachedTo schema attached i r r')

include hmade hattached

/-- A field of the root is read off its cells. -/
theorem MadeOf.get_own (hkeyed : schema.Keyed) (hdistinct : schema.DistinctFields) (hp : p.Orderly schema)
    (hcolumns : p.ShapeColumns schema columns) {f : Field} (hf : f ∈ p.root.fields) :
    r'.get f.name = orFail (.notLoaded p.root.name f.name) (lastCell .root f.name (coerceRow columns row)) := by
  have hmem := Schema.mem_of_entity hp.root
  have hentity := hattached.same.entity.trans hmade.entity
  have hfield := hkeyed.field_eq hdistinct hmem hf
  have hfree : r'.annotations.get? f.name = none := by
    rw [hattached.same.annotations, hmade.annotations]
    exact hcolumns.lastCell_declared hp.undeclared (by simp [Entity.declares, hfield])
  rw [get_of_field (hkeyed.undotted.field hmem hf) (hentity ▸ hfield) hfree, hattached.same.fields, hmade.fields,
    hentity]

/-- An annotation is read off its cells, and without them it is nothing that the entity knows. -/
theorem MadeOf.get_annotation (hp : p.Orderly schema) (haliases : ∀ a ∈ p.annotations, '.' ∉ a.aliasName.toList)
    {a : Annotation} (ha : a ∈ p.annotations) : r'.get a.aliasName =
      orFail (.unknownPath p.root.name a.aliasName) (lastCell .computed a.aliasName (coerceRow columns row)) := by
  have hentity := hattached.same.entity.trans hmade.entity
  have hfield : p.root.field a.aliasName = none := by
    have hfree := hp.undeclared a ha
    simp only [Entity.declares, Bool.or_eq_false_iff] at hfree
    exact (by simpa using hfree.1 : a.aliasName ≠ "pk" ∧ _).2
  rw [get_undotted (haliases a ha), member, hattached.same.annotations, hmade.annotations]
  cases lastCell .computed a.aliasName (coerceRow columns row) with
  | some v => rfl
  | none =>
    simp only [hentity, hfield]
    rfl

/-- A relation of the root is what the record holds under its name. -/
theorem MadeOf.relation_eq {name : String} (hsome : (p.root.relation name).isSome) :
    r'.relation name = orFail (.notLoaded p.root.name name) (r'.related.get? name) := by
  have hentity := hattached.same.entity.trans hmade.entity
  rw [relation_of_related (hentity ▸ hsome), hentity]

end Members

theorem AttachedTo.unattached (hattached : AttachedTo schema attached i r r')
    (hnames : attached.map (·.relation) = p.relationsLoaded .batched) {name : String}
    (hname : name ∉ p.relationsLoaded .batched) : r'.related.get? name = r.related.get? name := by
  refine hattached.others name fun a ha heq => hname ?_
  rw [← hnames, ← heq]
  exact List.mem_map_of_mem ha

include hkeyed hdistinct hp haliases hcolumns hwidth hnames hof hi

/-- The record of a row shows what its shape says, once the relations that are declared to be batched, and no others,
have been attached to it. -/
theorem MadeOf.carries (hmade : r.MadeOf schema p.root (coerceRow columns row))
    (hattached : AttachedTo schema attached i r r') : r'.Carries schema p p.recordShape columns attached i row where
  entity := hattached.same.entity.trans hmade.entity
  fields f hf hshows := by
    obtain ⟨v, hcell, hlast⟩ := hcolumns.lastCell_own (hdistinct _ (Schema.mem_of_entity hp.root)) hwidth hf
      (Plan.shows_recordShape.1 hshows)
    refine ⟨v, hcell, ?_⟩
    rw [hmade.get_own hattached hkeyed hdistinct hp hcolumns hf, hlast]
    rfl
  unloaded f hf hshows := by
    rw [hmade.get_own hattached hkeyed hdistinct hp hcolumns hf,
      hcolumns.lastCell_unshown fun hshown => hshows (Plan.shows_recordShape.2 hshown)]
    rfl
  annotations name hname := by
    obtain ⟨a, ha, rfl⟩ := Plan.shownAliases_annotated name hname
    obtain ⟨e, he⟩ := Option.isSome_iff_exists.1 (Plan.annotationOf_isSome.2 (List.mem_map_of_mem ha))
    obtain ⟨v, hcell, hlast⟩ := hcolumns.lastCell_computed hwidth hname he
    refine ⟨e, v, he, hcell, ?_⟩
    rw [hmade.get_annotation hattached hp haliases ha, hlast]
    rfl
  hidden a ha hname := by
    rw [hmade.get_annotation hattached hp haliases ha, hcolumns.lastCell_hidden hname]
    rfl
  joined name hname := by
    obtain ⟨target, hleads⟩ := hcolumns.leads name hname
    have hunattached := hattached.unattached hnames fun hbatched => hp.nodup_loaded.2.2 hname hbatched
    refine ⟨target, _, hleads, ?_, fun f hf => joinedRecord_carries hkeyed hdistinct hcolumns hwidth hname hleads hf⟩
    rw [hmade.relation_eq hattached hleads.declared, hunattached,
      hmade.joined name ((hcolumns.mem_joinedNames hkeyed hwidth).2 hname) target hleads]
    rfl
  batched name hname := by
    rw [← hnames] at hname
    obtain ⟨a, ha, rfl⟩ := List.mem_map.1 hname
    obtain ⟨relation, target, hisOf⟩ := hof a ha
    have hlt : i < a.perRow.length := hisOf.perRow ▸ hi
    have hrows := List.getElem?_eq_getElem hlt
    refine ⟨relation, target, hisOf.declared, hisOf.found, a, ha, rfl, a.perRow[i], hrows, ?_⟩
    rw [hmade.relation_eq hattached (by simp [hisOf.declared]), hattached.related a ha, hisOf.related, hrows]
    rfl
  others relation hrelation hname := by
    rw [Plan.mem_loaded, not_or] at hname
    rw [hmade.relation_eq hattached (List.find?_isSome.2 ⟨relation, hrelation, by simp⟩),
      hattached.unattached hnames hname.2,
      hmade.unjoined _ fun hjoined => hname.1 ((hcolumns.mem_joinedNames hkeyed hwidth).1 hjoined)]
    rfl

/-- **A row has a record that shows what its shape says.** -/
theorem ofRow_carries : ∃ r r' : Record, ofRow schema p.root columns row = .ok r ∧
    attached.foldlM (addAttached schema i) r = .ok r' ∧ r'.Carries schema p p.recordShape columns attached i row := by
  obtain ⟨r, hr, hmade⟩ := ofRow_madeOf (fun _ => hcolumns.each) row
  obtain ⟨r', hr', hattached⟩ := exists_attachedTo hof (hnames ▸ hp.nodup_loaded.2.1) i r
  exact ⟨r, r', hr, hr', hmade.carries hkeyed hdistinct hp haliases hcolumns hwidth hnames hof hi hattached⟩

end Carries

end Record

/-! ## Loads -/

/-- What a load attaches are the relations that are fetched in batches. -/
theorem CompiledQuery.attached_isOf {schema : Schema} {p : Plan} {q : CompiledQuery}
    (hbatches : p.batches schema q.primary.columns = .ok q.batched) {fetched : List (List Row)}
    (hlength : fetched.length = q.batched.length) (primary : List Row) :
    (q.withFetched primary fetched).relations.map (·.relation) = p.relationsLoaded .batched ∧
      ∀ a ∈ (q.withFetched primary fetched).relations,
        ∃ relation target, a.IsOf schema p.root primary.length relation target := by
  have heach := forall₂_of_mapM_ok hbatches
  constructor
  · have hnames : q.batched.map (·.relation) = (p.relationsLoaded .batched).map id :=
      map_eq_map_iff_forall₂.2 (heach.flip.imp fun _ _ h => (BatchFetch.ofRelation_ok h).1)
    rw [← List.map_id (p.relationsLoaded .batched), ← hnames, withFetched, List.map_map]
    change (q.batched.zip fetched).map (BatchFetch.relation ∘ Prod.fst) = _
    rw [← List.map_map, List.map_fst_zip hlength.ge]
  · intro a ha
    obtain ⟨⟨fetch, rows⟩, hpair, rfl⟩ := List.mem_map.1 ha
    obtain ⟨name, -, hfetch⟩ := mem_of_mapM_ok hbatches (List.of_mem_zip hpair).1
    obtain ⟨rfl, relation, target, f, hrelation, htarget, hof⟩ := BatchFetch.ofRelation_ok hfetch
    exact ⟨relation, target, hrelation, htarget, hof.leadsTo, hof.cardinality, hof.columns, List.length_map _⟩

namespace Plan

theorem recordShape_isOf {p : Plan} : p.recordShape.IsOf p.root.name ∧ p.recordShape.isMapping = false := by
  unfold recordShape
  split
  · exact ⟨.inl rfl, rfl⟩
  · exact ⟨.inr ⟨_, rfl⟩, rfl⟩

/-- **Records carry exactly their shape.** Let a plan whose rows become records be built over a schema with names that
are no paths, under aliases that are no paths either, and let its rows be loaded, each as wide as the statement. There
is a record for each row, and it has the fields, annotations and relations that the shape shows, each from its own
column, and nothing else. -/
theorem records_carry_shape {σ : Type} (schema : Schema) (hkeyed : schema.Keyed) (hdistinct : schema.DistinctFields)
    (p : Plan) (hp : p.Made schema) (haliases : ∀ a ∈ p.annotations, '.' ∉ a.aliasName.toList)
    (hrecords : ∀ names, ¬p.Maps names) (d : Sql.Dialect) (q : CompiledQuery) (hcompile : p.compile schema d = .ok q)
    (storage : Storage σ) (policy : BatchPolicy) (link after : Link σ) (set : RowSet)
    (hload : RowSet.load storage d policy q link = (.ok set, after))
    (hwidth : ∀ row ∈ set.rows, row.length = q.primary.columns.length) :
    ∃ records, materialize schema set q.shape = .ok (.records records) ∧ records.length = set.rows.length ∧
      ∀ i row (r : Record), set.rows[i]? = some row → records[i]? = some r →
        r.Carries schema p q.shape q.primary.columns set.relations i row := by
  have horderly := hp.orderly
  obtain ⟨outputs, houtputs, hcolumnsEq, -⟩ := compile_ok hcompile
  obtain ⟨hcolumns, hshape⟩ := shapeColumns hkeyed hdistinct horderly houtputs hrecords
  rw [← hcolumnsEq] at hcolumns
  have hbatches := batches_of_compile hcompile (hshape ▸ recordShape_isOf.2)
  obtain ⟨primary, fetched, hlength, rfl⟩ := RowSet.load_withFetched hload
  obtain ⟨hnames, hof⟩ := CompiledQuery.attached_isOf hbatches hlength primary
  have hrecord : ∀ k row, primary[k]? = some row → ∃ r r' : Record,
      Record.ofRow schema p.root q.primary.columns row = .ok r ∧
        (q.withFetched primary fetched).relations.foldlM (Record.addAttached schema (0 + k)) r = .ok r' ∧
        r'.Carries schema p p.recordShape q.primary.columns (q.withFetched primary fetched).relations (0 + k) row := by
    intro k row hrow
    have hk : 0 + k < primary.length := (Nat.zero_add k).symm ▸ (List.getElem?_eq_some_iff.1 hrow).1
    exact Record.ofRow_carries hkeyed hdistinct horderly haliases hcolumns (hwidth row (List.mem_of_getElem? hrow))
      hnames hof hk
  obtain ⟨records, hrecords, hcount, hall⟩ := recordsFrom_ok (q.withFetched primary fetched) hrecord
  refine ⟨records, ?_, hcount, fun i row r hrow hr => ?_⟩
  · rw [hshape]
    exact materialize_isOf recordShape_isOf.1 horderly.root hrecords
  · rw [hshape]
    simpa using hall i row r hrow hr

/-! ## A sample: persons with parent and children -/

def samplePerson : Entity where
  name := "person"
  table := "persons"
  primaryKey := "id"
  fields := [⟨"id", .int, false⟩, ⟨"parent_id", .int, true⟩, ⟨"name", .text, false⟩]
  relations := [⟨"children", "person", .toMany, "id", "parent_id"⟩, ⟨"parent", "person", .toOne, "parent_id", "id"⟩]

def sampleFamily : Schema := ⟨[samplePerson]⟩

/-- Persons by a nickname that is asked for twice, with parent and children, and without their own name. -/
def sampleNicknames : Plan :=
  { ofEntity samplePerson with
    annotations := [⟨"nickname", .field ⟨"person", "name", [], ⟨"name", .text, false⟩⟩⟩]
    projection := some ⟨.narrowed, ["nickname", "nickname"]⟩
    loadings := ⟨[("children", .batched), ("parent", .join)]⟩ }

/-- A person without parent, and a child of hers. -/
def samplePersons : List Row :=
  [[.int 1, .null, .null, .null, .null, .text "Ann", .text "Anna"],
    [.int 2, .int 1, .int 1, .null, .text "Ann", .text "Bob", .text "Robert"]]

/-- The persons are asked for without parameters, and children by the keys of their parents. -/
def sampleHousehold : Storage Unit where
  read request _ :=
    (⟨.ok (if request.params.isEmpty then samplePersons else [[.int 2, .int 1, .text "Bob"]]), none⟩, ())
  write _ _ := (⟨.ok 0, none⟩, ())

theorem sampleFamily_keyed : sampleFamily.Keyed where
  checked := ⟨[.declare "person" (some "persons") none
    [⟨"id", .int, false⟩, ⟨"parent_id", .int, true⟩, ⟨"name", .text, false⟩]
    [.matching "children" "person" .toMany "id" "parent_id", .toOne "parent" "person" "parent_id"]], by rfl⟩
  undotted := by decide
  pk := by decide
  localColumn := by decide
  remoteColumn := by
    have hperson : ∀ e ∈ sampleFamily.entities, ∀ r ∈ e.relations, r.target = "person" ∧
        ∃ f ∈ samplePerson.fields, f.name = r.remoteColumn := by decide
    intro e he r hr target htarget
    obtain ⟨hname, hcolumn⟩ := hperson e he r hr
    rw [hname] at htarget
    obtain rfl := Except.ok.inj htarget
    exact hcolumn

theorem sampleNicknames_made : sampleNicknames.Made sampleFamily :=
  have hstart : Made sampleFamily (ofEntity samplePerson) := .start (rfl : Plan.start sampleFamily "person" = _)
  have hannotated := Made.step (.annotate "nickname" (.field ⟨"person", "name", [], ⟨"name", .text, false⟩⟩)) hstart rfl
  have hnarrowed := Made.step (.only ["nickname", "nickname"]) hannotated rfl
  have hjoined := Made.step (.withRelation "parent" (some .join)) hnarrowed rfl
  .step (.withRelation "children" (some .batched)) hjoined rfl

/-- Anna has the nickname that was selected last, no parent, and children, but not her own name; Robert's parent has
hers. -/
theorem records_carry_shape_persons : ∃ q set after anna robert,
    sampleNicknames.compile sampleFamily .sqlite = .ok q ∧
    RowSet.load sampleHousehold .sqlite ⟨1, false⟩ q ⟨(), .unshared, {}⟩ = (.ok set, after) ∧
    materialize sampleFamily set q.shape = .ok (.records [anna, robert]) ∧
    anna.get "name" = .error (.notLoaded "person" "name") ∧ anna.get "nickname" = .ok (.text "Anna") ∧
    anna.relation "parent" = .ok (.one none) ∧ (∃ children, anna.relation "children" = .ok (.many children)) ∧
    ∃ parent, robert.relation "parent" = .ok (.one (some parent)) ∧ parent.get "name" = .ok (.text "Ann") := by
  have hdistinct : sampleFamily.DistinctFields := by
    unfold Schema.DistinctFields
    decide
  obtain ⟨records, hmaterialize, hlength, hall⟩ := records_carry_shape sampleFamily sampleFamily_keyed hdistinct
    sampleNicknames sampleNicknames_made (by decide) nofun .sqlite _ rfl sampleHousehold ⟨1, false⟩ ⟨(), .unshared, {}⟩
    _ _ rfl (by decide)
  obtain ⟨anna, robert, rfl⟩ := List.length_eq_two.1 hlength
  refine ⟨_, _, _, anna, robert, rfl, rfl, hmaterialize, ?_⟩
  have hanna := hall 0 _ anna rfl rfl
  have hrobert := hall 1 _ robert rfl rfl
  have hname : ¬sampleNicknames.recordShape.Shows sampleNicknames.root "name" := by
    rw [shows_recordShape]
    decide
  have hleads : sampleNicknames.root.LeadsTo sampleFamily "parent" samplePerson := ⟨_, rfl, rfl⟩
  refine ⟨hanna.unloaded ⟨"name", .text, false⟩ (by decide) hname, ?_, ?_, ?_, ?_⟩
  · obtain ⟨e, v, he, hcell, hnickname⟩ := hanna.annotations "nickname" (by decide)
    obtain rfl := Option.some.inj he
    obtain rfl : v = .text "Anna" := Option.some.inj (hcell.lastCell.symm.trans rfl)
    exact hnickname
  · obtain ⟨target, related, htarget, hparent, hfields⟩ := hanna.joined "parent" (by decide)
    obtain rfl := hleads.unique htarget
    obtain ⟨id, hid, hkey, -⟩ := hfields ⟨"id", .int, false⟩ (by decide)
    obtain rfl : id = .null := Option.some.inj (hid.lastCell.symm.trans rfl)
    rw [hparent, (hkey rfl).2 rfl]
  · obtain ⟨relation, target, hrelation, -, a, -, -, rows, -, hchildren⟩ := hanna.batched "children" (by decide)
    obtain rfl := Option.some.inj hrelation
    exact ⟨_, hchildren⟩
  · obtain ⟨target, related, htarget, hparent, hfields⟩ := hrobert.joined "parent" (by decide)
    obtain rfl := hleads.unique htarget
    obtain ⟨id, hid, hkey, -⟩ := hfields ⟨"id", .int, false⟩ (by decide)
    obtain rfl : id = .int 1 := Option.some.inj (hid.lastCell.symm.trans rfl)
    obtain ⟨v, hcell, -, hget⟩ := hfields ⟨"name", .text, false⟩ (by decide)
    obtain rfl : v = .text "Ann" := Option.some.inj (hcell.lastCell.symm.trans rfl)
    obtain ⟨parent, rfl⟩ := Option.ne_none_iff_exists'.1 fun hnone => nomatch (hkey rfl).1 hnone
    exact ⟨parent, hparent, hget parent rfl⟩

end Plan

end RelQuery
