/-
Joined and batched relations.

A relation with one row at most can be joined to the rows of a plan or fetched for them in batches. Joined, the cells of
the related row stand in the row itself, and a null key among them says that there is none; in batches, the rows of the
target are handed to the rows that hold their key. The two are told apart by the statements they need and by nothing in
the records: both hold the relation that the row's own cells determine (`Record.AssembledFrom`).
- `RootRow`: a row's own cells, which do not depend on how relations are loaded.
- `zip_arrange`: cells put in the order of the columns are read back source by source.
- `Plan.assembled`: the record of a row, whichever way each of its relations is loaded.
- `Plan.strategies_agree`: loading relations in other ways gives the same records.
-/
import RelQuery.Proofs.Record.Shapes

namespace RelQuery

/-! ## Cells by their source -/

/-- the columns with cells from one source -/
def columnsFrom (source : ColumnSource) (columns : List OutputColumn) : List OutputColumn :=
  columns.filter fun c => c.source = source

/-- the row whose cells are, source by source, the given ones in their order -/
def arrange (cells : ColumnSource → Row) : List OutputColumn → Row
  | [] => []
  | c :: rest => (cells c.source).headD .null :: arrange (Function.update cells c.source (cells c.source).tail) rest

/-- The columns from a source have its cells, whatever columns stand between them. -/
theorem zip_arrange {cells : ColumnSource → Row} {columns : List OutputColumn} {source : ColumnSource}
    (hwidth : (cells source).length = (columnsFrom source columns).length) :
    (columns.zip (arrange cells columns)).filter (fun cell => cell.1.source = source) =
      (columnsFrom source columns).zip (cells source) := by
  unfold columnsFrom at hwidth ⊢
  induction columns generalizing cells with
  | nil => rfl
  | cons c rest ih =>
    rw [arrange, List.zip_cons_cons]
    by_cases hsource : c.source = source
    · subst hsource
      rw [List.filter_cons_of_pos (by simp)] at hwidth
      obtain ⟨v, vs, hcells⟩ := List.exists_cons_of_length_eq_add_one hwidth
      rw [hcells, List.length_cons, List.length_cons, Nat.add_right_cancel_iff] at hwidth
      rw [List.filter_cons_of_pos (by simp), List.filter_cons_of_pos (by simp), ih (by simpa [hcells] using hwidth)]
      simp [hcells]
    · rw [List.filter_cons_of_neg (by simpa using hsource)] at hwidth
      have hkept : Function.update cells c.source (cells c.source).tail source = cells source :=
        Function.update_of_ne (Ne.symm hsource) _ _
      rw [List.filter_cons_of_neg (by simpa using hsource), List.filter_cons_of_neg (by simpa using hsource),
        ih (by rwa [hkept]), hkept]

theorem coerceRow_arrange {cells : ColumnSource → Row} {columns : List OutputColumn} {source : ColumnSource}
    (hwidth : (cells source).length = (columnsFrom source columns).length) :
    (coerceRow columns (arrange cells columns)).filter (fun cell => cell.1.source = source) =
      coerceRow (columnsFrom source columns) (cells source) := by
  unfold coerceRow
  rw [← zip_arrange hwidth, List.filter_map]
  rfl

/-- What stands in a row at the place of the first element with a property. -/
theorem findIdx?_bind_getElem? {α β : Type*} (p : α → Bool) (xs : List α) (ys : List β) :
    ((xs.findIdx? p).bind fun i => ys[i]?) = ((xs.zip ys).find? fun pair => p pair.1).map Prod.snd := by
  induction xs generalizing ys with
  | nil => rfl
  | cons x xs ih =>
    cases ys with
    | nil => simp
    | cons y ys =>
      rw [List.findIdx?_cons, List.zip_cons_cons, List.find?_cons]
      cases hx : p x with
      | true => simp
      | false => simp [← ih, Option.bind_map]

/-! ## Related rows -/

/-- the cell of a row under the name of a field -/
def Entity.cell (e : Entity) (row : Row) (name : String) : Option Value :=
  ((e.fields.zip row).find? fun cell => cell.1.name = name).map Prod.snd

/-- A row of the entity has a cell for each field, and is told from no row by its key. -/
structure Entity.IsRow (e : Entity) (row : Row) : Prop where
  width : row.length = e.fields.length
  key : ∃ key, e.cell row e.primaryKey = some key ∧ key.isNull = false

/-- the rows of a target that a key leads to; a null key leads to none -/
def Relation.rowsFor (relation : Relation) (target : Entity) (rows : List Row) (key : Option Value) : List Row :=
  match key with
  | none => []
  | some key => if key.isNull then [] else rows.filter fun row => target.cell row relation.remoteColumn = some key

/-- the cells of a row that is joined by a key, which are all null if there is none -/
def Relation.joinedCells (relation : Relation) (target : Entity) (rows : List Row) (key : Option Value) : Row :=
  ((relation.rowsFor target rows key).head?).getD (List.replicate target.fields.length .null)

/-- what a record holds of a relation by a key -/
def Relation.related (relation : Relation) (target : Entity) (rows : List Row) (key : Option Value) : Related :=
  .ofRecords relation.cardinality ((relation.rowsFor target rows key).map fun row =>
    .ofFields target (coerceRow target.columns row))

/-- a row without its relations: the cells of the root's own columns and those of annotations -/
structure RootRow where
  own : Row
  computed : Row
deriving DecidableEq, Repr

namespace RootRow

/-- A cell for each of the columns that are no relation's. -/
structure Fits (columns : List OutputColumn) (base : RootRow) : Prop where
  own : base.own.length = (columnsFrom .root columns).length
  computed : base.computed.length = (columnsFrom .computed columns).length

/-- the cell under the name of a field of the root -/
def key (columns : List OutputColumn) (base : RootRow) (name : String) : Option Value :=
  (((columnsFrom .root columns).zip base.own).find? fun cell => cell.1.key = name).map Prod.snd

end RootRow

namespace Plan

/-- the cells of a row by their source, joined relations being looked up in the rows under their names -/
def cellsOf (schema : Schema) (p : Plan) (tables : String → List Row) (columns : List OutputColumn) (base : RootRow) :
    ColumnSource → Row
  | .root => base.own
  | .computed => base.computed
  | .path => []
  | .joined name =>
    match p.root.relation name with
    | none => []
    | some relation =>
      match schema.entity? relation.target with
      | none => []
      | some target => relation.joinedCells target (tables name) (base.key columns relation.localColumn)

/-- the row of a statement with these columns, extended with the cells of joined relations -/
def extendedRow (schema : Schema) (p : Plan) (tables : String → List Row) (columns : List OutputColumn)
    (base : RootRow) : Row :=
  arrange (p.cellsOf schema tables columns base) columns

/-- what a compiled plan is given: its rows with the cells of joined relations, and the rows under the name of each
relation that is fetched in batches -/
def suppliedWith (schema : Schema) (p : Plan) (q : CompiledQuery) (tables : String → List Row) (bases : List RootRow) :
    RowSet :=
  q.withFetched (bases.map (p.extendedRow schema tables q.primary.columns))
    (q.batched.map fun fetch => tables fetch.relation)

/-! ## Columns of a plan, source by source -/

/-- the columns of a plan whose rows become records, by their source -/
structure SourceColumns (schema : Schema) (p : Plan) (columns : List OutputColumn) : Prop where
  own : ∃ own, p.shownFields.mapM (Output.ofRootField schema p.root) = .ok own ∧
    columnsFrom .root columns = own.map (·.column)
  computed : ∃ computed, p.shownAliases.mapM p.annotationOutput = .ok computed ∧
    columnsFrom .computed columns = computed.map (·.column)
  path : columnsFrom .path columns = []
  joined : ∀ name ∈ p.relationsLoaded .join, ∃ target, p.root.LeadsTo schema name target ∧
    columnsFrom (.joined name) columns = target.fields.map (·.joinedColumn name)
  unjoined : ∀ name ∉ p.relationsLoaded .join, columnsFrom (.joined name) columns = []

section Columns

variable {schema : Schema} {p : Plan} {columns : List OutputColumn} {source other : ColumnSource}

theorem columnsFrom_eq_self (h : ∀ c ∈ columns, c.source = source) : columnsFrom source columns = columns :=
  List.filter_eq_self.2 fun c hc => by simp [h c hc]

theorem columnsFrom_eq_nil (h : ∀ c ∈ columns, c.source ≠ source) : columnsFrom source columns = [] :=
  List.filter_eq_nil_iff.2 fun c hc => by simp [h c hc]

theorem columnsFrom_append (before after : List OutputColumn) :
    columnsFrom source (before ++ after) = columnsFrom source before ++ columnsFrom source after :=
  List.filter_append before after

/-- Own columns, those of joined relations and computed ones are told apart by their sources. -/
theorem columnsFrom_parts {names : List String} {own joined computed : List OutputColumn}
    (hown : ∀ c ∈ own, c.source = .root) (hjoined : ∀ c ∈ joined, ∃ name ∈ names, c.source = .joined name)
    (hcomputed : ∀ c ∈ computed, c.source = .computed) :
    columnsFrom .root (own ++ joined ++ computed) = own ∧ columnsFrom .computed (own ++ joined ++ computed) = computed ∧
      columnsFrom .path (own ++ joined ++ computed) = [] ∧
      ∀ name, columnsFrom (.joined name) (own ++ joined ++ computed) = columnsFrom (.joined name) joined := by
  have hothers : ∀ source, (∀ name, source ≠ .joined name) → columnsFrom source joined = [] := by
    refine fun source hsource => columnsFrom_eq_nil fun c hc heq => ?_
    obtain ⟨name, -, hname⟩ := hjoined c hc
    exact hsource name (heq.symm.trans hname)
  have hnotOwn : ∀ source, source ≠ .root → columnsFrom source own = [] := fun source hsource =>
    columnsFrom_eq_nil fun c hc heq => hsource (heq.symm.trans (hown c hc))
  have hnotComputed : ∀ source, source ≠ .computed → columnsFrom source computed = [] := fun source hsource =>
    columnsFrom_eq_nil fun c hc heq => hsource (heq.symm.trans (hcomputed c hc))
  simp only [columnsFrom_append]
  refine ⟨?_, ?_, ?_, fun name => ?_⟩
  · rw [columnsFrom_eq_self hown, hothers .root fun _ => nofun, hnotComputed .root nofun, List.append_nil,
      List.append_nil]
  · rw [columnsFrom_eq_self hcomputed, hothers .computed fun _ => nofun, hnotOwn .computed nofun, List.nil_append,
      List.nil_append]
  · rw [hothers .path fun _ => nofun, hnotOwn .path nofun, hnotComputed .path nofun, List.append_nil, List.append_nil]
  · rw [hnotOwn (.joined name) nofun, hnotComputed (.joined name) nofun, List.nil_append, List.append_nil]

section Groups

variable {names : List String} {groups : List (List OutputColumn)}
  (h : List.Forall₂ (p.JoinedGroup schema) names groups)

include h

theorem joinedGroups_source {c : OutputColumn} (hc : c ∈ groups.flatten) : ∃ name ∈ names, c.source = .joined name := by
  obtain ⟨name, hname, _, -, f, -, rfl⟩ := (mem_joinedGroups h).1 hc
  exact ⟨name, hname, rfl⟩

/-- Of the columns of several relations, those of one are its target's fields. -/
theorem joinedGroups_from (hnodup : names.Nodup) {name : String} (hname : name ∈ names) :
    ∃ target, p.root.LeadsTo schema name target ∧
      columnsFrom (.joined name) groups.flatten = target.fields.map (·.joinedColumn name) := by
  induction h with
  | nil => cases hname
  | @cons first group rest groups hgroup hmore ih =>
    obtain ⟨hfirst, hrest⟩ := List.nodup_cons.1 hnodup
    obtain ⟨target, hleads, rfl⟩ := hgroup
    have hsource : ∀ c ∈ target.fields.map (·.joinedColumn first), c.source = .joined first := by
      intro c hc
      obtain ⟨f, -, rfl⟩ := List.mem_map.1 hc
      rfl
    rw [List.flatten_cons, columnsFrom_append]
    by_cases hsame : name = first
    · subst hsame
      refine ⟨target, hleads, ?_⟩
      rw [columnsFrom_eq_self hsource, columnsFrom_eq_nil, List.append_nil]
      rintro c hc heq
      obtain ⟨other, hother, hjoined⟩ := joinedGroups_source hmore hc
      exact hfirst (ColumnSource.joined.inj (heq.symm.trans hjoined) ▸ hother)
    · obtain ⟨target', hleads', hcolumns⟩ := ih hrest ((List.mem_cons.1 hname).resolve_left hsame)
      refine ⟨target', hleads', ?_⟩
      rw [columnsFrom_eq_nil fun c hc heq => hsame (ColumnSource.joined.inj (heq.symm.trans (hsource c hc))), hcolumns]
      rfl

end Groups

/-- The columns of a plan's rows are those of the root, of each joined relation, and of annotations. -/
theorem sourceColumns {outputs : List Output} {shape : ResultShape} (hp : p.Orderly schema)
    (h : p.outputs schema .rows = .ok (outputs, shape)) (hrecords : ∀ names, ¬p.Maps names) :
    p.SourceColumns schema (outputs.map (·.column)) ∧ shape = p.recordShape := by
  obtain ⟨names, hmaps, -⟩ | ⟨-, own, joined, computed, hown, hjoined, hcomputed, rfl, rfl⟩ := outputs_rows h
  · exact absurd hmaps (hrecords names)
  obtain ⟨groups, hgroups, heach⟩ := joinedOutputs_columns hjoined
  have howns : ∀ c ∈ own.map (·.column), c.source = .root := by
    intro c hc
    obtain ⟨o, ho, rfl⟩ := List.mem_map.1 hc
    obtain ⟨name, -, hname⟩ := mem_of_mapM_ok hown ho
    obtain ⟨ref, -, hpure⟩ := ok_of_bind hname
    obtain rfl := Except.ok.inj hpure
    rfl
  have hcomputeds : ∀ c ∈ computed.map (·.column), c.source = .computed := by
    intro c hc
    obtain ⟨o, ho, rfl⟩ := List.mem_map.1 hc
    obtain ⟨name, -, hname⟩ := mem_of_mapM_ok hcomputed ho
    obtain ⟨e, -, rfl⟩ := annotationOutput_eq hname
    rfl
  have hjoineds : ∀ c ∈ groups.flatten, ∃ name ∈ p.relationsLoaded .join, c.source = .joined name :=
    fun c hc => joinedGroups_source heach hc
  obtain ⟨hownFrom, hcomputedFrom, hpath, hjoinedFrom⟩ := columnsFrom_parts howns hjoineds hcomputeds
  rw [List.map_append, List.map_append, hgroups]
  refine ⟨⟨⟨own, hown, hownFrom⟩, ⟨computed, hcomputed, hcomputedFrom⟩, hpath, fun name hname => ?_, fun name hname => ?_⟩,
    rfl⟩
  · obtain ⟨target, hleads, hcolumns⟩ := joinedGroups_from heach hp.nodup_loaded.1 hname
    exact ⟨target, hleads, (hjoinedFrom name).trans hcolumns⟩
  · rw [hjoinedFrom]
    refine columnsFrom_eq_nil fun c hc heq => hname ?_
    obtain ⟨other, hother, hsource⟩ := hjoineds c hc
    exact ColumnSource.joined.inj (heq.symm.trans hsource) ▸ hother

end Columns

end Plan

/-! ## Joined records -/

namespace Record

/-- The cells of a joined row make the record that the row makes by itself. -/
theorem ofFields_joined (name : String) (target : Entity) (row : Row) :
    ofFields target (coerceRow (target.fields.map (·.joinedColumn name)) row) =
      ofFields target (coerceRow target.columns row) := by
  have hcolumns : target.columns = target.fields.map Field.column := rfl
  rw [hcolumns, coerceRow_fields, coerceRow_fields, ofFields, ofFields, List.foldl_map, List.foldl_map]
  rfl

section Joined

variable {name : String} {relation : Relation} {target : Entity} {rows : List Row} {row : Row}

theorem joinedRecord_row (h : target.IsRow row) :
    joinedRecord target (coerceRow (target.fields.map (·.joinedColumn name)) row) =
      some (ofFields target (coerceRow target.columns row)) := by
  obtain ⟨key, hcell, hnull⟩ := h.key
  obtain ⟨⟨f, v⟩, hfound, rfl⟩ := Option.map_eq_some_iff.1 hcell
  have hkey : f.name = target.primaryKey := by simpa using List.find?_some hfound
  rw [joinedRecord, if_pos, ofFields_joined]
  rw [coerceRow_fields, List.any_eq_true]
  refine ⟨_, List.mem_map_of_mem (List.mem_of_find?_eq_some hfound), ?_⟩
  have hpresent : (f.type.coerce v).isNull = false := (f.type.isNull_coerce v).trans hnull
  simp [Field.joinedColumn, OutputColumn.coerce, hkey, hpresent]

theorem joinedRecord_nulls (count : Nat) :
    joinedRecord target (coerceRow (target.fields.map (·.joinedColumn name)) (List.replicate count .null)) = none := by
  rw [joinedRecord, if_neg]
  rw [coerceRow_fields, List.any_map, List.any_eq_true]
  rintro ⟨⟨f, v⟩, hcell, hpresent⟩
  obtain rfl := List.eq_of_mem_replicate (List.of_mem_zip hcell).2
  have hnull : (f.type.coerce .null).isNull = true := f.type.isNull_coerce .null
  simp [Field.joinedColumn, OutputColumn.coerce, hnull] at hpresent

variable (hrows : ∀ row ∈ rows, target.IsRow row) (key : Option Value)

include hrows

theorem isRow_of_mem_rowsFor {row : Row} (h : row ∈ relation.rowsFor target rows key) : target.IsRow row := by
  unfold Relation.rowsFor at h
  split at h
  · cases h
  · split at h
    · cases h
    · exact hrows row (List.mem_filter.1 h).1

theorem length_joinedCells : (relation.joinedCells target rows key).length = target.fields.length := by
  unfold Relation.joinedCells
  cases hfound : relation.rowsFor target rows key with
  | nil => exact List.length_replicate
  | cons row rest =>
    have hmem : row ∈ relation.rowsFor target rows key := hfound ▸ List.mem_cons_self
    exact (isRow_of_mem_rowsFor hrows key hmem).width

/-- **A joined relation is the related row or none**, as the rows that its key leads to are. -/
theorem joinedRecord_related (hone : relation.cardinality = .toOne) :
    .one (joinedRecord target
      (coerceRow (target.fields.map (·.joinedColumn name)) (relation.joinedCells target rows key))) =
      relation.related target rows key := by
  unfold Relation.joinedCells Relation.related
  rw [hone]
  cases hfound : relation.rowsFor target rows key with
  | nil => exact congrArg Related.one (joinedRecord_nulls _)
  | cons row rest =>
    have hmem : row ∈ relation.rowsFor target rows key := hfound ▸ List.mem_cons_self
    exact congrArg Related.one (joinedRecord_row (isRow_of_mem_rowsFor hrows key hmem))

end Joined

/-! ## Records told apart by what they hold -/

/-- the fields, annotations and relations of a record are in the order of their names -/
structure Ascending (r : Record) : Prop where
  fields : NameMap.Ascending r.fields.entries
  annotations : NameMap.Ascending r.annotations.entries
  related : NameMap.Ascending r.related.entries

namespace Ascending

theorem empty (entity : Entity) : (Record.empty entity).Ascending :=
  ⟨List.Pairwise.nil, List.Pairwise.nil, List.Pairwise.nil⟩

variable {schema : Schema} {r r' : Record} (h : r.Ascending)

include h

theorem setRelated (name : String) (related : Related) : (r.setRelated name related).Ascending :=
  { h with related := NameMap.ascending_insertEntry h.related }

theorem setCell (cell : OutputColumn × Value) : (r.setCell cell).Ascending := by
  unfold Record.setCell
  split
  · exact { h with fields := NameMap.ascending_insertEntry h.fields }
  · exact { h with fields := NameMap.ascending_insertEntry h.fields }
  · exact { h with annotations := NameMap.ascending_insertEntry h.annotations }
  · exact h

theorem foldl_setCell (cells : List (OutputColumn × Value)) : (cells.foldl Record.setCell r).Ascending := by
  induction cells generalizing r with
  | nil => exact h
  | cons cell rest ih => exact ih (h.setCell cell)

theorem addJoined {cells : List (OutputColumn × Value)} {name : String}
    (hr' : Record.addJoined schema cells r name = .ok r') : r'.Ascending := by
  obtain ⟨relation, -, hmore⟩ := ok_of_bind hr'
  obtain ⟨target, -, hpure⟩ := ok_of_bind hmore
  obtain rfl := Except.ok.inj hpure
  exact h.setRelated _ _

theorem addAttached {i : Nat} {attached : AttachedRelation} (hr' : Record.addAttached schema i r attached = .ok r') :
    r'.Ascending := by
  obtain ⟨related, -, hpure⟩ := ok_of_bind hr'
  obtain rfl := Except.ok.inj hpure
  exact h.setRelated _ _

/-- Records of an entity that hold the same under each name are equal. -/
theorem eq_of_get? (h' : r'.Ascending) (hentity : r.entity = r'.entity)
    (hfields : ∀ name, r.fields.get? name = r'.fields.get? name)
    (hannotations : ∀ name, r.annotations.get? name = r'.annotations.get? name)
    (hrelated : ∀ name, r.related.get? name = r'.related.get? name) : r = r' := by
  obtain ⟨entity, fields, annotations, related⟩ := r
  obtain ⟨entity', fields', annotations', related'⟩ := r'
  obtain rfl : entity = entity' := hentity
  obtain rfl : fields = fields' := NameMap.ext_get? h.fields h'.fields hfields
  obtain rfl : annotations = annotations' := NameMap.ext_get? h.annotations h'.annotations hannotations
  obtain rfl : related = related' := NameMap.ext_get? h.related h'.related hrelated
  rfl

omit h in
theorem foldlM {α : Type} {step : Record → α → Except QueryError Record}
    (hstep : ∀ {r a r'}, r.Ascending → step r a = .ok r' → r'.Ascending) {xs : List α} (h : r.Ascending)
    (hr' : xs.foldlM step r = .ok r') : r'.Ascending := by
  induction xs generalizing r with
  | nil => exact Except.ok.inj hr' ▸ h
  | cons x rest ih =>
    rw [List.foldlM_cons] at hr'
    obtain ⟨middle, hmiddle, hmore⟩ := ok_of_bind hr'
    exact ih (hstep h hmiddle) hmore

omit h in
/-- The record of a row is. -/
theorem ofRow {entity : Entity} {columns : List OutputColumn} {row : Row}
    (hr : Record.ofRow schema entity columns row = .ok r) : r.Ascending :=
  foldlM (fun h hjoined => h.addJoined hjoined) ((empty entity).foldl_setCell _) hr

end Ascending

/-- The record has a row's own cells and its annotations, and of each relation that is loaded what its key leads to. -/
structure AssembledFrom (schema : Schema) (p : Plan) (tables : String → List Row) (columns : List OutputColumn)
    (base : RootRow) (r : Record) : Prop where
  ascending : r.Ascending
  entity : r.entity = p.root
  fields : ∀ name, r.fields.get? name = lastCell .root name (coerceRow (columnsFrom .root columns) base.own)
  annotations : ∀ name,
    r.annotations.get? name = lastCell .computed name (coerceRow (columnsFrom .computed columns) base.computed)
  related : ∀ name ∈ p.loadings.names, ∃ relation target, p.root.relation name = some relation ∧
    schema.entity relation.target = .ok target ∧
    r.related.get? name = some (relation.related target (tables name) (base.key columns relation.localColumn))
  unrelated : ∀ name ∉ p.loadings.names, r.related.get? name = none

/-- Such a record does not depend on the way in which relations are loaded. -/
theorem AssembledFrom.unique {schema : Schema} {p : Plan} {tables : String → List Row}
    {columns columns' : List OutputColumn} {base : RootRow} {r r' : Record} {loadings : NameMap Loading}
    (hnames : loadings.names = p.loadings.names) (hown : columnsFrom .root columns' = columnsFrom .root columns)
    (hcomputed : columnsFrom .computed columns' = columnsFrom .computed columns)
    (h : r.AssembledFrom schema p tables columns base)
    (h' : r'.AssembledFrom schema { p with loadings } tables columns' base) : r = r' := by
  have hkey : base.key columns' = base.key columns := by
    unfold RootRow.key
    rw [hown]
  refine h.ascending.eq_of_get? h'.ascending (h.entity.trans h'.entity.symm) (fun name => ?_) (fun name => ?_)
    fun name => ?_
  · rw [h.fields, h'.fields, hown]
  · rw [h.annotations, h'.annotations, hcomputed]
  · by_cases hname : name ∈ p.loadings.names
    · obtain ⟨relation, target, hrelation, htarget, hrelated⟩ := h.related name hname
      obtain ⟨relation', target', hrelation', htarget', hrelated'⟩ := h'.related name (hnames ▸ hname)
      obtain rfl := Option.some.inj (hrelation.symm.trans hrelation')
      obtain rfl := Except.ok.inj (htarget.symm.trans htarget')
      rw [hrelated, hrelated', hkey]
    · rw [h.unrelated name hname, h'.unrelated name (hnames ▸ hname)]

end Record

/-! ## Rows handed over in batches -/

namespace BatchFetch

/-- where a fetch finds the keys of both sides -/
theorem ofRelation_places {schema : Schema} {root : Entity} {primary : List OutputColumn} {name : String}
    {fetch : BatchFetch} (h : ofRelation schema root primary name = .ok fetch) {relation : Relation} {target : Entity}
    (hrelation : root.relation name = some relation) (htarget : schema.entity relation.target = .ok target) :
    primary.findIdx? (fun c => c.source = .root && c.key = relation.localColumn) = some fetch.localIndex ∧
      target.fields.findIdx? (·.name = relation.remoteColumn) = some fetch.keyIndex := by
  obtain ⟨relation', hrelation', hmore⟩ := ok_of_bind h
  obtain rfl := Option.some.inj (hrelation.symm.trans (orFail_eq_ok.1 hrelation'))
  obtain ⟨target', htarget', hmore⟩ := ok_of_bind hmore
  obtain rfl := Except.ok.inj (htarget.symm.trans htarget')
  obtain ⟨localIndex, hlocal, hmore⟩ := ok_of_bind hmore
  obtain ⟨keyIndex, hkey, hpure⟩ := ok_of_bind hmore
  obtain rfl := Except.ok.inj hpure
  exact ⟨orFail_eq_ok.1 hlocal, orFail_eq_ok.1 hkey⟩

/-- The rows that are handed to an extended row are those that its own key leads to. -/
theorem matching_extendedRow {schema : Schema} {p : Plan} {tables : String → List Row} {columns : List OutputColumn}
    {base : RootRow} (hfits : base.Fits columns) {fetch : BatchFetch} {relation : Relation} {target : Entity}
    (hlocal : columns.findIdx? (fun c => c.source = .root && c.key = relation.localColumn) = some fetch.localIndex)
    (hremote : target.fields.findIdx? (·.name = relation.remoteColumn) = some fetch.keyIndex) (rows : List Row) :
    fetch.matching rows (p.extendedRow schema tables columns base) =
      relation.rowsFor target rows (base.key columns relation.localColumn) := by
  have hkey : (p.extendedRow schema tables columns base)[fetch.localIndex]? = base.key columns relation.localColumn := by
    have hplace := findIdx?_bind_getElem? (fun c : OutputColumn => c.source = .root && c.key = relation.localColumn)
      columns (p.extendedRow schema tables columns base)
    rw [hlocal, Option.bind_some] at hplace
    have hown := @zip_arrange (p.cellsOf schema tables columns base) columns .root hfits.own
    change _ = (columnsFrom .root columns).zip base.own at hown
    rw [hplace, RootRow.key, ← hown, List.find?_filter]
    simp [Plan.extendedRow]
  have hcell : ∀ row : Row, row[fetch.keyIndex]? = target.cell row relation.remoteColumn := by
    intro row
    have hplace := findIdx?_bind_getElem? (fun f : Field => f.name = relation.remoteColumn) target.fields row
    rwa [hremote, Option.bind_some] at hplace
  unfold matching keyOf Relation.rowsFor
  rw [hkey]
  simp only [hcell]
  rcases base.key columns relation.localColumn with _ | key
  · rfl
  · cases hnull : key.isNull
    · simp only [hnull, Bool.false_eq_true, if_false]
    · simp only [hnull, if_true]

end BatchFetch

/-! ## Records of a plan -/

namespace Plan

/-- the rows under the name of each relation with one row at most are rows of its target -/
def TablesFit (schema : Schema) (p : Plan) (tables : String → List Row) : Prop :=
  ∀ name ∈ p.loadings.names, ∀ relation target, p.root.relation name = some relation →
    relation.cardinality = .toOne → schema.entity relation.target = .ok target → ∀ row ∈ tables name, target.IsRow row

theorem mem_relationsLoaded {p : Plan} {loading : Loading} {name : String} :
    name ∈ p.relationsLoaded loading ↔ (name, loading) ∈ p.loadings.entries := by
  simp [relationsLoaded]

section Joined

variable {schema : Schema} {p : Plan} {tables : String → List Row} {columns : List OutputColumn}
  (hchecked : ∃ drafts, Schema.ofDrafts drafts = .ok schema) (hp : p.Orderly schema)
  (hcolumns : p.SourceColumns schema columns) (htables : p.TablesFit schema tables) {base : RootRow}

theorem mem_columnsFrom {source : ColumnSource} {c : OutputColumn} :
    c ∈ columnsFrom source columns ↔ c ∈ columns ∧ c.source = source := by
  simp [columnsFrom]

include hcolumns in
theorem SourceColumns.loaded {c : OutputColumn} (hc : c ∈ columns) {name : String} (hsource : c.source = .joined name) :
    name ∈ p.relationsLoaded .join := by
  by_contra hname
  have hmem := mem_columnsFrom.2 ⟨hc, hsource⟩
  rw [hcolumns.unjoined name hname] at hmem
  cases hmem

include hp hcolumns htables

/-- An extended row has for a joined relation the cells that its own key leads to. -/
theorem joinedCells_extendedRow {name : String} (hname : name ∈ p.relationsLoaded .join) :
    ∃ relation target, p.root.relation name = some relation ∧ relation.cardinality = .toOne ∧
      schema.entity relation.target = .ok target ∧
      Record.joinedCells name (coerceRow columns (p.extendedRow schema tables columns base)) =
        coerceRow (target.fields.map (·.joinedColumn name))
          (relation.joinedCells target (tables name) (base.key columns relation.localColumn)) ∧
      ∀ row ∈ tables name, target.IsRow row := by
  obtain ⟨target, ⟨relation, hrelation, htarget⟩, hfrom⟩ := hcolumns.joined name hname
  obtain ⟨relation', hrelation', hone⟩ := hp.joined name (mem_relationsLoaded.1 hname)
  obtain rfl := Option.some.inj (hrelation.symm.trans hrelation')
  have hrows := htables name (mem_loaded.2 (.inl hname)) relation target hrelation hone htarget
  have hcells : p.cellsOf schema tables columns base (.joined name) =
      relation.joinedCells target (tables name) (base.key columns relation.localColumn) := by
    simp only [cellsOf, hrelation, Schema.entity_eq_ok.1 htarget]
  have hwidth : (p.cellsOf schema tables columns base (.joined name)).length =
      (columnsFrom (.joined name) columns).length := by
    rw [hcells, hfrom, List.length_map, Record.length_joinedCells hrows]
  refine ⟨relation, target, hrelation, hone, htarget, ?_, hrows⟩
  rw [← hfrom, ← hcells]
  exact coerceRow_arrange hwidth

include hchecked

/-- The joined relations are those that the row has cells of; each target has a key and so a cell. -/
theorem mem_joinedNames_extendedRow {name : String} :
    name ∈ Record.joinedNames (coerceRow columns (p.extendedRow schema tables columns base)) ↔
      name ∈ p.relationsLoaded .join := by
  rw [Record.mem_joinedNames]
  constructor
  · rintro ⟨cell, hcell, hsource⟩
    exact hcolumns.loaded (Record.mem_coerceRow hcell) hsource
  · intro hname
    obtain ⟨relation, target, -, -, htarget, hcells, hrows⟩ := joinedCells_extendedRow hp hcolumns htables hname
    obtain ⟨drafts, hdrafts⟩ := hchecked
    obtain ⟨f, hf⟩ := Option.isSome_iff_exists.1 (Schema.ofDrafts_keys hdrafts (Schema.mem_of_entity htarget)).1
    have hne : Record.joinedCells name (coerceRow columns (p.extendedRow schema tables columns base)) ≠ [] := by
      rw [hcells, ← List.length_pos_iff, coerceRow, List.length_map, List.length_zip, List.length_map,
        Record.length_joinedCells hrows, Nat.min_self, List.length_pos_iff]
      exact List.ne_nil_of_mem (Entity.mem_of_field hf)
    obtain ⟨cell, hcell⟩ := List.exists_mem_of_ne_nil _ hne
    obtain ⟨hmem, hsource⟩ := List.mem_filter.1 hcell
    exact ⟨cell, hmem, by simpa using hsource⟩

end Joined

section Records

variable {schema : Schema} {p : Plan} {d : Sql.Dialect} {q : CompiledQuery} {tables : String → List Row}
  {bases : List RootRow} (hchecked : ∃ drafts, Schema.ofDrafts drafts = .ok schema) (hp : p.Orderly schema)
  (hcompile : p.compile schema d = .ok q) (hrecords : ∀ names, ¬p.Maps names) (htables : p.TablesFit schema tables)

theorem suppliedWith_relations : (p.suppliedWith schema q tables bases).relations = q.batched.map fun fetch =>
    fetch.attach (bases.map (p.extendedRow schema tables q.primary.columns)) (tables fetch.relation) :=
  map_zip_map _ _ _

include hp hcompile hrecords

theorem compiled_columns : p.SourceColumns schema q.primary.columns ∧ q.shape = p.recordShape ∧
    p.batches schema q.primary.columns = .ok q.batched := by
  obtain ⟨outputs, houtputs, hcolumns, -⟩ := compile_ok hcompile
  obtain ⟨hsource, hshape⟩ := sourceColumns hp houtputs hrecords
  exact ⟨hcolumns ▸ hsource, hshape, batches_of_compile hcompile (hshape ▸ recordShape_isOf.2)⟩

theorem suppliedWith_isOf :
    (p.suppliedWith schema q tables bases).relations.map (·.relation) = p.relationsLoaded .batched ∧
      ∀ a ∈ (p.suppliedWith schema q tables bases).relations,
        ∃ relation target, a.IsOf schema p.root bases.length relation target := by
  obtain ⟨-, -, hbatches⟩ := compiled_columns hp hcompile hrecords
  have hlength : (q.batched.map fun fetch => tables fetch.relation).length = q.batched.length := List.length_map _
  have hisOf := CompiledQuery.attached_isOf hbatches hlength
    (bases.map (p.extendedRow schema tables q.primary.columns))
  rwa [List.length_map] at hisOf

/-- A row is handed the rows that its own key leads to. -/
theorem attached_related {name : String} (hname : name ∈ p.relationsLoaded .batched) {i : Nat} {base : RootRow}
    (hbase : bases[i]? = some base) (hfits : base.Fits q.primary.columns) :
    ∃ a ∈ (p.suppliedWith schema q tables bases).relations, a.relation = name ∧ ∃ relation target,
      p.root.relation name = some relation ∧ schema.entity relation.target = .ok target ∧
      attachedRelated schema i a =
        relation.related target (tables name) (base.key q.primary.columns relation.localColumn) := by
  obtain ⟨-, -, hbatches⟩ := compiled_columns hp hcompile hrecords
  obtain ⟨hnames, hof⟩ := @suppliedWith_isOf _ _ _ _ tables bases hp hcompile hrecords
  rw [← hnames] at hname
  obtain ⟨a, ha, rfl⟩ := List.mem_map.1 hname
  obtain ⟨relation, target, hisOf⟩ := hof a ha
  refine ⟨a, ha, rfl, relation, target, hisOf.declared, hisOf.found, ?_⟩
  rw [suppliedWith_relations] at ha
  obtain ⟨fetch, hfetch, rfl⟩ := List.mem_map.1 ha
  obtain ⟨name', -, hrelation⟩ := mem_of_mapM_ok hbatches hfetch
  obtain ⟨rfl, -⟩ := BatchFetch.ofRelation_ok hrelation
  obtain ⟨hlocal, hremote⟩ := BatchFetch.ofRelation_places hrelation hisOf.declared hisOf.found
  have hmatching : fetch.matching (tables fetch.relation) (p.extendedRow schema tables q.primary.columns base) = _ :=
    BatchFetch.matching_extendedRow hfits hlocal hremote (tables fetch.relation)
  rw [hisOf.related]
  simp [BatchFetch.attach, hbase, hmatching, Relation.related]

include hchecked htables

/-- **The record of a row**, whichever way each of its relations is loaded. -/
theorem assembled {i : Nat} {base : RootRow} (hbase : bases[i]? = some base) (hfits : base.Fits q.primary.columns) :
    ∃ r r', Record.ofRow schema p.root q.primary.columns (p.extendedRow schema tables q.primary.columns base) = .ok r ∧
      (p.suppliedWith schema q tables bases).relations.foldlM (Record.addAttached schema i) r = .ok r' ∧
      r'.AssembledFrom schema p tables q.primary.columns base := by
  obtain ⟨hcolumns, -, -⟩ := compiled_columns hp hcompile hrecords
  obtain ⟨r, hr, hmade⟩ := Record.ofRow_madeOf_of_leads
    (fun c hc hpath => List.filter_eq_nil_iff.1 hcolumns.path c hc (by simpa using hpath))
    (fun c hc name hsource =>
      let ⟨target, hleads, _⟩ := hcolumns.joined name (hcolumns.loaded hc hsource)
      ⟨target, hleads⟩)
    (p.extendedRow schema tables q.primary.columns base)
  obtain ⟨hnames, hof⟩ := @suppliedWith_isOf _ _ _ _ tables bases hp hcompile hrecords
  obtain ⟨r', hr', hattached⟩ := Record.exists_attachedTo hof (hnames ▸ hp.nodup_loaded.2.1) i r
  have hjoined : ∀ name, name ∈ Record.joinedNames (coerceRow q.primary.columns
      (p.extendedRow schema tables q.primary.columns base)) ↔ name ∈ p.relationsLoaded .join := fun name =>
    mem_joinedNames_extendedRow hchecked hp hcolumns htables
  refine ⟨r, r', hr, hr', ?_, hattached.same.entity.trans hmade.entity, fun name => ?_, fun name => ?_,
    fun name hname => ?_, fun name hname => ?_⟩
  · exact .foldlM (fun h hadded => h.addAttached hadded) (.ofRow hr) hr'
  · rw [hattached.same.fields, hmade.fields, ← Record.lastCell_filter]
    exact congrArg _ (coerceRow_arrange hfits.own)
  · rw [hattached.same.annotations, hmade.annotations, ← Record.lastCell_filter]
    exact congrArg _ (coerceRow_arrange hfits.computed)
  · rcases mem_loaded.1 hname with hname | hname
    · obtain ⟨relation, target, hrelation, hone, htarget, hcells, hrows⟩ :=
        joinedCells_extendedRow hp hcolumns htables hname
      refine ⟨relation, target, hrelation, htarget, ?_⟩
      rw [hattached.unattached hnames fun hbatched => hp.nodup_loaded.2.2 hname hbatched,
        hmade.joined name ((hjoined name).2 hname) target ⟨relation, hrelation, htarget⟩, hcells,
        Record.joinedRecord_related hrows _ hone]
    · obtain ⟨a, ha, rfl, relation, target, hrelation, htarget, hrelated⟩ :=
        attached_related hp hcompile hrecords hname hbase hfits
      exact ⟨relation, target, hrelation, htarget, (hattached.related a ha).trans (congrArg some hrelated)⟩
  · rw [mem_loaded, not_or] at hname
    rw [hattached.unattached hnames hname.2]
    exact hmade.unjoined name fun hmem => hname.1 ((hjoined name).1 hmem)

/-- The records of rows, in their order. -/
theorem records_assembled (hfits : ∀ base ∈ bases, base.Fits q.primary.columns) : ∃ records : List Record,
    materialize schema (p.suppliedWith schema q tables bases) q.shape = .ok (.records records) ∧
      List.Forall₂ (Record.AssembledFrom schema p tables q.primary.columns) bases records := by
  obtain ⟨-, hshape, -⟩ := compiled_columns hp hcompile hrecords
  have hrecord : ∀ k row, (p.suppliedWith schema q tables bases).rows[k]? = some row → ∃ r r' : Record,
      Record.ofRow schema p.root q.primary.columns row = .ok r ∧
        (p.suppliedWith schema q tables bases).relations.foldlM (Record.addAttached schema (0 + k)) r = .ok r' ∧
        ∀ base, bases[0 + k]? = some base → r'.AssembledFrom schema p tables q.primary.columns base := by
    intro k row hrow
    rw [Nat.zero_add]
    change (bases.map (p.extendedRow schema tables q.primary.columns))[k]? = some row at hrow
    rw [List.getElem?_map] at hrow
    obtain ⟨base, hbase, rfl⟩ := Option.map_eq_some_iff.1 hrow
    obtain ⟨r, r', hr, hr', hassembled⟩ :=
      assembled hchecked hp hcompile hrecords htables hbase (hfits base (List.mem_of_getElem? hbase))
    refine ⟨r, r', hr, hr', fun other hother => ?_⟩
    obtain rfl := Option.some.inj (hbase.symm.trans hother)
    exact hassembled
  obtain ⟨records, hall, hlength, hQ⟩ := recordsFrom_ok (p.suppliedWith schema q tables bases)
    (Q := fun k _ r => ∀ base, bases[k]? = some base → r.AssembledFrom schema p tables q.primary.columns base) hrecord
  have hcount : records.length = bases.length := hlength.trans (List.length_map _)
  refine ⟨records, ?_, List.forall₂_iff_get.2 ⟨hcount.symm, fun i hi hi' => ?_⟩⟩
  · rw [hshape]
    exact materialize_isOf recordShape_isOf.1 hp.root hall
  · have hbase : bases[i]? = some (bases.get ⟨i, hi⟩) := List.getElem?_eq_getElem hi
    refine hQ i _ _ (List.getElem?_map.trans (congrArg _ hbase)) (List.getElem?_eq_getElem hi') _ ?_
    rw [Nat.zero_add]
    exact hbase

end Records

theorem eq_of_forall₂ {α β : Type*} {R S : α → β → Prop} {as : List α} {bs cs : List β}
    (hunique : ∀ a b c, R a b → S a c → b = c) (h : List.Forall₂ R as bs) (h' : List.Forall₂ S as cs) : bs = cs := by
  induction h generalizing cs with
  | nil =>
    cases h'
    rfl
  | cons hfirst _ ih =>
    obtain @⟨-, -⟩ | ⟨hfirst', hrest'⟩ := h'
    rw [hunique _ _ _ hfirst hfirst', ih hrest']

/-- The root's own columns and those of annotations do not depend on how relations are loaded. -/
theorem SourceColumns.same {schema : Schema} {p : Plan} {loadings : NameMap Loading} {columns columns' : List OutputColumn}
    (hnames : loadings.names = p.loadings.names) (h : p.SourceColumns schema columns)
    (h' : ({ p with loadings } : Plan).SourceColumns schema columns') :
    columnsFrom .root columns' = columnsFrom .root columns ∧
      columnsFrom .computed columns' = columnsFrom .computed columns := by
  have hshown : ({ p with loadings } : Plan).shownFields = p.shownFields := by
    unfold shownFields narrowedFields
    simp only [hnames]
    rfl
  obtain ⟨own, hown, hfrom⟩ := h.own
  obtain ⟨own', hown', hfrom'⟩ := h'.own
  obtain ⟨computed, hcomputed, hcomputedFrom⟩ := h.computed
  obtain ⟨computed', hcomputed', hcomputedFrom'⟩ := h'.computed
  rw [hshown] at hown'
  obtain rfl := Except.ok.inj (hown.symm.trans hown')
  obtain rfl := Except.ok.inj (hcomputed.symm.trans hcomputed')
  exact ⟨hfrom'.trans hfrom.symm, hcomputedFrom'.trans hcomputedFrom.symm⟩

/-- **Joined and batched relations make the same records.** Let a plan whose rows become records be built over a checked
schema, and let it also be built with each of its relations loaded in any way that is allowed for it. Let the rows under
the name of each to-one relation be rows of its target with keys that are not null. Root rows extended with the cells of
the joined relations, and handed the rows of the batched ones, make the same records of both plans, one for each row. -/
theorem strategies_agree (schema : Schema) (hchecked : ∃ drafts, Schema.ofDrafts drafts = .ok schema) (p : Plan)
    (hp : p.Made schema) (loadings : NameMap Loading) (hp' : ({ p with loadings } : Plan).Made schema)
    (hnames : loadings.names = p.loadings.names) (hrecords : ∀ names, ¬p.Maps names) (d : Sql.Dialect)
    (q q' : CompiledQuery) (hcompile : p.compile schema d = .ok q)
    (hcompile' : ({ p with loadings } : Plan).compile schema d = .ok q') (tables : String → List Row)
    (htables : p.TablesFit schema tables) (bases : List RootRow) (hfits : ∀ base ∈ bases, base.Fits q.primary.columns) :
    ∃ records : List Record, records.length = bases.length ∧
      materialize schema (p.suppliedWith schema q tables bases) q.shape = .ok (.records records) ∧
      materialize schema (({ p with loadings } : Plan).suppliedWith schema q' tables bases) q'.shape
        = .ok (.records records) := by
  have horderly := hp.orderly
  have horderly' := hp'.orderly
  obtain ⟨hcolumns, -, -⟩ := compiled_columns horderly hcompile hrecords
  obtain ⟨hcolumns', -, -⟩ := compiled_columns horderly' hcompile' hrecords
  obtain ⟨hown, hcomputed⟩ := hcolumns.same hnames hcolumns'
  have htables' : ({ p with loadings } : Plan).TablesFit schema tables := fun name hname => htables name (hnames ▸ hname)
  have hfits' : ∀ base ∈ bases, base.Fits q'.primary.columns := fun base hbase =>
    ⟨hown ▸ (hfits base hbase).own, hcomputed ▸ (hfits base hbase).computed⟩
  obtain ⟨records, hmaterialize, hassembled⟩ :=
    records_assembled hchecked horderly hcompile hrecords htables hfits
  obtain ⟨records', hmaterialize', hassembled'⟩ :=
    records_assembled hchecked horderly' hcompile' hrecords htables' hfits'
  obtain rfl := eq_of_forall₂ (fun _ _ _ h h' => h.unique hnames hown hcomputed h') hassembled hassembled'
  exact ⟨records, hassembled.length_eq.symm, hmaterialize, hmaterialize'⟩

/-! ## A sample: parcels with their senders and recipients -/

def sampleResident : Entity := ⟨"resident", "residents", "id", [⟨"id", .int, false⟩, ⟨"name", .text, false⟩], []⟩

def sampleParcel : Entity where
  name := "parcel"
  table := "parcels"
  primaryKey := "id"
  fields := [⟨"id", .int, false⟩, ⟨"sender_id", .int, true⟩, ⟨"recipient_id", .int, true⟩]
  relations := [⟨"sender", "resident", .toOne, "sender_id", "id"⟩, ⟨"recipient", "resident", .toOne, "recipient_id", "id"⟩]

def sampleDelivery : Schema := ⟨[sampleResident, sampleParcel]⟩

/-- parcels with a mark, their senders joined and their recipients fetched in batches -/
def sampleMarked : Plan :=
  { ofEntity sampleParcel with
    annotations := [⟨"mark", .literal (.text "!")⟩]
    loadings := ⟨[("recipient", .batched), ("sender", .join)]⟩ }

/-- the other way round -/
def sampleCrossed : NameMap Loading := ⟨[("recipient", .join), ("sender", .batched)]⟩

def sampleResidents : List Row := [[.int 1, .text "Ann"], [.int 2, .text "Bob"]]

/-- Ann sends a parcel to Bob and one to nobody, and a sender who is not a resident sends one to her. -/
def sampleParcels : List RootRow :=
  [⟨[.int 7, .int 1, .int 2], [.text "!"]⟩, ⟨[.int 8, .int 1, .null], [.text "!"]⟩, ⟨[.int 9, .int 3, .int 1], [.text "!"]⟩]

theorem sampleDelivery_checked : ∃ drafts, Schema.ofDrafts drafts = .ok sampleDelivery :=
  ⟨[.declare "resident" (some "residents") none [⟨"id", .int, false⟩, ⟨"name", .text, false⟩] [],
    .declare "parcel" (some "parcels") none
      [⟨"id", .int, false⟩, ⟨"sender_id", .int, true⟩, ⟨"recipient_id", .int, true⟩]
      [.toOne "sender" "resident" "sender_id", .toOne "recipient" "resident" "recipient_id"]], by rfl⟩

theorem sampleMarked_made : sampleMarked.Made sampleDelivery ∧
    ({ sampleMarked with loadings := sampleCrossed } : Plan).Made sampleDelivery := by
  have hstart : Made sampleDelivery (ofEntity sampleParcel) := .start (rfl : Plan.start sampleDelivery "parcel" = _)
  have hmarked := Made.step (.annotate "mark" (.literal (.text "!"))) hstart rfl
  have hjoined := Made.step (.withRelation "sender" (some .join)) hmarked rfl
  have hbatched := Made.step (.withRelation "sender" (some .batched)) hmarked rfl
  exact ⟨.step (.withRelation "recipient" (some .batched)) hjoined rfl,
    .step (.withRelation "recipient" (some .join)) hbatched rfl⟩

theorem sampleMarked_fit : sampleMarked.TablesFit sampleDelivery fun _ => sampleResidents := by
  have hleads : ∀ relation ∈ sampleParcel.relations, relation.target = "resident" := by decide
  have hrows : ∀ row ∈ sampleResidents, row.length = sampleResident.fields.length ∧
      ∃ key ∈ sampleResident.cell row "id", key.isNull = false := by
    decide
  intro name _ relation target hrelation _ htarget row hrow
  rw [hleads relation (Entity.mem_of_relation hrelation)] at htarget
  obtain rfl := Except.ok.inj htarget
  obtain ⟨hwidth, hkey⟩ := hrows row hrow
  exact ⟨hwidth, hkey⟩

/-- Three parcels with Ann and Bob among their senders and recipients. -/
theorem strategies_agree_parcels : ∃ q q' records,
    sampleMarked.compile sampleDelivery .sqlite = .ok q ∧
    ({ sampleMarked with loadings := sampleCrossed } : Plan).compile sampleDelivery .sqlite = .ok q' ∧
    materialize sampleDelivery (sampleMarked.suppliedWith sampleDelivery q (fun _ => sampleResidents) sampleParcels)
      q.shape = .ok (.records records) ∧
    materialize sampleDelivery (({ sampleMarked with loadings := sampleCrossed } : Plan).suppliedWith sampleDelivery q'
      (fun _ => sampleResidents) sampleParcels) q'.shape = .ok (.records records) ∧
    records.map (fun r => (r.get "mark", r.get "sender.name", r.get "recipient.name")) =
      [(.ok (.text "!"), .ok (.text "Ann"), .ok (.text "Bob")), (.ok (.text "!"), .ok (.text "Ann"), .ok .null),
        (.ok (.text "!"), .ok .null, .ok (.text "Ann"))] := by
  have hwidths : ∀ base ∈ sampleParcels, base.own.length = 3 ∧ base.computed.length = 1 := by decide
  obtain ⟨records, -, hmaterialize, hmaterialize'⟩ := strategies_agree sampleDelivery sampleDelivery_checked sampleMarked
    sampleMarked_made.1 sampleCrossed sampleMarked_made.2 rfl nofun .sqlite _ _ rfl rfl (fun _ => sampleResidents)
    sampleMarked_fit sampleParcels fun base hbase => ⟨(hwidths base hbase).1, (hwidths base hbase).2⟩
  obtain rfl := Results.records.inj (Except.ok.inj (hmaterialize.symm.trans rfl))
  exact ⟨_, _, _, rfl, rfl, hmaterialize, hmaterialize', rfl⟩

end Plan

end RelQuery
