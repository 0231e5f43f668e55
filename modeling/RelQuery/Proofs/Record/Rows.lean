/-
Records made of rows.

The cells of a row become fields, annotations and joined relations of its record, the last cell counting where a name is
given twice; relations change neither fields nor annotations.
- `ofRow_madeOf`: a row of a record plan has a record, which holds the row's cells and joined relations and nothing else.
- `ofRow_fields`: when all columns are the root's own, the record is made of fields only.
- `foldlM_addAttached`: the relations that are attached to a record.
- `recordsFrom_ok`: the records of all rows.
-/
import RelQuery.Proofs.Record.Columns

namespace RelQuery

/-- A relation of the entity leads to the target. -/
def Entity.LeadsTo (schema : Schema) (e : Entity) (name : String) (target : Entity) : Prop :=
  ∃ relation, e.relation name = some relation ∧ schema.entity relation.target = .ok target

theorem Entity.LeadsTo.unique {schema : Schema} {e : Entity} {name : String} {target other : Entity}
    (h : e.LeadsTo schema name target) (h' : e.LeadsTo schema name other) : target = other := by
  obtain ⟨relation, hrelation, htarget⟩ := h
  obtain ⟨relation', hrelation', hother⟩ := h'
  obtain rfl := Option.some.inj (hrelation.symm.trans hrelation')
  exact Except.ok.inj (htarget.symm.trans hother)

theorem Entity.LeadsTo.declared {schema : Schema} {e : Entity} {name : String} {target : Entity}
    (h : e.LeadsTo schema name target) : (e.relation name).isSome := by
  obtain ⟨relation, hrelation, -⟩ := h
  exact Option.isSome_iff_exists.2 ⟨relation, hrelation⟩

theorem Entity.LeadsTo.mem {schema : Schema} {e : Entity} {name : String} {target : Entity}
    (h : e.LeadsTo schema name target) : target ∈ schema.entities := by
  obtain ⟨relation, -, htarget⟩ := h
  exact Schema.mem_of_entity htarget

theorem ScalarType.isNull_coerce (type : ScalarType) (v : Value) : (type.coerce v).isNull = v.isNull := by
  cases type <;> cases v <;> rfl

namespace Record

/-! ## Cells -/

/-- the value of the last cell from this source under this key -/
def lastCell (source : ColumnSource) (key : String) (cells : List (OutputColumn × Value)) : Option Value :=
  (cells.reverse.find? fun cell => cell.1.source = source && cell.1.key = key).map Prod.snd

section LastCell

variable {source : ColumnSource} {key : String} {cells : List (OutputColumn × Value)}

theorem lastCell_append (cell : OutputColumn × Value) : lastCell source key (cells ++ [cell]) =
    if cell.1.source = source ∧ cell.1.key = key then some cell.2 else lastCell source key cells := by
  rw [lastCell, List.reverse_append, List.reverse_singleton, List.singleton_append, List.find?_cons]
  by_cases h : cell.1.source = source ∧ cell.1.key = key
  · simp [h]
  · rw [if_neg h, lastCell]
    have hmiss : (decide (cell.1.source = source) && decide (cell.1.key = key)) = false := by simpa using h
    simp only [hmiss]

theorem lastCell_eq_none (h : ∀ cell ∈ cells, cell.1.source = source → cell.1.key ≠ key) :
    lastCell source key cells = none := by
  rw [lastCell, Option.map_eq_none_iff, List.find?_eq_none]
  intro cell hcell
  simpa using h cell (List.mem_reverse.1 hcell)

theorem mem_of_lastCell {v : Value} (h : lastCell source key cells = some v) :
    ∃ c, (c, v) ∈ cells ∧ c.source = source ∧ c.key = key := by
  obtain ⟨⟨c, _⟩, hfound, rfl⟩ := Option.map_eq_some_iff.1 h
  refine ⟨c, List.mem_reverse.1 (List.mem_of_find?_eq_some hfound), ?_⟩
  simpa using List.find?_some hfound

/-- A cell that is the only one of its source and key is the last one. -/
theorem lastCell_of_unique {cell : OutputColumn × Value} (hcell : cell ∈ cells) (hunique : ∀ other ∈ cells,
    other.1.source = cell.1.source → other.1.key = cell.1.key → other = cell) :
    lastCell cell.1.source cell.1.key cells = some cell.2 := by
  have hsome : (cells.reverse.find? fun other => other.1.source = cell.1.source && other.1.key = cell.1.key).isSome :=
    List.find?_isSome.2 ⟨cell, List.mem_reverse.2 hcell, by simp⟩
  obtain ⟨found, hfound⟩ := Option.isSome_iff_exists.1 hsome
  have hmem := List.mem_reverse.1 (List.mem_of_find?_eq_some hfound)
  have hsame : found.1.source = cell.1.source ∧ found.1.key = cell.1.key := by simpa using List.find?_some hfound
  rw [lastCell, hfound, hunique found hmem hsame.1 hsame.2]
  rfl

theorem lastCell_split {before after : List (OutputColumn × Value)} (cell : OutputColumn × Value)
    (hlast : ∀ other ∈ after, ¬(other.1.source = cell.1.source ∧ other.1.key = cell.1.key)) :
    lastCell cell.1.source cell.1.key (before ++ cell :: after) = some cell.2 := by
  have hafter : (after.reverse.find? fun other =>
      other.1.source = cell.1.source && other.1.key = cell.1.key) = none := by
    rw [List.find?_eq_none]
    intro other hother
    simpa using hlast other (List.mem_reverse.1 hother)
  rw [lastCell, List.reverse_append, List.reverse_cons, List.append_assoc, List.find?_append, hafter]
  simp

theorem lastCell_filter :
    lastCell source key (cells.filter fun cell => cell.1.source = source) = lastCell source key cells := by
  rw [lastCell, lastCell, ← List.filter_reverse, List.find?_filter]
  simp

theorem lastCell_joinedCells {name : String} :
    lastCell (.joined name) key (joinedCells name cells) = lastCell (.joined name) key cells := lastCell_filter

/-- Setting what is held under the key of a cell is putting the cell last. -/
theorem get?_insert_cell {m : NameMap Value} {cell : OutputColumn × Value} {held : Option Value}
    (hsource : cell.1.source = source) (hm : m.get? key = (lastCell source key cells).or held) :
    (m.insert cell.1.key cell.2).get? key = (lastCell source key (cells ++ [cell])).or held := by
  rw [lastCell_append]
  by_cases hkey : cell.1.key = key
  · rw [if_pos ⟨hsource, hkey⟩, ← hkey]
    exact NameMap.get?_insert_self _ _ _
  · rw [if_neg fun h => hkey h.2, ← hm]
    exact NameMap.get?_insert_of_ne _ (Ne.symm hkey) _

end LastCell

theorem setCell_entity (r : Record) (cell : OutputColumn × Value) : (r.setCell cell).entity = r.entity := by
  unfold setCell
  split <;> rfl

theorem setCell_related (r : Record) (cell : OutputColumn × Value) : (r.setCell cell).related = r.related := by
  unfold setCell
  split <;> rfl

section Cells

variable {cells : List (OutputColumn × Value)} {r : Record}

theorem foldl_setCell_entity : (cells.foldl setCell r).entity = r.entity := by
  induction cells generalizing r with
  | nil => rfl
  | cons cell rest ih => rw [List.foldl_cons, ih, setCell_entity]

theorem foldl_setCell_related : (cells.foldl setCell r).related = r.related := by
  induction cells generalizing r with
  | nil => rfl
  | cons cell rest ih => rw [List.foldl_cons, ih, setCell_related]

/-- The annotations of a row are its computed cells, the last of an alias counting. -/
theorem foldl_setCell_annotation (name : String) : (cells.foldl setCell r).annotations.get? name =
    (lastCell .computed name cells).or (r.annotations.get? name) := by
  induction cells using List.reverseRecOn with
  | nil => rfl
  | append_singleton cells cell ih =>
    rw [List.foldl_append, List.foldl_cons, List.foldl_nil, setCell]
    cases hsource : cell.1.source with
    | computed => exact get?_insert_cell hsource ih
    | root | path | joined =>
      rw [lastCell_append, hsource, if_neg fun h => nomatch h.1]
      exact ih

/-- The fields of a row are its cells of the root, the last of a name counting. -/
theorem foldl_setCell_field (hpath : ∀ cell ∈ cells, cell.1.source ≠ .path) (name : String) :
    (cells.foldl setCell r).fields.get? name = (lastCell .root name cells).or (r.fields.get? name) := by
  induction cells using List.reverseRecOn with
  | nil => rfl
  | append_singleton cells cell ih =>
    have ih := ih fun other hother => hpath other (List.mem_append_left _ hother)
    rw [List.foldl_append, List.foldl_cons, List.foldl_nil, setCell]
    cases hsource : cell.1.source with
    | root => exact get?_insert_cell hsource ih
    | path => exact absurd hsource (hpath cell (by simp))
    | computed | joined =>
      rw [lastCell_append, hsource, if_neg fun h => nomatch h.1]
      exact ih

/-- The fields of a record that is made of cells of one source. -/
theorem ofFields_field {entity : Entity} {source : ColumnSource} (hsource : ∀ cell ∈ cells, cell.1.source = source)
    (name : String) : (ofFields entity cells).fields.get? name = lastCell source name cells := by
  unfold ofFields
  induction cells using List.reverseRecOn with
  | nil => rfl
  | append_singleton cells cell ih =>
    have ih := ih fun other hother => hsource other (List.mem_append_left _ hother)
    have hput := get?_insert_cell (hsource cell (by simp)) (ih.trans Option.or_none.symm)
    rw [Option.or_none] at hput
    rw [List.foldl_append]
    exact hput

theorem ofFields_entity (entity : Entity) (cells : List (OutputColumn × Value)) :
    (ofFields entity cells).entity = entity ∧ (ofFields entity cells).annotations = .empty := by
  have hstep : ∀ r : Record, (cells.foldl (fun r cell => r.setField cell.1.key cell.2) r).entity = r.entity ∧
      (cells.foldl (fun r cell => r.setField cell.1.key cell.2) r).annotations = r.annotations := by
    induction cells with
    | nil => exact fun _ => ⟨rfl, rfl⟩
    | cons cell rest ih => exact fun r => ih (r.setField cell.1.key cell.2)
  exact hstep (.empty entity)

end Cells

/-! ## Joined relations -/

/-- a record after a change of its relations -/
structure SameCells (r r' : Record) : Prop where
  entity : r'.entity = r.entity
  fields : r'.fields = r.fields
  annotations : r'.annotations = r.annotations

theorem SameCells.refl (r : Record) : SameCells r r := ⟨rfl, rfl, rfl⟩

theorem SameCells.trans {r r' r'' : Record} (h : SameCells r r') (h' : SameCells r' r'') : SameCells r r'' :=
  ⟨h'.entity.trans h.entity, h'.fields.trans h.fields, h'.annotations.trans h.annotations⟩

theorem SameCells.setRelated (r : Record) (name : String) (related : Related) :
    SameCells r (r.setRelated name related) := ⟨rfl, rfl, rfl⟩

/-- the record of a joined relation, unless its key is null -/
def joinedRecord (target : Entity) (cells : List (OutputColumn × Value)) : Option Record :=
  if cells.any fun cell => cell.1.key = target.primaryKey && !cell.2.isNull then some (ofFields target cells) else none

/-- A relation is joined to nothing when its key, of which there is one cell, is null. -/
theorem joinedRecord_eq_none {target : Entity} {cells : List (OutputColumn × Value)} {cell : OutputColumn × Value}
    (hcell : cell ∈ cells) (hkey : cell.1.key = target.primaryKey)
    (hunique : ∀ other ∈ cells, other.1.key = target.primaryKey → other = cell) :
    joinedRecord target cells = none ↔ cell.2.isNull = true := by
  have hany : (cells.any fun other => other.1.key = target.primaryKey && !other.2.isNull) = !cell.2.isNull := by
    rw [Bool.eq_iff_iff, List.any_eq_true]
    constructor
    · rintro ⟨other, hother, hmatch⟩
      obtain ⟨hsame, hpresent⟩ : other.1.key = target.primaryKey ∧ (!other.2.isNull) = true := by simpa using hmatch
      exact hunique other hother hsame ▸ hpresent
    · exact fun hpresent => ⟨cell, hcell, by simpa [hkey] using hpresent⟩
  rw [joinedRecord, hany]
  cases cell.2.isNull <;> simp

variable {schema : Schema}

theorem addJoined_eq (cells : List (OutputColumn × Value)) {r : Record} {name : String} {target : Entity}
    (h : r.entity.LeadsTo schema name target) :
    addJoined schema cells r name = .ok (r.setRelated name (.one (joinedRecord target (joinedCells name cells)))) := by
  obtain ⟨relation, hrelation, htarget⟩ := h
  unfold addJoined
  rw [hrelation]
  change (schema.entity relation.target >>= _) = _
  rw [htarget]
  rfl

/-- Joined relations of the entity can be added, and nothing else is. -/
theorem foldlM_addJoined (cells : List (OutputColumn × Value)) {names : List String} {r : Record}
    (hnames : ∀ name ∈ names, ∃ target, r.entity.LeadsTo schema name target) :
    ∃ r', names.foldlM (addJoined schema cells) r = .ok r' ∧ SameCells r r' ∧
      (∀ name ∉ names, r'.related.get? name = r.related.get? name) ∧
      ∀ name ∈ names, ∀ target, r.entity.LeadsTo schema name target →
        r'.related.get? name = some (.one (joinedRecord target (joinedCells name cells))) := by
  induction names generalizing r with
  | nil => exact ⟨r, rfl, .refl r, fun _ _ => rfl, nofun⟩
  | cons name rest ih =>
    rw [List.forall_mem_cons] at hnames
    obtain ⟨⟨target, hleads⟩, hrest⟩ := hnames
    obtain ⟨r', hfold, hsame, hothers, hjoined⟩ := @ih (r.setRelated name _) hrest
    refine ⟨r', ?_, (SameCells.setRelated r name _).trans hsame, fun other hother => ?_, fun other hother target' h' => ?_⟩
    · rw [List.foldlM_cons, addJoined_eq cells hleads]
      exact hfold
    · rw [List.mem_cons, not_or] at hother
      rw [hothers other hother.2]
      exact NameMap.get?_insert_of_ne _ hother.1 _
    · by_cases hmem : other ∈ rest
      · exact hjoined other hmem target' h'
      · obtain rfl := (List.mem_cons.1 hother).resolve_right hmem
        rw [hothers other hmem, h'.unique hleads]
        exact NameMap.get?_insert_self _ _ _

theorem mem_names_ofList {α : Type} {name : String} (members : List (String × α)) :
    name ∈ (NameMap.ofList members).names ↔ name ∈ members.map Prod.fst := by
  have hstep : ∀ m : NameMap α, name ∈ (members.foldl (fun m member => m.insert member.1 member.2) m).names ↔
      name ∈ m.names ∨ name ∈ members.map Prod.fst := by
    induction members with
    | nil => simp
    | cons member rest ih =>
      intro m
      have hinsert : name ∈ (m.insert member.1 member.2).names ↔ name = member.1 ∨ name ∈ m.names :=
        NameMap.mem_names_insertEntry
      rw [List.foldl_cons, ih, hinsert, List.map_cons, List.mem_cons, or_assoc, or_left_comm]
  rw [NameMap.ofList, hstep]
  exact or_iff_right nofun

/-- the relations with a column are joined -/
theorem mem_joinedNames {cells : List (OutputColumn × Value)} {name : String} :
    name ∈ joinedNames cells ↔ ∃ cell ∈ cells, cell.1.source = .joined name := by
  rw [joinedNames, mem_names_ofList, List.mem_map]
  constructor
  · rintro ⟨member, hmember, rfl⟩
    obtain ⟨cell, hcell, hsome⟩ := List.mem_filterMap.1 hmember
    split at hsome
    · next relation hsource =>
      obtain rfl := Option.some.inj hsome
      exact ⟨cell, hcell, hsource⟩
    · cases hsome
  · rintro ⟨cell, hcell, hsource⟩
    exact ⟨(name, ()), List.mem_filterMap.2 ⟨cell, hcell, by rw [hsource]⟩, rfl⟩

/-! ## Rows -/

section Rows

variable {p : Plan} {columns : List OutputColumn}

theorem coerceRow_fields (column : Field → OutputColumn) (fields : List Field) (row : Row) :
    coerceRow (fields.map column) row =
      (fields.zip row).map fun cell => (column cell.1, (column cell.1).coerce cell.2) := by
  rw [coerceRow, List.zip_map_left, List.map_map]
  rfl

theorem mem_coerceRow {row : Row} {cell : OutputColumn × Value} (h : cell ∈ coerceRow columns row) :
    cell.1 ∈ columns := by
  obtain ⟨pair, hpair, rfl⟩ := List.mem_map.1 h
  exact (List.of_mem_zip hpair).1

theorem pairwise_coerceRow {R : OutputColumn → OutputColumn → Prop} (h : columns.Pairwise R) (row : Row) :
    (coerceRow columns row).Pairwise fun a b => R a.1 b.1 := by
  unfold coerceRow
  induction h generalizing row with
  | nil => exact List.Pairwise.nil
  | @cons column rest hcolumn _ ih =>
    cases row with
    | nil => exact List.Pairwise.nil
    | cons v more =>
      rw [List.zip_cons_cons, List.map_cons, List.pairwise_cons]
      exact ⟨fun cell hcell => hcolumn cell.1 (mem_coerceRow hcell), ih more⟩

variable (schema) in
/-- The record holds the cells and the relations joined in them, and nothing else. -/
structure MadeOf (root : Entity) (cells : List (OutputColumn × Value)) (r : Record) : Prop where
  entity : r.entity = root
  fields : ∀ name, r.fields.get? name = lastCell .root name cells
  annotations : ∀ name, r.annotations.get? name = lastCell .computed name cells
  joined : ∀ name ∈ joinedNames cells, ∀ target, root.LeadsTo schema name target →
    r.related.get? name = some (.one (joinedRecord target (joinedCells name cells)))
  unjoined : ∀ name ∉ joinedNames cells, r.related.get? name = none

/-- A row has a record, which is made of its cells, when each column is a field, an annotation, or a field of a relation
that leads somewhere. -/
theorem ofRow_madeOf_of_leads {root : Entity} (hpath : ∀ c ∈ columns, c.source ≠ .path)
    (hleads : ∀ c ∈ columns, ∀ name, c.source = .joined name → ∃ target, root.LeadsTo schema name target) (row : Row) :
    ∃ r, ofRow schema root columns row = .ok r ∧ r.MadeOf schema root (coerceRow columns row) := by
  set cells := coerceRow columns row with hcells
  have hentity : (cells.foldl setCell (.empty root)).entity = root := foldl_setCell_entity
  have hjoined : ∀ name ∈ joinedNames cells, ∃ target,
      (cells.foldl setCell (.empty root)).entity.LeadsTo schema name target := by
    intro name hname
    obtain ⟨cell, hcell, hsource⟩ := mem_joinedNames.1 hname
    exact hentity.symm ▸ hleads cell.1 (mem_coerceRow hcell) name hsource
  obtain ⟨r, hr, hsame, hothers, hrelated⟩ := foldlM_addJoined cells hjoined
  rw [hentity] at hrelated
  refine ⟨r, hr, hsame.entity.trans hentity, fun name => ?_, fun name => ?_, hrelated, fun name hname => ?_⟩
  · rw [hsame.fields, foldl_setCell_field fun cell hcell => hpath cell.1 (mem_coerceRow hcell)]
    exact Option.or_none
  · rw [hsame.annotations, foldl_setCell_annotation]
    exact Option.or_none
  · rw [hothers name hname, foldl_setCell_related]
    rfl

/-- A row of a record plan has a record, which is made of its cells. -/
theorem ofRow_madeOf (hcolumns : ∀ c ∈ columns, p.RecordColumn schema c) (row : Row) :
    ∃ r, ofRow schema p.root columns row = .ok r ∧ r.MadeOf schema p.root (coerceRow columns row) := by
  refine ofRow_madeOf_of_leads (fun c hc hsource => ?_) (fun c hc name hsource => ?_) row
  · cases hcolumns c hc <;> cases hsource
  · cases hcolumns c hc with
    | field _ | computed _ => cases hsource
    | joined hrelation htarget =>
      obtain rfl := ColumnSource.joined.inj hsource
      exact ⟨_, _, hrelation, htarget⟩

/-- **A row of a record plan has a record**: its own cells are the fields, and no annotation hides one. -/
theorem ofRow_ok (hcolumns : p.RecordColumns schema columns)
    (haliases : ∀ a ∈ p.annotations, p.root.declares a.aliasName = false) (row : Row) :
    ∃ r, ofRow schema p.root columns row = .ok r ∧ r.entity = p.root ∧
      (∀ cell ∈ coerceRow columns row, cell.1.source = .root → r.fields.get? cell.1.key = some cell.2) ∧
      ∀ name, p.root.declares name = true → r.annotations.get? name = none := by
  obtain ⟨r, hr, hmade⟩ := ofRow_madeOf hcolumns.each row
  refine ⟨r, hr, hmade.entity, fun cell hcell hroot => ?_, fun name hname => ?_⟩
  · have hunique : ∀ other ∈ coerceRow columns row, other.1.source = cell.1.source → other.1.key = cell.1.key →
        other = cell := by
      intro other hother hsource hkey
      exact eq_of_pairwise_key (pairwise_coerceRow hcolumns.distinct row) hother hcell (hsource.trans hroot) hroot hkey
    rw [hmade.fields, ← hroot]
    exact lastCell_of_unique hcell hunique
  · rw [hmade.annotations]
    refine lastCell_eq_none fun cell hcell hsource => ?_
    rintro rfl
    have hkind := hcolumns.each cell.1 (mem_coerceRow hcell)
    generalize cell.1 = column at hkind hsource hname
    cases hkind with
    | field _ | joined _ _ => cases hsource
    | @computed aliasName _ _ he =>
      obtain ⟨a, ha, -⟩ := Option.map_eq_some_iff.1 he
      have halias : a.aliasName = aliasName := by simpa using List.find?_some ha
      have hfree := haliases a (List.mem_of_find?_eq_some ha)
      rw [halias] at hfree
      exact absurd hname (by simp [hfree])

/-- Rows of an entity's own columns become records of fields. -/
theorem ofRow_fields {target : Entity} (hcolumns : ∀ c ∈ columns, c.source = .root) (row : Row) :
    ofRow schema target columns row = .ok (ofFields target (coerceRow columns row)) := by
  have hsource : ∀ cell ∈ coerceRow columns row, cell.1.source = .root := fun cell hcell =>
    hcolumns cell.1 (mem_coerceRow hcell)
  have hnames : joinedNames (coerceRow columns row) = [] := by
    refine List.eq_nil_iff_forall_not_mem.2 fun name hname => ?_
    obtain ⟨cell, hcell, hjoined⟩ := mem_joinedNames.1 hname
    rw [hsource cell hcell] at hjoined
    cases hjoined
  have hcells : (coerceRow columns row).foldl setCell (.empty target) = ofFields target (coerceRow columns row) := by
    unfold ofFields
    refine List.foldl_ext _ _ _ fun r cell hcell => ?_
    rw [setCell, hsource cell hcell]
  change (joinedNames (coerceRow columns row)).foldlM (addJoined schema (coerceRow columns row))
    ((coerceRow columns row).foldl setCell (.empty target)) = _
  rw [hnames, hcells]
  rfl

end Rows

/-! ## Attached relations -/

/-- Attached relations change neither fields nor annotations, and no relation of another name. -/
theorem foldlM_addAttached {i : Nat} {attached : List AttachedRelation} {related : AttachedRelation → Related}
    (h : ∀ a ∈ attached, ofAttached schema a (a.perRow[i]?.getD []) = .ok (related a)) (r : Record) :
    ∃ r', attached.foldlM (addAttached schema i) r = .ok r' ∧ SameCells r r' ∧
      (∀ name, (∀ a ∈ attached, a.relation ≠ name) → r'.related.get? name = r.related.get? name) ∧
      ∀ a ∈ attached, (∀ other ∈ attached, other.relation = a.relation → related other = related a) →
        r'.related.get? a.relation = some (related a) := by
  induction attached generalizing r with
  | nil => exact ⟨r, rfl, .refl r, fun _ _ => rfl, nofun⟩
  | cons first rest ih =>
    rw [List.forall_mem_cons] at h
    obtain ⟨r', hfold, hsame, hothers, hget⟩ := ih h.2 (r.setRelated first.relation (related first))
    refine ⟨r', ?_, (SameCells.setRelated r _ _).trans hsame, fun name hname => ?_, fun a ha hunique => ?_⟩
    · rw [List.foldlM_cons, addAttached, h.1]
      exact hfold
    · rw [List.forall_mem_cons] at hname
      rw [hothers name hname.2]
      exact NameMap.get?_insert_of_ne _ (Ne.symm hname.1) _
    · rw [List.forall_mem_cons] at hunique
      by_cases hlater : ∃ other ∈ rest, other.relation = a.relation
      · obtain ⟨other, hother, hname⟩ := hlater
        rw [← hunique.2 other hother hname, ← hname]
        exact hget other hother fun another hanother hsameName =>
          (hunique.2 another hanother (hsameName.trans hname)).trans (hunique.2 other hother hname).symm
      · have hrest : ∀ other ∈ rest, other.relation ≠ a.relation := fun other hother hname =>
          hlater ⟨other, hother, hname⟩
        obtain rfl := (List.mem_cons.1 ha).resolve_right fun hmem => hrest a hmem rfl
        rw [hothers _ hrest]
        exact NameMap.get?_insert_self _ _ _

end Record

/-! ## Row sets -/

section Sets

variable {schema : Schema} {entity : Entity} {set : RowSet}

variable (set) in
/-- The records of rows, each with its attached relations, in the order of the rows. -/
theorem recordsFrom_ok {Q : Nat → Row → Record → Prop} {rows : List Row} {start : Nat}
    (h : ∀ k row, rows[k]? = some row → ∃ r r', Record.ofRow schema entity set.columns row = .ok r ∧
      set.relations.foldlM (Record.addAttached schema (start + k)) r = .ok r' ∧ Q (start + k) row r') :
    ∃ records, recordsFrom schema entity set start rows = .ok records ∧ records.length = rows.length ∧
      ∀ k row r, rows[k]? = some row → records[k]? = some r → Q (start + k) row r := by
  induction rows generalizing start with
  | nil => exact ⟨[], rfl, rfl, nofun⟩
  | cons row rest ih =>
    obtain ⟨r, r', hr, hr', hQ⟩ := h 0 row rfl
    have hrest : ∀ k other, rest[k]? = some other → ∃ r r', Record.ofRow schema entity set.columns other = .ok r ∧
        set.relations.foldlM (Record.addAttached schema (start + 1 + k)) r = .ok r' ∧ Q (start + 1 + k) other r' := by
      intro k other hother
      rw [Nat.add_assoc, Nat.add_comm 1 k]
      exact h (k + 1) other hother
    obtain ⟨records, hrecords, hlength, hall⟩ := ih hrest
    refine ⟨r' :: records, ?_, by simp [hlength], fun k other record hother hrecord => ?_⟩
    · rw [Nat.add_zero] at hr'
      rw [recordsFrom, hr]
      change (set.relations.foldlM (Record.addAttached schema start) r >>= _) = _
      rw [hr']
      change (recordsFrom schema entity set (start + 1) rest >>= _) = _
      rw [hrecords]
      rfl
    · cases k with
      | zero =>
        obtain rfl := Option.some.inj hother
        obtain rfl := Option.some.inj hrecord
        exact hQ
      | succ k =>
        have hk := hall k other record hother hrecord
        rwa [Nat.add_assoc, Nat.add_comm 1 k] at hk

/-- Rows of an entity's own columns, without attached relations. -/
theorem recordsFrom_fields (hcolumns : ∀ c ∈ set.columns, c.source = .root) (hrelations : set.relations = [])
    (rows : List Row) (start : Nat) :
    recordsFrom schema entity set start rows
      = .ok (rows.map fun row => Record.ofFields entity (coerceRow set.columns row)) := by
  induction rows generalizing start with
  | nil => rfl
  | cons row rest ih =>
    rw [recordsFrom, Record.ofRow_fields hcolumns, hrelations]
    change (recordsFrom schema entity set (start + 1) rest >>= _) = _
    rw [ih]
    rfl

/-- Rows presented as records are the records of the rows. -/
theorem materialize_isOf {shape : ResultShape} (hshape : shape.IsOf entity.name)
    (hentity : schema.entity entity.name = .ok entity) {records : List Record}
    (hrecords : recordsFrom schema entity set 0 set.rows = .ok records) :
    materialize schema set shape = .ok (.records records) := by
  have hresult : (do
      let root ← schema.entity entity.name
      let records ← recordsFrom schema root set 0 set.rows
      return Results.records records : Except QueryError Results) = .ok (.records records) := by
    rw [hentity]
    change (recordsFrom schema entity set 0 set.rows >>= _) = _
    rw [hrecords]
    rfl
  rcases hshape with rfl | ⟨fields, rfl⟩
  · exact hresult
  · exact hresult

end Sets

end RelQuery
