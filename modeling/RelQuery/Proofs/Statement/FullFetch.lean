/-
Full fetches.

A plan without a projection selects the fields of its root by their names, each as the column that its name leads to. A
field is selected once when the names of the fields differ, are no paths, and are `pk` for the key alone; otherwise
another field is selected in its place, or the same one again.
- `Plan.rootColumns_eq`: the columns of the root that a full fetch selects.
- `Entity.clearFields_iff`: when each field is once among them.
- `members_reachable_iff`: when the members of an entity are reached by their names, and selected.
-/
import RelQuery.Proofs.Schema.Members
import RelQuery.Proofs.Statement.Outputs
import RelQuery.Proofs.Statement.Related

namespace RelQuery

/-! ## Columns of the root table -/

namespace Scope

variable {scope : Scope} {first : Nat} {s s' : JoinState}

/-- A field is compiled to a column of the root table when no relation leads to it, and of another table otherwise. -/
theorem column_placed (hqualifier : scope.qualifier = some (tableAlias first)) (hnamed : s.Named first) {ref : FieldRef}
    {role : Role} {x : Sql.Expr} (h : scope.column ref role s = .ok (x, s')) : s'.Named first ∧
      ∃ table, x = .columnOf table ref.column ∧ (table = tableAlias first ↔ ref.hops = []) := by
  obtain ⟨-, hplaces⟩ := column_cases h
  rcases hplaces with ⟨hlocal, rfl, rfl⟩ | ⟨hfar, name, hjoin, rfl⟩
  · refine ⟨hnamed, tableAlias first, ?_, iff_of_true rfl hlocal⟩
    rw [rootColumn, hqualifier]
    rfl
  · simp only [joinPath, hqualifier] at hjoin
    obtain ⟨-, hnamed', hnode⟩ := joinHops_ok hnamed hjoin
    obtain ⟨node, hmem, -, rfl⟩ := hnode hfar
    exact ⟨hnamed', node.aliasName, rfl, iff_of_false (hnamed'.root_ne hmem).symm hfar⟩

end Scope

/-- the output is a field, and the expression its column: one of the root table when no relation leads to it -/
def Output.Placed (first : Nat) (o : Output) (x : Sql.Expr) : Prop :=
  ∃ ref, o.term = .field ref ∧ ∃ table, x = .columnOf table ref.column ∧ (table = tableAlias first ↔ ref.hops = [])

namespace Plan

variable {schema : Schema} {p : Plan} {scope : Scope} {first : Nat}

/-- Fields among the outputs are compiled to their columns. -/
theorem lowerAll_placed (hqualifier : scope.qualifier = some (tableAlias first)) : {outputs : List Output} →
    (∀ o ∈ outputs, ∃ ref, o.term = .field ref) → ∀ {s s' xs}, s.Named first →
    p.lowerAll scope (outputs.map fun o => (o.term.expr, o.role)) s = .ok (xs, s') →
    s'.Named first ∧ List.Forall₂ (Output.Placed first) outputs xs
  | [], _, _, _, _, hnamed, h => by
    obtain ⟨rfl, rfl⟩ := Lowering.pure_ok.1 h
    exact ⟨hnamed, .nil⟩
  | o :: rest, hfields, s, s', xs, hnamed, h => by
    obtain ⟨x, more, s₁, rfl, hx, hmore⟩ := lowerAll_cons_ok h
    obtain ⟨ref, href⟩ := hfields o List.mem_cons_self
    simp only [href, OutputTerm.expr] at hx
    obtain ⟨hnamed', hplaced⟩ := Scope.column_placed hqualifier hnamed hx
    obtain ⟨hlast, hrest⟩ :=
      lowerAll_placed hqualifier (fun o ho => hfields o (List.mem_cons_of_mem _ ho)) hnamed' hmore
    exact ⟨hlast, .cons ⟨ref, href, hplaced⟩ hrest⟩

end Plan

/-! ## What is selected of the root -/

/-- the columns that the names of an entity's fields lead to, those names that are no paths -/
def Entity.namedColumns (e : Entity) : List String :=
  (e.columnNames.filter fun name => '.' ∉ name.toList).map (fieldName e.primaryKey)

/-- the column of the root table that is selected, under its own name -/
def Sql.SelectItem.rootColumn? (item : Sql.SelectItem) : Option String :=
  match item.aliasName, item.expr with
  | none, .column (some table) name => if table = tableAlias 0 then some name else none
  | _, _ => none

/-- the columns of the root table that a query selects under their own names -/
def Sql.Query.rootColumns (q : Sql.Query) : List String := q.select.filterMap (·.rootColumn?)

/-- the item that an output is selected as -/
def Output.item (o : Output) (x : Sql.Expr) : Sql.SelectItem := ⟨x, o.selectAlias⟩

namespace Output

variable {drafts : List EntityDraft} {schema : Schema} {e : Entity} {o : Output}

/-- An output under its own name is a column of the root when it is a field of the root. -/
theorem rootColumn?_item {ref : FieldRef} (hterm : o.term = .field ref) (hname : o.selectAlias = none) {x : Sql.Expr}
    (hx : o.Placed 0 x) : (o.item x).rootColumn? = if ref.hops = [] then some ref.column else none := by
  obtain ⟨other, hother, table, rfl, htable⟩ := hx
  obtain rfl := OutputTerm.field.inj (hother.symm.trans hterm)
  have hitem : (o.item (.columnOf table other.column)).rootColumn? =
      if table = tableAlias 0 then some other.column else none := by
    rw [item, hname]
    rfl
  rw [hitem, if_congr htable rfl rfl]

/-- A field of the root is selected as the column that its name leads to, one of the root table when it is no path. -/
theorem rootColumn?_ofRootField (hschema : Schema.ofDrafts drafts = .ok schema) (he : e ∈ schema.entities) {f : Field}
    (hf : f ∈ e.fields) (ho : ofRootField schema e f.name = .ok o) {x : Sql.Expr} (hx : o.Placed 0 x) :
    (if '.' ∉ f.name.toList then some (fieldName e.primaryKey f.name) else none) = (o.item x).rootColumn? := by
  obtain ⟨ref, href, hpure⟩ := ok_of_bind ho
  obtain rfl := Except.ok.inj hpure
  rw [rootColumn?_item rfl rfl hx]
  by_cases hdot : '.' ∈ f.name.toList
  · rw [if_neg (not_not.2 hdot), if_neg (Schema.resolve_dotted hschema he hdot href)]
  · obtain ⟨g, -, hresolve, hname⟩ := Schema.resolve_own hschema he hf hdot
    obtain rfl := Except.ok.inj (href.symm.trans hresolve)
    rw [if_pos hdot, if_pos rfl, ← hname]
    rfl

/-- The fields of the root are selected as the columns that their names lead to. -/
theorem rootColumns_own (hschema : Schema.ofDrafts drafts = .ok schema) (he : e ∈ schema.entities) {own : List Output}
    (hown : e.fields.mapM (fun f => ofRootField schema e f.name) = .ok own) {xs : List Sql.Expr}
    (hplaced : List.Forall₂ (Placed 0) own xs) :
    (List.zipWith item own xs).filterMap (·.rootColumn?) = e.namedColumns := by
  have heach := (List.forall₂_and_left _ _).2 ⟨fun f hf => hf, forall₂_of_mapM_ok hown⟩
  rw [Entity.namedColumns, ← List.filterMap_eq_map, List.filterMap_filter, Entity.columnNames, List.filterMap_map]
  refine (filterMap_eq_of_forall₂ (forall₂_zipWith ?_ heach hplaced)).symm
  rintro f o x ⟨hf, ho⟩ hx
  rw [← rootColumn?_ofRootField hschema he hf ho hx]
  simp

/-- Fields of other tables are no columns of the root. -/
theorem rootColumns_far {far : List Output}
    (hfar : ∀ o ∈ far, ∃ ref, o.term = .field ref ∧ o.selectAlias = none ∧ ref.hops ≠ []) {xs : List Sql.Expr}
    (hplaced : List.Forall₂ (Placed 0) far xs) : (List.zipWith item far xs).filterMap (·.rootColumn?) = [] := by
  rw [List.filterMap_eq_nil_iff, ← List.map_uncurry_zip_eq_zipWith]
  intro selected hselected
  obtain ⟨⟨o, x⟩, hpair, rfl⟩ := List.mem_map.1 hselected
  obtain ⟨ref, hterm, hname, hhops⟩ := hfar o (List.of_mem_zip hpair).1
  exact (rootColumn?_item hterm hname ((List.forall₂_iff_zip.1 hplaced).2 hpair)).trans (if_neg hhops)

end Output

namespace Plan

variable {drafts : List EntityDraft} {schema : Schema} {p : Plan}

/-- The outputs of a record are selected in three parts: fields of the root, fields of joined relations, annotations. -/
theorem select_parts (joins : List Sql.Join) {own joined computed : List Output} {scope : Scope} {s final : JoinState}
    {results conditions keys : List Sql.Expr} (hresults : results.length = (own ++ joined ++ computed).length)
    (hlower : p.lowerAll scope (p.items (own ++ joined ++ computed)) s = .ok (results ++ conditions ++ keys, final)) :
    ∃ xs ys zs s₁ s₂, p.lowerAll scope (own.map fun o => (o.term.expr, o.role)) s = .ok (xs, s₁) ∧
      p.lowerAll scope (joined.map fun o => (o.term.expr, o.role)) s₁ = .ok (ys, s₂) ∧
      (p.query scope (own ++ joined ++ computed) joins results conditions keys).select =
        List.zipWith Output.item own xs ++ List.zipWith Output.item joined ys ++ List.zipWith Output.item computed zs := by
  have hitems : p.items (own ++ joined ++ computed) = (own.map fun o => (o.term.expr, o.role)) ++
      ((joined.map fun o => (o.term.expr, o.role)) ++ p.items computed) := by
    simp [items]
  rw [hitems] at hlower
  obtain ⟨xs, more, s₁, hmore, hxs, hrest⟩ := lowerAll_split hlower
  obtain ⟨ys, others, s₂, rfl, hys, -⟩ := lowerAll_split hrest
  have hown : xs.length = own.length := by simpa using lowerAll_length hxs
  have hjoined : ys.length = joined.length := by simpa using lowerAll_length hys
  have hleading : xs ++ ys <+: results := by
    have hall : xs ++ ys <+: results ++ conditions ++ keys := ⟨others, by rw [hmore, List.append_assoc]⟩
    have hfirst : results <+: results ++ conditions ++ keys := ⟨conditions ++ keys, (List.append_assoc ..).symm⟩
    exact List.prefix_of_prefix_length_le hall hfirst (by simp [hresults, hown, hjoined])
  obtain ⟨zs, rfl⟩ := hleading
  refine ⟨xs, ys, zs, s₁, s₂, hxs, hys, ?_⟩
  have hselect : (p.query scope (own ++ joined ++ computed) joins (xs ++ ys ++ zs) conditions keys).select =
      ((own ++ joined ++ computed).zip (xs ++ ys ++ zs)).map (Function.uncurry Output.item) := rfl
  rw [hselect, List.map_uncurry_zip_eq_zipWith, List.zipWith_append (by simp [hown, hjoined]),
    List.zipWith_append hown.symm]

/-- A full fetch selects the columns of the root that the names of its fields lead to. -/
theorem rootColumns_eq (hschema : Schema.ofDrafts drafts = .ok schema) (hroot : p.root ∈ schema.entities)
    (hprojection : p.projection = none) {selection : Selection} (hselection : p.rowSelection schema = .ok selection) :
    selection.query.rootColumns = p.root.namedColumns := by
  obtain ⟨outputs, final, results, conditions, keys, houtputs, hresults, -, -, hlower, -, hquery⟩ :=
    rowSelection_ok hselection
  rcases outputs_rows houtputs with ⟨names, hmaps, -⟩ | ⟨-, own, joined, computed, hown, hjoined, hcomputed, rfl, -⟩
  · rw [Maps, hprojection] at hmaps
    cases hmaps
  · rw [shownFields, hprojection] at hown
    obtain ⟨xs, ys, zs, s₁, s₂, hxs, hys, hselect⟩ := select_parts final.joins hresults hlower
    have hownField : ∀ o ∈ own, ∃ ref, o.term = .field ref := by
      intro o ho
      obtain ⟨name, -, hone⟩ := mem_of_mapM_ok hown ho
      obtain ⟨ref, -, hpure⟩ := ok_of_bind hone
      obtain rfl := Except.ok.inj hpure
      exact ⟨ref, rfl⟩
    have hjoinedField : ∀ o ∈ joined, ∃ ref, o.term = .field ref ∧ o.selectAlias = none ∧ ref.hops ≠ [] := by
      intro o ho
      obtain ⟨name, -, -, -, field, ref, -, -, -, href, rfl⟩ := mem_joinedOutputs hjoined ho
      exact ⟨ref, rfl, rfl, Schema.resolve_dotted hschema hroot (by simp) href⟩
    obtain ⟨hnamed, hplaced⟩ := lowerAll_placed rfl hownField (.init 0) hxs
    obtain ⟨-, hplaced'⟩ :=
      lowerAll_placed rfl (fun o ho => (hjoinedField o ho).imp fun _ h => h.1) hnamed hys
    have hfirst := Output.rootColumns_own hschema hroot (List.mapM_map.symm.trans hown) hplaced
    have hsecond := Output.rootColumns_far hjoinedField hplaced'
    have hthird : (List.zipWith Output.item computed zs).filterMap (·.rootColumn?) = [] := by
      rw [List.filterMap_eq_nil_iff]
      intro item hitem
      obtain ⟨o, ho, x, -, rfl⟩ := exists_of_mem_zipWith hitem
      obtain ⟨name, -, hone⟩ := mem_of_mapM_ok hcomputed ho
      obtain ⟨e, -, rfl⟩ := annotationOutput_eq hone
      rfl
    rw [Sql.Query.rootColumns, hquery, hselect, List.filterMap_append, List.filterMap_append, hfirst, hsecond, hthird,
      List.append_nil, List.append_nil]

end Plan

/-! ## When each field is selected once -/

namespace Entity

variable {schema : Schema} {e : Entity}

/-- The names of the fields differ, are no paths, and are `pk` for the key alone. -/
structure ClearFields (e : Entity) : Prop where
  distinct : e.columnNames.Nodup
  undotted : ∀ name ∈ e.columnNames, '.' ∉ name.toList
  pk : "pk" ∈ e.columnNames → e.primaryKey = "pk"

theorem namedColumns_eq (hundotted : ∀ name ∈ e.columnNames, '.' ∉ name.toList)
    (hpk : "pk" ∈ e.columnNames → e.primaryKey = "pk") : e.namedColumns = e.columnNames := by
  rw [namedColumns, List.filter_eq_self.2 fun name hname => decide_eq_true (hundotted name hname)]
  refine (List.map_congr_left fun name hname => ?_).trans (List.map_id' _)
  exact fieldName_eq_self.2 fun heq => hpk (heq ▸ hname)

/-- Each field is once among the columns that the names lead to when the names are clear, and only then. -/
theorem clearFields_iff : e.ClearFields ↔ ∀ f ∈ e.fields, e.namedColumns.count f.name = 1 := by
  constructor
  · intro h f hf
    rw [namedColumns_eq h.undotted h.pk]
    exact List.count_eq_one_of_mem h.distinct (List.mem_map_of_mem hf)
  · intro h
    have hsource : ∀ name ∈ e.columnNames, ∃ other ∈ e.columnNames, '.' ∉ other.toList ∧
        fieldName e.primaryKey other = name := by
      intro name hname
      obtain ⟨f, hf, rfl⟩ := List.mem_map.1 hname
      have hmem : f.name ∈ e.namedColumns := List.count_pos_iff.1 (Nat.lt_of_lt_of_eq Nat.one_pos (h f hf).symm)
      obtain ⟨other, hother, heq⟩ := List.mem_map.1 hmem
      exact ⟨other, (List.mem_filter.1 hother).1, of_decide_eq_true (List.mem_filter.1 hother).2, heq⟩
    have hpk : "pk" ∈ e.columnNames → e.primaryKey = "pk" := by
      intro hmem
      obtain ⟨other, -, -, heq⟩ := hsource "pk" hmem
      exact primaryKey_of_fieldName heq
    -- so each name stands for itself, and what leads to a column is its name
    have hundotted : ∀ name ∈ e.columnNames, '.' ∉ name.toList := by
      intro name hname
      obtain ⟨other, hother, hundotted, heq⟩ := hsource name hname
      rw [fieldName_eq_self.2 fun hself => hpk (hself ▸ hother)] at heq
      exact heq ▸ hundotted
    refine ⟨List.nodup_iff_count_eq_one.2 fun name hname => ?_, hundotted, hpk⟩
    obtain ⟨f, hf, rfl⟩ := List.mem_map.1 hname
    rw [← namedColumns_eq hundotted hpk]
    exact h f hf

/-- Clear names lead to their fields. -/
theorem ClearFields.namesFields {drafts : List EntityDraft} (h : e.ClearFields)
    (hschema : Schema.ofDrafts drafts = .ok schema) (he : e ∈ schema.entities) : e.NamesFields schema := by
  intro f hf
  have hname := List.mem_map_of_mem (f := (·.name)) hf
  have hresolve : schema.resolve e.name f.name = .ok ⟨[], e, f⟩ := (Schema.resolve_field_iff hschema he f).2
    ⟨h.undotted _ hname, find?_of_nodup_map h.distinct hf, fun hpk => h.pk (hpk ▸ hname)⟩
  rw [FieldRef.resolve, hresolve]
  rfl

/-- the query for all fields of all rows of an entity, each field once -/
def fullFetch (e : Entity) : Sql.Query :=
  { Sql.Query.selecting (e.fields.map fun f => ⟨.columnOf (tableAlias 0) f.name, none⟩) with
    source := some (.table ⟨e.table, some (tableAlias 0)⟩) }

/-- An entity whose fields are found by their names is fetched in full. -/
theorem NamesFields.rowSelection (h : e.NamesFields schema) :
    (Plan.ofEntity e).rowSelection schema = .ok ⟨e.fullFetch, e.columns, .record e.name⟩ := by
  have hown : (Plan.ofEntity e).shownFields.mapM (Output.ofRootField schema e) = .ok (e.fields.map e.output) :=
    List.mapM_map.trans (mapM_ok_of_forall fun f hf => ofRootField_eq h hf)
  have hrecord : ∀ names, ¬(Plan.ofEntity e).Maps names := by
    intro names hmaps
    rw [Plan.Maps] at hmaps
    cases hmaps
  have houtputs : (Plan.ofEntity e).outputs schema .rows = .ok (e.fields.map e.output ++ [] ++ [], .record e.name) :=
    Plan.outputs_of_record hrecord hown rfl rfl
  rw [List.append_nil, List.append_nil] at houtputs
  set scope := Scope.ofSelect schema e (tableAlias 0) none with hscope
  have hitems : (Plan.ofEntity e).items (e.fields.map e.output) = e.fields.map fun f => (.field (e.ref f), .output) := by
    simp [Plan.items, Plan.ofEntity, Entity.output, OutputTerm.expr]
  have hlower : (Plan.ofEntity e).lowerAll scope ((Plan.ofEntity e).items (e.fields.map e.output)) { next := 1 } =
      .ok (e.fields.map (fun f => .columnOf (tableAlias 0) f.name) ++ [] ++ [], { next := 1 }) := by
    rw [hitems, Plan.lowerAll, List.mapM_map, List.append_nil, List.append_nil]
    exact Lowering.mapM_eq fun f _ => scope.column_ref f .output _
  have hlength : (e.fields.map fun f => Sql.Expr.columnOf (tableAlias 0) f.name).length =
      (e.fields.map e.output).length := by
    simp
  have hclauses := Plan.lowerClauses_of hlength rfl hlower
  have hgrouped : (Plan.ofEntity e).isGrouped = false := rfl
  have hselect := Plan.select_of (.inl rfl) houtputs (fun h => absurd h (by simp [hgrouped])) hclauses
  rw [Plan.rowSelection, hselect, Plan.query, List.zip_map', List.map_map, List.map_map]
  rfl

end Entity

/-- **Members are reached by names that are clear.** A field of a checked schema's entity is reached by its name exactly
when the name is no path, belongs to no field before it, and is `pk` only for the key; a relation, which is named neither
`pk` nor like a field, when its name is no path and belongs to no relation before it. What is selected without a
projection holds each field once exactly when the names of all fields are clear in this way, and then an entity is fetched
with all its fields. -/
theorem members_reachable_iff {drafts : List EntityDraft} {schema : Schema}
    (hschema : Schema.ofDrafts drafts = .ok schema) {e : Entity} (he : e ∈ schema.entities) :
    (∀ f ∈ e.fields, schema.resolve e.name f.name = .ok ⟨[], e, f⟩ ↔
      '.' ∉ f.name.toList ∧ e.fields.find? (·.name = f.name) = some f ∧ (f.name = "pk" → e.primaryKey = "pk")) ∧
    (∀ r ∈ e.relations, r.name ≠ "pk" ∧ r.name ∉ e.columnNames ∧ ∃ target key,
      schema.entity r.target = .ok target ∧ target.field target.primaryKey = some key ∧
      (schema.resolve e.name r.name = .ok ⟨[r], target, key⟩ ↔
        '.' ∉ r.name.toList ∧ e.relation r.name = some r)) ∧
    (∀ p : Plan, p.root = e → p.projection = none → ∀ selection, p.rowSelection schema = .ok selection →
      ((∀ f ∈ e.fields, selection.query.rootColumns.count f.name = 1) ↔ e.ClearFields)) ∧
    (e.ClearFields → (Plan.ofEntity e).rowSelection schema = .ok ⟨e.fullFetch, e.columns, .record e.name⟩) := by
  refine ⟨fun f _ => Schema.resolve_field_iff hschema he f, fun r hr => ?_, fun p hroot hprojection selection hselection => ?_,
    fun h => (h.namesFields hschema he).rowSelection⟩
  · obtain ⟨hpk, hfields⟩ := Schema.ofDrafts_member hschema he hr
    obtain ⟨target, key, htarget, hkey⟩ := Schema.ofDrafts_target hschema he hr
    exact ⟨hpk, hfields, target, key, htarget, hkey, Schema.resolve_relation_iff hschema he htarget hkey⟩
  · subst hroot
    rw [Plan.rootColumns_eq hschema he hprojection hselection]
    exact Entity.clearFields_iff.symm

/-! An entry with two relations of one name, and with a field named `pk` that is not its key. -/

namespace ClashingMembers

def blogDraft : EntityDraft := .declare "blog" none none [⟨"id", .int, false⟩, ⟨"name", .text, false⟩] []

def entryDraft : EntityDraft :=
  .declare "entry" none none [⟨"id", .int, false⟩, ⟨"blog_id", .int, false⟩, ⟨"pk", .int, false⟩]
    [.toOne "blog" "blog" "blog_id", .toMany "blog" "entry" "id"]

def ofBlog : Relation := ⟨"blog", "blog", .toOne, "blog_id", "id"⟩

def ofEntries : Relation := ⟨"blog", "entry", .toMany, "id", "id"⟩

def entry : Entity :=
  ⟨"entry", "entry", "id", [⟨"id", .int, false⟩, ⟨"blog_id", .int, false⟩, ⟨"pk", .int, false⟩], [ofBlog, ofEntries]⟩

def schema : Schema := ⟨[⟨"blog", "blog", "id", [⟨"id", .int, false⟩, ⟨"name", .text, false⟩], []⟩, entry]⟩

theorem checked : Schema.ofDrafts [blogDraft, entryDraft] = .ok schema := rfl

/-- The blog of an entry is reached, its second relation and its field `pk` are not, and its fields are not all selected. -/
theorem members_reachable_iff_entry :
    (∃ target key, schema.resolve "entry" "blog" = .ok ⟨[ofBlog], target, key⟩) ∧
      (∃ target key, schema.entity ofEntries.target = .ok target ∧ target.field target.primaryKey = some key ∧
        schema.resolve "entry" "blog" ≠ .ok ⟨[ofEntries], target, key⟩) ∧
      schema.resolve "entry" "pk" ≠ .ok ⟨[], entry, ⟨"pk", .int, false⟩⟩ ∧
      ∃ selection, (Plan.ofEntity entry).rowSelection schema = .ok selection ∧
        ¬∀ f ∈ entry.fields, selection.query.rootColumns.count f.name = 1 := by
  obtain ⟨hfields, hrelations, hselected, -⟩ :=
    members_reachable_iff checked (by decide : entry ∈ schema.entities)
  obtain ⟨selection, hselection⟩ : ∃ selection, (Plan.ofEntity entry).rowSelection schema = .ok selection := ⟨_, rfl⟩
  refine ⟨?_, ?_, fun hresolve => ?_, selection, hselection, fun hcount => ?_⟩
  · obtain ⟨-, -, target, key, -, -, hiff⟩ := hrelations ofBlog (by decide)
    exact ⟨target, key, hiff.2 ⟨by decide, rfl⟩⟩
  · obtain ⟨-, -, target, key, htarget, hkey, hiff⟩ := hrelations ofEntries (by decide)
    exact ⟨target, key, htarget, hkey, fun hresolve => absurd (hiff.1 hresolve).2 (by decide)⟩
  · exact absurd (((hfields ⟨"pk", .int, false⟩ (by decide)).1 hresolve).2.2 rfl) (by decide)
  · exact absurd (((hselected _ rfl rfl selection hselection).1 hcount).pk (by decide)) (by decide)

/-- The schema is accepted with a relation and a field that their names do not lead to, and the key is selected twice. -/
theorem entry_members_hidden : Schema.ofDrafts [blogDraft, entryDraft] = .ok schema ∧ entry ∈ schema.entities ∧
    (∃ r ∈ entry.relations, ∃ other target key, other ≠ r ∧ schema.resolve "entry" r.name = .ok ⟨[other], target, key⟩) ∧
    (∃ f ∈ entry.fields, ∃ other, other ≠ f ∧ schema.resolve "entry" f.name = .ok ⟨[], entry, other⟩) ∧
    ∃ selection, (Plan.ofEntity entry).rowSelection schema = .ok selection ∧
      selection.query.rootColumns = ["id", "blog_id", "id"] :=
  ⟨checked, by decide, ⟨ofEntries, by decide, ofBlog, _, _, by decide, rfl⟩,
    ⟨⟨"pk", .int, false⟩, by decide, ⟨"id", .int, false⟩, by decide, rfl⟩, _, rfl, rfl⟩

end ClashingMembers

end RelQuery
