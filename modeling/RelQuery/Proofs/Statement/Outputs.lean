/-
The outputs of a plan's rows.

Rows that become records have columns from three places: fields of the root, fields of joined relations, annotations.
Which fields and annotations these are is up to the projection (`shownFields`, `shownAliases`).
- `shownFields_declared`, `shownAliases_annotated`: they are fields of the root, and annotations of the plan.
- `outputs_rows`: the outputs, place by place, or the projected names of a mapping.
- `outputs_origin`: each output is a field that a path leads to, or an annotation.
-/
import RelQuery.Proofs.Schema.Names
import RelQuery.Proofs.Statement.Clauses

namespace RelQuery

namespace Plan

/-- the names of the root's fields that records have -/
def shownFields (p : Plan) : List String :=
  match p.projection with
  | none => p.root.fields.map (·.name)
  | some projection => p.narrowedFields projection.names

/-- the aliases of the annotations that records have -/
def shownAliases (p : Plan) : List String :=
  match p.projection with
  | none => p.annotations.map (·.aliasName)
  | some projection => projection.names.filter fun name => (p.annotationOf name).isSome

/-- how rows that become records are presented -/
def recordShape (p : Plan) : ResultShape :=
  match p.projection with
  | none => .record p.root.name
  | some _ => .narrowedRecord p.root.name p.shownFields

/-- Rows become mappings. -/
def Maps (p : Plan) (names : List String) : Prop := p.projection = some ⟨.mapping, names⟩

variable {schema : Schema} {p : Plan} {outputs : List Output} {shape : ResultShape}

/-- The rows of a plan are made of the names it projects, or of fields of the root, of joined relations and of
annotations. -/
theorem outputs_rows (h : p.outputs schema .rows = .ok (outputs, shape)) :
    (∃ names, p.Maps names ∧ names.mapM (p.namedOutput schema) = .ok outputs ∧ shape = .mapping names) ∨
      ((∀ names, ¬p.Maps names) ∧ ∃ own joined computed, p.shownFields.mapM (Output.ofRootField schema p.root) = .ok own ∧
        p.joinedOutputs schema = .ok joined ∧ p.shownAliases.mapM p.annotationOutput = .ok computed ∧
        outputs = own ++ joined ++ computed ∧ shape = p.recordShape) := by
  unfold Plan.outputs at h
  cases hprojection : p.projection with
  | none =>
    simp only [hprojection] at h
    obtain ⟨own, hown, hmore⟩ := ok_of_bind h
    obtain ⟨joined, hjoined, hlast⟩ := ok_of_bind hmore
    obtain ⟨computed, hcomputed, hpure⟩ := ok_of_bind hlast
    obtain ⟨rfl, rfl⟩ := Prod.mk.inj (Except.ok.inj hpure)
    refine .inr ⟨fun names hmaps => ?_, own, joined, computed, ?_, hjoined, ?_, rfl, ?_⟩
    · rw [Maps, hprojection] at hmaps
      cases hmaps
    · rw [shownFields, hprojection, List.mapM_map]
      exact hown
    · rw [shownAliases, hprojection, List.mapM_map]
      exact hcomputed
    · rw [recordShape, hprojection]
  | some projection =>
    obtain ⟨kind, names⟩ := projection
    cases kind with
    | mapping =>
      simp only [hprojection] at h
      obtain ⟨named, hnamed, hpure⟩ := ok_of_bind h
      obtain ⟨rfl, rfl⟩ := Prod.mk.inj (Except.ok.inj hpure)
      exact .inl ⟨names, hprojection, hnamed, rfl⟩
    | narrowed =>
      simp only [hprojection] at h
      obtain ⟨own, hown, hmore⟩ := ok_of_bind h
      obtain ⟨joined, hjoined, hlast⟩ := ok_of_bind hmore
      obtain ⟨computed, hcomputed, hpure⟩ := ok_of_bind hlast
      obtain ⟨rfl, rfl⟩ := Prod.mk.inj (Except.ok.inj hpure)
      refine .inr ⟨fun names hmaps => ?_, own, joined, computed, ?_, hjoined, ?_, rfl, ?_⟩
      · rw [Maps, hprojection] at hmaps
        cases hmaps
      · rw [shownFields, hprojection]
        exact hown
      · rw [shownAliases, hprojection]
        exact hcomputed
      · rw [recordShape, shownFields, hprojection]

/-- What is selected for anything but a scalar is what is selected for the rows. -/
theorem outputs_eq_rows (schema : Schema) (p : Plan) {purpose : Purpose} (hpurpose : purpose ≠ .scalar) :
    p.outputs schema purpose = p.outputs schema .rows := by
  cases purpose with
  | rows => rfl
  | scalar => exact absurd rfl hpurpose
  | existence | count => exact outputs_reduced schema rfl

theorem outputs_of_maps {names : List String} (hmaps : p.Maps names) {outputs : List Output}
    (hnames : names.mapM (p.namedOutput schema) = .ok outputs) :
    p.outputs schema .rows = .ok (outputs, .mapping names) := by
  rw [Maps] at hmaps
  simp only [Plan.outputs, hmaps, hnames]
  rfl

theorem outputs_of_record (hrecord : ∀ names, ¬p.Maps names) {own joined computed : List Output}
    (hown : p.shownFields.mapM (Output.ofRootField schema p.root) = .ok own)
    (hjoined : p.joinedOutputs schema = .ok joined)
    (hcomputed : p.shownAliases.mapM p.annotationOutput = .ok computed) :
    p.outputs schema .rows = .ok (own ++ joined ++ computed, p.recordShape) := by
  rw [shownFields] at hown
  rw [shownAliases] at hcomputed
  cases hprojection : p.projection with
  | none =>
    simp only [hprojection, List.mapM_map, Function.comp_def] at hown hcomputed
    simp only [Plan.outputs, recordShape, hprojection, hown, hjoined, hcomputed]
    rfl
  | some projection =>
    obtain ⟨kind, names⟩ := projection
    cases kind with
    | mapping => exact absurd hprojection (hrecord names)
    | narrowed =>
      simp only [hprojection] at hown hcomputed
      simp only [Plan.outputs, recordShape, shownFields, hprojection, hown, hjoined, hcomputed]
      rfl

/-- A narrowed record is made of fields of the root. -/
theorem narrowedFields_declared (hkeyed : p.root.KeyedByFields) {names : List String} {name : String}
    (h : name ∈ p.narrowedFields names) : ∃ f ∈ p.root.fields, f.name = name := by
  unfold narrowedFields distinctNames at h
  rw [List.mem_eraseDups, List.mem_append, List.mem_cons] at h
  rcases h with (rfl | hkey) | hnamed
  · exact hkeyed.primaryKey
  · obtain ⟨loaded, -, hloaded⟩ := List.mem_filterMap.1 hkey
    obtain ⟨relation, hrelation, rfl⟩ := Option.map_eq_some_iff.1 hloaded
    exact hkeyed.localColumn relation (Entity.mem_of_relation hrelation)
  · obtain ⟨asked, -, hasked⟩ := List.mem_filterMap.1 hnamed
    split at hasked
    · cases hasked
    · obtain ⟨f, hf, rfl⟩ := Option.map_eq_some_iff.1 hasked
      exact ⟨f, Entity.mem_of_field hf, rfl⟩

/-- Records have fields of the root. -/
theorem shownFields_declared (hkeyed : p.root.KeyedByFields) : ∀ name ∈ p.shownFields, ∃ f ∈ p.root.fields, f.name = name := by
  intro name hname
  unfold shownFields at hname
  split at hname
  · exact List.mem_map.1 hname
  · exact narrowedFields_declared hkeyed hname

theorem nodup_shownFields (hdistinct : (p.root.fields.map (·.name)).Nodup) : p.shownFields.Nodup := by
  unfold shownFields
  split
  · exact hdistinct
  · exact nodup_eraseDups _

theorem shownAliases_annotated : ∀ name ∈ p.shownAliases, ∃ a ∈ p.annotations, a.aliasName = name := by
  intro name hname
  unfold shownAliases at hname
  split at hname
  · exact List.mem_map.1 hname
  · have hsome := (List.mem_filter.1 hname).2
    rw [annotationOf, Option.isSome_map, List.find?_isSome] at hsome
    simpa using hsome

/-- What is joined are fields of the relations' targets. -/
theorem mem_joinedOutputs (h : p.joinedOutputs schema = .ok outputs) {o : Output} (ho : o ∈ outputs) :
    ∃ name ∈ p.relationsLoaded .join, ∃ relation target field ref, p.root.relation name = some relation ∧
      schema.entity relation.target = .ok target ∧ field ∈ target.fields ∧
      FieldRef.resolve schema p.root.name (name ++ "." ++ field.name) = .ok ref ∧
      o = ⟨⟨field.name, .joined name, some field.type⟩, .field ref, .loading, none⟩ := by
  obtain ⟨groups, hgroups, hpure⟩ := ok_of_bind h
  obtain rfl := Except.ok.inj hpure
  obtain ⟨group, hgroup, ho⟩ := List.mem_flatten.1 ho
  obtain ⟨name, hname, hrelated⟩ := mem_of_mapM_ok hgroups hgroup
  obtain ⟨relation, hrelation, hmore⟩ := ok_of_bind hrelated
  obtain ⟨target, htarget, hfields⟩ := ok_of_bind hmore
  obtain ⟨field, hmem, hfield⟩ := mem_of_mapM_ok hfields ho
  obtain ⟨ref, href, hpure⟩ := ok_of_bind hfield
  exact ⟨name, hname, relation, target, field, ref, orFail_eq_ok.1 hrelation, htarget, hmem, href,
    (Except.ok.inj hpure).symm⟩

/-- the output of an annotation -/
theorem annotationOutput_eq {name : String} {o : Output} (h : p.annotationOutput name = .ok o) :
    ∃ e, p.annotationOf name = some e ∧
      o = ⟨⟨name, .computed, e.fieldType⟩, .aliasRef name, .computed, some name⟩ := by
  obtain ⟨e, he, hpure⟩ := ok_of_bind h
  exact ⟨e, orFail_eq_ok.1 he, (Except.ok.inj hpure).symm⟩

/-! ## Origins -/

/-- what an output is: a field that a path leads to, or an annotation -/
inductive OutputOrigin (schema : Schema) (p : Plan) : Output → Prop where
  | path {path : String} {ref : FieldRef} {column : OutputColumn} {role : Role} {selectAlias : Option String}
    (resolved : FieldRef.resolve schema p.root.name path = .ok ref) (unconditional : role ≠ .filter) :
    OutputOrigin schema p ⟨column, .field ref, role, selectAlias⟩
  | computed {name : String} {e : Expr} (annotated : p.annotationOf name = some e) :
    OutputOrigin schema p ⟨⟨name, .computed, e.fieldType⟩, .aliasRef name, .computed, some name⟩

theorem annotationOutput_origin {name : String} {o : Output} (h : p.annotationOutput name = .ok o) :
    p.OutputOrigin schema o := by
  obtain ⟨e, he, rfl⟩ := annotationOutput_eq h
  exact .computed he

theorem namedOutput_origin {name : String} {o : Output} (h : p.namedOutput schema name = .ok o) :
    p.OutputOrigin schema o := by
  unfold namedOutput at h
  split at h
  · exact annotationOutput_origin h
  · obtain ⟨ref, href, hpure⟩ := ok_of_bind h
    obtain rfl := Except.ok.inj hpure
    exact .path href nofun

theorem RecordOutputs.origin {kept : List String} (h : p.RecordOutputs schema kept outputs) :
    ∀ o ∈ outputs, p.OutputOrigin schema o := by
  intro o ho
  obtain ⟨hfields, hjoined, hannotations⟩ := h
  rcases List.mem_append.1 ho with ho | ho
  · rcases List.mem_append.1 ho with ho | ho
    · obtain ⟨name, -, hname⟩ := mem_of_mapM_ok hfields ho
      obtain ⟨ref, href, hpure⟩ := ok_of_bind hname
      obtain rfl := Except.ok.inj hpure
      exact .path href nofun
    · obtain ⟨name, -, relation, target, field, ref, -, -, -, href, rfl⟩ := mem_joinedOutputs hjoined ho
      exact .path href nofun
  · obtain ⟨name, -, hname⟩ := mem_of_mapM_ok hannotations ho
    exact annotationOutput_origin hname

/-- Whatever a statement is for, it selects fields that paths lead to and annotations. -/
theorem outputs_origin {purpose : Purpose} (h : p.outputs schema purpose = .ok (outputs, shape)) :
    ∀ o ∈ outputs, p.OutputOrigin schema o := by
  rcases outputs_cases h with ⟨names, hnamed, -⟩ | ⟨hrecord, -⟩ | ⟨names, hrecord, -⟩
  · intro o ho
    obtain ⟨name, -, hname⟩ := mem_of_mapM_ok hnamed ho
    exact namedOutput_origin hname
  · exact hrecord.origin
  · exact hrecord.origin

end Plan

end RelQuery
