/-
The columns of records.

A statement whose rows are presented as records selects fields of the root, fields of joined relations and annotations.
In a plain schema each field of the root is selected once at most, under its own name.
- `outputs_record`: the columns, and the entity that the records are of.
-/
import RelQuery.Proofs.Fetch.Keyed
import RelQuery.Proofs.Statement.Outputs
import RelQuery.Proofs.Statement.Related

namespace RelQuery

/-- the records that a shape presents rows as are of this entity -/
def ResultShape.IsOf (shape : ResultShape) (entity : String) : Prop :=
  shape = .record entity ∨ ∃ fields, shape = .narrowedRecord entity fields

/-- the column of a field -/
def Field.column (f : Field) : OutputColumn := ⟨f.name, .root, some f.type⟩

namespace Plan

/-- what a column of a record can be -/
inductive RecordColumn (schema : Schema) (p : Plan) : OutputColumn → Prop where
  | field {f : Field} : f ∈ p.root.fields → RecordColumn schema p f.column
  | joined {key name : String} {type : Option ScalarType} {relation : Relation} {target : Entity} :
    p.root.relation name = some relation → schema.entity relation.target = .ok target →
      RecordColumn schema p ⟨key, .joined name, type⟩
  | computed {aliasName : String} {type : Option ScalarType} {e : Expr} :
    p.annotationOf aliasName = some e → RecordColumn schema p ⟨aliasName, .computed, type⟩

/-- the columns of records, those of the root's fields under different names -/
structure RecordColumns (schema : Schema) (p : Plan) (columns : List OutputColumn) : Prop where
  each : ∀ c ∈ columns, p.RecordColumn schema c
  distinct : columns.Pairwise fun a b => a.source = .root → b.source = .root → a.key ≠ b.key

variable {schema : Schema} {p : Plan}

theorem annotationOutput_column {aliasName : String} {o : Output} (h : p.annotationOutput aliasName = .ok o) :
    p.RecordColumn schema o.column ∧ o.column.source ≠ .root := by
  obtain ⟨e, he, rfl⟩ := annotationOutput_eq h
  exact ⟨.computed he, nofun⟩

theorem joinedOutputs_column {outputs : List Output} (h : p.joinedOutputs schema = .ok outputs) {o : Output}
    (ho : o ∈ outputs) : p.RecordColumn schema o.column ∧ o.column.source ≠ .root := by
  obtain ⟨name, -, relation, target, field, ref, hrelation, htarget, -, -, rfl⟩ := mem_joinedOutputs h ho
  exact ⟨.joined hrelation htarget, nofun⟩

section Fields

variable (hplain : schema.Plain) (hroot : schema.entity p.root.name = .ok p.root)

include hplain hroot

/-- Names of fields are compiled to the columns of these fields. -/
theorem ofRootFields_eq (fields : List Field) (hfields : ∀ f ∈ fields, f ∈ p.root.fields) :
    (fields.map (·.name)).mapM (Output.ofRootField schema p.root) = .ok (fields.map p.root.output) := by
  rw [List.mapM_map]
  exact mapM_ok_of_forall fun f hf => ofRootField_eq (hplain.namesFields hroot) (hfields f hf)

/-- the columns of a record's outputs -/
theorem RecordOutputs.recordColumns {fields : List Field} (hfields : ∀ f ∈ fields, f ∈ p.root.fields)
    (hdistinct : (fields.map (·.name)).Nodup) {outputs : List Output}
    (h : p.RecordOutputs schema (fields.map (·.name)) outputs) : p.RecordColumns schema (outputs.map (·.column)) := by
  obtain @⟨_, own, joined, annotations, hown, hjoined, hannotations⟩ := h
  rw [ofRootFields_eq hplain hroot fields hfields] at hown
  obtain rfl := Except.ok.inj hown
  have hothers : ∀ o ∈ joined ++ annotations, p.RecordColumn schema o.column ∧ o.column.source ≠ .root := by
    intro o ho
    rcases List.mem_append.1 ho with ho | ho
    · exact joinedOutputs_column hjoined ho
    · obtain ⟨name, -, hname⟩ := mem_of_mapM_ok hannotations ho
      exact annotationOutput_column hname
  rw [List.append_assoc, List.map_append]
  constructor
  · intro c hc
    rcases List.mem_append.1 hc with hc | hc
    · rw [List.map_map] at hc
      obtain ⟨f, hf, rfl⟩ := List.mem_map.1 hc
      exact .field (hfields f hf)
    · obtain ⟨o, ho, rfl⟩ := List.mem_map.1 hc
      exact (hothers o ho).1
  · have hnotRoot : ∀ c ∈ (joined ++ annotations).map (·.column), c.source ≠ .root := by
      intro c hc
      obtain ⟨o, ho, rfl⟩ := List.mem_map.1 hc
      exact (hothers o ho).2
    rw [List.pairwise_append]
    refine ⟨?_, ?_, fun a _ b hb _ hrootb => absurd hrootb (hnotRoot b hb)⟩
    · rw [List.map_map, List.pairwise_map]
      exact (List.pairwise_map.1 hdistinct).imp fun hne _ _ => hne
    · exact List.pairwise_of_forall_mem_list fun a ha b _ hroota => absurd hroota (hnotRoot a ha)

/-- A narrowed record is made of fields of the root. -/
theorem narrowedFields_eq (names : List String) :
    ∃ fields : List Field, (∀ f ∈ fields, f ∈ p.root.fields) ∧ fields.map (·.name) = p.narrowedFields names := by
  have hfield : ∀ name ∈ p.narrowedFields names, ∃ f ∈ p.root.fields, f.name = name := fun name =>
    narrowedFields_declared (hplain.keyedByFields (Schema.mem_of_entity hroot))
  generalize p.narrowedFields names = kept at hfield
  induction kept with
  | nil => exact ⟨[], nofun, rfl⟩
  | cons name rest ih =>
    rw [List.forall_mem_cons] at hfield
    obtain ⟨⟨f, hf, rfl⟩, hrest⟩ := hfield
    obtain ⟨fields, hfields, rfl⟩ := ih hrest
    exact ⟨f :: fields, List.forall_mem_cons.2 ⟨hf, hfields⟩, rfl⟩

/-- The columns of a plan that presents its rows as records. -/
theorem outputs_record {outputs : List Output} {shape : ResultShape}
    (h : p.outputs schema .rows = .ok (outputs, shape)) (hshape : shape.isMapping = false) :
    p.RecordColumns schema (outputs.map (·.column)) ∧ shape.IsOf p.root.name := by
  have hrootMem := Schema.mem_of_entity hroot
  rcases outputs_cases h with ⟨names, -, rfl⟩ | ⟨hrecord, rfl⟩ | ⟨names, hrecord, rfl⟩
  · cases hshape
  · exact ⟨hrecord.recordColumns hplain hroot (fun _ hf => hf) (hplain.nodup_fields hrootMem), .inl rfl⟩
  · obtain ⟨fields, hfields, hnames⟩ := narrowedFields_eq hplain hroot names
    have hdistinct : (fields.map (·.name)).Nodup := hnames ▸ nodup_eraseDups _
    rw [← hnames] at hrecord
    exact ⟨hrecord.recordColumns hplain hroot hfields hdistinct, .inr ⟨_, rfl⟩⟩

end Fields

end Plan

end RelQuery
