/-
The columns of derived tables.

A query that becomes a derived table is asked for its columns by name: the alias of each, or else the name of the column
that it is. Some databases refuse a derived table with two columns of one name, which the same query may well have when
it stands by itself. Its names come from the fields of the root, from those of joined relations, and from the annotations
and paths that have aliases (`Plan.columnNames`).
- `Compilation.columnNames_query`: the names of the columns that a plan's rows are selected by.
- `derived_columns`: those of every derived table in every statement, and when no two of them are the same.
-/
import RelQuery.Proofs.Statement.Origins
import RelQuery.Proofs.Statement.Outputs

namespace RelQuery

open Sql (Query)

/-- the names of a query's columns where it is a derived table -/
def Sql.Query.columnNames (q : Query) : List (Option String) := q.select.map (·.columnName)

/-- the names of the columns of a plan's rows, by where they come from -/
structure ColumnNames where
  /-- from fields of the root -/
  own : List String
  /-- from fields of joined relations -/
  joined : List String
  /-- from annotations, and from whatever a mapping projects -/
  named : List String
deriving DecidableEq

namespace ColumnNames

/-- all of them, in order -/
def all (names : ColumnNames) : List String := names.own ++ names.joined ++ names.named

/-- No name is given twice, neither by one of the three nor by two of them. -/
structure Apart (names : ColumnNames) : Prop where
  own : names.own.Nodup
  joined : names.joined.Nodup
  named : names.named.Nodup
  own_joined : names.own.Disjoint names.joined
  own_named : names.own.Disjoint names.named
  joined_named : names.joined.Disjoint names.named

theorem nodup_all {names : ColumnNames} : names.all.Nodup ↔ names.Apart := by
  rw [all, List.nodup_append', List.nodup_append', List.disjoint_append_left]
  constructor
  · rintro ⟨⟨hown, hjoined, howns⟩, hnamed, hownNamed, hjoinedNamed⟩
    exact ⟨hown, hjoined, hnamed, howns, hownNamed, hjoinedNamed⟩
  · intro h
    exact ⟨⟨h.own, h.joined, h.own_joined⟩, h.named, h.own_named, h.joined_named⟩

end ColumnNames

/-- the columns that paths from an entity lead to -/
def columnsAt (schema : Schema) (root : Entity) (paths : List String) : List String :=
  paths.filterMap fun path => (FieldRef.resolve schema root.name path).toOption.map (·.column)

/-- the paths to the fields of a relation -/
def relatedPaths (schema : Schema) (root : Entity) (name : String) : List String :=
  match (root.relation name).bind fun relation => schema.entity? relation.target with
  | none => []
  | some target => target.fields.map fun f => name ++ "." ++ f.name

/-- the name that an output is selected under -/
def Output.name (o : Output) : String :=
  o.selectAlias.getD <| match o.term with
    | .field ref => ref.column
    | .aliasRef aliasName => aliasName

namespace Plan

/-- the names of the columns of a plan's rows -/
def columnNames (schema : Schema) (p : Plan) : ColumnNames :=
  match p.projection with
  | some ⟨.mapping, names⟩ => ⟨[], [], names⟩
  | _ => ⟨columnsAt schema p.root p.shownFields,
      columnsAt schema p.root ((p.relationsLoaded .join).flatMap (relatedPaths schema p.root)), p.shownAliases⟩

variable {schema : Schema} {p : Plan} {outputs : List Output}

/-! ## Outputs -/

/-- Fields that are found by paths have the columns that these lead to. -/
theorem names_at {root : Entity} {os : List Output} {paths : List String}
    (h : List.Forall₂ (fun path (o : Output) => ∃ ref, FieldRef.resolve schema root.name path = .ok ref ∧
      o.term = .field ref ∧ o.selectAlias = none) paths os) :
    os.map Output.name = columnsAt schema root paths := by
  induction h with
  | nil => rfl
  | cons hfirst _ ih =>
    obtain ⟨ref, href, hterm, halias⟩ := hfirst
    rw [List.map_cons, ih, columnsAt, columnsAt, List.filterMap_cons, href]
    simp [Output.name, hterm, halias, Except.toOption]

theorem names_own {names : List String} (h : names.mapM (Output.ofRootField schema p.root) = .ok outputs) :
    outputs.map Output.name = columnsAt schema p.root names := by
  refine names_at ((forall₂_of_mapM_ok h).imp fun name o ho => ?_)
  obtain ⟨ref, href, hpure⟩ := ok_of_bind ho
  obtain rfl := Except.ok.inj hpure
  exact ⟨ref, href, rfl, rfl⟩

theorem names_joinedRelation {name : String} {os : List Output}
    (h : Output.ofJoinedRelation schema p.root name = .ok os) :
    os.map Output.name = columnsAt schema p.root (relatedPaths schema p.root name) := by
  obtain ⟨relation, hrelation, hmore⟩ := ok_of_bind h
  obtain ⟨target, htarget, hfields⟩ := ok_of_bind hmore
  have hpaths : relatedPaths schema p.root name = target.fields.map fun f => name ++ "." ++ f.name := by
    simp [relatedPaths, orFail_eq_ok.1 hrelation, Schema.entity_eq_ok.1 htarget]
  rw [hpaths]
  refine names_at (List.forall₂_map_left_iff.2 ((forall₂_of_mapM_ok hfields).imp fun f o ho => ?_))
  obtain ⟨ref, href, hpure⟩ := ok_of_bind ho
  obtain rfl := Except.ok.inj hpure
  exact ⟨ref, href, rfl, rfl⟩

theorem names_joined (h : p.joinedOutputs schema = .ok outputs) : outputs.map Output.name =
    columnsAt schema p.root ((p.relationsLoaded .join).flatMap (relatedPaths schema p.root)) := by
  obtain ⟨groups, hgroups, hpure⟩ := ok_of_bind h
  obtain rfl := Except.ok.inj hpure
  have heach := forall₂_of_mapM_ok hgroups
  clear h hpure hgroups
  generalize p.relationsLoaded .join = names at heach
  induction heach with
  | nil => rfl
  | cons hfirst _ ih =>
    rw [List.flatten_cons, List.map_append, List.flatMap_cons, names_joinedRelation hfirst, ih]
    exact List.filterMap_append.symm

theorem annotationOutput_name {aliasName : String} {o : Output} (h : p.annotationOutput aliasName = .ok o) :
    o.selectAlias = some aliasName := by
  obtain ⟨e, -, rfl⟩ := annotationOutput_eq h
  rfl

/-- A projected name is that of its column. -/
theorem namedOutput_name {name : String} {o : Output} (h : p.namedOutput schema name = .ok o) :
    o.selectAlias = some name := by
  unfold namedOutput at h
  split at h
  · exact annotationOutput_name h
  · obtain ⟨ref, -, hpure⟩ := ok_of_bind h
    obtain rfl := Except.ok.inj hpure
    rfl

/-- Outputs with aliases have these for their names. -/
theorem names_aliased {output : String → Except QueryError Output}
    (halias : ∀ name o, output name = .ok o → o.selectAlias = some name) {names : List String}
    (h : names.mapM output = .ok outputs) : outputs.map Output.name = names := by
  refine (map_eq_map_iff_forall₂.2 ?_).trans names.map_id
  refine (forall₂_of_mapM_ok h).flip.imp fun o name ho => ?_
  rw [Output.name, halias name o ho]
  rfl

/-- The outputs of a plan's rows have the names that the plan gives them. -/
theorem outputs_names {shape : ResultShape} (h : p.outputs schema .rows = .ok (outputs, shape)) :
    outputs.map Output.name = (p.columnNames schema).all := by
  obtain ⟨names, hmaps, hnamed, -⟩ | ⟨hrecords, own, joined, computed, hown, hjoined, hcomputed, rfl, -⟩ := outputs_rows h
  · rw [names_aliased (fun _ _ => namedOutput_name) hnamed, columnNames, hmaps]
    rfl
  · have hnames : p.columnNames schema = ⟨columnsAt schema p.root p.shownFields,
        columnsAt schema p.root ((p.relationsLoaded .join).flatMap (relatedPaths schema p.root)), p.shownAliases⟩ := by
      unfold columnNames
      split
      · next names hmaps => exact absurd hmaps (hrecords names)
      · rfl
    rw [List.map_append, List.map_append, names_own hown, names_joined hjoined,
      names_aliased (fun _ _ => annotationOutput_name) hcomputed, hnames, ColumnNames.all]

/-- An output without an alias is a field. -/
theorem outputs_unnamed {shape : ResultShape} (h : p.outputs schema .rows = .ok (outputs, shape)) :
    ∀ o ∈ outputs, o.selectAlias = none → ∃ ref, o.term = .field ref := by
  intro o ho halias
  cases outputs_origin h o ho with
  | path => exact ⟨_, rfl⟩
  | computed => cases halias

/-! ## Queries -/

/-- What an output is compiled to has its name. -/
theorem selected_name {scope : Scope} {o : Output} {x : Sql.Expr}
    (hfield : o.selectAlias = none → ∃ ref, o.term = .field ref)
    (hlower : ∃ s s', o.term.expr.lower scope (p.fragments.expansion scope) o.role s = .ok (x, s')) :
    (⟨x, o.selectAlias⟩ : Sql.SelectItem).columnName = some o.name := by
  obtain ⟨s, s', hlower⟩ := hlower
  cases halias : o.selectAlias with
  | some aliasName => rw [Output.name, halias]; rfl
  | none =>
    obtain ⟨ref, hterm⟩ := hfield halias
    rw [hterm] at hlower
    obtain ⟨-, ⟨-, rfl, -⟩ | ⟨-, name, -, rfl⟩⟩ := Scope.column_cases hlower
    · rw [Output.name, halias, hterm]; rfl
    · rw [Output.name, halias, hterm]; rfl

/-- The rows of a plan are selected under the names that the plan gives them. -/
theorem Compilation.columnNames_query (c : p.Compilation schema) (hrows : c.purpose = .rows) :
    c.query.columnNames = (p.columnNames schema).all.map some := by
  have houtputs : p.outputs schema .rows = .ok (c.outputs, c.shape) := hrows ▸ c.outputs_eq
  obtain ⟨s₁, s₂, hresults, -, -⟩ :=
    lowerAll_parts c.lower (by simp [c.results_length]) (by simp [c.conditions_length])
  have heach := List.forall₂_map_left_iff.1 (Lowering.forall₂_of_mapM_ok hresults)
  calc c.query.columnNames
      = (c.outputs.zip c.results).map fun item => Sql.SelectItem.columnName ⟨item.2, item.1.selectAlias⟩ := by
        rw [Sql.Query.columnNames, query, Plan.query, List.map_map]
        rfl
    _ = (c.outputs.zip c.results).map ((fun o => some o.name) ∘ Prod.fst) := List.map_congr_left fun item hitem =>
        selected_name (outputs_unnamed houtputs item.1 (List.of_mem_zip hitem).1)
          ((List.forall₂_iff_zip.1 heach).2 hitem)
    _ = c.outputs.map fun o => some o.name := by rw [← List.map_map, List.map_fst_zip c.results_length.ge]
    _ = (p.columnNames schema).all.map some := by rw [← outputs_names houtputs, List.map_map]; rfl

/-- The derived table of a query has the columns that the plan names. -/
theorem Yields.columnNames {q : Query} (h : p.Yields schema q) {inner : Query} {name : String}
    (hsource : q.source = some (.derived inner name)) : inner.columnNames = (p.columnNames schema).all.map some := by
  induction h with
  | own c => cases hsource
  | derived c hrows hwrapped =>
    rw [c.counted_part.source, c.source_eq] at hsource
    cases hsource
  | reduced c hreduced hwrapped =>
    rw [(c.reduced_part (leaves_of_reduced hreduced)).source, c.source_eq] at hsource
    cases hsource
  | around c tableName hrows hreduced hwrapped =>
    obtain ⟨rfl, -⟩ := Sql.Source.derived.inj (Option.some.inj hsource)
    have hselect : c.counted.select = c.query.select := by
      unfold Compilation.counted
      split <;> rfl
    rw [Query.columnNames, hselect]
    exact c.columnNames_query hrows
  | limited n _ ih => exact ih hsource

/-- **The columns of derived tables.** In every statement of every plan and at any depth, the columns of a derived table
have the names that its plan gives to the columns of its rows, and no two of them have the same name exactly when these
names are apart: none is given twice to fields of the root, to fields of joined relations or to annotations and projected
paths, and none is given by two of the three. -/
theorem derived_columns (schema : Schema) (d : Sql.Dialect) (p : Plan) (assignments : List (String × Expr)) :
    p.EveryStatement schema d assignments fun part q => ∀ inner name, q.source = some (.derived inner name) →
      inner.columnNames = (part.columnNames schema).all.map some ∧
        (inner.columnNames.Nodup ↔ (part.columnNames schema).Apart) :=
  everyStatement (fun part q hyields inner name hsource => by
    have hnames := hyields.columnNames hsource
    refine ⟨hnames, ?_⟩
    rw [hnames, List.nodup_map_iff (Option.some_injective _), ColumnNames.nodup_all]) d p assignments

/-! ## Which plans keep their names apart -/

/-- the names of the fields of all joined relations -/
def joinedFields (schema : Schema) (p : Plan) : List String :=
  (p.relationsLoaded .join).flatMap fun name =>
    match (p.root.relation name).bind fun relation => schema.entity? relation.target with
    | none => []
    | some target => target.fields.map (·.name)

section Keyed

variable (hkeyed : schema.Keyed) (hroot : schema.entity p.root.name = .ok p.root)

include hkeyed hroot

theorem columnsAt_fields {names : List String} (hnames : ∀ name ∈ names, ∃ f ∈ p.root.fields, f.name = name) :
    columnsAt schema p.root names = names := by
  induction names with
  | nil => rfl
  | cons name rest ih =>
    rw [List.forall_mem_cons] at hnames
    obtain ⟨⟨f, hf, rfl⟩, hrest⟩ := hnames
    obtain ⟨found, hfound, hname⟩ := hkeyed.field_found (Schema.mem_of_entity hroot) hf
    rw [columnsAt, List.filterMap_cons, hkeyed.resolve_field hroot hfound]
    exact congrArg₂ List.cons hname (ih hrest)

theorem columnsAt_related {name : String} {relation : Relation} {target : Entity}
    (hrelation : p.root.relation name = some relation) (htarget : schema.entity relation.target = .ok target)
    {fields : List Field} (hfields : ∀ f ∈ fields, f ∈ target.fields) :
    columnsAt schema p.root (fields.map fun f => name ++ "." ++ f.name) = fields.map (·.name) := by
  induction fields with
  | nil => rfl
  | cons f rest ih =>
    rw [List.forall_mem_cons] at hfields
    obtain ⟨found, -, hname, href⟩ := hkeyed.resolve_related hroot hrelation htarget hfields.1
    rw [List.map_cons, columnsAt, List.filterMap_cons, href]
    exact congrArg₂ List.cons hname (ih hfields.2)

/-- In a keyed schema the columns are those of the fields that records have. -/
theorem columnNames_eq (hrecords : ∀ names, ¬p.Maps names) :
    p.columnNames schema = ⟨p.shownFields, p.joinedFields schema, p.shownAliases⟩ := by
  have hjoined : columnsAt schema p.root ((p.relationsLoaded .join).flatMap (relatedPaths schema p.root)) =
      p.joinedFields schema := by
    rw [joinedFields, columnsAt, List.filterMap_flatMap]
    refine List.flatMap_congr fun name _ => ?_
    cases hrelation : p.root.relation name with
    | none => simp [relatedPaths, hrelation]
    | some relation =>
      cases htarget : schema.entity? relation.target with
      | none => simp [relatedPaths, hrelation, htarget]
      | some target =>
        simp only [relatedPaths, hrelation, htarget, Option.bind_some]
        exact columnsAt_related hkeyed hroot hrelation (Schema.entity_eq_ok.2 htarget) fun _ hf => hf
  have hown : columnsAt schema p.root p.shownFields = p.shownFields :=
    columnsAt_fields hkeyed hroot (shownFields_declared (hkeyed.keyedByFields (Schema.mem_of_entity hroot)))
  unfold columnNames
  split
  · next names hmaps => exact absurd hmaps (hrecords names)
  · rw [hown, hjoined]

/-- What records have is told apart by its names unless relations are joined or an annotation is asked for twice: only
the fields of joined relations can clash with each other, with fields of the root and with annotations. -/
theorem apart_iff (hdistinct : (p.root.fields.map (·.name)).Nodup)
    (haliases : ∀ a ∈ p.annotations, p.root.declares a.aliasName = false) (hrecords : ∀ names, ¬p.Maps names) :
    (p.columnNames schema).Apart ↔ p.shownAliases.Nodup ∧ (p.joinedFields schema).Nodup ∧
      p.shownFields.Disjoint (p.joinedFields schema) ∧ (p.joinedFields schema).Disjoint p.shownAliases := by
  have hroots : p.shownFields.Disjoint p.shownAliases := by
    intro name hfield halias
    have hmem := Schema.mem_of_entity hroot
    obtain ⟨f, hf, rfl⟩ := shownFields_declared (hkeyed.keyedByFields hmem) name hfield
    obtain ⟨a, ha, hname⟩ := shownAliases_annotated f.name halias
    obtain ⟨found, hfound, -⟩ := hkeyed.field_found hmem hf
    have hfree := haliases a ha
    rw [hname] at hfree
    simp [Entity.declares, hfound] at hfree
  rw [columnNames_eq hkeyed hroot hrecords]
  constructor
  · exact fun h => ⟨h.named, h.joined, h.own_joined, h.joined_named⟩
  · exact fun ⟨hnamed, hjoined, howns, hjoins⟩ => ⟨nodup_shownFields hdistinct, hjoined, hnamed, howns, hroots, hjoins⟩

end Keyed

/-! ## Two samples -/

/-- the entries and blogs that belong together -/
def samplePairs : Plan :=
  { ofEntity sampleEntry with projection := some ⟨.mapping, ["id", "blog.id"]⟩, distinct := true }

/-- The derived table that distinct pairs are counted in has a column for each part of them. -/
theorem derived_columns_pairs : ∃ q inner name, samplePairs.countQuery sampleSchema = .ok q ∧
    q.source = some (.derived inner name) ∧ inner.columnNames = [some "id", some "blog.id"] ∧ inner.columnNames.Nodup := by
  obtain ⟨statement, hstatement⟩ : ∃ statement, samplePairs.compileCount sampleSchema .tsql = .ok statement := ⟨_, rfl⟩
  obtain ⟨q, hq, -, hthroughout⟩ := (derived_columns sampleSchema .tsql samplePairs []).count statement hstatement
  obtain ⟨inner, name, hsource⟩ : ∃ inner name, q.source = some (.derived inner name) := by
    have hsources : (samplePairs.countQuery sampleSchema).map (·.source) = .ok (some (.derived _ _)) := rfl
    rw [hq] at hsources
    exact ⟨_, _, Except.ok.inj hsources⟩
  obtain ⟨hnames, hdistinct⟩ := hthroughout.own inner name hsource
  refine ⟨q, inner, name, hq, hsource, hnames, hdistinct.2 ?_⟩
  rw [← ColumnNames.nodup_all]
  decide

/-- the first two entries, each with its blog -/
def sampleJoined : Plan :=
  { ofEntity sampleEntry with loadings := ⟨[("blog", .join)]⟩, limit := some 2 }

/-- Entries with their blogs are counted in a derived table that has two columns `id`. -/
theorem derived_columns_joined : ∃ statement q inner name, sampleJoined.compileCount sampleSchema .mysql = .ok statement ∧
    sampleJoined.countQuery sampleSchema = .ok q ∧ statement = .ofTokens .mysql (q.tokens .mysql) [countColumn] ∧
    q.source = some (.derived inner name) ∧
    inner.columnNames = [some "id", some "blog_id", some "id", some "rating"] ∧ ¬inner.columnNames.Nodup ∧
    statement.sql = "SELECT COUNT(*)\nFROM (SELECT `t0`.`id`, `t0`.`blog_id`, `t1`.`id`, `t1`.`rating`\n" ++
      "FROM `entries` AS `t0`\nLEFT OUTER JOIN `blogs` AS `t1` ON `t0`.`blog_id` = `t1`.`id`\nLIMIT 2) AS `t2`" := by
  refine ⟨_, _, _, _, rfl, rfl, rfl, rfl, rfl, ?_, ?_⟩
  · exact (by decide : ¬[some "id", some "blog_id", some "id", some "rating"].Nodup)
  · decide +kernel

end Plan

end RelQuery
