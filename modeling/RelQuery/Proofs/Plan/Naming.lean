/-
What annotating does to names.

A name stands for an annotation or else for a path from the root, and `Plan.annotate` refuses the names of annotations
and of what the root itself declares. Every other name keeps its meaning and its output (`Annotated`). A path through
relations is not among the names refused: an alias that reads like one takes its place (`Shadows`), where it was looked
up before and where it is projected.
- `Made.projected`: what the names of a projection stand for.
- `Annotated.outputsKept`: the outputs of a plan are the first outputs of the annotated one.
- `annotate_keeps_names_iff`: names keep their meaning unless the alias is a path through relations.
-/
import RelQuery.Proofs.Statement.MoreAliases
import RelQuery.Proofs.Statement.Refusals

namespace RelQuery

/-- how rows are presented when a name is projected besides -/
def ResultShape.adding (aliasName : String) : ResultShape → ResultShape
  | .mapping keys => .mapping (keys ++ [aliasName])
  | shape => shape

namespace Plan

/-- the output of an annotation -/
def computedOutput (aliasName : String) (e : Expr) : Output :=
  ⟨⟨aliasName, .computed, e.fieldType⟩, .aliasRef aliasName, .computed, some aliasName⟩

/-- the names that a plan projects -/
def projectedNames (p : Plan) : List String := (p.projection.map (·.names)).getD []

variable {schema : Schema} {p next : Plan} {a x : String} {e : Expr}

/-! ## One more annotation -/

/-- A name is refused as a duplicate, or free. -/
theorem annotate_cases (p : Plan) (a : String) (e : Expr) :
    (∃ next, p.annotate a e = .ok next) ∨ p.annotate a e = .error (.duplicateAlias a) := by
  unfold annotate
  split
  · exact .inr rfl
  · exact .inl ⟨_, rfl⟩

namespace Annotated

variable (h : p.Annotated a e next)

include h

theorem root : next.root = p.root := by rw [h.made]

theorem annotations : next.annotations = p.annotations ++ [⟨a, e⟩] := by rw [h.made]

theorem annotationOf_self : next.annotationOf a = some e := by
  have hnone : p.annotations.find? (·.aliasName = a) = none := by
    refine List.find?_eq_none.2 fun note hnote => ?_
    simpa using fun heq : note.aliasName = a => h.unused (heq ▸ List.mem_map_of_mem hnote)
  rw [annotationOf, h.annotations, List.find?_append, hnone]
  simp

theorem annotationOf_of_ne (hx : x ≠ a) : next.annotationOf x = p.annotationOf x := by
  rw [annotationOf, annotationOf, h.annotations, List.find?_append]
  simp [Ne.symm hx]

theorem annotationOutput_of_ne (hx : x ≠ a) : next.annotationOutput x = p.annotationOutput x := by
  rw [annotationOutput, annotationOutput, h.annotationOf_of_ne hx, h.root]

theorem annotationOutput_self : next.annotationOutput a = .ok (computedOutput a e) := by
  rw [annotationOutput, h.annotationOf_self]
  rfl

theorem named_of_ne (hx : x ≠ a) : next.named schema x = p.named schema x := by
  rw [named, named, h.annotationOf_of_ne hx, h.root]

theorem named_self : next.named schema a = .ok (.aliasRef a) := if_pos (by simp [h.annotationOf_self])

theorem namedOutput_of_ne (hx : x ≠ a) : next.namedOutput schema x = p.namedOutput schema x := by
  rw [namedOutput, namedOutput, h.annotationOf_of_ne hx, h.annotationOutput_of_ne hx, h.root]

theorem namedOutput_self : next.namedOutput schema a = .ok (computedOutput a e) := by
  rw [namedOutput, if_pos (by simp [h.annotationOf_self]), h.annotationOutput_self]

theorem joinedOutputs : next.joinedOutputs schema = p.joinedOutputs schema := by
  rw [h.made]
  rfl

theorem mapM_annotationOutput {names : List String} {outputs : List Output} (hfree : a ∉ names)
    (hnames : names.mapM p.annotationOutput = .ok outputs) :
    (names ++ [a]).mapM next.annotationOutput = .ok (outputs ++ [computedOutput a e]) :=
  mapM_snoc ((mapM_congr fun _ hx => h.annotationOutput_of_ne (ne_of_mem_of_not_mem hx hfree)).trans hnames)
    h.annotationOutput_self

theorem mapM_namedOutput {names : List String} {outputs : List Output} (hfree : a ∉ names)
    (hnames : names.mapM (p.namedOutput schema) = .ok outputs) :
    (names ++ [a]).mapM (next.namedOutput schema) = .ok (outputs ++ [computedOutput a e]) :=
  mapM_snoc ((mapM_congr fun _ hx => h.namedOutput_of_ne (ne_of_mem_of_not_mem hx hfree)).trans hnames)
    h.namedOutput_self

theorem projection : next.projection = p.projection.map (Projection.adding a) := by rw [h.made]

/-- Records have the fields they had. -/
theorem shownFields (hfree : a ∉ p.projectedNames) : next.shownFields = p.shownFields := by
  rw [Plan.shownFields, Plan.shownFields, h.projection, h.root]
  rw [projectedNames] at hfree
  cases hprojection : p.projection with
  | none => rfl
  | some projection =>
    rw [hprojection] at hfree
    have hfree : a ∉ projection.names := hfree
    have hnamed : ((projection.names ++ [a]).filterMap fun name =>
        if (next.annotationOf name).isSome then none else (next.root.field name).map (·.name)) =
        projection.names.filterMap fun name =>
          if (p.annotationOf name).isSome then none else (p.root.field name).map (·.name) := by
      have hlast : [a].filterMap (fun name =>
          if (next.annotationOf name).isSome then none else (next.root.field name).map (·.name)) = [] := by
        simp [h.annotationOf_self]
      rw [List.filterMap_append, hlast, List.append_nil, h.root]
      exact List.filterMap_congr fun x hx => by rw [h.annotationOf_of_ne (ne_of_mem_of_not_mem hx hfree)]
    have hloadings : next.loadings = p.loadings := by rw [h.made]
    change next.narrowedFields (projection.names ++ [a]) = p.narrowedFields projection.names
    rw [narrowedFields, narrowedFields, hnamed, h.root, hloadings]

/-- Records have one annotation more. -/
theorem shownAliases (hfree : a ∉ p.projectedNames) : next.shownAliases = p.shownAliases ++ [a] := by
  rw [Plan.shownAliases, Plan.shownAliases, h.projection, h.annotations]
  rw [projectedNames] at hfree
  cases hprojection : p.projection with
  | none => exact List.map_append
  | some projection =>
    rw [hprojection] at hfree
    have hfree : a ∉ projection.names := hfree
    have hlast : [a].filter (fun name => (next.annotationOf name).isSome) = [a] := by simp [h.annotationOf_self]
    change (projection.names ++ [a]).filter _ = projection.names.filter _ ++ [a]
    rw [List.filter_append, hlast]
    congr 1
    exact List.filter_congr fun x hx => by rw [h.annotationOf_of_ne (ne_of_mem_of_not_mem hx hfree)]

theorem maps {names : List String} (hmaps : p.Maps names) : next.Maps (names ++ [a]) := by
  rw [Maps, h.projection, hmaps]
  rfl

theorem not_maps (hrecord : ∀ names, ¬p.Maps names) (names : List String) : ¬next.Maps names := by
  rw [Maps, h.projection]
  intro hmaps
  obtain ⟨⟨kind, old⟩, hold, hnew⟩ := Option.map_eq_some_iff.1 hmaps
  obtain ⟨rfl, -⟩ := Projection.mk.inj hnew
  exact hrecord old hold

end Annotated

/-! ## Outputs -/

/-- A projected name is the key of its column. -/
theorem namedOutput_key {o : Output} (h : p.namedOutput schema x = .ok o) : o.column.key = x := by
  unfold namedOutput at h
  split at h
  · obtain ⟨e, -, rfl⟩ := annotationOutput_eq h
    rfl
  · obtain ⟨ref, -, hpure⟩ := ok_of_bind h
    exact (Except.ok.inj hpure) ▸ rfl

namespace Annotated

variable (h : p.Annotated a e next)

include h

/-- The outputs of the annotated plan are those of the plan and then the annotation. -/
theorem outputs (hfree : a ∉ p.projectedNames) {purpose : Purpose} (hpurpose : purpose ≠ .scalar)
    {outputs : List Output} {shape : ResultShape} (houtputs : p.outputs schema purpose = .ok (outputs, shape)) :
    next.outputs schema purpose = .ok (outputs ++ [computedOutput a e], shape.adding a) := by
  rw [outputs_eq_rows schema _ hpurpose] at houtputs ⊢
  rcases outputs_rows houtputs with ⟨names, hmaps, hnames, rfl⟩ |
    ⟨hrecord, own, joined, computed, hown, hjoined, hcomputed, rfl, rfl⟩
  · have hfree : a ∉ names := by
      rw [projectedNames, hmaps] at hfree
      exact hfree
    exact outputs_of_maps (h.maps hmaps) (h.mapM_namedOutput hfree hnames)
  · have hunshown : a ∉ p.shownAliases := fun hmem => by
      obtain ⟨note, hnote, rfl⟩ := shownAliases_annotated a hmem
      exact h.unused (List.mem_map_of_mem hnote)
    have hshape : next.recordShape = p.recordShape.adding a := by
      rw [recordShape, recordShape, h.shownFields hfree, h.root, h.projection]
      cases p.projection <;> rfl
    rw [← h.shownFields hfree, ← h.root] at hown
    rw [← h.joinedOutputs] at hjoined
    have hcomputed := h.mapM_annotationOutput hunshown hcomputed
    rw [← h.shownAliases hfree] at hcomputed
    rw [outputs_of_record (h.not_maps hrecord) hown hjoined hcomputed, hshape, List.append_assoc _ computed]

/-- A projected path that an annotation takes the place of is shown as the annotation. -/
theorem outputs_replaced {names : List String} (hmaps : p.Maps names) {outputs : List Output}
    (hnames : names.mapM (p.namedOutput schema) = .ok outputs) :
    next.outputs schema .rows = .ok (outputs.map (fun o => if o.column.key = a then computedOutput a e else o) ++
      [computedOutput a e], .mapping (names ++ [a])) := by
  have hreplaced : ∀ {names : List String} {outputs : List Output}, names.mapM (p.namedOutput schema) = .ok outputs →
      names.mapM (next.namedOutput schema) =
        .ok (outputs.map fun o => if o.column.key = a then computedOutput a e else o) := by
    intro names
    induction names with
    | nil =>
      intro outputs hnames
      obtain rfl := Except.ok.inj hnames
      rfl
    | cons name rest ih =>
      intro outputs hnames
      rw [List.mapM_cons] at hnames ⊢
      obtain ⟨o, ho, hmore⟩ := ok_of_bind hnames
      obtain ⟨others, hothers, hpure⟩ := ok_of_bind hmore
      obtain rfl := Except.ok.inj hpure
      have hfirst : next.namedOutput schema name = .ok (if o.column.key = a then computedOutput a e else o) := by
        rw [namedOutput_key ho]
        split
        · next hname => rw [hname, h.namedOutput_self]
        · next hname => rw [h.namedOutput_of_ne hname, ho]
      rw [hfirst, ih hothers]
      rfl
  exact outputs_of_maps (h.maps hmaps) (mapM_snoc (hreplaced hnames) h.namedOutput_self)

/-- The statement of the annotated plan selects what that of the plan selects, and more. -/
theorem select (hfree : a ∉ p.projectedNames) {outer : Option Outer} {n m m' : Nat} {selection selection' : Selection}
    (hselect : p.select schema .rows outer n = .ok (selection, m))
    (hselect' : next.select schema .rows outer n = .ok (selection', m')) :
    selection.columns <+: selection'.columns ∧ selection.query.select <+: selection'.query.select := by
  obtain ⟨outputs, final, houtputs, hclauses, hcolumns, -⟩ := select_ok (.inl rfl) hselect
  obtain ⟨outputs', final', houtputs', hclauses', hcolumns', -⟩ := select_ok (.inl rfl) hselect'
  rw [h.outputs hfree (by decide) houtputs] at houtputs'
  obtain ⟨rfl, -⟩ := Prod.mk.inj (Except.ok.inj houtputs')
  obtain ⟨results, conditions, keys, hresults, hconditions, -, hlower, hquery⟩ := lowerClauses_ok hclauses
  obtain ⟨results', conditions', keys', hresults', hconditions', -, hlower', hquery'⟩ := lowerClauses_ok hclauses'
  obtain ⟨s₁, -, hfirst, -, -⟩ := lowerAll_parts hlower (by simp [hresults]) (by simp [hconditions])
  obtain ⟨s₁', -, hfirst', -, -⟩ := lowerAll_parts hlower' (by simp [hresults']) (by simp [hconditions'])
  rw [List.map_append] at hfirst'
  obtain ⟨xs, ys, s₂, rfl, hxs, -⟩ := lowerAll_split hfirst'
  have hsame : xs = results := by
    have hmono := lowerAll_mono (by rw [h.annotations]; exact List.prefix_append _ _) _ _ hfirst
    rw [h.root] at hxs
    exact (Prod.mk.inj (Except.ok.inj (hxs.symm.trans hmono))).1
  subst hsame
  refine ⟨by rw [hcolumns, hcolumns', List.map_append]; exact List.prefix_append _ _, ?_⟩
  rw [hquery, hquery']
  simp only [query]
  rw [List.zip_append hresults.symm, List.map_append]
  exact List.prefix_append _ _

end Annotated

/-! ## Projections -/

/-- Whether a projection gets a name from an annotation, from a field of the root or, as a mapping, from a path. -/
def Projects (schema : Schema) (p : Plan) (kind : ProjectionKind) (name : String) : Prop :=
  name ∈ p.aliasNames ∨ (kind = .narrowed ∧ ∃ f, p.root.field name = some f) ∨
    (kind = .mapping ∧ ∃ ref, FieldRef.resolve schema p.root.name name = .ok ref)

/-- Names stay projected when annotations are added. -/
theorem Projects.mono {kind : ProjectionKind} (h : p.Projects schema kind x) (hroot : next.root = p.root)
    (haliases : p.aliasNames ⊆ next.aliasNames) : next.Projects schema kind x := by
  rw [Projects, hroot]
  exact h.imp_left fun hmem => haliases hmem

/-- Every name in a projection stands for something. -/
def Projected (schema : Schema) (p : Plan) : Prop :=
  ∀ projection ∈ p.projection, ∀ name ∈ projection.names, p.Projects schema projection.kind name

theorem Projected.apply {step : Step} (hp : p.Projected schema) (h : p.apply schema step = .ok next) :
    next.Projected schema := by
  obtain ⟨hroot, hannotations, -⟩ := apply_extends h
  have haliases : p.aliasNames ⊆ next.aliasNames := (hannotations.map _).subset
  have hsame : next.projection = p.projection → next.Projected schema := fun hprojection projection hmem name hname =>
    (hp projection (hprojection ▸ hmem) name hname).mono hroot haliases
  cases step with
  | filter e | exclude e | orderByExpr e direction | clearOrdering | limit n | offset n | distinct =>
    exact hsame (Except.ok.inj h ▸ rfl)
  | orderBy key direction =>
    obtain ⟨e, -, rfl⟩ := map_ok h
    exact hsame rfl
  | withRelation name loading =>
    obtain ⟨relation, -, -, rfl⟩ := withRelation_eq_ok.1 h
    exact hsame rfl
  | annotate a e =>
    have hnext := annotate_eq_ok.1 h
    intro projection hmem name hname
    rw [hnext.projection] at hmem
    obtain ⟨old, hold, rfl⟩ := Option.map_eq_some_iff.1 hmem
    rcases List.mem_append.1 hname with hname | hname
    · exact (hp old hold name hname).mono hroot haliases
    · obtain rfl := List.mem_singleton.1 hname
      exact .inl (annotationOf_isSome.1 (by simp [hnext.annotationOf_self]))
  | project names =>
    obtain ⟨hnames, rfl⟩ := project_eq_ok.1 h
    intro projection hmem name hname
    obtain rfl := Option.some.inj hmem
    obtain ⟨e, he⟩ := hnames name hname
    rcases named_cases he with ⟨hnoted, -⟩ | ⟨ref, href, -⟩
    · exact .inl hnoted
    · exact .inr (.inr ⟨rfl, ref, href⟩)
  | only names =>
    obtain ⟨hnames, rfl⟩ := only_eq_ok.1 h
    intro projection hmem name hname
    obtain rfl := Option.some.inj hmem
    exact (hnames name hname).imp_right fun hfield => .inl ⟨rfl, hfield⟩

theorem Made.projected (h : p.Made schema) : p.Projected schema := by
  induction h with
  | start started =>
    obtain ⟨root, -, rfl⟩ := map_ok started
    exact nofun
  | step step _ applied ih => exact ih.apply applied

/-! ## Paths that annotations hide -/

/-- The name is a path that can be followed, and is free to be given to an annotation. -/
structure Shadows (schema : Schema) (p : Plan) (a : String) : Prop where
  leads : ∃ ref, FieldRef.resolve schema p.root.name a = .ok ref
  unused : a ∉ p.aliasNames
  undeclared : p.root.declares a = false

/-- Such a path goes through a relation. -/
theorem Shadows.segments (hp : p.Orderly schema) (h : p.Shadows schema a) :
    ∃ head second rest, pathSegments a = head :: second :: rest ∧ (p.root.relation head).isSome := by
  obtain ⟨⟨ref, href⟩, -, hundeclared⟩ := h
  obtain ⟨resolved, hresolved, -⟩ := ok_of_bind href
  obtain ⟨start, hstart, hfollow⟩ := ok_of_bind hresolved
  obtain rfl := Except.ok.inj (hp.root.symm.trans hstart)
  simp only [Entity.declares, Bool.or_eq_false_iff] at hundeclared
  obtain ⟨⟨-, hfield⟩, hrelation⟩ := hundeclared
  rcases pathSegments_cases a with hsingle | ⟨head, second, rest, hsegments⟩
  · have hnone : p.root.relation a = none := Option.not_isSome_iff_eq_none.1 (by simp [hrelation])
    rw [hsingle, Schema.follow, hnone] at hfollow
    obtain ⟨f, hf, -⟩ := ok_of_bind hfollow
    rw [orFail_eq_ok.1 hf] at hfield
    cases hfield
  · refine ⟨head, second, rest, hsegments, ?_⟩
    rw [hsegments, Schema.follow] at hfollow
    cases hhead : p.root.relation head with
    | some relation => rfl
    | none =>
      rw [hhead] at hfollow
      cases hfollow

/-- A name that the annotated plan projected before is such a path. -/
theorem Annotated.shadows_of_projected (h : p.Annotated a e next) (hp : p.Projected schema)
    (hprojected : a ∈ p.projectedNames) : p.Shadows schema a := by
  rw [projectedNames] at hprojected
  cases hprojection : p.projection with
  | none =>
    rw [hprojection] at hprojected
    cases hprojected
  | some projection =>
    rw [hprojection] at hprojected
    rcases hp projection hprojection a hprojected with hmem | ⟨-, f, hf⟩ | ⟨-, hleads⟩
    · exact absurd hmem h.unused
    · have hundeclared := h.undeclared
      simp [Entity.declares, hf] at hundeclared
    · exact ⟨hleads, h.unused, h.undeclared⟩

/-- The outputs of a plan are those of another, as far as that one goes. -/
structure OutputsKept (schema : Schema) (p : Plan) (a : String) (e : Expr) (next : Plan) : Prop where
  /-- what is projected is projected alike -/
  named : ∀ name ∈ p.projectedNames, next.namedOutput schema name = p.namedOutput schema name
  /-- there is one output more -/
  outputs : ∀ purpose, purpose ≠ .scalar → ∀ outputs shape, p.outputs schema purpose = .ok (outputs, shape) →
    next.outputs schema purpose = .ok (outputs ++ [computedOutput a e], shape.adding a)
  /-- what was selected is selected -/
  selected : ∀ outer n selection m selection' m', p.select schema .rows outer n = .ok (selection, m) →
    next.select schema .rows outer n = .ok (selection', m') →
    selection.columns <+: selection'.columns ∧ selection.query.select <+: selection'.query.select

theorem Annotated.outputsKept (h : p.Annotated a e next) (hfree : a ∉ p.projectedNames) :
    p.OutputsKept schema a e next where
  named _ hname := h.namedOutput_of_ne (ne_of_mem_of_not_mem hname hfree)
  outputs _ hpurpose _ _ := h.outputs hfree hpurpose
  selected _ _ _ _ _ _ := h.select hfree

/-- Annotating changes no meaning: the alias was free, other names stay what they are, and so do the outputs. -/
structure NamesKept (schema : Schema) (p : Plan) (a : String) (e : Expr) : Prop where
  free : ∀ next, p.annotate a e = .ok next → ∃ failure, p.named schema a = .error failure
  others : ∀ next, p.annotate a e = .ok next → ∀ x, x ≠ a → next.named schema x = p.named schema x
  projected : ∀ next, p.annotate a e = .ok next → p.OutputsKept schema a e next
  refused : ∀ meant, p.named schema a = .ok meant → p.annotate a e = .error (.duplicateAlias a)

theorem namesKept_of_not_shadows (hp : p.Projected schema) (h : ¬p.Shadows schema a) : p.NamesKept schema a e := by
  have hfree : ∀ next, p.annotate a e = .ok next → ∀ meant, p.named schema a ≠ .ok meant := by
    intro next hnext meant hmeant
    have hannotated := annotate_eq_ok.1 hnext
    rcases named_cases hmeant with ⟨hmem, -⟩ | ⟨ref, href, -⟩
    · exact hannotated.unused hmem
    · exact h ⟨⟨ref, href⟩, hannotated.unused, hannotated.undeclared⟩
  refine ⟨fun next hnext => ?_, fun next hnext x hx => (annotate_eq_ok.1 hnext).named_of_ne hx, fun next hnext => ?_,
    fun meant hmeant => ?_⟩
  · cases hnamed : p.named schema a with
    | error failure => exact ⟨failure, rfl⟩
    | ok meant => exact absurd hnamed (hfree next hnext meant)
  · have hannotated := annotate_eq_ok.1 hnext
    exact hannotated.outputsKept fun hmem => h (hannotated.shadows_of_projected hp hmem)
  · rcases annotate_cases p a e with ⟨next, hnext⟩ | hrefused
    · exact absurd hmeant (hfree next hnext meant)
    · exact hrefused

/-- A mapping of projected names has its outputs. -/
theorem Projected.mapM_namedOutput (hp : p.Projected schema) {names : List String} (hmaps : p.Maps names) :
    ∃ outputs, names.mapM (p.namedOutput schema) = .ok outputs := by
  cases houtputs : names.mapM (p.namedOutput schema) with
  | ok outputs => exact ⟨outputs, rfl⟩
  | error failure =>
    obtain ⟨name, hname, herror⟩ := exists_of_mapM_error houtputs
    have hnamed : ∃ e, p.named schema name = .ok e := by
      rcases hp _ hmaps name hname with hmem | ⟨hkind, -⟩ | ⟨-, ref, href⟩
      · exact ⟨_, named_of_alias hmem⟩
      · cases hkind
      · by_cases hmem : name ∈ p.aliasNames
        · exact ⟨_, named_of_alias hmem⟩
        · exact ⟨.field ref, by rw [named, if_neg (annotationOf_isSome.not.2 hmem), href]; rfl⟩
    obtain ⟨o, ho⟩ := namedOutput_ok hnamed
    rw [ho] at herror
    cases herror

/-- Annotating keeps the meanings of names unless the alias is a path through relations that can be followed. Such an
alias is accepted: the path stands for the annotation then, also where it was projected before, and all other names
and outputs are what they were. -/
theorem annotate_keeps_names_iff (hmade : p.Made schema) (a : String) (e : Expr) :
    (p.NamesKept schema a e ↔ ¬p.Shadows schema a) ∧
    (p.Shadows schema a →
      (∃ head second rest, pathSegments a = head :: second :: rest ∧ (p.root.relation head).isSome) ∧
      ∃ ref next, p.named schema a = .ok (.field ref) ∧ p.annotate a e = .ok next ∧
        next.named schema a = .ok (.aliasRef a) ∧ (∀ x, x ≠ a → next.named schema x = p.named schema x) ∧
        (a ∉ p.projectedNames → p.OutputsKept schema a e next) ∧
        ∀ names, p.Maps names → ∃ outputs, p.outputs schema .rows = .ok (outputs, .mapping names) ∧
          next.outputs schema .rows =
            .ok (outputs.map (fun o => if o.column.key = a then computedOutput a e else o) ++ [computedOutput a e],
              .mapping (names ++ [a]))) := by
  have hshadowed : p.Shadows schema a → ∃ ref next, p.named schema a = .ok (.field ref) ∧ p.Annotated a e next := by
    rintro ⟨⟨ref, href⟩, hunused, hundeclared⟩
    refine ⟨ref, _, ?_, hunused, hundeclared, rfl⟩
    rw [named, if_neg (annotationOf_isSome.not.2 hunused), href]
    rfl
  refine ⟨⟨fun hkept hshadows => ?_, namesKept_of_not_shadows hmade.projected⟩, fun hshadows => ?_⟩
  · obtain ⟨ref, next, hnamed, hannotated⟩ := hshadowed hshadows
    obtain ⟨failure, hfailure⟩ := hkept.free next (annotate_eq_ok.2 hannotated)
    rw [hnamed] at hfailure
    cases hfailure
  · obtain ⟨ref, next, hnamed, hannotated⟩ := hshadowed hshadows
    refine ⟨hshadows.segments hmade.orderly, ref, next, hnamed, annotate_eq_ok.2 hannotated, hannotated.named_self,
      fun x hx => hannotated.named_of_ne hx, hannotated.outputsKept, fun names hmaps => ?_⟩
    obtain ⟨outputs, houtputs⟩ := hmade.projected.mapM_namedOutput hmaps
    exact ⟨outputs, outputs_of_maps hmaps houtputs, hannotated.outputs_replaced hmaps houtputs⟩

/-! ## An alias that reads like a path -/

def journalDrafts : List EntityDraft :=
  [.declare "blog" none none [⟨"id", .int, false⟩, ⟨"name", .text, false⟩] [],
    .declare "entry" none none [⟨"id", .int, false⟩, ⟨"blog_id", .int, false⟩] [.toOne "blog" "blog" "blog_id"]]

def journalEntry : Entity :=
  ⟨"entry", "entry", "id", [⟨"id", .int, false⟩, ⟨"blog_id", .int, false⟩], [⟨"blog", "blog", .toOne, "blog_id", "id"⟩]⟩

def journal : Schema :=
  ⟨[⟨"blog", "blog", "id", [⟨"id", .int, false⟩, ⟨"name", .text, false⟩], []⟩, journalEntry]⟩

theorem journal_checked : Schema.ofDrafts journalDrafts = .ok journal := rfl

/-- the name of a blog, from an entry -/
def blogName : FieldRef := ⟨"entry", "blog.name", journalEntry.relations, ⟨"name", .text, false⟩⟩

/-- the names of the blogs of entries -/
def blogNames : Plan := { Plan.ofEntity journalEntry with projection := some ⟨.mapping, ["blog.name"]⟩ }

theorem blogNames_made : blogNames.Made journal :=
  .step (.project ["blog.name"]) (.start (rfl : Plan.start journal "entry" = _)) rfl

theorem blogName_shadows : blogNames.Shadows journal "blog.name" := ⟨⟨blogName, rfl⟩, by decide, by decide⟩

/-- Named by the path of a blog's name, a number takes the place of the names. -/
theorem annotate_keeps_names_iff_blogNames :
    ¬blogNames.NamesKept journal "blog.name" (.literal (.int 1)) ∧
      blogNames.NamesKept journal "rank" (.literal (.int 1)) := by
  refine ⟨fun h => (annotate_keeps_names_iff blogNames_made _ _).1.1 h blogName_shadows, ?_⟩
  refine (annotate_keeps_names_iff blogNames_made _ _).1.2 ?_
  rintro ⟨⟨ref, href⟩, -, -⟩
  have hunknown : FieldRef.resolve journal "entry" "rank" = .error (.unknownPath "entry" "rank") := rfl
  cases hunknown.symm.trans href

/-- A name that means the name of a blog is given to a number: it means the number from then on, and what is selected
is the number, twice. -/
theorem blogNames_hidden :
    Schema.ofDrafts journalDrafts = .ok journal ∧ blogNames.Made journal ∧
      blogNames.named journal "blog.name" = .ok (.field blogName) ∧
      ∃ next, blogNames.annotate "blog.name" (.literal (.int 1)) = .ok next ∧
        next.named journal "blog.name" = .ok (.aliasRef "blog.name") ∧
        blogNames.outputs journal .rows = .ok ([⟨⟨"blog.name", .path, some .text⟩, .field blogName, .output,
          some "blog.name"⟩], .mapping ["blog.name"]) ∧
        next.outputs journal .rows = .ok ([computedOutput "blog.name" (.literal (.int 1)),
          computedOutput "blog.name" (.literal (.int 1))], .mapping ["blog.name", "blog.name"]) :=
  ⟨journal_checked, blogNames_made, rfl, _, rfl, rfl, rfl, rfl⟩

end Plan

end RelQuery
