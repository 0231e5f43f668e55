/-
Plans that were built.

A plan is built by steps from the rows of an entity. A step is given expressions, which are made of literals, of names
looked up in the plan or in a plan before it, and of subplans built in the same way, whose outer references are fields
of the root around them (`Plan.Built`). Each step checks what it is given by name, and so keeps `Plan.Resolved`: every
path was followed in the schema, every alias is that of an annotation made before, every projected name means something
and every loaded relation is one of the root. `Plan.Built.valid` says it of a built plan and all plans nested in it.
-/
import RelQuery.Proofs.Schema.Names
import RelQuery.Proofs.Statement.Leaves

namespace RelQuery

/-- the map with a name set, or without it -/
def NameMap.replace {α : Type} (m : NameMap α) (name : String) : Option α → NameMap α
  | none => m.erase name
  | some a => m.insert name a

theorem NameMap.mem_names_replace {α : Type} {m : NameMap α} {name other : String} {value : Option α}
    (h : other ∈ (m.replace name value).names) : other = name ∨ other ∈ m.names := by
  cases value with
  | none =>
    obtain ⟨entry, hentry, rfl⟩ := List.mem_map.1 h
    exact .inr (List.mem_map_of_mem (List.mem_filter.1 hentry).1)
  | some a => exact NameMap.mem_names_insertEntry.1 h

namespace Plan

/-! ## Steps -/

/-- what a plan can be asked for -/
inductive Step where
  | filter (e : Expr)
  | exclude (e : Expr)
  | annotate (aliasName : String) (e : Expr)
  | project (names : List String)
  | only (names : List String)
  | orderBy (key : String) (direction : Direction)
  | orderByExpr (e : Expr) (direction : Direction)
  | clearOrdering
  | limit (n : UInt64)
  | offset (n : UInt64)
  | distinct
  | withRelation (name : String) (loading : Option Loading)

/-- the expressions that a step is given -/
def Step.expressions : Step → List Expr
  | .filter e | .exclude e | .annotate _ e | .orderByExpr e _ => [e]
  | .project _ | .only _ | .orderBy .. | .clearOrdering | .limit _ | .offset _ | .distinct | .withRelation .. => []

/-- the plan after a step -/
def apply (schema : Schema) (p : Plan) : Step → Except QueryError Plan
  | .filter e => .ok (p.filter e)
  | .exclude e => .ok (p.exclude e)
  | .annotate aliasName e => p.annotate aliasName e
  | .project names => p.project schema names
  | .only names => p.only names
  | .orderBy key direction => p.orderBy schema key direction
  | .orderByExpr e direction => .ok (p.orderByExpr e direction)
  | .clearOrdering => .ok p.clearOrdering
  | .limit n => .ok (p.withLimit n)
  | .offset n => .ok (p.withOffset n)
  | .distinct => .ok p.asDistinct
  | .withRelation name loading => p.withRelation name loading

end Plan

/-- whether a part of an expression, where it refers to something outside, was looked up in one of the plans or is a
field of the enclosing row; a subplan is a matter of its own -/
def Expr.TakenFrom (schema : Schema) (enclosing : Option Entity) (plans : List Plan) : Expr → Prop
  | .field ref => ∃ p ∈ plans, ∃ path, p.named schema path = .ok (.field ref)
  | .aliasRef name => ∃ p ∈ plans, ∃ path, p.named schema path = .ok (.aliasRef name)
  | .outer name => ∃ entity ∈ enclosing, (entity.field name).isSome
  | _ => True

/-- A plan built by steps that succeed, after the plans in `earlier`, the latest first. The subplans of a step are
built in the same way, inside the root of the plan that takes the step; `past` are the plans before each of them. -/
inductive Plan.Built (schema : Schema) : Option Entity → Plan → List Plan → Prop where
  | start {enclosing : Option Entity} {entity : String} {p : Plan} (started : Plan.start schema entity = .ok p) :
    Built schema enclosing p []
  | step {enclosing : Option Entity} {p next : Plan} {earlier : List Plan} (step : Step) (past : Plan → List Plan)
    (built : Built schema enclosing p earlier)
    (parts : ∀ e ∈ step.expressions, ∀ node ∈ e.nodes, node.TakenFrom schema enclosing (p :: earlier))
    (nested : ∀ e ∈ step.expressions, ∀ inner ∈ e.subplans, Built schema (some p.root) inner (past inner))
    (applied : p.apply schema step = .ok next) : Built schema enclosing next (p :: earlier)

/-! ## What a built plan refers to -/

/-- whether a part of an expression refers to something that is there -/
def Expr.Found (schema : Schema) (root : Entity) (enclosing : Option Entity) (known : List String) : Expr → Prop
  | .field ref => ∃ path, FieldRef.resolve schema root.name path = .ok ref
  | .aliasRef name => name ∈ known
  | .outer name => ∃ entity ∈ enclosing, (entity.field name).isSome
  | _ => True

/-- whether all parts of an expression do -/
def Expr.AllFound (schema : Schema) (root : Entity) (enclosing : Option Entity) (known : List String) (e : Expr) :
    Prop :=
  ∀ node ∈ e.nodes, node.Found schema root enclosing known

namespace Expr.AllFound

variable {schema : Schema} {root : Entity} {enclosing : Option Entity} {known more : List String} {e : Expr}

theorem mono (h : e.AllFound schema root enclosing known) (hsub : known ⊆ more) :
    e.AllFound schema root enclosing more := by
  intro node hnode
  have hfound := h node hnode
  cases node with
  | aliasRef name => exact hsub hfound
  | _ => exact hfound

theorem not (h : e.AllFound schema root enclosing known) : (Expr.not e).AllFound schema root enclosing known := by
  intro node hnode
  rcases List.mem_cons.1 hnode with rfl | hnode
  · trivial
  · exact h node hnode

end Expr.AllFound

namespace Plan

def aliasNames (p : Plan) : List String := p.annotations.map (·.aliasName)

/-- A plan whose names all mean something. -/
structure Resolved (schema : Schema) (enclosing : Option Entity) (p : Plan) : Prop where
  root : schema.entity p.root.name = .ok p.root
  /-- an annotation names only annotations before it -/
  annotations : ∀ before note, before ++ [note] <+: p.annotations →
    note.expr.AllFound schema p.root enclosing (before.map (·.aliasName))
  filters : ∀ e ∈ p.filters, e.AllFound schema p.root enclosing p.aliasNames
  ordering : ∀ key ∈ p.ordering, key.expr.AllFound schema p.root enclosing p.aliasNames
  projection : ∀ projection ∈ p.projection, ∀ name ∈ projection.names, ∃ e, p.named schema name = .ok e
  loadings : ∀ name ∈ p.loadings.names, (p.root.relation name).isSome

/-- A resolved plan whose subplans are valid as well. -/
inductive Valid (schema : Schema) : Option Entity → Plan → Prop where
  | mk {enclosing : Option Entity} {p : Plan} (resolved : p.Resolved schema enclosing)
    (nested : ∀ inner ∈ p.subplans, Valid schema (some p.root) inner) : Valid schema enclosing p

/-! ## Names -/

section Names

variable {schema : Schema} {p next : Plan} {name : String}

theorem annotationOf_isSome : (p.annotationOf name).isSome ↔ name ∈ p.aliasNames := by
  rw [annotationOf, Option.isSome_map, List.find?_isSome, aliasNames, List.mem_map]
  simp

/-- What a name stands for is an annotation or a path that can be followed. -/
theorem named_cases {e : Expr} (h : p.named schema name = .ok e) :
    (name ∈ p.aliasNames ∧ e = .aliasRef name) ∨
      ∃ ref, FieldRef.resolve schema p.root.name name = .ok ref ∧ e = .field ref := by
  unfold named at h
  split at h
  · next hannotation => exact .inl ⟨annotationOf_isSome.1 hannotation, (Except.ok.inj h).symm⟩
  · obtain ⟨ref, href, rfl⟩ := map_ok h
    exact .inr ⟨ref, href, rfl⟩

theorem named_of_alias (h : name ∈ p.aliasNames) : p.named schema name = .ok (.aliasRef name) :=
  if_pos (annotationOf_isSome.2 h)

/-- A name that means something still does when there are more annotations. -/
theorem named_mono (hroot : next.root = p.root) (haliases : p.aliasNames ⊆ next.aliasNames)
    (h : ∃ e, p.named schema name = .ok e) : ∃ e, next.named schema name = .ok e := by
  obtain ⟨e, he⟩ := h
  by_cases hannotation : name ∈ next.aliasNames
  · exact ⟨_, named_of_alias hannotation⟩
  · rcases named_cases he with ⟨hmem, -⟩ | ⟨ref, href, -⟩
    · exact absurd (haliases hmem) hannotation
    · refine ⟨.field ref, ?_⟩
      rw [named, if_neg fun hsome => hannotation (annotationOf_isSome.1 hsome), hroot, href]
      rfl

end Names

/-! ## What a step keeps -/

section Steps

variable {schema : Schema} {enclosing : Option Entity} {p next : Plan}

/-! A step that may fail says when it succeeds, and with what. -/

/-- A plan with an annotation of a name that was free. -/
structure Annotated (p : Plan) (a : String) (e : Expr) (next : Plan) : Prop where
  unused : a ∉ p.aliasNames
  undeclared : p.root.declares a = false
  made : next = { p with
    annotations := p.annotations ++ [⟨a, e⟩]
    projection := p.projection.map (Projection.adding a) }

theorem annotate_eq_ok {a : String} {e : Expr} : p.annotate a e = .ok next ↔ p.Annotated a e next := by
  have htaken : ((p.annotationOf a).isSome || p.root.declares a) = true ↔
      a ∈ p.aliasNames ∨ p.root.declares a = true := by
    rw [Bool.or_eq_true, annotationOf_isSome]
  unfold annotate
  constructor
  · intro h
    split at h
    · cases h
    · next hfree =>
      rw [htaken, not_or, Bool.not_eq_true] at hfree
      exact ⟨hfree.1, hfree.2, (Except.ok.inj h).symm⟩
  · rintro ⟨hunused, hundeclared, rfl⟩
    exact if_neg (htaken.not.2 (not_or.2 ⟨hunused, by simp [hundeclared]⟩))

theorem project_eq_ok {names : List String} : p.project schema names = .ok next ↔
    (∀ name ∈ names, ∃ e, p.named schema name = .ok e) ∧ next = { p with projection := some ⟨.mapping, names⟩ } := by
  have hnames : (names.forM fun name => do let _ ← p.named schema name; return ()) = .ok () ↔
      ∀ name ∈ names, ∃ e, p.named schema name = .ok e := by
    rw [forM_eq_ok]
    refine forall₂_congr fun name _ => ?_
    cases p.named schema name with
    | error failure => exact iff_of_false nofun (fun ⟨_, h⟩ => nomatch h)
    | ok e => exact iff_of_true rfl ⟨e, rfl⟩
  rw [← hnames]
  unfold project
  cases (names.forM fun name => do let _ ← p.named schema name; return () : Except QueryError Unit) with
  | error failure => exact iff_of_false nofun (fun h => nomatch h.1)
  | ok _ => exact ⟨fun h => ⟨rfl, (Except.ok.inj h).symm⟩, fun h => congrArg Except.ok h.2.symm⟩

theorem only_eq_ok {names : List String} : p.only names = .ok next ↔
    (∀ name ∈ names, name ∈ p.aliasNames ∨ ∃ f, p.root.field name = some f) ∧
      next = { p with projection := some ⟨.narrowed, names⟩ } := by
  have hknown : (names.find? fun name => (p.annotationOf name).isNone && (p.root.field name).isNone) = none ↔
      ∀ name ∈ names, name ∈ p.aliasNames ∨ ∃ f, p.root.field name = some f := by
    rw [List.find?_eq_none]
    refine forall₂_congr fun name _ => ?_
    rw [← annotationOf_isSome, ← Option.isSome_iff_exists]
    cases p.annotationOf name <;> cases p.root.field name <;> simp
  rw [← hknown]
  unfold only
  cases names.find? fun name => (p.annotationOf name).isNone && (p.root.field name).isNone with
  | none => exact ⟨fun h => ⟨rfl, (Except.ok.inj h).symm⟩, fun h => congrArg Except.ok h.2.symm⟩
  | some name => exact iff_of_false nofun (fun h => nomatch h.1)

/-- A relation that is declared can be loaded along, and joined when it leads to one row. -/
theorem withRelation_eq_ok {name : String} {loading : Option Loading} : p.withRelation name loading = .ok next ↔
    ∃ relation, p.root.relation name = some relation ∧ (loading = some .join → relation.cardinality = .toOne) ∧
      next = { p with loadings := p.loadings.replace name loading } := by
  unfold withRelation
  cases p.root.relation name with
  | none => simp
  | some relation =>
    have hmade : ∀ {loadings : NameMap Loading}, loadings = p.loadings.replace name loading →
        (loading = some .join → relation.cardinality = .toOne) →
        ((.ok { p with loadings } : Except QueryError Plan) = .ok next ↔
          ∃ r, some relation = some r ∧ (loading = some .join → r.cardinality = .toOne) ∧
            next = { p with loadings := p.loadings.replace name loading }) := by
      rintro _ rfl hone
      exact ⟨fun h => ⟨relation, rfl, hone, (Except.ok.inj h).symm⟩, fun ⟨_, _, _, h⟩ => congrArg Except.ok h.symm⟩
    cases loading with
    | none => exact hmade rfl nofun
    | some loading =>
      cases loading with
      | batched => exact hmade rfl nofun
      | join =>
        dsimp only
        by_cases hmany : relation.cardinality = .toMany
        · rw [if_pos hmany]
          exact iff_of_false nofun (by simp [hmany])
        · rw [if_neg hmany]
          refine hmade rfl fun _ => ?_
          cases hone : relation.cardinality with
          | toOne => rfl
          | toMany => exact absurd hone hmany

/-- What a name stands for is found. -/
theorem named_allFound {name : String} {e : Expr} (h : p.named schema name = .ok e) :
    e.AllFound schema p.root enclosing p.aliasNames := by
  intro node hnode
  rcases named_cases h with ⟨hmem, rfl⟩ | ⟨ref, href, rfl⟩
  · obtain rfl := List.mem_singleton.1 hnode
    exact hmem
  · obtain rfl := List.mem_singleton.1 hnode
    exact ⟨name, href⟩

namespace Resolved

variable (hp : p.Resolved schema enclosing)

include hp

theorem filter {e : Expr} (he : e.AllFound schema p.root enclosing p.aliasNames) :
    (p.filter e).Resolved schema enclosing :=
  { hp with
    filters := fun other hother => by
      rcases List.mem_append.1 hother with hother | hother
      · exact hp.filters other hother
      · exact List.mem_singleton.1 hother ▸ he }

theorem orderByExpr {e : Expr} (he : e.AllFound schema p.root enclosing p.aliasNames) (direction : Direction) :
    (p.orderByExpr e direction).Resolved schema enclosing :=
  { hp with
    ordering := fun key hkey => by
      rcases List.mem_append.1 hkey with hkey | hkey
      · exact hp.ordering key hkey
      · exact List.mem_singleton.1 hkey ▸ he }

theorem clearOrdering : p.clearOrdering.Resolved schema enclosing := { hp with ordering := nofun }

/-- A new annotation is behind those that it names, and other names keep their meaning. -/
theorem annotate {aliasName : String} {e : Expr} (he : e.AllFound schema p.root enclosing p.aliasNames)
    (h : p.annotate aliasName e = .ok next) : next.Resolved schema enclosing := by
  obtain ⟨-, -, rfl⟩ := annotate_eq_ok.1 h
  have hnext : (p.annotations ++ [(⟨aliasName, e⟩ : Annotation)]).map Annotation.aliasName = p.aliasNames ++ [aliasName] :=
    List.map_append
  have haliases : p.aliasNames ⊆ (p.annotations ++ [(⟨aliasName, e⟩ : Annotation)]).map Annotation.aliasName := by
    rw [hnext]
    exact List.subset_append_left _ _
  refine
    { root := hp.root
      annotations := fun before note hprefix => ?_
      filters := fun e he => (hp.filters e he).mono haliases
      ordering := fun key hkey => (hp.ordering key hkey).mono haliases
      projection := fun projection hprojection name hname => ?_
      loadings := hp.loadings }
  · rcases List.prefix_concat_iff.1 hprefix with heq | hprefix
    · obtain ⟨rfl, hnote⟩ := List.append_inj' heq rfl
      obtain rfl := List.singleton_inj.1 hnote
      exact he
    · exact hp.annotations before note hprefix
  · obtain ⟨old, hold, rfl⟩ := Option.map_eq_some_iff.1 hprojection
    rcases List.mem_append.1 hname with hname | hname
    · exact named_mono (p := p) rfl haliases (hp.projection old hold name hname)
    · refine ⟨_, named_of_alias ?_⟩
      change name ∈ (p.annotations ++ [(⟨aliasName, e⟩ : Annotation)]).map Annotation.aliasName
      rw [hnext]
      exact List.mem_append_right _ hname

theorem project {names : List String} (h : p.project schema names = .ok next) : next.Resolved schema enclosing := by
  obtain ⟨hnames, rfl⟩ := project_eq_ok.1 h
  refine { hp with projection := fun projection hprojection name hname => ?_ }
  obtain rfl := Option.some.inj hprojection
  exact hnames name hname

/-- A field of the root is a path of one step. -/
theorem only (hkeyed : schema.Keyed) {names : List String} (h : p.only names = .ok next) :
    next.Resolved schema enclosing := by
  obtain ⟨hnames, rfl⟩ := only_eq_ok.1 h
  refine { hp with projection := fun projection hprojection name hname => ?_ }
  obtain rfl := Option.some.inj hprojection
  by_cases hannotation : name ∈ p.aliasNames
  · exact ⟨_, named_of_alias hannotation⟩
  · obtain ⟨f, hf⟩ := (hnames name hname).resolve_left hannotation
    refine ⟨.field ⟨p.root.name, name, [], f⟩, ?_⟩
    refine (if_neg fun hsome => hannotation (annotationOf_isSome.1 hsome)).trans ?_
    change (FieldRef.resolve schema p.root.name name).map Expr.field = _
    rw [hkeyed.resolve_field hp.root hf]
    rfl

theorem withRelation {name : String} {loading : Option Loading} (h : p.withRelation name loading = .ok next) :
    next.Resolved schema enclosing := by
  obtain ⟨relation, hrelation, -, rfl⟩ := withRelation_eq_ok.1 h
  refine { hp with loadings := fun other hother => ?_ }
  rcases NameMap.mem_names_replace hother with rfl | hother
  · exact Option.isSome_iff_exists.2 ⟨relation, hrelation⟩
  · exact hp.loadings other hother

/-- Every step keeps a plan resolved when the expressions that it is given are. -/
theorem apply (hkeyed : schema.Keyed) {step : Step}
    (hstep : ∀ e ∈ step.expressions, e.AllFound schema p.root enclosing p.aliasNames)
    (h : p.apply schema step = .ok next) : next.Resolved schema enclosing := by
  cases step with
  | filter e =>
    obtain rfl := Except.ok.inj h
    exact hp.filter (hstep e List.mem_cons_self)
  | exclude e =>
    obtain rfl := Except.ok.inj h
    exact hp.filter (hstep e List.mem_cons_self).not
  | annotate aliasName e => exact hp.annotate (hstep e List.mem_cons_self) h
  | project names => exact hp.project h
  | only names => exact hp.only hkeyed h
  | orderBy key direction =>
    obtain ⟨e, he, rfl⟩ := map_ok h
    exact hp.orderByExpr (named_allFound he) direction
  | orderByExpr e direction =>
    obtain rfl := Except.ok.inj h
    exact hp.orderByExpr (hstep e List.mem_cons_self) direction
  | clearOrdering =>
    obtain rfl := Except.ok.inj h
    exact hp.clearOrdering
  | limit n | offset n | distinct =>
    obtain rfl := Except.ok.inj h
    exact { hp with }
  | withRelation name loading => exact hp.withRelation h

end Resolved

/-! ## What a step adds -/

theorem mem_expressions {e : Expr} : e ∈ p.expressions ↔
    e ∈ p.filters ∨ (∃ note ∈ p.annotations, note.expr = e) ∨ ∃ key ∈ p.ordering, key.expr = e := by
  simp [expressions]

/-- where an expression of a plan comes from: the plan before, what a step is given, the opposite of that, or what a
name stands for -/
def AddedBy (schema : Schema) (p : Plan) (step : Step) (e : Expr) : Prop :=
  e ∈ p.expressions ∨ e ∈ step.expressions ∨ (∃ given ∈ step.expressions, e = .not given) ∨
    ∃ key, p.named schema key = .ok e

/-- A step leaves the root and the annotations that there are, and adds expressions that it is given. -/
theorem apply_extends {step : Step} (h : p.apply schema step = .ok next) :
    next.root = p.root ∧ p.annotations <+: next.annotations ∧ ∀ e ∈ next.expressions, p.AddedBy schema step e := by
  have hsame : ∀ {next : Plan}, next.root = p.root → next.filters = p.filters → next.annotations = p.annotations →
      next.ordering ⊆ p.ordering → next.root = p.root ∧ p.annotations <+: next.annotations ∧
        ∀ e ∈ next.expressions, p.AddedBy schema step e := by
    intro next hroot hfilters hannotations hordering
    refine ⟨hroot, hannotations ▸ List.prefix_refl _, fun e he => .inl (mem_expressions.2 ?_)⟩
    rcases mem_expressions.1 he with he | ⟨note, hnote, he⟩ | ⟨key, hkey, he⟩
    · exact .inl (hfilters ▸ he)
    · exact .inr (.inl ⟨note, hannotations ▸ hnote, he⟩)
    · exact .inr (.inr ⟨key, hordering hkey, he⟩)
  have hfilter : ∀ {x : Expr}, p.AddedBy schema step x → ∀ e ∈ (p.filter x).expressions, p.AddedBy schema step e := by
    intro x hx e he
    rcases mem_expressions.1 he with he | he
    · rcases List.mem_append.1 he with he | he
      · exact .inl (mem_expressions.2 (.inl he))
      · exact List.mem_singleton.1 he ▸ hx
    · exact .inl (mem_expressions.2 (.inr he))
  have horder : ∀ {x : Expr} {direction : Direction}, p.AddedBy schema step x →
      ∀ e ∈ (p.orderByExpr x direction).expressions, p.AddedBy schema step e := by
    intro x direction hx e he
    rcases mem_expressions.1 he with he | he | ⟨key, hkey, rfl⟩
    · exact .inl (mem_expressions.2 (.inl he))
    · exact .inl (mem_expressions.2 (.inr (.inl he)))
    · rcases List.mem_append.1 hkey with hkey | hkey
      · exact .inl (mem_expressions.2 (.inr (.inr ⟨key, hkey, rfl⟩)))
      · exact List.mem_singleton.1 hkey ▸ hx
  cases step with
  | filter x =>
    obtain rfl := Except.ok.inj h
    exact ⟨rfl, List.prefix_refl _, hfilter (.inr (.inl List.mem_cons_self))⟩
  | exclude x =>
    obtain rfl := Except.ok.inj h
    exact ⟨rfl, List.prefix_refl _, hfilter (.inr (.inr (.inl ⟨x, List.mem_cons_self, rfl⟩)))⟩
  | annotate aliasName x =>
    obtain ⟨-, -, rfl⟩ := annotate_eq_ok.1 h
    refine ⟨rfl, List.prefix_append _ _, fun e he => ?_⟩
    rcases mem_expressions.1 he with he | ⟨note, hnote, rfl⟩ | he
    · exact .inl (mem_expressions.2 (.inl he))
    · rcases List.mem_append.1 hnote with hnote | hnote
      · exact .inl (mem_expressions.2 (.inr (.inl ⟨note, hnote, rfl⟩)))
      · exact .inr (.inl (List.mem_singleton.1 hnote ▸ List.mem_cons_self))
    · exact .inl (mem_expressions.2 (.inr (.inr he)))
  | orderBy key direction =>
    obtain ⟨x, hx, rfl⟩ := map_ok h
    exact ⟨rfl, List.prefix_refl _, horder (.inr (.inr (.inr ⟨key, hx⟩)))⟩
  | orderByExpr x direction =>
    obtain rfl := Except.ok.inj h
    exact ⟨rfl, List.prefix_refl _, horder (.inr (.inl List.mem_cons_self))⟩
  | clearOrdering => exact Except.ok.inj h ▸ hsame rfl rfl rfl (List.nil_subset _)
  | limit | offset | distinct => exact Except.ok.inj h ▸ hsame rfl rfl rfl (List.Subset.refl _)
  | project names =>
    obtain ⟨-, rfl⟩ := project_eq_ok.1 h
    exact hsame rfl rfl rfl (List.Subset.refl _)
  | only names =>
    obtain ⟨-, rfl⟩ := only_eq_ok.1 h
    exact hsame rfl rfl rfl (List.Subset.refl _)
  | withRelation name loading =>
    obtain ⟨relation, -, -, rfl⟩ := withRelation_eq_ok.1 h
    exact hsame rfl rfl rfl (List.Subset.refl _)

/-- A subplan after a step was there before, or is one of an expression that the step is given. -/
theorem mem_subplans_apply {step : Step} (h : p.apply schema step = .ok next) {inner : Plan}
    (hinner : inner ∈ next.subplans) : inner ∈ p.subplans ∨ ∃ e ∈ step.expressions, inner ∈ e.subplans := by
  obtain ⟨e, he, hinner⟩ := List.mem_flatMap.1 hinner
  rcases (apply_extends h).2.2 e he with he | he | ⟨given, hgiven, rfl⟩ | ⟨key, hkey⟩
  · exact .inl (List.mem_flatMap.2 ⟨e, he, hinner⟩)
  · exact .inr ⟨e, he, hinner⟩
  · exact .inr ⟨given, hgiven, hinner⟩
  · rcases named_cases hkey with ⟨-, rfl⟩ | ⟨ref, -, rfl⟩ <;> cases hinner

end Steps

/-! ## Built plans -/

variable {schema : Schema} {enclosing : Option Entity} {p : Plan} {earlier : List Plan}

/-- A step keeps a plan valid when the expressions that it is given refer to what is there and their subplans are
valid. -/
theorem Valid.apply (hkeyed : schema.Keyed) {next : Plan} {step : Step} (hp : p.Valid schema enclosing)
    (hstep : ∀ e ∈ step.expressions, e.AllFound schema p.root enclosing p.aliasNames)
    (hnested : ∀ e ∈ step.expressions, ∀ inner ∈ e.subplans, inner.Valid schema (some p.root))
    (h : p.apply schema step = .ok next) : next.Valid schema enclosing := by
  cases hp with
  | mk hresolved hsub =>
    refine .mk (hresolved.apply hkeyed hstep h) fun inner hinner => ?_
    rw [(apply_extends h).1]
    rcases mem_subplans_apply h hinner with hold | ⟨e, he, hinner⟩
    · exact hsub inner hold
    · exact hnested e he inner hinner

/-- A step that is given no expression keeps a plan valid. -/
theorem Valid.apply_nil (hkeyed : schema.Keyed) {next : Plan} {step : Step} (hp : p.Valid schema enclosing)
    (hstep : step.expressions = []) (h : p.apply schema step = .ok next) : next.Valid schema enclosing :=
  hp.apply hkeyed (by simp [hstep]) (by simp [hstep]) h

theorem Valid.resolved (h : p.Valid schema enclosing) : p.Resolved schema enclosing := by
  cases h
  assumption

theorem Valid.nested (h : p.Valid schema enclosing) : ∀ inner ∈ p.subplans, inner.Valid schema (some p.root) := by
  cases h
  assumption

/-- All rows of an entity of the schema are a plan whose names all mean something. -/
theorem valid_start {entity : String} (h : Plan.start schema entity = .ok p) : p.Valid schema enclosing := by
  obtain ⟨root, hroot, rfl⟩ := map_ok h
  refine .mk ⟨Schema.entity_name hroot, fun before note hprefix => ?_, nofun, nofun, nofun, nofun⟩ nofun
  simp [ofEntity] at hprefix

/-- The plans before a plan have its root and a beginning of its annotations. -/
theorem Built.history (h : Plan.Built schema enclosing p earlier) :
    ∀ q ∈ p :: earlier, q.root = p.root ∧ q.annotations <+: p.annotations := by
  induction h with
  | start =>
    intro q hq
    obtain rfl := List.mem_singleton.1 hq
    exact ⟨rfl, List.prefix_refl _⟩
  | step step past built parts nested applied ih =>
    intro q hq
    obtain ⟨hroot, hannotations, -⟩ := apply_extends applied
    rcases List.mem_cons.1 hq with rfl | hq
    · exact ⟨rfl, List.prefix_refl _⟩
    · exact ⟨(ih _ hq).1.trans hroot.symm, (ih _ hq).2.trans hannotations⟩

/-- What was looked up in a plan or one before it is found in the plan. -/
theorem Built.found (h : Plan.Built schema enclosing p earlier) {node : Expr}
    (hnode : node.TakenFrom schema enclosing (p :: earlier)) : node.Found schema p.root enclosing p.aliasNames := by
  cases node with
  | field ref =>
    obtain ⟨q, hq, path, hnamed⟩ := hnode
    rcases named_cases hnamed with ⟨-, heq⟩ | ⟨_, href, heq⟩
    · cases heq
    · cases heq
      rw [← (h.history q hq).1]
      exact ⟨path, href⟩
  | aliasRef name =>
    obtain ⟨q, hq, path, hnamed⟩ := hnode
    rcases named_cases hnamed with ⟨hmem, heq⟩ | ⟨_, -, heq⟩
    · cases heq
      exact (h.history q hq).2.map _ |>.subset hmem
    · cases heq
  | outer name => exact hnode
  | _ => trivial

/-- In a built plan, and in the plans nested in it, all names mean something. -/
theorem Built.valid (hkeyed : schema.Keyed) (h : Plan.Built schema enclosing p earlier) : p.Valid schema enclosing := by
  induction h with
  | start started => exact valid_start started
  | step step past built parts nested applied ih ihnested =>
    exact ih.apply hkeyed (fun e he node hnode => built.found (parts e he node hnode)) ihnested applied

/-! ## Plans made of any expressions -/

/-- a plan made by steps that succeed, whatever expressions they are given -/
inductive Made (schema : Schema) : Plan → Prop where
  | start {entity : String} {p : Plan} (started : Plan.start schema entity = .ok p) : Made schema p
  | step {p next : Plan} (step : Step) (made : Made schema p) (applied : p.apply schema step = .ok next) : Made schema next

/-- The root is an entity of the schema, no annotation has a name that the root declares, no relation is loaded in two
ways, and those that are joined have one row at most. -/
structure Orderly (schema : Schema) (p : Plan) : Prop where
  root : schema.entity p.root.name = .ok p.root
  undeclared : ∀ a ∈ p.annotations, p.root.declares a.aliasName = false
  loadings : NameMap.Ascending p.loadings.entries
  joined : ∀ name, (name, .join) ∈ p.loadings.entries → ∃ relation, p.root.relation name = some relation ∧
    relation.cardinality = .toOne

/-- Every step checks the names that it adds. -/
theorem Orderly.apply {next : Plan} {step : Step} (hp : p.Orderly schema) (h : p.apply schema step = .ok next) :
    next.Orderly schema := by
  cases step with
  | filter e | exclude e | orderByExpr e direction | clearOrdering | limit n | offset n | distinct =>
    obtain rfl := Except.ok.inj h
    exact { hp with }
  | orderBy key direction =>
    obtain ⟨e, -, rfl⟩ := map_ok h
    exact { hp with }
  | project names =>
    obtain ⟨-, rfl⟩ := project_eq_ok.1 h
    exact { hp with }
  | only names =>
    obtain ⟨-, rfl⟩ := only_eq_ok.1 h
    exact { hp with }
  | annotate aliasName e =>
    obtain ⟨-, hundeclared, rfl⟩ := annotate_eq_ok.1 h
    refine { hp with undeclared := fun a ha => ?_ }
    rcases List.mem_append.1 ha with ha | ha
    · exact hp.undeclared a ha
    · obtain rfl := List.mem_singleton.1 ha
      exact hundeclared
  | withRelation name loading =>
    obtain ⟨relation, hrelation, hone, rfl⟩ := withRelation_eq_ok.1 h
    cases loading with
    | none =>
      exact { hp with
        loadings := hp.loadings.sublist (List.filter_sublist.map Prod.fst)
        joined := fun other hother => hp.joined other (List.mem_filter.1 hother).1 }
    | some loading =>
      refine { hp with loadings := NameMap.ascending_insertEntry hp.loadings, joined := fun other hother => ?_ }
      rcases NameMap.mem_insertEntry hother with heq | hother
      · obtain ⟨rfl, rfl⟩ := Prod.mk.inj heq
        exact ⟨relation, hrelation, hone rfl⟩
      · exact hp.joined other hother

theorem Made.orderly (h : p.Made schema) : p.Orderly schema := by
  induction h with
  | start started =>
    obtain ⟨root, hroot, rfl⟩ := map_ok started
    exact ⟨Schema.entity_name hroot, nofun, List.Pairwise.nil, nofun⟩
  | step step _ applied ih => exact ih.apply applied

/-- No relation is both joined and fetched in batches, and none is twice either. -/
theorem Orderly.nodup_loaded (hp : p.Orderly schema) :
    (p.relationsLoaded .join).Nodup ∧ (p.relationsLoaded .batched).Nodup ∧
      (p.relationsLoaded .join).Disjoint (p.relationsLoaded .batched) := by
  have hnames : p.loadings.names.Nodup := by
    refine List.Pairwise.imp ?_ hp.loadings
    rintro a b hlt rfl
    exact String.lt_irrefl a hlt
  have hloaded : ∀ loading, (p.relationsLoaded loading).Nodup := fun loading =>
    hnames.sublist (List.filter_sublist.map Prod.fst)
  refine ⟨hloaded _, hloaded _, fun name hjoin hbatched => ?_⟩
  obtain ⟨entry, hentry, rfl⟩ := List.mem_map.1 hjoin
  obtain ⟨other, hother, hname⟩ := List.mem_map.1 hbatched
  obtain ⟨hmem, hloading⟩ := List.mem_filter.1 hentry
  obtain ⟨hmem', hloading'⟩ := List.mem_filter.1 hother
  rw [List.inj_on_of_nodup_map hnames hmem' hmem hname] at hloading'
  simp only [decide_eq_true_eq] at hloading hloading'
  exact Loading.noConfusion (hloading.symm.trans hloading')

theorem mem_loaded {name : String} :
    name ∈ p.loadings.names ↔ name ∈ p.relationsLoaded .join ∨ name ∈ p.relationsLoaded .batched := by
  simp only [NameMap.names, relationsLoaded, List.mem_map, List.mem_filter, decide_eq_true_eq]
  constructor
  · rintro ⟨⟨_, loading⟩, hmem, rfl⟩
    cases loading with
    | join => exact .inl ⟨_, ⟨hmem, rfl⟩, rfl⟩
    | batched => exact .inr ⟨_, ⟨hmem, rfl⟩, rfl⟩
  · rintro (⟨entry, ⟨hmem, -⟩, rfl⟩ | ⟨entry, ⟨hmem, -⟩, rfl⟩)
    · exact ⟨entry, hmem, rfl⟩
    · exact ⟨entry, hmem, rfl⟩

end Plan

end RelQuery
