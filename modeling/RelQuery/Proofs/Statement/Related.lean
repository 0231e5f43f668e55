/-
The statements by which fields and relations are fetched late.

A plan for the rows of an entity that equal a key in one field is compiled to a statement over one table
(`lookupPlan_selection`). For a relation it is ordered by the target's key and selects the same columns in the same
order as a batch does; only its condition is an equality where the batch has an IN list. For a field of a record it
selects this field of the row with the record's key.
- `keyPlan_compile`, `fieldPlan_compile`: the statements such plans are compiled to.
- `relatedPlan_eq`, `fieldPlan_eq`: the plans that are made for a relation and for a field of a record.
-/
import RelQuery.Proofs.Schema.Names
import RelQuery.Proofs.Sql.Balance
import RelQuery.Session

namespace RelQuery

/-- the rows of an entity that meet a condition, by the entity's key -/
def rowsWhere (target : Entity) (condition : Sql.Expr) : Sql.Query :=
  { BatchFetch.allRows target with condition := some condition }

/-- the condition that a field equals a value -/
def keyCondition (f : Field) (key : Value) : Sql.Expr := .eq (.columnOf BatchFetch.rowAlias f.name) (.param key)

namespace Sql

/-- Columns bind nothing. -/
theorem boundValues_columns (d : Dialect) (table : String) (fields : List Field) :
    Token.boundValues (Token.commaSeparated (itemTokens d (fields.map fun f => ⟨.columnOf table f.name, none⟩)))
      = [] := by
  induction fields with
  | nil => rfl
  | cons f rest ih =>
    cases rest with
    | nil => rfl
    | cons next rest => exact ih

/-- Values other than null are bound in their order. -/
theorem boundValues_params (d : Dialect) {values : List Value} (h : ∀ v ∈ values, v.isNull = false) :
    Token.boundValues (Token.commaSeparated (exprTokens d (values.map .param))) = values := by
  induction values with
  | nil => rfl
  | cons v rest ih =>
    rw [List.forall_mem_cons] at h
    have hvalue : (Expr.param v).tokens d = [.bound v] := by
      cases v <;> first | rfl | cases h.1
    cases rest with
    | nil =>
      simp only [List.map_cons, List.map_nil, exprTokens, hvalue]
      rfl
    | cons next rest =>
      have hrest := ih h.2
      simp only [List.map_cons, exprTokens, hvalue, Token.commaSeparated] at hrest ⊢
      simp only [List.singleton_append, Token.boundValues, List.filterMap_cons] at hrest ⊢
      rw [hrest]

end Sql

/-- A statement for the rows that meet a condition binds the values of the condition. -/
theorem boundValues_rowsWhere (d : Sql.Dialect) (target : Entity) (condition : Sql.Expr) :
    Sql.Token.boundValues ((rowsWhere target condition).tokens d) = Sql.Token.boundValues (condition.tokens d) := by
  have hcolumns : Sql.Token.boundValues (if (BatchFetch.allRows target).select.isEmpty then [] else
      .blank :: Sql.Token.commaSeparated (Sql.itemTokens d (BatchFetch.allRows target).select)) = [] := by
    split
    · rfl
    · exact Sql.boundValues_columns d BatchFetch.rowAlias target.fields
  change Sql.Token.boundValues (Sql.Query.tokens d ⟨(BatchFetch.allRows target).select, _, _, _, _, _, _, _, _⟩) = _
  rw [Sql.Query.tokens_eq]
  simp only [Sql.Token.boundValues_append, hcolumns]
  change [] ++ [] ++ [] ++ [] ++ [] ++ Sql.Token.boundValues (condition.tokens d) ++ [] ++ [] ++ [] ++ [] = _
  simp only [List.append_nil, List.nil_append]

/-- a field of an entity, referred to by its name -/
def Entity.ref (e : Entity) (f : Field) : FieldRef := ⟨e.name, f.name, [], f⟩

/-- the plan for the rows of an entity whose field equals a value, by the entity's key -/
def keyPlan (target : Entity) (f primaryKey : Field) (key : Value) : Plan :=
  { Plan.ofEntity target with
    filters := [(Expr.field (target.ref f)).equals (.literal key)]
    ordering := [⟨.field (target.ref primaryKey), .asc⟩] }

theorem mapM_ok_of_forall {ε α β : Type} {step : α → Except ε β} {g : α → β} {xs : List α}
    (h : ∀ x ∈ xs, step x = .ok (g x)) : xs.mapM step = .ok (xs.map g) := by
  induction xs with
  | nil => rfl
  | cons x rest ih =>
    rw [List.forall_mem_cons] at h
    rw [List.mapM_cons, h.1, ih h.2]
    rfl

namespace Lowering

variable {α β : Type} {s : JoinState}

/-- compiling each of a list without touching the tables -/
theorem mapM_eq {step : α → Lowering β} {g : α → β} {xs : List α} (h : ∀ x ∈ xs, step x s = .ok (g x, s)) :
    xs.mapM step s = .ok (xs.map g, s) := by
  induction xs with
  | nil => rfl
  | cons x rest ih =>
    rw [List.forall_mem_cons] at h
    rw [List.mapM_cons, bind_eq h.1, bind_eq (ih h.2)]
    rfl

theorem mapM_singleton {step : α → Lowering β} {x : α} {b : β} (h : step x s = .ok (b, s)) :
    [x].mapM step s = .ok ([b], s) := by
  rw [List.mapM_cons, bind_eq h]
  rfl

end Lowering

/-- A field of the root is a column of its table. -/
theorem Scope.column_ref (scope : Scope) (f : Field) (role : Role) (s : JoinState) :
    scope.column (scope.root.ref f) role s = .ok (scope.rootColumn f.name, s) := by
  have hroot : ¬(scope.root.ref f).root ≠ scope.root.name := fun hne => hne rfl
  have hlocal : (scope.root.ref f).isLocal = true := rfl
  unfold column
  rw [if_neg hroot, if_pos hlocal]
  rfl

/-- the output of a field of the root -/
def Entity.output (e : Entity) (f : Field) : Output := ⟨⟨f.name, .root, some f.type⟩, .field (e.ref f), .output, none⟩

/-- the plan for the rows of an entity whose field equals a value, in the order of a field and presented in some way -/
def lookupPlan (target : Entity) (f : Field) (key : Value) (order : Option Field) (projection : Option Projection) :
    Plan :=
  { Plan.ofEntity target with
    filters := [(Expr.field (target.ref f)).equals (.literal key)]
    ordering := order.toList.map fun g => ⟨.field (target.ref g), .asc⟩
    projection }

/-- the statement for them -/
def lookupQuery (target : Entity) (f : Field) (key : Value) (order : Option Field) (items : List Sql.SelectItem) :
    Sql.Query :=
  { Sql.Query.selecting items with
    source := some (.table ⟨target.table, some BatchFetch.rowAlias⟩)
    condition := some (keyCondition f key)
    orderBy := order.toList.map fun g => ⟨.columnOf BatchFetch.rowAlias g.name, some .asc⟩ }

/-- The rows of an entity whose field equals a key are looked up with all fields and by the entity's key. -/
theorem rowsWhere_eq {target : Entity} (f : Field) {primaryKey : Field} (hprimary : primaryKey.name = target.primaryKey)
    (key : Value) : rowsWhere target (keyCondition f key) = lookupQuery target f key (some primaryKey)
      (target.fields.map fun g => ⟨.columnOf BatchFetch.rowAlias g.name, none⟩) := by
  unfold lookupQuery rowsWhere BatchFetch.allRows
  rw [← hprimary]
  rfl

/-- fields of the root, each under a name of its own if it has one -/
def Entity.selection (e : Entity) (names : Field → Option String) (fields : List Field) : List Output :=
  fields.map fun f => { e.output f with selectAlias := names f }

section Lookup

variable (schema : Schema) (target : Entity) (f : Field) (key : Value) (order : Option Field)
  (projection : Option Projection) (names : Field → Option String) (fields : List Field)

/-- No clause of the plan needs a table besides the root. -/
theorem lookupPlan_clauses :
    (lookupPlan target f key order projection).lowerClauses (lookupPlan target f key order projection).fragments
        (.ofSelect schema target (tableAlias 0) none) (target.selection names fields) { next := 1 }
      = .ok (lookupQuery target f key order (fields.map fun g => ⟨.columnOf BatchFetch.rowAlias g.name, names g⟩),
        { next := 1 }) := by
  set p := lookupPlan target f key order projection with hp
  set scope := Scope.ofSelect schema target (tableAlias 0) none with hscope
  set expand := p.fragments.expansion scope with hexpand
  have hitems : ((target.selection names fields).mapM (m := Lowering) fun (output : Output) => do
      let e ← output.term.lower scope expand output.role
      return (output, e)) { next := 1 } =
      Except.ok ((target.selection names fields).map fun output => (output, scope.rootColumn output.column.key),
        { next := 1 }) := by
    refine Lowering.mapM_eq fun output houtput => ?_
    obtain ⟨field, -, rfl⟩ := List.mem_map.1 houtput
    exact Lowering.bind_eq (scope.column_ref field .output { next := 1 }) _
  have hconditions : (p.fragments.filters.mapM (m := Lowering) fun filter => do
      let grouped := p.exprAggregates filter.1
      let e ← filter.2 scope expand (if grouped then .computed else .filter)
      return (grouped, e)) { next := 1 } =
      Except.ok ([(false, keyCondition f key)], { next := 1 }) := by
    refine Lowering.mapM_singleton ?_
    change ((scope.column (target.ref f) .filter >>= fun l => (pure (.binary .eq l (.param key)) : Lowering Sql.Expr))
      >>= fun e => (pure (false, e) : Lowering (Bool × Sql.Expr))) { next := 1 } = _
    rw [bind_assoc]
    exact Lowering.bind_eq (scope.column_ref f .filter { next := 1 }) _
  have hkeys : (p.fragments.ordering.mapM (m := Lowering) fun order => do
      let e ← order.2 scope expand .output
      return (⟨e, some order.1.toSql⟩ : Sql.OrderKey)) { next := 1 } =
      Except.ok (order.toList.map fun g => ⟨.columnOf BatchFetch.rowAlias g.name, some .asc⟩, { next := 1 }) := by
    cases order with
    | none => rfl
    | some g =>
      refine Lowering.mapM_singleton ?_
      exact Lowering.bind_eq (scope.column_ref g .output { next := 1 }) _
  unfold Plan.lowerClauses
  rw [Lowering.bind_eq hitems]
  refine (Lowering.bind_eq hconditions _).trans ?_
  refine (Lowering.bind_eq hkeys _).trans ?_
  have hselect : ((target.selection names fields).map fun output => (output, scope.rootColumn output.column.key)).map
      (fun item => (⟨item.2, item.1.selectAlias⟩ : Sql.SelectItem))
        = fields.map fun g => ⟨.columnOf BatchFetch.rowAlias g.name, names g⟩ := by
    rw [Entity.selection, List.map_map, List.map_map]
    rfl
  have hgrouped : p.isGrouped = false := by
    cases order <;> rfl
  change Except.ok
    ((⟨_, false, some (.table scope.rootTable), [], some (keyCondition f key), if p.isGrouped then _ else [], none, _,
      none⟩ : Sql.Query), (⟨[], 1⟩ : JoinState)) = _
  rw [hselect, hgrouped]
  rfl

variable {schema target f key order projection names fields}

/-- A plan that looks up rows by a key is compiled to the statement for them. -/
theorem lookupPlan_selection {shape : ResultShape} (houtputs :
      (lookupPlan target f key order projection).outputs schema .rows = .ok (target.selection names fields, shape)) :
    (lookupPlan target f key order projection).rowSelection schema =
      .ok ⟨lookupQuery target f key order (fields.map fun g => ⟨.columnOf BatchFetch.rowAlias g.name, names g⟩),
        fields.map fun g => ⟨g.name, .root, some g.type⟩, shape⟩ := by
  set p := lookupPlan target f key order projection with hp
  have hclauses := lookupPlan_clauses schema target f key order projection names fields
  have hcolumns : (target.selection names fields).map (·.column) = fields.map fun g => ⟨g.name, .root, some g.type⟩ := by
    rw [Entity.selection, List.map_map]
    rfl
  have hgrouped : p.isGrouped = false := by
    cases order <;> rfl
  have hassemble : p.assemble schema p.fragments .rows none 0 =
      .ok (⟨lookupQuery target f key order (fields.map fun g => ⟨.columnOf BatchFetch.rowAlias g.name, names g⟩),
        fields.map fun g => ⟨g.name, .root, some g.type⟩, shape⟩, 1) := by
    unfold Plan.assemble
    rw [houtputs, hgrouped]
    change (p.lowerClauses p.fragments (.ofSelect schema target (tableAlias 0) none) (target.selection names fields)
      { next := 1 } >>= fun compiled =>
        Except.ok ((⟨compiled.1, (target.selection names fields).map (·.column), shape⟩ : Selection),
          compiled.2.next)) = _
    rw [hclauses, hcolumns]
    rfl
  rw [Plan.rowSelection, Plan.select_eq, hassemble]
  rfl

end Lookup

/-- each name of a field leads to it -/
def Entity.NamesFields (schema : Schema) (e : Entity) : Prop :=
  ∀ f ∈ e.fields, FieldRef.resolve schema e.name f.name = .ok (e.ref f)

theorem Schema.Plain.namesFields {schema : Schema} (hplain : schema.Plain) {e : Entity}
    (hfound : schema.entity e.name = .ok e) : e.NamesFields schema :=
  fun _ hf => hplain.resolve (Schema.mem_of_entity hfound) hfound hf

theorem Schema.Keyed.namesFields {schema : Schema} (hkeyed : schema.Keyed) (hdistinct : schema.DistinctFields)
    {e : Entity} (hfound : schema.entity e.name = .ok e) : e.NamesFields schema :=
  fun _ hf => hkeyed.resolve_field hfound (hkeyed.field_eq hdistinct (Schema.mem_of_entity hfound) hf)

section KeyPlan

variable {schema : Schema} {target : Entity} (hnames : target.NamesFields schema)

include hnames

theorem ofRootField_eq {f : Field} (hf : f ∈ target.fields) :
    Output.ofRootField schema target f.name = .ok (target.output f) := by
  unfold Output.ofRootField
  rw [hnames f hf]
  rfl

theorem keyPlan_outputs (f primaryKey : Field) (key : Value) :
    (keyPlan target f primaryKey key).outputs schema .rows =
      .ok (target.fields.map target.output, .record target.name) := by
  have hfields : (target.fields.mapM fun f => Output.ofRootField schema target f.name)
      = .ok (target.fields.map target.output) :=
    mapM_ok_of_forall fun f hf => ofRootField_eq hnames hf
  change ((target.fields.mapM fun f : Field => Output.ofRootField schema target f.name) >>= fun fields =>
    Except.ok (fields ++ [] ++ [], ResultShape.record target.name)) = _
  rw [hfields]
  change Except.ok (target.fields.map target.output ++ [] ++ [], ResultShape.record target.name) = _
  rw [List.append_nil, List.append_nil]

theorem keyPlan_selection (f primaryKey : Field) (hprimary : primaryKey.name = target.primaryKey) (key : Value) :
    (keyPlan target f primaryKey key).rowSelection schema =
      .ok ⟨rowsWhere target (keyCondition f key), target.columns, .record target.name⟩ := by
  have houtputs : (lookupPlan target f key (some primaryKey) none).outputs schema .rows =
      .ok (target.selection (fun _ => none) target.fields, .record target.name) :=
    keyPlan_outputs hnames f primaryKey key
  rw [rowsWhere_eq f hprimary]
  exact lookupPlan_selection houtputs

/-- **A relation's late statement selects what its batch selects**, under an equality instead of a membership. -/
theorem keyPlan_compile (f primaryKey : Field) (hprimary : primaryKey.name = target.primaryKey) (key : Value)
    (d : Sql.Dialect) :
    (keyPlan target f primaryKey key).compile schema d =
      .ok ⟨.ofTokens d ((rowsWhere target (keyCondition f key)).tokens d) target.columns, [], .record target.name⟩ := by
  unfold Plan.compile
  rw [keyPlan_selection hnames f primaryKey hprimary key]
  rfl

theorem fieldPlan_selection {f : Field} (hf : f ∈ target.fields) (primaryKey : Field) (key : Value) :
    (lookupPlan target primaryKey key none (some ⟨.mapping, [f.name]⟩)).rowSelection schema =
      .ok ⟨lookupQuery target primaryKey key none [⟨.columnOf BatchFetch.rowAlias f.name, some f.name⟩],
        [⟨f.name, .root, some f.type⟩], .mapping [f.name]⟩ := by
  have houtputs : (lookupPlan target primaryKey key none (some ⟨.mapping, [f.name]⟩)).outputs schema .rows =
      .ok (target.selection (fun g => some g.name) [f], .mapping [f.name]) := by
    have hnamed : (lookupPlan target primaryKey key none (some ⟨.mapping, [f.name]⟩)).namedOutput schema f.name
        = .ok { target.output f with selectAlias := some f.name } := by
      unfold Plan.namedOutput
      change (FieldRef.resolve schema target.name f.name >>= _) = _
      rw [hnames f hf]
      rfl
    change ([f.name].mapM ((lookupPlan target primaryKey key none (some ⟨.mapping, [f.name]⟩)).namedOutput schema)
      >>= fun outputs => Except.ok (outputs, ResultShape.mapping [f.name])) = _
    rw [List.mapM_cons, hnamed]
    rfl
  exact lookupPlan_selection houtputs

/-- **A field's late statement** selects this field of the row with the record's key. -/
theorem fieldPlan_compile {f : Field} (hf : f ∈ target.fields) (primaryKey : Field) (key : Value) (d : Sql.Dialect) :
    (lookupPlan target primaryKey key none (some ⟨.mapping, [f.name]⟩)).compile schema d =
      .ok ⟨.ofTokens d ((lookupQuery target primaryKey key none
        [⟨.columnOf BatchFetch.rowAlias f.name, some f.name⟩]).tokens d) [⟨f.name, .root, some f.type⟩], [],
        .mapping [f.name]⟩ := by
  unfold Plan.compile
  rw [fieldPlan_selection hnames hf primaryKey key]
  rfl

/-- A field of the entity names itself in a plan without annotations. -/
theorem named_field {f : Field} (hf : f ∈ target.fields) {p : Plan} (hroot : p.root = target)
    (hnone : p.annotations = []) : p.named schema f.name = .ok (.field (target.ref f)) := by
  unfold Plan.named Plan.annotationOf
  rw [hnone, hroot, hnames f hf]
  rfl

variable (hfound : schema.entity target.name = .ok target) {σ : Type} {engine : Engine σ} (hengine : engine.schema = schema)
  {primaryKey : Field} (hmem : primaryKey ∈ target.fields) (hprimary : primaryKey.name = target.primaryKey)

include hfound hengine hmem hprimary

/-- the plan for the rows of a relation with a key -/
theorem relatedPlan_eq {f : Field} (hf : f ∈ target.fields) {relation : Relation}
    (hremote : relation.remoteColumn = f.name) (key : Value) :
    engine.relatedPlan target relation key = .ok (keyPlan target f primaryKey key) := by
  subst hengine
  unfold Engine.relatedPlan Plan.start Plan.orderBy
  rw [hfound, hremote, ← hprimary]
  change ((Plan.ofEntity target).named engine.schema f.name >>= _) = _
  rw [named_field hnames hf rfl rfl]
  change Except.map _ (Plan.named engine.schema _ primaryKey.name) = _
  rw [named_field hnames hmem rfl rfl]
  rfl

/-- the plan for a field of the row with a key -/
theorem fieldPlan_eq {f : Field} (hf : f ∈ target.fields) (key : Value) :
    engine.fieldPlan target f key = .ok (lookupPlan target primaryKey key none (some ⟨.mapping, [f.name]⟩)) := by
  subst hengine
  unfold Engine.fieldPlan Plan.start Plan.project
  rw [hfound, ← hprimary]
  change ((Plan.ofEntity target).named engine.schema primaryKey.name >>= _) = _
  rw [named_field hnames hmem rfl rfl]
  set p : Plan := Plan.filter (.ofEntity target) ((Expr.field (target.ref primaryKey)).equals (.literal key)) with hp
  have hnamed : p.named engine.schema f.name = .ok (.field (target.ref f)) := named_field hnames hf rfl rfl
  change (((p.named engine.schema f.name >>= fun _ => Except.ok ()) >>= fun _ => Except.ok ()) >>= fun _ => _) = _
  rw [hnamed]
  rfl

end KeyPlan

end RelQuery
