/-
Plans compiled with their literals replaced.

Compiling a plan never looks at the value of a literal. So a plan whose literals are replaced is compiled to what it is
compiled to, with the values replaced: the expressions of a plan (`lower_mapLiterals`) and its query
(`select_mapLiterals`), by one induction on both; and, as long as nulls are kept, the statements of all five kinds
(`compile_mapLiterals`, `compileUpdate_mapLiterals` and their like).
-/
import RelQuery.Proofs.Plan.Literals
import RelQuery.Proofs.Statement.Clauses

namespace RelQuery

section Lowering

variable {f : Value → Value}

theorem connect_mapParams (op : Sql.BinaryOp) (neutral : Int64) (es : List Sql.Expr) :
    connect op neutral (es.map (Sql.Expr.mapParams f)) = (connect op neutral es).mapParams f := by
  have hfold : ∀ (rest : List Sql.Expr) (e : Sql.Expr),
      (rest.map (Sql.Expr.mapParams f)).foldl (.binary op) (e.mapParams f) =
        (rest.foldl (.binary op) e).mapParams f := by
    intro rest
    induction rest with
    | nil => exact fun _ => rfl
    | cons next rest ih => exact fun e => ih (.binary op e next)
  cases es with
  | nil => rfl
  | cons e rest => exact hfold rest e

/-- What aliases mean, with the values replaced. -/
def Expansion.Replaced (f : Value → Value) (expand expand' : Expansion) : Prop :=
  ∀ role name, expand' role name = Sql.Expr.mapParams f <$> expand role name

/-- One fragment compiles to what another does, with the values replaced. -/
def Fragment.Replaced (f : Value → Value) (fragment fragment' : Fragment) : Prop :=
  ∀ scope {expand expand'}, Expansion.Replaced f expand expand' → ∀ role,
    fragment' scope expand' role = Sql.Expr.mapParams f <$> fragment scope expand role

/-- the selection with every value in its query replaced -/
def Selection.mapParams (f : Value → Value) (s : Selection) : Selection := ⟨s.query.mapParams f, s.columns, s.shape⟩

theorem Scope.column_mapParams (scope : Scope) (ref : FieldRef) (role : Role) :
    Sql.Expr.mapParams f <$> scope.column ref role = scope.column ref role := by
  unfold Scope.column
  split
  · rfl
  · split
    · rfl
    · simp only [map_bind, map_pure]
      rfl

theorem Scope.outerColumn_mapParams (scope : Scope) (name : String) :
    Sql.Expr.mapParams f <$> scope.outerColumn name = scope.outerColumn name := by
  unfold Scope.outerColumn
  split
  · rfl
  · split
    · rfl
    · rfl

theorem nested_mapParams {plan plan' : Plan} (scope : Scope) (hcheck : plan'.checkCorrelation = plan.checkCorrelation)
    {select select' : Schema → Option Outer → Nat → Except QueryError (Selection × Nat)}
    (hselect : ∀ schema outer next, select' schema outer next =
      (fun selected => (selected.1.mapParams f, selected.2)) <$> select schema outer next) :
    Lowering.nested plan' scope select' = Sql.Query.mapParams f <$> Lowering.nested plan scope select := by
  simp only [Lowering.nested, hcheck, hselect, map_bind, map_pure, liftM_map, bind_map_left]
  rfl

theorem OutputTerm.mapLiterals_expr (term : OutputTerm) : term.expr.mapLiterals f = term.expr := by
  cases term <;> rfl

namespace Plan

theorem checkCorrelation_mapLiterals (p : Plan) : (p.mapLiterals f).checkCorrelation = p.checkCorrelation := by
  simp [checkCorrelation]

theorem outputs_mapLiterals (p : Plan) (schema : Schema) (purpose : Purpose) :
    (p.mapLiterals f).outputs schema purpose = p.outputs schema purpose := by
  have hannotation : (p.mapLiterals f).annotationOutput = p.annotationOutput := by
    funext name
    rw [annotationOutput, annotationOutput, annotationOf_mapLiterals]
    cases p.annotationOf name <;> simp [orFail]
  have hnamed : (p.mapLiterals f).namedOutput schema = p.namedOutput schema := by
    funext name
    simp [namedOutput, annotationOf_mapLiterals, hannotation]
  have hjoined : (p.mapLiterals f).joinedOutputs schema = p.joinedOutputs schema := by
    simp [joinedOutputs, relationsLoaded]
  have hnarrowed : (p.mapLiterals f).narrowedFields = p.narrowedFields := by
    funext names
    simp [narrowedFields, annotationOf_mapLiterals]
  have hannotations : (p.mapLiterals f).annotations.mapM (fun a => p.annotationOutput a.aliasName) =
      p.annotations.mapM fun a => p.annotationOutput a.aliasName := by
    rw [annotations_mapLiterals, List.mapM_map]
    rfl
  unfold outputs
  simp only [projection_mapLiterals, root_mapLiterals, hannotation, hannotations, hjoined, hnarrowed, hnamed,
    annotationOf_mapLiterals, Option.isSome_map]

theorem exprAggregates_output (p : Plan) (term : OutputTerm) :
    (p.mapLiterals f).exprAggregates term.expr = p.exprAggregates term.expr := by
  rw [← p.exprAggregates_mapLiterals f term.expr, term.mapLiterals_expr]

theorem groupOutputs_mapLiterals (p : Plan) (outputs : List Output) :
    (p.mapLiterals f).groupOutputs outputs = p.groupOutputs outputs := by
  simp only [groupOutputs, exprAggregates_output]

theorem groupFields_mapLiterals (p : Plan) (outputs : List Output) :
    (p.mapLiterals f).groupFields outputs = p.groupFields outputs := by
  have hplain : ∀ term : OutputTerm,
      (p.mapLiterals f).plainField p.aliasBudget term.expr = p.plainField p.aliasBudget term.expr := by
    intro term
    rw [← p.plainField_mapLiterals f p.aliasBudget term.expr, term.mapLiterals_expr]
  simp only [groupFields, groupOutputs_mapLiterals, aliasBudget_mapLiterals, hplain]

theorem checkDefinite_mapLiterals (p : Plan) (key : List String) (e : Expr) (fault : String → GroupingFault) :
    (p.mapLiterals f).checkDefinite key (e.mapLiterals f) fault = p.checkDefinite key e fault := by
  simp only [checkDefinite, ungroupedField, bareFields_mapLiterals]

theorem checkGrouping_mapLiterals (p : Plan) (outputs : List Output) :
    (p.mapLiterals f).checkGrouping outputs = p.checkGrouping outputs := by
  have haliases : (p.mapLiterals f).groupAliases outputs = p.groupAliases outputs := by
    rw [groupAliases, groupAliases, groupOutputs_mapLiterals]
  have hdefinite : ∀ (term : OutputTerm) key fault,
      (p.mapLiterals f).checkDefinite key term.expr fault = p.checkDefinite key term.expr fault := by
    intro term key fault
    rw [← p.checkDefinite_mapLiterals (f := f) key term.expr fault, term.mapLiterals_expr]
  simp only [checkGrouping, groupFields_mapLiterals, haliases, exprAggregates_output, hdefinite,
    filters_mapLiterals, ordering_mapLiterals, List.filter_map, List.forM_eq_forM, List.forM_map, Function.comp_def,
    exprAggregates_mapLiterals, checkDefinite_mapLiterals, Expr.isAliasIn_mapLiterals]

end Plan

/-! ## Fragments -/

/-- The fragments of a plan compile to what those of another do, with the values replaced; the filters themselves have
their literals replaced. -/
structure Fragments.Replaced (f : Value → Value) (fragments fragments' : Fragments) : Prop where
  annotations : List.Forall₂ (fun a a' => a'.1 = a.1 ∧ Fragment.Replaced f a.2 a'.2) fragments.annotations
    fragments'.annotations
  filters : List.Forall₂ (fun a a' => a'.1 = a.1.mapLiterals f ∧ Fragment.Replaced f a.2 a'.2) fragments.filters
    fragments'.filters
  ordering : List.Forall₂ (fun a a' => a'.1 = a.1 ∧ Fragment.Replaced f a.2 a'.2) fragments.ordering
    fragments'.ordering

/-- A step that gives something else on each of two lists, member for member. -/
theorem Lowering.mapM_forall₂ {α α' β β' : Type} {R : α → α' → Prop} {step : α → Lowering β} {step' : α' → Lowering β'}
    {g : β → β'} (hstep : ∀ {a a'}, R a a' → step' a' = g <$> step a) {as : List α} {as' : List α'}
    (h : List.Forall₂ R as as') : as'.mapM step' = List.map g <$> as.mapM step := by
  induction h with
  | nil => simp
  | cons hhead _ ih => simp [List.mapM_cons, hstep hhead, ih]

theorem Fragments.Replaced.lookup {annotations annotations' : List (String × Fragment)}
    (h : List.Forall₂ (fun a a' => a'.1 = a.1 ∧ Fragment.Replaced f a.2 a'.2) annotations annotations')
    (name : String) :
    Option.Rel (Fragment.Replaced f) (annotations.lookup name) (annotations'.lookup name) := by
  induction h with
  | nil => exact .none
  | @cons a a' _ _ hhead _ ih =>
    obtain ⟨key, fragment⟩ := a
    obtain ⟨key', fragment'⟩ := a'
    obtain ⟨rfl, hfragment⟩ := hhead
    simp only [List.lookup_cons]
    split
    · exact .some hfragment
    · exact ih

theorem Fragments.Replaced.expand {fragments fragments' : Fragments} (h : fragments.Replaced f fragments')
    (scope : Scope) (budget : Nat) :
    Expansion.Replaced f (fragments.expand scope budget) (fragments'.expand scope budget) := by
  induction budget with
  | zero => exact fun _ _ => rfl
  | succ budget ih =>
    intro role name
    have hlookup := lookup h.annotations name
    unfold Fragments.expand
    revert hlookup
    cases fragments.annotations.lookup name <;> cases fragments'.annotations.lookup name <;> intro hlookup
    · rfl
    · cases hlookup
    · cases hlookup
    · cases hlookup with
      | some hfragment => exact hfragment scope ih role

theorem Fragments.Replaced.expansion {fragments fragments' : Fragments} (h : fragments.Replaced f fragments')
    (scope : Scope) : Expansion.Replaced f (fragments.expansion scope) (fragments'.expansion scope) := by
  unfold Fragments.expansion
  rw [h.annotations.length_eq]
  exact h.expand scope _

theorem OutputTerm.lower_mapParams {scope : Scope} {expand expand' : Expansion}
    (hexpand : Expansion.Replaced f expand expand') (role : Role) (term : OutputTerm) :
    term.lower scope expand' role = Sql.Expr.mapParams f <$> term.lower scope expand role := by
  cases term with
  | field ref => exact (scope.column_mapParams ref role).symm
  | aliasRef name => exact hexpand role name

theorem reduceTo_mapParams (column : Sql.Expr) (hcolumn : column.mapParams f = column) (wrap paged : Bool)
    (query : Sql.Query) (next : Nat) :
    (reduceTo column wrap paged query next).mapParams f = reduceTo column wrap paged (query.mapParams f) next := by
  cases wrap <;> cases paged <;>
    simp [reduceTo, Sql.Query.mapParams_eq, hcolumn, Sql.Query.selecting, Sql.Source.mapParams]

namespace Plan

theorem joins_mapParams (state : JoinState) :
    (state.joins.map fun join => (⟨join.kind, join.table, join.on.mapParams f⟩ : Sql.Join)) = state.joins := by
  simp [JoinState.joins, Sql.Expr.eq, Sql.Expr.columnOf, Sql.Expr.mapParams]

theorem lowerClauses_mapLiterals (p : Plan) {fragments fragments' : Fragments} (h : fragments.Replaced f fragments')
    (scope : Scope) (outputs : List Output) :
    (p.mapLiterals f).lowerClauses fragments' scope outputs =
      Sql.Query.mapParams f <$> p.lowerClauses fragments scope outputs := by
  have hexpand := h.expansion scope
  have hitems : outputs.mapM (fun output => do
        let e ← output.term.lower scope (fragments'.expansion scope) output.role
        return (output, e)) =
      List.map (fun item => (item.1, item.2.mapParams f)) <$> outputs.mapM fun output => do
        let e ← output.term.lower scope (fragments.expansion scope) output.role
        return (output, e) := by
    refine Lowering.mapM_forall₂ (R := Eq) ?_ (List.forall₂_refl _)
    rintro output _ rfl
    simp [OutputTerm.lower_mapParams hexpand]
  have hconditions : fragments'.filters.mapM (fun filter => do
        let grouped := (p.mapLiterals f).exprAggregates filter.1
        let e ← filter.2 scope (fragments'.expansion scope) (if grouped then .computed else .filter)
        return (grouped, e)) =
      List.map (fun c => (c.1, c.2.mapParams f)) <$> fragments.filters.mapM fun filter => do
        let grouped := p.exprAggregates filter.1
        let e ← filter.2 scope (fragments.expansion scope) (if grouped then .computed else .filter)
        return (grouped, e) := by
    refine Lowering.mapM_forall₂ ?_ h.filters
    rintro filter filter' ⟨hexpr, hfragment⟩
    simp [hexpr, hfragment scope hexpand]
  have hkeys : fragments'.ordering.mapM (fun key => do
        let e ← key.2 scope (fragments'.expansion scope) .output
        return (⟨e, some key.1.toSql⟩ : Sql.OrderKey)) =
      List.map (fun key => ⟨key.expr.mapParams f, key.direction⟩) <$> fragments.ordering.mapM fun key => do
        let e ← key.2 scope (fragments.expansion scope) .output
        return (⟨e, some key.1.toSql⟩ : Sql.OrderKey) := by
    refine Lowering.mapM_forall₂ ?_ h.ordering
    rintro key key' ⟨hdirection, hfragment⟩
    simp [hdirection, hfragment scope hexpand]
  simp only [lowerClauses, hitems, hconditions, hkeys, map_bind, map_pure, bind_map_left, Sql.Query.mapParams_eq,
    joins_mapParams, distinct_mapLiterals, isGrouped_mapLiterals, isPaged_mapLiterals, limit_mapLiterals,
    offset_mapLiterals, exprAggregates_output, ← Sql.Expr.conjunction_mapParams, List.map_map, List.filter_map,
    Function.comp_def, Option.map_some, Sql.Source.mapParams, apply_ite (List.map (Sql.Expr.mapParams f)), List.map_nil]

theorem assemble_mapLiterals (schema : Schema) (p : Plan) {fragments fragments' : Fragments}
    (h : fragments.Replaced f fragments') (purpose : Purpose) (outer : Option Outer) (next : Nat) :
    (p.mapLiterals f).assemble schema fragments' purpose outer next =
      (fun selected => (selected.1.mapParams f, selected.2)) <$> p.assemble schema fragments purpose outer next := by
  simp only [assemble, outputs_mapLiterals, isGrouped_mapLiterals, checkGrouping_mapLiterals,
    lowerClauses_mapLiterals p h, map_bind, root_mapLiterals, distinct_mapLiterals, isPaged_mapLiterals, StateT.run_map,
    bind_map_left]
  have hone := reduceTo_mapParams (f := f) (.int 1) rfl
  have hcount := reduceTo_mapParams (f := f) .countRows rfl
  refine bind_congr fun outputs => ?_
  by_cases hgrouped : p.isGrouped = true
  · simp only [if_pos hgrouped, map_bind]
    refine bind_congr fun _ => bind_congr fun lowered => ?_
    cases purpose <;> simp [Selection.mapParams, hone, hcount]
  · simp only [if_neg hgrouped, map_bind]
    refine bind_congr fun lowered => ?_
    cases purpose <;> simp [Selection.mapParams, hone, hcount]

end Plan

mutual

/-- An expression with its literals replaced is compiled to what it is compiled to, with the values replaced. -/
theorem Expr.lower_mapLiterals (hf : f .null = .null) : (e : Expr) → Fragment.Replaced f e.lower (e.mapLiterals f).lower
  | .field ref => fun scope _ _ _ role => (scope.column_mapParams ref role).symm
  | .aliasRef name => fun scope _ _ hexpand role => hexpand role name
  | .literal v => fun _ _ _ _ _ => (map_pure _ _).symm
  | .binary op left right => fun scope _ _ hexpand role => by
    simp only [Expr.mapLiterals, Expr.lower, left.lower_mapLiterals hf scope hexpand,
      right.lower_mapLiterals hf scope hexpand, map_bind, bind_map_left, map_pure, Sql.Expr.mapParams]
  | .and operands | .or operands => fun scope _ _ hexpand role => by
    simp only [Expr.mapLiterals, Expr.lower, lowerList_mapLiterals hf operands scope hexpand, map_bind, bind_map_left,
      map_pure, connect_mapParams]
  | .not operand | .isNull operand _ => fun scope _ _ hexpand role => by
    simp only [Expr.mapLiterals, Expr.lower, operand.lower_mapLiterals hf scope hexpand, map_bind, bind_map_left,
      map_pure, Sql.Expr.mapParams]
  | .inList operand values negated => fun scope _ _ hexpand role => by
    simp only [Expr.mapLiterals, Expr.lower, operand.lower_mapLiterals hf scope hexpand,
      lowerList_mapLiterals hf values scope hexpand, map_bind, bind_map_left, map_pure, Sql.Expr.mapParams,
      Sql.mapParamsOfList_eq]
  | .case [] none => fun _ _ _ _ _ => by
    simp only [Expr.mapLiterals, mapLiteralsOfArms, Expr.lower, map_pure, Sql.Expr.mapParams, hf]
  | .case [] (some otherwise) => fun scope _ _ hexpand role =>
    otherwise.lower_mapLiterals hf scope hexpand role.weakened
  | .case ((test, result) :: arms) none => fun scope _ _ hexpand role => by
    have harms := lowerArms_mapLiterals hf ((test, result) :: arms) scope hexpand role.weakened
    rw [mapLiteralsOfArms] at harms
    simp only [Expr.mapLiterals, mapLiteralsOfArms, Expr.lower, harms, map_bind, bind_map_left, map_pure,
      Sql.Expr.mapParams, Sql.mapParamsOfArms_eq]
  | .case ((test, result) :: arms) (some otherwise) => fun scope _ _ hexpand role => by
    have harms := lowerArms_mapLiterals hf ((test, result) :: arms) scope hexpand role.weakened
    rw [mapLiteralsOfArms] at harms
    simp only [Expr.mapLiterals, mapLiteralsOfArms, Expr.lower, harms, otherwise.lower_mapLiterals hf scope hexpand,
      map_bind, bind_map_left, map_pure, Sql.Expr.mapParams, Sql.mapParamsOfArms_eq]
  | .aggregate _ none _ => fun _ _ _ _ _ => (map_pure _ _).symm
  | .aggregate function (some arg) distinct => fun scope _ _ hexpand role => by
    simp only [Expr.mapLiterals, Expr.lower, arg.lower_mapLiterals hf scope hexpand, map_bind, bind_map_left, map_pure,
      Sql.Expr.mapParams, Sql.mapParamsOfList]
  | .outer name => fun scope _ _ _ _ => (scope.outerColumn_mapParams name).symm
  | .correlated plan | .existsRow plan _ => fun scope _ _ _ _ => by
    simp only [Expr.mapLiterals, Expr.lower,
      nested_mapParams scope plan.checkCorrelation_mapLiterals fun schema outer next =>
        plan.select_mapLiterals hf schema _ outer next, map_bind, bind_map_left, map_pure, Sql.Expr.mapParams]
termination_by structural e => e

theorem lowerList_mapLiterals (hf : f .null = .null) : (es : List Expr) → ∀ scope {expand expand'},
    Expansion.Replaced f expand expand' → ∀ role, lowerList (mapLiteralsOfExprs f es) scope expand' role =
      List.map (Sql.Expr.mapParams f) <$> lowerList es scope expand role
  | [], _, _, _, _, _ => by simp only [mapLiteralsOfExprs, lowerList, map_pure, List.map_nil]
  | e :: rest, _, _, _, hexpand, role => by
    simp only [mapLiteralsOfExprs, lowerList, e.lower_mapLiterals hf _ hexpand, lowerList_mapLiterals hf rest _ hexpand,
      map_bind, bind_map_left, map_pure, List.map_cons]
termination_by structural es => es

theorem lowerArms_mapLiterals (hf : f .null = .null) : (arms : List (Expr × Expr)) → ∀ scope {expand expand'},
    Expansion.Replaced f expand expand' → ∀ role, lowerArms (mapLiteralsOfArms f arms) scope expand' role =
      List.map (fun arm => (arm.1.mapParams f, arm.2.mapParams f)) <$> lowerArms arms scope expand role
  | [], _, _, _, _, _ => by simp only [mapLiteralsOfArms, lowerArms, map_pure, List.map_nil]
  | (test, result) :: rest, _, _, _, hexpand, role => by
    simp only [mapLiteralsOfArms, lowerArms, test.lower_mapLiterals hf _ hexpand, result.lower_mapLiterals hf _ hexpand,
      lowerArms_mapLiterals hf rest _ hexpand, map_bind, bind_map_left, map_pure, List.map_cons]
termination_by structural arms => arms

theorem annotationFragments_mapLiterals (hf : f .null = .null) : (annotations : List Annotation) →
    List.Forall₂ (fun a a' => a'.1 = a.1 ∧ Fragment.Replaced f a.2 a'.2) (annotationFragments annotations)
      (annotationFragments (mapLiteralsOfAnnotations f annotations))
  | [] => .nil
  | ⟨_, e⟩ :: rest => .cons ⟨rfl, e.lower_mapLiterals hf⟩ (annotationFragments_mapLiterals hf rest)
termination_by structural annotations => annotations

theorem filterFragments_mapLiterals (hf : f .null = .null) : (filters : List Expr) →
    List.Forall₂ (fun a a' => a'.1 = a.1.mapLiterals f ∧ Fragment.Replaced f a.2 a'.2) (filterFragments filters)
      (filterFragments (mapLiteralsOfExprs f filters))
  | [] => .nil
  | e :: rest => .cons ⟨rfl, e.lower_mapLiterals hf⟩ (filterFragments_mapLiterals hf rest)
termination_by structural filters => filters

theorem orderFragments_mapLiterals (hf : f .null = .null) : (keys : List OrderKey) →
    List.Forall₂ (fun a a' => a'.1 = a.1 ∧ Fragment.Replaced f a.2 a'.2) (orderFragments keys)
      (orderFragments (mapLiteralsOfOrdering f keys))
  | [] => .nil
  | ⟨e, _⟩ :: rest => .cons ⟨rfl, e.lower_mapLiterals hf⟩ (orderFragments_mapLiterals hf rest)
termination_by structural keys => keys

/-- A plan with its literals replaced is compiled to what it is compiled to, with the values replaced. -/
theorem Plan.select_mapLiterals (hf : f .null = .null) : (p : Plan) → (schema : Schema) → (purpose : Purpose) →
    (outer : Option Outer) → (next : Nat) → (p.mapLiterals f).select schema purpose outer next =
      (fun selected => (selected.1.mapParams f, selected.2)) <$> p.select schema purpose outer next
  | ⟨root, filters, annotations, projection, ordering, limit, offset, distinct, loadings⟩, schema, purpose, outer,
    next =>
    Plan.assemble_mapLiterals schema
      ⟨root, filters, annotations, projection, ordering, limit, offset, distinct, loadings⟩
      ⟨annotationFragments_mapLiterals hf annotations, filterFragments_mapLiterals hf filters,
        orderFragments_mapLiterals hf ordering⟩ purpose outer next
termination_by structural p => p

end

end Lowering

/-! ## Statements -/

/-- the statements for a plan's rows with the values bound in the primary one replaced -/
def CompiledQuery.mapParams (f : Value → Value) (q : CompiledQuery) : CompiledQuery :=
  { q with primary := q.primary.mapParams f }

namespace Plan

section Statements

variable {f g : Value → Value}

theorem fragments_mapLiterals (hf : f .null = .null) (p : Plan) :
    p.fragments.Replaced f (p.mapLiterals f).fragments := by
  obtain ⟨root, filters, annotations, projection, ordering, limit, offset, distinct, loadings⟩ := p
  exact ⟨annotationFragments_mapLiterals hf annotations, filterFragments_mapLiterals hf filters,
    orderFragments_mapLiterals hf ordering⟩

theorem project_mapLiterals (schema : Schema) (p : Plan) (names : List String) :
    (p.mapLiterals f).project schema names = mapLiterals f <$> p.project schema names := by
  have hnamed : (p.mapLiterals f).named schema = p.named schema := by
    funext name
    simp only [named, annotationOf_mapLiterals, Option.isSome_map, root_mapLiterals]
  simp only [project, hnamed, map_bind, map_pure]
  simp only [mapLiterals_eq]

theorem keyPlan_mapLiterals (schema : Schema) (p : Plan) :
    (p.mapLiterals f).keyPlan schema = mapLiterals f <$> p.keyPlan schema := by
  simp only [keyPlan, root_mapLiterals, project_mapLiterals, isPaged_mapLiterals, bind_map_left, map_bind, map_pure]
  cases p.isPaged <;> simp [clearOrdering, mapLiterals_eq]

theorem keyQuery_mapLiterals (hf : f .null = .null) (schema : Schema) (p : Plan) : (p.mapLiterals f).keyQuery schema =
    (fun keys => (keys.1.map (Sql.Query.mapParams f), keys.2)) <$> p.keyQuery schema := by
  simp only [keyQuery, needsKeys_mapLiterals, keyPlan_mapLiterals, bind_map_left, select_mapLiterals hf]
  split <;> simp [Selection.mapParams]

theorem lowerInChange_mapLiterals (hf : f .null = .null) (schema : Schema) (p : Plan) {fragment fragment' : Fragment}
    (hfragment : fragment.Replaced f fragment') :
    (p.mapLiterals f).lowerInChange schema fragment' = Sql.Expr.mapParams f <$> p.lowerInChange schema fragment := by
  simp only [lowerInChange, root_mapLiterals]
  exact hfragment _ ((p.fragments_mapLiterals hf).expansion _) _

theorem lowerCondition_mapLiterals (hf : f .null = .null) (schema : Schema) (p : Plan) (keys : Option Sql.Query) :
    (p.mapLiterals f).lowerCondition schema (keys.map (Sql.Query.mapParams f)) =
      Option.map (Sql.Expr.mapParams f) <$> p.lowerCondition schema keys := by
  cases keys with
  | some q => simp [lowerCondition, Sql.Expr.mapParams]
  | none =>
    have hconditions : (p.mapLiterals f).fragments.filters.mapM (fun filter =>
          (p.mapLiterals f).lowerInChange schema filter.2) =
        List.map (Sql.Expr.mapParams f) <$> p.fragments.filters.mapM fun filter => p.lowerInChange schema filter.2 :=
      Lowering.mapM_forall₂ (fun hpair => lowerInChange_mapLiterals hf schema p hpair.2)
        (p.fragments_mapLiterals hf).filters
    simp [lowerCondition, hconditions, Sql.Expr.conjunction_mapParams]

theorem delete_mapLiterals (hf : f .null = .null) (schema : Schema) (p : Plan) :
    (p.mapLiterals f).delete schema = Sql.Delete.mapParams f <$> p.delete schema := by
  simp [delete, keyQuery_mapLiterals hf, lowerCondition_mapLiterals hf, StateT.run'_eq, Sql.Delete.mapParams]

theorem lowerAssignment_mapLiterals (hf : f .null = .null) (schema : Schema) (p : Plan) (column : String)
    (value : Expr) : (p.mapLiterals f).lowerAssignment schema column (value.mapLiterals f) =
      (fun assigned => (assigned.1, assigned.2.mapParams f)) <$> p.lowerAssignment schema column value := by
  simp only [lowerAssignment, root_mapLiterals, exprAggregates_mapLiterals,
    lowerInChange_mapLiterals hf schema p (value.lower_mapLiterals hf), map_bind, bind_map_left]
  refine bind_congr fun field => ?_
  split <;> simp

theorem update_mapLiterals (hf : f .null = .null) (schema : Schema) (p : Plan) (assignments : List (String × Expr)) :
    (p.mapLiterals f).update schema (assignments.map fun a => (a.1, a.2.mapLiterals f)) =
      Sql.Update.mapParams f <$> p.update schema assignments := by
  have hassigned : (assignments.map fun a => (a.1, a.2.mapLiterals f)).mapM (fun a =>
        (p.mapLiterals f).lowerAssignment schema a.1 a.2) =
      List.map (fun assigned => (assigned.1, assigned.2.mapParams f)) <$>
        assignments.mapM fun a => p.lowerAssignment schema a.1 a.2 := by
    refine Lowering.mapM_forall₂ (R := fun a a' => a' = (a.1, a.2.mapLiterals f)) ?_ ?_
    · rintro a _ rfl
      exact p.lowerAssignment_mapLiterals hf schema a.1 a.2
    · exact List.forall₂_map_right_iff.2 (List.forall₂_same.2 fun _ _ => rfl)
  simp [update, keyQuery_mapLiterals hf, lowerCondition_mapLiterals hf, hassigned, StateT.run'_eq,
    Sql.Update.mapParams]

theorem compile_mapLiterals (h : Replaces f g) (schema : Schema) (d : Sql.Dialect) (p : Plan) :
    (p.mapLiterals f).compile schema d = CompiledQuery.mapParams g <$> p.compile schema d := by
  have hbatches : (p.mapLiterals f).batches schema = p.batches schema := by
    funext columns
    simp only [batches, relationsLoaded, loadings_mapLiterals, root_mapLiterals]
  have hselection : (p.mapLiterals f).rowSelection schema = Selection.mapParams f <$> p.rowSelection schema := by
    rw [rowSelection, rowSelection, select_mapLiterals h.null]
    cases p.select schema .rows none 0 <;> rfl
  simp only [compile, hselection, hbatches, bind_map_left, map_bind, Selection.mapParams]
  refine bind_congr fun selection => ?_
  by_cases hmapping : selection.shape.isMapping = true <;>
    simp [hmapping, CompiledQuery.mapParams, Sql.Query.tokens_mapParams h, Statement.ofTokens_mapBound]

theorem compileCount_mapLiterals (h : Replaces f g) (schema : Schema) (d : Sql.Dialect) (p : Plan) :
    (p.mapLiterals f).compileCount schema d = Statement.mapParams g <$> p.compileCount schema d := by
  have hquery : (p.mapLiterals f).countQuery schema = Sql.Query.mapParams f <$> p.countQuery schema := by
    rw [countQuery, countQuery, select_mapLiterals h.null]
    cases p.select schema .count none 0 <;> rfl
  simp [compileCount, hquery, Sql.Query.tokens_mapParams h, Statement.ofTokens_mapBound]

theorem compileExists_mapLiterals (h : Replaces f g) (schema : Schema) (d : Sql.Dialect) (p : Plan) :
    (p.mapLiterals f).compileExists schema d = Statement.mapParams g <$> p.compileExists schema d := by
  have hlimited : ∀ q : Sql.Query, limitedTo 1 (q.mapParams f) = (limitedTo 1 q).mapParams f := by
    intro q
    simp only [limitedTo, Sql.Query.mapParams_eq]
  have hquery : (p.mapLiterals f).existsQuery schema = Sql.Query.mapParams f <$> p.existsQuery schema := by
    rw [existsQuery, existsQuery, select_mapLiterals h.null]
    cases p.select schema .existence none 0 with
    | error e => rfl
    | ok selected => exact congrArg Except.ok (hlimited selected.1.query)
  simp [compileExists, hquery, Sql.Query.tokens_mapParams h, Statement.ofTokens_mapBound]

theorem compileDelete_mapLiterals (h : Replaces f g) (schema : Schema) (d : Sql.Dialect) (p : Plan) :
    (p.mapLiterals f).compileDelete schema d = Statement.mapParams g <$> p.compileDelete schema d := by
  simp [compileDelete, delete_mapLiterals h.null, Sql.Delete.tokens_mapParams h, Statement.ofTokens_mapBound]

theorem compileUpdate_mapLiterals (h : Replaces f g) (schema : Schema) (d : Sql.Dialect) (p : Plan)
    (assignments : List (String × Expr)) :
    (p.mapLiterals f).compileUpdate schema d (assignments.map fun a => (a.1, a.2.mapLiterals f)) =
      Statement.mapParams g <$> p.compileUpdate schema d assignments := by
  simp [compileUpdate, update_mapLiterals h.null, Sql.Update.tokens_mapParams h, Statement.ofTokens_mapBound]

end Statements

end Plan

end RelQuery
