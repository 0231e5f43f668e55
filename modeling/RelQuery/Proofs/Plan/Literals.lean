/-
The literals of a plan.

`Plan.literals` lists the literals of a plan that are not null, and `Plan.fill` puts other values in their places; two
plans that differ in nothing else are one plan, filled with two lists of values. Filled with labels, a plan tells its
literals apart, and every other filling is the labels replaced (`fill_mapLiterals`). What a plan refers to and whether
it aggregates does not depend on its literals.
-/
import RelQuery.Proofs.Plan.Encoding
import RelQuery.Proofs.Sql.Params
import RelQuery.Statement.Change

namespace RelQuery

section Literals

variable (f : Value → Value)

/-! ## Literals replaced -/

theorem mapLiteralsOfExprs_eq (es : List Expr) : mapLiteralsOfExprs f es = es.map (Expr.mapLiterals f) := by
  induction es with
  | nil => rfl
  | cons e rest ih => rw [mapLiteralsOfExprs, ih, List.map_cons]

theorem mapLiteralsOfAnnotations_eq (annotations : List Annotation) :
    mapLiteralsOfAnnotations f annotations = annotations.map fun a => ⟨a.aliasName, a.expr.mapLiterals f⟩ := by
  induction annotations with
  | nil => rfl
  | cons a rest ih =>
    obtain ⟨aliasName, e⟩ := a
    rw [mapLiteralsOfAnnotations, ih, List.map_cons]

theorem mapLiteralsOfOrdering_eq (keys : List OrderKey) :
    mapLiteralsOfOrdering f keys = keys.map fun key => ⟨key.expr.mapLiterals f, key.direction⟩ := by
  induction keys with
  | nil => rfl
  | cons key rest ih =>
    obtain ⟨e, direction⟩ := key
    rw [mapLiteralsOfOrdering, ih, List.map_cons]

theorem Plan.mapLiterals_eq (p : Plan) : p.mapLiterals f =
    ⟨p.root, p.filters.map (Expr.mapLiterals f), p.annotations.map fun a => ⟨a.aliasName, a.expr.mapLiterals f⟩,
      p.projection, p.ordering.map fun key => ⟨key.expr.mapLiterals f, key.direction⟩, p.limit, p.offset, p.distinct,
      p.loadings⟩ := by
  obtain ⟨⟩ := p
  rw [mapLiterals, mapLiteralsOfExprs_eq, mapLiteralsOfAnnotations_eq, mapLiteralsOfOrdering_eq]

namespace Plan

variable (p : Plan)

@[simp] theorem root_mapLiterals : (p.mapLiterals f).root = p.root := by rw [mapLiterals_eq]

@[simp] theorem projection_mapLiterals : (p.mapLiterals f).projection = p.projection := by rw [mapLiterals_eq]

@[simp] theorem distinct_mapLiterals : (p.mapLiterals f).distinct = p.distinct := by rw [mapLiterals_eq]

@[simp] theorem limit_mapLiterals : (p.mapLiterals f).limit = p.limit := by rw [mapLiterals_eq]

@[simp] theorem offset_mapLiterals : (p.mapLiterals f).offset = p.offset := by rw [mapLiterals_eq]

@[simp] theorem loadings_mapLiterals : (p.mapLiterals f).loadings = p.loadings := by rw [mapLiterals_eq]

@[simp] theorem isPaged_mapLiterals : (p.mapLiterals f).isPaged = p.isPaged := by simp [isPaged]

theorem filters_mapLiterals : (p.mapLiterals f).filters = p.filters.map (Expr.mapLiterals f) := by rw [mapLiterals_eq]

theorem annotations_mapLiterals : (p.mapLiterals f).annotations =
    p.annotations.map fun a => ⟨a.aliasName, a.expr.mapLiterals f⟩ := by rw [mapLiterals_eq]

theorem ordering_mapLiterals : (p.mapLiterals f).ordering =
    p.ordering.map fun key => ⟨key.expr.mapLiterals f, key.direction⟩ := by rw [mapLiterals_eq]

theorem expressions_mapLiterals : (p.mapLiterals f).expressions = p.expressions.map (Expr.mapLiterals f) := by
  simp [expressions, filters_mapLiterals, annotations_mapLiterals, ordering_mapLiterals, Function.comp_def]

theorem annotationOf_mapLiterals (name : String) :
    (p.mapLiterals f).annotationOf name = (p.annotationOf name).map (Expr.mapLiterals f) := by
  rw [annotationOf, annotationOf, annotations_mapLiterals, List.find?_map, Option.map_map, Option.map_map]
  rfl

@[simp] theorem aliasBudget_mapLiterals : (p.mapLiterals f).aliasBudget = p.aliasBudget := by
  simp [aliasBudget, annotations_mapLiterals]

end Plan

/-! ## What does not depend on literals -/

namespace Expr

mutual

theorem nodes_mapLiterals : (e : Expr) → (e.mapLiterals f).nodes = e.nodes.map (mapLiterals f)
  | .field _ | .aliasRef _ | .literal _ | .outer _ | .correlated _ | .existsRow .. => rfl
  | .binary op left right => by
    simp only [mapLiterals, nodes, nodes_mapLiterals left, nodes_mapLiterals right, List.map_cons, List.map_append]
  | .and operands | .or operands => by
    simp only [mapLiterals, nodes, nodesOfList_mapLiterals operands, List.map_cons]
  | .not operand | .isNull operand _ => by simp only [mapLiterals, nodes, nodes_mapLiterals operand, List.map_cons]
  | .inList operand values _ => by
    simp only [mapLiterals, nodes, nodes_mapLiterals operand, nodesOfList_mapLiterals values, List.map_cons,
      List.map_append]
  | .case arms none => by
    simp only [mapLiterals, nodes, nodesOfArms_mapLiterals arms, List.append_nil, List.map_cons]
  | .case arms (some e) => by
    simp only [mapLiterals, nodes, nodesOfArms_mapLiterals arms, nodes_mapLiterals e, List.map_cons, List.map_append]
  | .aggregate _ none _ => rfl
  | .aggregate _ (some arg) _ => by simp only [mapLiterals, nodes, nodes_mapLiterals arg, List.map_cons]
termination_by structural e => e

theorem nodesOfList_mapLiterals : (es : List Expr) →
    nodesOfList (mapLiteralsOfExprs f es) = (nodesOfList es).map (mapLiterals f)
  | [] => rfl
  | e :: rest => by
    simp only [mapLiteralsOfExprs, nodesOfList, nodes_mapLiterals e, nodesOfList_mapLiterals rest, List.map_append]
termination_by structural es => es

theorem nodesOfArms_mapLiterals : (arms : List (Expr × Expr)) →
    nodesOfArms (mapLiteralsOfArms f arms) = (nodesOfArms arms).map (mapLiterals f)
  | [] => rfl
  | (test, result) :: rest => by
    simp only [mapLiteralsOfArms, nodesOfArms, nodes_mapLiterals test, nodes_mapLiterals result,
      nodesOfArms_mapLiterals rest, List.map_append]
termination_by structural arms => arms

end

variable (e : Expr)

/-- What is told of each part by its kind is the same. -/
theorem filterMap_nodes_mapLiterals {α : Type} {g : Expr → Option α} (hg : ∀ node, g (node.mapLiterals f) = g node) :
    (e.mapLiterals f).nodes.filterMap g = e.nodes.filterMap g := by
  rw [nodes_mapLiterals, List.filterMap_map]
  exact congrArg (List.filterMap · e.nodes) (funext hg)

@[simp] theorem containsAggregate_mapLiterals : (e.mapLiterals f).containsAggregate = e.containsAggregate := by
  have hnode : ∀ node : Expr, (node.mapLiterals f).isAggregate = node.isAggregate := fun node => by
    cases node <;> simp [mapLiterals_case, mapLiterals_aggregate, mapLiterals, isAggregate]
  rw [containsAggregate, containsAggregate, nodes_mapLiterals, List.any_map]
  exact congrArg (List.any e.nodes) (funext hnode)

@[simp] theorem fieldRefs_mapLiterals : (e.mapLiterals f).fieldRefs = e.fieldRefs :=
  e.filterMap_nodes_mapLiterals f fun node => by
    cases node <;> simp [mapLiterals_case, mapLiterals_aggregate, mapLiterals]

@[simp] theorem outerRefs_mapLiterals : (e.mapLiterals f).outerRefs = e.outerRefs :=
  e.filterMap_nodes_mapLiterals f fun node => by
    cases node <;> simp [mapLiterals_case, mapLiterals_aggregate, mapLiterals]

@[simp] theorem aliases_mapLiterals : (e.mapLiterals f).aliases = e.aliases :=
  e.filterMap_nodes_mapLiterals f fun node => by
    cases node <;> simp [mapLiterals_case, mapLiterals_aggregate, mapLiterals]

@[simp] theorem fieldType_mapLiterals : (e.mapLiterals f).fieldType = e.fieldType := by
  cases e <;> simp [mapLiterals_case, mapLiterals_aggregate, mapLiterals, fieldType]

@[simp] theorem isAliasIn_mapLiterals (aliases : List String) :
    (e.mapLiterals f).isAliasIn aliases = e.isAliasIn aliases := by
  cases e <;> simp [mapLiterals_case, mapLiterals_aggregate, mapLiterals, isAliasIn]

end Expr

namespace Plan

variable (p : Plan)

@[simp] theorem isAggregateAlias_mapLiterals : (p.mapLiterals f).isAggregateAlias = p.isAggregateAlias := by
  have hbudget : ∀ budget, (p.mapLiterals f).aliasAggregates budget = p.aliasAggregates budget := by
    intro budget
    induction budget with
    | zero => rfl
    | succ budget ih =>
      funext name
      simp only [aliasAggregates, annotationOf_mapLiterals, ih]
      cases p.annotationOf name <;> simp
  funext name
  rw [isAggregateAlias, isAggregateAlias, aliasBudget_mapLiterals, hbudget]

@[simp] theorem exprAggregates_mapLiterals (e : Expr) :
    (p.mapLiterals f).exprAggregates (e.mapLiterals f) = p.exprAggregates e := by
  simp [exprAggregates]

@[simp] theorem hasAggregates_mapLiterals : (p.mapLiterals f).hasAggregates = p.hasAggregates := by
  simp [hasAggregates, annotations_mapLiterals, Function.comp_def]

@[simp] theorem isGrouped_mapLiterals : (p.mapLiterals f).isGrouped = p.isGrouped := by
  simp [isGrouped, filters_mapLiterals, ordering_mapLiterals, Function.comp_def]

@[simp] theorem outerRefs_mapLiterals : (p.mapLiterals f).outerRefs = p.outerRefs := by
  simp [outerRefs, expressions_mapLiterals, List.flatMap_map]

end Plan

namespace Expr

variable {f} {root : Entity} {expand : String → List String}

mutual

theorem bareFields_mapLiterals : (e : Expr) → (e.mapLiterals f).bareFields root expand = e.bareFields root expand
  | .field _ | .aliasRef _ | .literal _ | .outer _ => rfl
  | .binary _ left right => by
    simp only [mapLiterals, bareFields, bareFields_mapLiterals left, bareFields_mapLiterals right]
  | .and operands | .or operands => by simp only [mapLiterals, bareFields, bareFieldsOfList_mapLiterals operands]
  | .not operand | .isNull operand _ => by simp only [mapLiterals, bareFields, bareFields_mapLiterals operand]
  | .inList operand values _ => by
    simp only [mapLiterals, bareFields, bareFields_mapLiterals operand, bareFieldsOfList_mapLiterals values]
  | .case arms none => by simp only [mapLiterals, bareFields, bareFieldsOfArms_mapLiterals arms]
  | .case arms (some e) => by
    simp only [mapLiterals, bareFields, bareFieldsOfArms_mapLiterals arms, bareFields_mapLiterals e]
  | .aggregate _ none _ | .aggregate _ (some _) _ => rfl
  | .correlated plan | .existsRow plan _ => by simp only [mapLiterals, bareFields, Plan.outerRefs_mapLiterals]
termination_by structural e => e

theorem bareFieldsOfList_mapLiterals : (es : List Expr) →
    bareFieldsOfList root expand (mapLiteralsOfExprs f es) = bareFieldsOfList root expand es
  | [] => rfl
  | e :: rest => by
    simp only [mapLiteralsOfExprs, bareFieldsOfList, bareFields_mapLiterals e, bareFieldsOfList_mapLiterals rest]
termination_by structural es => es

theorem bareFieldsOfArms_mapLiterals : (arms : List (Expr × Expr)) →
    bareFieldsOfArms root expand (mapLiteralsOfArms f arms) = bareFieldsOfArms root expand arms
  | [] => rfl
  | (test, result) :: rest => by
    simp only [mapLiteralsOfArms, bareFieldsOfArms, bareFields_mapLiterals test, bareFields_mapLiterals result,
      bareFieldsOfArms_mapLiterals rest]
termination_by structural arms => arms

end

end Expr

namespace Plan

variable (p : Plan)

@[simp] theorem bareFields_mapLiterals (e : Expr) :
    (p.mapLiterals f).bareFields (e.mapLiterals f) = p.bareFields e := by
  have hbudget : ∀ budget, (p.mapLiterals f).aliasBareFields budget = p.aliasBareFields budget := by
    intro budget
    induction budget with
    | zero => rfl
    | succ budget ih =>
      funext name
      simp only [aliasBareFields, annotationOf_mapLiterals, ih]
      cases p.annotationOf name with
      | none => rfl
      | some e =>
        simp only [Option.map_some, root_mapLiterals]
        exact e.bareFields_mapLiterals
  rw [bareFields, bareFields, hbudget, Expr.bareFields_mapLiterals, root_mapLiterals, aliasBudget_mapLiterals]

@[simp] theorem plainField_mapLiterals (budget : Nat) (e : Expr) :
    (p.mapLiterals f).plainField budget (e.mapLiterals f) = p.plainField budget e := by
  induction budget generalizing e with
  | zero => cases e <;> simp [Expr.mapLiterals_case, Expr.mapLiterals_aggregate, Expr.mapLiterals, plainField]
  | succ budget ih =>
    cases e with
    | aliasRef name =>
      simp only [Expr.mapLiterals, plainField, annotationOf_mapLiterals]
      cases p.annotationOf name with
      | none => rfl
      | some e => exact ih e
    | _ => simp [Expr.mapLiterals_case, Expr.mapLiterals_aggregate, Expr.mapLiterals, plainField]

@[simp] theorem reachesRelations_mapLiterals (e : Expr) :
    (p.mapLiterals f).reachesRelations (e.mapLiterals f) = p.reachesRelations e := by
  have hbudget : ∀ budget e,
      (p.mapLiterals f).reachesRelationsWithin budget (e.mapLiterals f) = p.reachesRelationsWithin budget e := by
    intro budget
    induction budget with
    | zero => exact fun _ => rfl
    | succ budget ih =>
      intro e
      simp only [reachesRelationsWithin, Expr.fieldRefs_mapLiterals, Expr.aliases_mapLiterals, annotationOf_mapLiterals]
      congr 2
      funext name
      cases p.annotationOf name with
      | none => rfl
      | some inner => exact ih inner
  rw [reachesRelations, reachesRelations, aliasBudget_mapLiterals, hbudget]

@[simp] theorem needsKeys_mapLiterals : (p.mapLiterals f).needsKeys = p.needsKeys := by
  simp [needsKeys, filters_mapLiterals, Function.comp_def]

end Plan

end Literals

/-! ## Literals filled in -/

mutual

/-- the literals of an expression that are not null, in order, those of its subplans included -/
def Expr.literals : Expr → List Value
  | .field _ | .aliasRef _ | .outer _ => []
  | .literal v => if v.isNull then [] else [v]
  | .binary _ left right => left.literals ++ right.literals
  | .and operands | .or operands => literalsOfExprs operands
  | .not operand | .isNull operand _ => operand.literals
  | .inList operand values _ => operand.literals ++ literalsOfExprs values
  | .case arms otherwise => literalsOfArms arms ++ (match otherwise with
      | none => []
      | some e => e.literals)
  | .aggregate _ arg _ => match arg with
      | none => []
      | some e => e.literals
  | .correlated plan | .existsRow plan _ => plan.literals
termination_by structural e => e

def literalsOfExprs : List Expr → List Value
  | [] => []
  | e :: rest => e.literals ++ literalsOfExprs rest
termination_by structural es => es

def literalsOfArms : List (Expr × Expr) → List Value
  | [] => []
  | (test, result) :: rest => test.literals ++ (result.literals ++ literalsOfArms rest)
termination_by structural arms => arms

def literalsOfAnnotations : List Annotation → List Value
  | [] => []
  | ⟨_, e⟩ :: rest => e.literals ++ literalsOfAnnotations rest
termination_by structural annotations => annotations

def literalsOfOrdering : List OrderKey → List Value
  | [] => []
  | ⟨e, _⟩ :: rest => e.literals ++ literalsOfOrdering rest
termination_by structural keys => keys

/-- the literals of a plan that are not null, those of its subplans included -/
def Plan.literals : Plan → List Value
  | ⟨_, filters, annotations, _, ordering, _, _, _, _⟩ =>
    literalsOfExprs filters ++ (literalsOfAnnotations annotations ++ literalsOfOrdering ordering)
termination_by structural p => p

end

mutual

/-- the expression with the first of the given values for its literals that are not null -/
def Expr.fill : Expr → List Value → Expr
  | .field ref, _ => .field ref
  | .aliasRef name, _ => .aliasRef name
  | .literal v, vs => .literal (if v.isNull then v else vs.headD .null)
  | .binary op left right, vs => .binary op (left.fill vs) (right.fill (vs.drop left.literals.length))
  | .and operands, vs => .and (fillExprs operands vs)
  | .or operands, vs => .or (fillExprs operands vs)
  | .not operand, vs => .not (operand.fill vs)
  | .isNull operand negated, vs => .isNull (operand.fill vs) negated
  | .inList operand values negated, vs =>
    .inList (operand.fill vs) (fillExprs values (vs.drop operand.literals.length)) negated
  | .case arms otherwise, vs => .case (fillArms arms vs) (match otherwise with
      | none => none
      | some e => some (e.fill (vs.drop (literalsOfArms arms).length)))
  | .aggregate function arg distinct, vs => .aggregate function (match arg with
      | none => none
      | some e => some (e.fill vs)) distinct
  | .outer field, _ => .outer field
  | .correlated plan, vs => .correlated (plan.fill vs)
  | .existsRow plan negated, vs => .existsRow (plan.fill vs) negated
termination_by structural e => e

def fillExprs : List Expr → List Value → List Expr
  | [], _ => []
  | e :: rest, vs => e.fill vs :: fillExprs rest (vs.drop e.literals.length)
termination_by structural es => es

def fillArms : List (Expr × Expr) → List Value → List (Expr × Expr)
  | [], _ => []
  | (test, result) :: rest, vs =>
    (test.fill vs, result.fill (vs.drop test.literals.length)) ::
      fillArms rest ((vs.drop test.literals.length).drop result.literals.length)
termination_by structural arms => arms

def fillAnnotations : List Annotation → List Value → List Annotation
  | [], _ => []
  | ⟨aliasName, e⟩ :: rest, vs => ⟨aliasName, e.fill vs⟩ :: fillAnnotations rest (vs.drop e.literals.length)
termination_by structural annotations => annotations

def fillOrdering : List OrderKey → List Value → List OrderKey
  | [], _ => []
  | ⟨e, direction⟩ :: rest, vs => ⟨e.fill vs, direction⟩ :: fillOrdering rest (vs.drop e.literals.length)
termination_by structural keys => keys

/-- the plan with the first of the given values for its literals that are not null -/
def Plan.fill : Plan → List Value → Plan
  | ⟨root, filters, annotations, projection, ordering, limit, offset, distinct, loadings⟩, vs =>
    ⟨root, fillExprs filters vs, fillAnnotations annotations (vs.drop (literalsOfExprs filters).length), projection,
      fillOrdering ordering
        ((vs.drop (literalsOfExprs filters).length).drop (literalsOfAnnotations annotations).length),
      limit, offset, distinct, loadings⟩
termination_by structural p => p

end

section Filling

mutual

/-- Filled with its own literals, an expression stays what it is. -/
theorem Expr.fill_literals : (e : Expr) → (more : List Value) → e.fill (e.literals ++ more) = e
  | .field _, _ | .aliasRef _, _ | .outer _, _ => rfl
  | .literal v, more => by
    rw [Expr.fill, Expr.literals]
    cases v.isNull <;> rfl
  | .binary op left right, more => by
    rw [Expr.fill, Expr.literals, List.append_assoc, List.drop_left, left.fill_literals, right.fill_literals]
  | .and operands, more | .or operands, more => by rw [Expr.fill, Expr.literals, exprs_fill_literals operands]
  | .not operand, more | .isNull operand _, more => by rw [Expr.fill, Expr.literals, operand.fill_literals]
  | .inList operand values _, more => by
    rw [Expr.fill, Expr.literals, List.append_assoc, List.drop_left, operand.fill_literals, exprs_fill_literals values]
  | .case arms none, more => by
    simp only [Expr.fill, Expr.literals, List.append_nil, arms_fill_literals arms]
  | .case arms (some e), more => by
    simp only [Expr.fill, Expr.literals, List.append_assoc, List.drop_left, arms_fill_literals arms, e.fill_literals]
  | .aggregate _ none _, _ => rfl
  | .aggregate _ (some e) _, more => by simp only [Expr.fill, Expr.literals, e.fill_literals]
  | .correlated plan, more | .existsRow plan _, more => by rw [Expr.fill, Expr.literals, plan.fill_append_literals]
termination_by structural e => e

theorem exprs_fill_literals : (es : List Expr) → (more : List Value) → fillExprs es (literalsOfExprs es ++ more) = es
  | [], _ => rfl
  | e :: rest, more => by
    rw [fillExprs, literalsOfExprs, List.append_assoc, List.drop_left, e.fill_literals, exprs_fill_literals rest]
termination_by structural es => es

theorem arms_fill_literals : (arms : List (Expr × Expr)) → (more : List Value) →
    fillArms arms (literalsOfArms arms ++ more) = arms
  | [], _ => rfl
  | (test, result) :: rest, more => by
    rw [fillArms, literalsOfArms, List.append_assoc, List.append_assoc, List.drop_left, List.drop_left,
      test.fill_literals, result.fill_literals, arms_fill_literals rest]
termination_by structural arms => arms

theorem annotations_fill_literals : (annotations : List Annotation) → (more : List Value) →
    fillAnnotations annotations (literalsOfAnnotations annotations ++ more) = annotations
  | [], _ => rfl
  | ⟨_, e⟩ :: rest, more => by
    rw [fillAnnotations, literalsOfAnnotations, List.append_assoc, List.drop_left, e.fill_literals,
      annotations_fill_literals rest]
termination_by structural annotations => annotations

theorem ordering_fill_literals : (keys : List OrderKey) → (more : List Value) →
    fillOrdering keys (literalsOfOrdering keys ++ more) = keys
  | [], _ => rfl
  | ⟨e, _⟩ :: rest, more => by
    rw [fillOrdering, literalsOfOrdering, List.append_assoc, List.drop_left, e.fill_literals, ordering_fill_literals rest]
termination_by structural keys => keys

theorem Plan.fill_append_literals : (p : Plan) → (more : List Value) → p.fill (p.literals ++ more) = p
  | ⟨root, filters, annotations, projection, ordering, limit, offset, distinct, loadings⟩, more => by
    rw [Plan.fill, Plan.literals, List.append_assoc, List.append_assoc, List.drop_left, List.drop_left, exprs_fill_literals,
      annotations_fill_literals, ordering_fill_literals]
termination_by structural p => p

end

variable {f : Value → Value}

mutual

/-- Replacing the literals of a filled expression is filling it with the values replaced. -/
theorem Expr.fill_mapLiterals (hf : f .null = .null) : (e : Expr) → (vs : List Value) →
    (e.fill vs).mapLiterals f = e.fill (vs.map f)
  | .field _, _ | .aliasRef _, _ | .outer _, _ => rfl
  | .literal v, vs => by
    rw [Expr.fill, Expr.fill, Expr.mapLiterals]
    cases hv : v.isNull with
    | true =>
      obtain rfl : v = .null := by cases v <;> simp_all [Value.isNull]
      simp [hf]
    | false => cases vs <;> simp [hf]
  | .binary op left right, vs => by
    rw [Expr.fill, Expr.fill, Expr.mapLiterals, left.fill_mapLiterals hf, right.fill_mapLiterals hf, List.map_drop]
  | .and operands, vs | .or operands, vs => by rw [Expr.fill, Expr.fill, Expr.mapLiterals, exprs_fill_mapLiterals hf operands]
  | .not operand, vs | .isNull operand _, vs => by rw [Expr.fill, Expr.fill, Expr.mapLiterals, operand.fill_mapLiterals hf]
  | .inList operand values _, vs => by
    rw [Expr.fill, Expr.fill, Expr.mapLiterals, operand.fill_mapLiterals hf, exprs_fill_mapLiterals hf values, List.map_drop]
  | .case arms none, vs => by simp only [Expr.fill, Expr.mapLiterals, arms_fill_mapLiterals hf arms]
  | .case arms (some e), vs => by
    simp only [Expr.fill, Expr.mapLiterals, arms_fill_mapLiterals hf arms, e.fill_mapLiterals hf, List.map_drop]
  | .aggregate _ none _, _ => rfl
  | .aggregate _ (some e) _, vs => by simp only [Expr.fill, Expr.mapLiterals, e.fill_mapLiterals hf]
  | .correlated plan, vs | .existsRow plan _, vs => by rw [Expr.fill, Expr.fill, Expr.mapLiterals, plan.fill_mapLiterals hf]
termination_by structural e => e

theorem exprs_fill_mapLiterals (hf : f .null = .null) : (es : List Expr) → (vs : List Value) →
    mapLiteralsOfExprs f (fillExprs es vs) = fillExprs es (vs.map f)
  | [], _ => rfl
  | e :: rest, vs => by
    rw [fillExprs, fillExprs, mapLiteralsOfExprs, e.fill_mapLiterals hf, exprs_fill_mapLiterals hf rest, List.map_drop]
termination_by structural es => es

theorem arms_fill_mapLiterals (hf : f .null = .null) : (arms : List (Expr × Expr)) → (vs : List Value) →
    mapLiteralsOfArms f (fillArms arms vs) = fillArms arms (vs.map f)
  | [], _ => rfl
  | (test, result) :: rest, vs => by
    rw [fillArms, fillArms, mapLiteralsOfArms, test.fill_mapLiterals hf, result.fill_mapLiterals hf,
      arms_fill_mapLiterals hf rest, List.map_drop, List.map_drop, List.map_drop]
termination_by structural arms => arms

theorem annotations_fill_mapLiterals (hf : f .null = .null) : (annotations : List Annotation) → (vs : List Value) →
    mapLiteralsOfAnnotations f (fillAnnotations annotations vs) = fillAnnotations annotations (vs.map f)
  | [], _ => rfl
  | ⟨_, e⟩ :: rest, vs => by
    rw [fillAnnotations, fillAnnotations, mapLiteralsOfAnnotations, e.fill_mapLiterals hf,
      annotations_fill_mapLiterals hf rest, List.map_drop]
termination_by structural annotations => annotations

theorem ordering_fill_mapLiterals (hf : f .null = .null) : (keys : List OrderKey) → (vs : List Value) →
    mapLiteralsOfOrdering f (fillOrdering keys vs) = fillOrdering keys (vs.map f)
  | [], _ => rfl
  | ⟨e, _⟩ :: rest, vs => by
    rw [fillOrdering, fillOrdering, mapLiteralsOfOrdering, e.fill_mapLiterals hf, ordering_fill_mapLiterals hf rest,
      List.map_drop]
termination_by structural keys => keys

theorem Plan.fill_mapLiterals (hf : f .null = .null) : (p : Plan) → (vs : List Value) →
    (p.fill vs).mapLiterals f = p.fill (vs.map f)
  | ⟨root, filters, annotations, projection, ordering, limit, offset, distinct, loadings⟩, vs => by
    rw [Plan.fill, Plan.fill, Plan.mapLiterals, exprs_fill_mapLiterals hf, annotations_fill_mapLiterals hf,
      ordering_fill_mapLiterals hf, List.map_drop, List.map_drop, List.map_drop]
termination_by structural p => p

end

variable {g : Value → Value}

mutual

/-- Replacing the literals of an expression replaces each in its place. -/
theorem Expr.literals_mapLiterals (h : Replaces f g) : (e : Expr) → (e.mapLiterals f).literals = e.literals.map g
  | .field _ | .aliasRef _ | .outer _ => rfl
  | .literal v => by
    rw [Expr.mapLiterals, Expr.literals, Expr.literals]
    cases hv : v.isNull with
    | true =>
      obtain rfl : v = .null := by cases v <;> simp_all [Value.isNull]
      rw [h.null]
      rfl
    | false => simp [h.value hv, h.notNull hv]
  | .binary op left right => by
    rw [Expr.mapLiterals, Expr.literals, Expr.literals, left.literals_mapLiterals h, right.literals_mapLiterals h, List.map_append]
  | .and operands | .or operands => by rw [Expr.mapLiterals, Expr.literals, Expr.literals, exprs_literals_mapLiterals h operands]
  | .not operand | .isNull operand _ => by rw [Expr.mapLiterals, Expr.literals, Expr.literals, operand.literals_mapLiterals h]
  | .inList operand values _ => by
    rw [Expr.mapLiterals, Expr.literals, Expr.literals, operand.literals_mapLiterals h, exprs_literals_mapLiterals h values,
      List.map_append]
  | .case arms none => by simp only [Expr.mapLiterals, Expr.literals, arms_literals_mapLiterals h arms, List.append_nil]
  | .case arms (some e) => by
    simp only [Expr.mapLiterals, Expr.literals, arms_literals_mapLiterals h arms, e.literals_mapLiterals h, List.map_append]
  | .aggregate _ none _ => rfl
  | .aggregate _ (some e) _ => by simp only [Expr.mapLiterals, Expr.literals, e.literals_mapLiterals h]
  | .correlated plan | .existsRow plan _ => by rw [Expr.mapLiterals, Expr.literals, Expr.literals, plan.literals_mapLiterals h]
termination_by structural e => e

theorem exprs_literals_mapLiterals (h : Replaces f g) : (es : List Expr) →
    literalsOfExprs (mapLiteralsOfExprs f es) = (literalsOfExprs es).map g
  | [] => rfl
  | e :: rest => by
    rw [mapLiteralsOfExprs, literalsOfExprs, literalsOfExprs, e.literals_mapLiterals h,
      exprs_literals_mapLiterals h rest, List.map_append]
termination_by structural es => es

theorem arms_literals_mapLiterals (h : Replaces f g) : (arms : List (Expr × Expr)) →
    literalsOfArms (mapLiteralsOfArms f arms) = (literalsOfArms arms).map g
  | [] => rfl
  | (test, result) :: rest => by
    rw [mapLiteralsOfArms, literalsOfArms, literalsOfArms, test.literals_mapLiterals h, result.literals_mapLiterals h,
      arms_literals_mapLiterals h rest, List.map_append, List.map_append]
termination_by structural arms => arms

theorem annotations_literals_mapLiterals (h : Replaces f g) : (annotations : List Annotation) →
    literalsOfAnnotations (mapLiteralsOfAnnotations f annotations) = (literalsOfAnnotations annotations).map g
  | [] => rfl
  | ⟨_, e⟩ :: rest => by
    rw [mapLiteralsOfAnnotations, literalsOfAnnotations, literalsOfAnnotations, e.literals_mapLiterals h,
      annotations_literals_mapLiterals h rest, List.map_append]
termination_by structural annotations => annotations

theorem ordering_literals_mapLiterals (h : Replaces f g) : (keys : List OrderKey) →
    literalsOfOrdering (mapLiteralsOfOrdering f keys) = (literalsOfOrdering keys).map g
  | [] => rfl
  | ⟨e, _⟩ :: rest => by
    rw [mapLiteralsOfOrdering, literalsOfOrdering, literalsOfOrdering, e.literals_mapLiterals h,
      ordering_literals_mapLiterals h rest, List.map_append]
termination_by structural keys => keys

theorem Plan.literals_mapLiterals (h : Replaces f g) : (p : Plan) → (p.mapLiterals f).literals = p.literals.map g
  | ⟨root, filters, annotations, projection, ordering, limit, offset, distinct, loadings⟩ => by
    rw [Plan.mapLiterals, Plan.literals, Plan.literals, exprs_literals_mapLiterals h, annotations_literals_mapLiterals h,
      ordering_literals_mapLiterals h, List.map_append, List.map_append]
termination_by structural p => p

end

mutual

/-- What an expression is filled with does not depend on the literals it had. -/
theorem Expr.mapLiterals_fill (h : Replaces f g) : (e : Expr) → (vs : List Value) →
    (e.mapLiterals f).fill vs = e.fill vs
  | .field _, _ | .aliasRef _, _ | .outer _, _ => rfl
  | .literal v, vs => by
    rw [Expr.mapLiterals, Expr.fill, Expr.fill]
    cases hv : v.isNull with
    | true =>
      obtain rfl : v = .null := by cases v <;> simp_all [Value.isNull]
      rw [h.null]
      rfl
    | false => simp [h.value hv, h.notNull hv]
  | .binary op left right, vs => by
    rw [Expr.mapLiterals, Expr.fill, Expr.fill, left.mapLiterals_fill h, right.mapLiterals_fill h, left.literals_mapLiterals h,
      List.length_map]
  | .and operands, vs | .or operands, vs => by rw [Expr.mapLiterals, Expr.fill, Expr.fill, exprs_mapLiterals_fill h operands]
  | .not operand, vs | .isNull operand _, vs => by rw [Expr.mapLiterals, Expr.fill, Expr.fill, operand.mapLiterals_fill h]
  | .inList operand values _, vs => by
    rw [Expr.mapLiterals, Expr.fill, Expr.fill, operand.mapLiterals_fill h, exprs_mapLiterals_fill h values,
      operand.literals_mapLiterals h, List.length_map]
  | .case arms none, vs => by simp only [Expr.mapLiterals, Expr.fill, arms_mapLiterals_fill h arms]
  | .case arms (some e), vs => by
    simp only [Expr.mapLiterals, Expr.fill, arms_mapLiterals_fill h arms, e.mapLiterals_fill h, arms_literals_mapLiterals h arms,
      List.length_map]
  | .aggregate _ none _, _ => rfl
  | .aggregate _ (some e) _, vs => by simp only [Expr.mapLiterals, Expr.fill, e.mapLiterals_fill h]
  | .correlated plan, vs | .existsRow plan _, vs => by rw [Expr.mapLiterals, Expr.fill, Expr.fill, plan.mapLiterals_fill h]
termination_by structural e => e

theorem exprs_mapLiterals_fill (h : Replaces f g) : (es : List Expr) → (vs : List Value) →
    fillExprs (mapLiteralsOfExprs f es) vs = fillExprs es vs
  | [], _ => rfl
  | e :: rest, vs => by
    rw [mapLiteralsOfExprs, fillExprs, fillExprs, e.mapLiterals_fill h, exprs_mapLiterals_fill h rest,
      e.literals_mapLiterals h, List.length_map]
termination_by structural es => es

theorem arms_mapLiterals_fill (h : Replaces f g) : (arms : List (Expr × Expr)) → (vs : List Value) →
    fillArms (mapLiteralsOfArms f arms) vs = fillArms arms vs
  | [], _ => rfl
  | (test, result) :: rest, vs => by
    rw [mapLiteralsOfArms, fillArms, fillArms, test.mapLiterals_fill h, result.mapLiterals_fill h,
      arms_mapLiterals_fill h rest, test.literals_mapLiterals h, result.literals_mapLiterals h, List.length_map,
      List.length_map]
termination_by structural arms => arms

theorem annotations_mapLiterals_fill (h : Replaces f g) : (annotations : List Annotation) → (vs : List Value) →
    fillAnnotations (mapLiteralsOfAnnotations f annotations) vs = fillAnnotations annotations vs
  | [], _ => rfl
  | ⟨_, e⟩ :: rest, vs => by
    rw [mapLiteralsOfAnnotations, fillAnnotations, fillAnnotations, e.mapLiterals_fill h,
      annotations_mapLiterals_fill h rest, e.literals_mapLiterals h, List.length_map]
termination_by structural annotations => annotations

theorem ordering_mapLiterals_fill (h : Replaces f g) : (keys : List OrderKey) → (vs : List Value) →
    fillOrdering (mapLiteralsOfOrdering f keys) vs = fillOrdering keys vs
  | [], _ => rfl
  | ⟨e, _⟩ :: rest, vs => by
    rw [mapLiteralsOfOrdering, fillOrdering, fillOrdering, e.mapLiterals_fill h, ordering_mapLiterals_fill h rest,
      e.literals_mapLiterals h, List.length_map]
termination_by structural keys => keys

theorem Plan.mapLiterals_fill (h : Replaces f g) : (p : Plan) → (vs : List Value) →
    (p.mapLiterals f).fill vs = p.fill vs
  | ⟨root, filters, annotations, projection, ordering, limit, offset, distinct, loadings⟩, vs => by
    rw [Plan.mapLiterals, Plan.fill, Plan.fill, exprs_mapLiterals_fill h, annotations_mapLiterals_fill h,
      ordering_mapLiterals_fill h, exprs_literals_mapLiterals h, annotations_literals_mapLiterals h, List.length_map,
      List.length_map]
termination_by structural p => p

end

end Filling

end RelQuery
