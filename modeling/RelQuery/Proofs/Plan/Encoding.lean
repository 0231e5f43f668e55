/-
Plans told apart by their encoding.

The encoding of a plan tells all that compiling it reads, but two things. It holds the name of an entity in the entity's
place, which is no loss among the plans of one schema, and it does not tell one infinity or NaN from another
(`Value.encoded`). `Plan.toJson_eq_iff` says that nothing else is lost.
-/
import RelQuery.Plan.Encoding
import RelQuery.Proofs.Json.Written

namespace RelQuery

/-! ## Literals and roots -/

/-- a literal as far as its encoding tells it: all reals that are no number are one -/
def Value.encoded : Value → Value
  | .real d => .real (if d.isFinite then d else ⟨0x7ff8000000000000⟩)
  | .null => .null
  | .bool b => .bool b
  | .int n => .int n
  | .text s => .text s

section Traversal

variable (f : Value → Value)

mutual

/-- the expression with every literal replaced, also in its subplans -/
def Expr.mapLiterals : Expr → Expr
  | .field ref => .field ref
  | .aliasRef name => .aliasRef name
  | .literal value => .literal (f value)
  | .binary op left right => .binary op left.mapLiterals right.mapLiterals
  | .and operands => .and (mapLiteralsOfExprs operands)
  | .or operands => .or (mapLiteralsOfExprs operands)
  | .not operand => .not operand.mapLiterals
  | .isNull operand negated => .isNull operand.mapLiterals negated
  | .inList operand values negated => .inList operand.mapLiterals (mapLiteralsOfExprs values) negated
  | .case arms otherwise => .case (mapLiteralsOfArms arms) (match otherwise with
      | none => none
      | some e => some e.mapLiterals)
  | .aggregate function arg distinct => .aggregate function (match arg with
      | none => none
      | some e => some e.mapLiterals) distinct
  | .outer field => .outer field
  | .correlated plan => .correlated plan.mapLiterals
  | .existsRow plan negated => .existsRow plan.mapLiterals negated
termination_by structural e => e

def mapLiteralsOfExprs : List Expr → List Expr
  | [] => []
  | e :: rest => e.mapLiterals :: mapLiteralsOfExprs rest
termination_by structural es => es

def mapLiteralsOfArms : List (Expr × Expr) → List (Expr × Expr)
  | [] => []
  | (test, result) :: rest => (test.mapLiterals, result.mapLiterals) :: mapLiteralsOfArms rest
termination_by structural arms => arms

def mapLiteralsOfAnnotations : List Annotation → List Annotation
  | [] => []
  | ⟨aliasName, e⟩ :: rest => ⟨aliasName, e.mapLiterals⟩ :: mapLiteralsOfAnnotations rest
termination_by structural annotations => annotations

def mapLiteralsOfOrdering : List OrderKey → List OrderKey
  | [] => []
  | ⟨e, direction⟩ :: rest => ⟨e.mapLiterals, direction⟩ :: mapLiteralsOfOrdering rest
termination_by structural keys => keys

/-- the plan with every literal replaced, also in its subplans -/
def Plan.mapLiterals : Plan → Plan
  | ⟨root, filters, annotations, projection, ordering, limit, offset, distinct, loadings⟩ =>
    ⟨root, mapLiteralsOfExprs filters, mapLiteralsOfAnnotations annotations, projection,
      mapLiteralsOfOrdering ordering, limit, offset, distinct, loadings⟩
termination_by structural p => p

end

end Traversal

mutual

/-- the entities that the subplans of an expression start from -/
def Expr.roots : Expr → List Entity
  | .field _ | .aliasRef _ | .literal _ | .outer _ => []
  | .binary _ left right => left.roots ++ right.roots
  | .and operands | .or operands => rootsOfExprs operands
  | .not operand | .isNull operand _ => operand.roots
  | .inList operand values _ => operand.roots ++ rootsOfExprs values
  | .case arms otherwise => rootsOfArms arms ++ (match otherwise with
      | none => []
      | some e => e.roots)
  | .aggregate _ arg _ => match arg with
      | none => []
      | some e => e.roots
  | .correlated plan | .existsRow plan _ => plan.roots
termination_by structural e => e

def rootsOfExprs : List Expr → List Entity
  | [] => []
  | e :: rest => e.roots ++ rootsOfExprs rest
termination_by structural es => es

def rootsOfArms : List (Expr × Expr) → List Entity
  | [] => []
  | (test, result) :: rest => test.roots ++ result.roots ++ rootsOfArms rest
termination_by structural arms => arms

def rootsOfAnnotations : List Annotation → List Entity
  | [] => []
  | ⟨_, e⟩ :: rest => e.roots ++ rootsOfAnnotations rest
termination_by structural annotations => annotations

def rootsOfOrdering : List OrderKey → List Entity
  | [] => []
  | ⟨e, _⟩ :: rest => e.roots ++ rootsOfOrdering rest
termination_by structural keys => keys

/-- the entities that a plan and its subplans start from -/
def Plan.roots : Plan → List Entity
  | ⟨root, filters, annotations, _, ordering, _, _, _, _⟩ =>
    root :: (rootsOfExprs filters ++ rootsOfAnnotations annotations ++ rootsOfOrdering ordering)
termination_by structural p => p

end

/-- whether a schema has these entities under their names -/
def Schema.Declares (schema : Schema) (roots : List Entity) : Prop := ∀ e ∈ roots, schema.entity? e.name = some e

theorem Schema.declares_append {schema : Schema} {xs ys : List Entity} :
    schema.Declares (xs ++ ys) ↔ schema.Declares xs ∧ schema.Declares ys := List.forall_mem_append

/-- a plan of one schema, its subplans included -/
def Plan.Over (schema : Schema) (p : Plan) : Prop := schema.Declares p.roots

/-- the plan as far as its encoding tells it -/
def Plan.encoded (p : Plan) : Plan := p.mapLiterals Value.encoded

/-! ## Parts without expressions -/

namespace Json

theorem plainItems_eq_map (items : List Json) : plainItems items = items.map plain := by
  induction items with
  | nil => rfl
  | cons item rest ih => rw [plainItems, ih, List.map_cons]

theorem eq_of_plainItems_map {α : Type} {encode : α → Json}
    (hencode : ∀ a b, (encode a).plain = (encode b).plain → a = b) {as bs : List α}
    (h : plainItems (as.map encode) = plainItems (bs.map encode)) : as = bs := by
  rw [plainItems_eq_map, plainItems_eq_map, List.map_map, List.map_map] at h
  exact List.map_injective_iff.2 hencode h

end Json

open Json (plain plainItems plainMembers)

theorem BinaryOp.name_injective : Function.Injective BinaryOp.name := by
  intro op op' h
  cases op <;> cases op' <;> first | rfl | exact absurd h (by decide)

theorem AggregateFunction.name_injective : Function.Injective AggregateFunction.name := by
  intro f f' h
  cases f <;> cases f' <;> first | rfl | exact absurd h (by decide)

theorem Direction.name_injective : Function.Injective Direction.name := by
  intro d d' h
  cases d <;> cases d' <;> first | rfl | exact absurd h (by decide)

theorem Loading.name_injective : Function.Injective Loading.name := by
  intro l l' h
  cases l <;> cases l' <;> first | rfl | exact absurd h (by decide)

theorem ProjectionKind.name_injective : Function.Injective ProjectionKind.name := by
  intro k k' h
  cases k <;> cases k' <;> first | rfl | exact absurd h (by decide)

theorem ScalarType.name_injective : Function.Injective ScalarType.name := by
  intro t t' h
  cases t <;> cases t' <;> first | rfl | exact absurd h (by decide)

theorem Cardinality.name_injective : Function.Injective Cardinality.name := by
  intro c c' h
  cases c <;> cases c' <;> first | rfl | exact absurd h (by decide)

theorem Field.eq_of_toJson {f f' : Field} (h : f.toJson.plain = f'.toJson.plain) : f = f' := by
  obtain ⟨name, type, nullable⟩ := f
  obtain ⟨name', type', nullable'⟩ := f'
  simp only [toJson, plain, plainMembers, Json.object.injEq, List.cons.injEq, Prod.mk.injEq, Json.text.injEq,
    Json.bool.injEq, true_and, and_true] at h
  obtain ⟨rfl, htype, rfl⟩ := h
  rw [ScalarType.name_injective htype]

theorem Relation.eq_of_toJson {r r' : Relation} (h : r.toJson.plain = r'.toJson.plain) : r = r' := by
  obtain ⟨name, target, cardinality, localColumn, remoteColumn⟩ := r
  obtain ⟨name', target', cardinality', localColumn', remoteColumn'⟩ := r'
  simp only [toJson, plain, plainMembers, Json.object.injEq, List.cons.injEq, Prod.mk.injEq, Json.text.injEq,
    true_and, and_true] at h
  obtain ⟨rfl, rfl, hcardinality, rfl, rfl⟩ := h
  rw [Cardinality.name_injective hcardinality]

theorem FieldRef.eq_of_toJson {r r' : FieldRef} (h : r.toJson.plain = r'.toJson.plain) : r = r' := by
  obtain ⟨root, path, hops, field⟩ := r
  obtain ⟨root', path', hops', field'⟩ := r'
  simp only [toJson, plain, plainMembers, Json.object.injEq, List.cons.injEq, Prod.mk.injEq, Json.text.injEq,
    Json.array.injEq, true_and, and_true] at h
  obtain ⟨rfl, rfl, hhops, hfield⟩ := h
  rw [Json.eq_of_plainItems_map (fun _ _ => Relation.eq_of_toJson) hhops, Field.eq_of_toJson hfield]

theorem Projection.eq_of_toJson {p p' : Projection} (h : p.toJson.plain = p'.toJson.plain) : p = p' := by
  obtain ⟨kind, names⟩ := p
  obtain ⟨kind', names'⟩ := p'
  simp only [toJson, plain, plainMembers, Json.object.injEq, List.cons.injEq, Prod.mk.injEq, Json.text.injEq,
    Json.array.injEq, true_and, and_true] at h
  obtain ⟨hkind, hnames⟩ := h
  have htext : ∀ s t : String, (Json.text s).plain = (Json.text t).plain → s = t := fun _ _ => Json.text.inj
  rw [ProjectionKind.name_injective hkind, Json.eq_of_plainItems_map htext hnames]

theorem projection_eq_of_toJson {p p' : Option Projection}
    (h : (Json.ofOption Projection.toJson p).plain = (Json.ofOption Projection.toJson p').plain) : p = p' := by
  cases p <;> cases p'
  · rfl
  · cases h
  · cases h
  · rw [Projection.eq_of_toJson h]

theorem pageBound_eq_of_toJson {b b' : Option UInt64} (h : (pageBoundJson b).plain = (pageBoundJson b').plain) :
    b = b' := by
  cases b <;> cases b'
  · rfl
  · cases h
  · cases h
  · rw [UInt64.toNat_inj.1 (Int.ofNat.inj (Json.int.inj h))]

theorem loadings_eq_of_toJson {m m' : NameMap Loading}
    (h : plainMembers (m.entries.map fun entry => (entry.1, .text entry.2.name)) =
      plainMembers (m'.entries.map fun entry => (entry.1, .text entry.2.name))) : m = m' := by
  obtain ⟨entries⟩ := m
  obtain ⟨entries'⟩ := m'
  congr 1
  induction entries generalizing entries' with
  | nil =>
    cases entries' with
    | nil => rfl
    | cons entry' entries' => cases h
  | cons entry entries ih =>
    cases entries' with
    | nil => cases h
    | cons entry' entries' =>
      simp only [List.map_cons, plainMembers, plain, List.cons.injEq, Prod.mk.injEq, Json.text.injEq] at h
      obtain ⟨⟨hkey, hname⟩, hrest⟩ := h
      rw [ih _ hrest, Prod.ext hkey (Loading.name_injective hname)]

/-- The tagged encoding of a literal tells all but which infinity or NaN it is. -/
theorem Value.encoded_eq_of_toJson {v v' : Value} (h : v.toTaggedJson.plain = v'.toTaggedJson.plain) :
    v.encoded = v'.encoded := by
  cases v with
  | real d =>
    cases v' with
    | real d' =>
      simp only [toTaggedJson, plain, plainMembers, Json.object.injEq, List.cons.injEq, Prod.mk.injEq, and_true,
        true_and] at h
      by_cases hd : d.isFinite <;> by_cases hd' : d'.isFinite <;> simp_all [encoded]
    | _ => simp [toTaggedJson, plain, plainMembers] at h
  | _ => cases v' <;> simp_all [toTaggedJson, plain, plainMembers, encoded, Int64.toInt_inj]

/-- What a literal is encoded as is what its encoding tells. -/
theorem Value.toTaggedJson_encoded (v : Value) : v.encoded.toTaggedJson.plain = v.toTaggedJson.plain := by
  cases v with
  | real d =>
    have hnan : ¬(⟨0x7ff8000000000000⟩ : Double).isFinite := by decide
    by_cases hd : d.isFinite <;> simp [encoded, toTaggedJson, plain, plainMembers, hd, hnan]
  | _ => rfl

/-! ## Expressions and plans -/

/-- the tag of an expression's encoding -/
def Expr.tag : Expr → String
  | .field _ => "Field"
  | .aliasRef _ => "Alias"
  | .literal _ => "Literal"
  | .binary .. => "Binary"
  | .and _ => "And"
  | .or _ => "Or"
  | .not _ => "Not"
  | .isNull .. => "IsNull"
  | .inList .. => "InList"
  | .case .. => "Case"
  | .aggregate .. => "Aggregate"
  | .outer _ => "Outer"
  | .correlated _ => "Correlated"
  | .existsRow .. => "Exists"

theorem Json.tagged_plain_inj {kind kind' : String} {value value' : Json} :
    (tagged kind value).plain = (tagged kind' value').plain ↔ kind = kind' ∧ value.plain = value'.plain := by
  simp only [tagged, plain, plainMembers, Json.object.injEq, List.cons.injEq, Prod.mk.injEq, and_true]

namespace Expr

/-! An expression that may be missing is encoded as `null`, and traversed as the list of none or one. -/

theorem toJson_case (arms : List (Expr × Expr)) (otherwise : Option Expr) : (case arms otherwise).toJson =
    .tagged "Case" (.object [("whens", .array (armsToJson arms)), ("default", .ofOption toJson otherwise)]) := by
  cases otherwise <;> rfl

theorem toJson_aggregate (function : AggregateFunction) (arg : Option Expr) (distinct : Bool) :
    (aggregate function arg distinct).toJson = .tagged "Aggregate" (.object [("func", .text function.name),
      ("arg", .ofOption toJson arg), ("distinct", .bool distinct)]) := by
  cases arg <;> rfl

theorem mapLiterals_case (f : Value → Value) (arms : List (Expr × Expr)) (otherwise : Option Expr) :
    (case arms otherwise).mapLiterals f = case (mapLiteralsOfArms f arms) (otherwise.map (mapLiterals f)) := by
  cases otherwise <;> rfl

theorem mapLiterals_aggregate (f : Value → Value) (function : AggregateFunction) (arg : Option Expr)
    (distinct : Bool) : (aggregate function arg distinct).mapLiterals f =
      aggregate function (arg.map (mapLiterals f)) distinct := by
  cases arg <;> rfl

theorem roots_case (arms : List (Expr × Expr)) (otherwise : Option Expr) :
    (case arms otherwise).roots = rootsOfArms arms ++ otherwise.elim [] roots := by
  cases otherwise <;> rfl

theorem roots_aggregate (function : AggregateFunction) (arg : Option Expr) (distinct : Bool) :
    (aggregate function arg distinct).roots = arg.elim [] roots := by
  cases arg <;> rfl

end Expr

theorem Expr.toJson_tagged (e : Expr) : ∃ content, e.toJson = .tagged e.tag content := by
  cases e with
  | case arms otherwise => cases otherwise <;> exact ⟨_, rfl⟩
  | aggregate function arg distinct => cases arg <;> exact ⟨_, rfl⟩
  | _ => exact ⟨_, rfl⟩

theorem Expr.tag_eq {e e' : Expr} (h : e.toJson.plain = e'.toJson.plain) : e.tag = e'.tag := by
  obtain ⟨content, hc⟩ := e.toJson_tagged
  obtain ⟨content', hc'⟩ := e'.toJson_tagged
  rw [hc, hc', Json.tagged_plain_inj] at h
  exact h.1

theorem Expr.toJson_ne_null (e : Expr) : e.toJson.plain ≠ .null := by
  obtain ⟨content, hc⟩ := e.toJson_tagged
  rw [hc]
  exact nofun

section Injective

variable {schema : Schema}

namespace Expr

mutual

theorem encoded_eq_of_toJson (e e' : Expr) (he : schema.Declares e.roots) (he' : schema.Declares e'.roots)
    (h : e.toJson.plain = e'.toJson.plain) : e.mapLiterals Value.encoded = e'.mapLiterals Value.encoded := by
  have htag := tag_eq h
  cases e with
  | field ref =>
    cases e' with
    | field ref' =>
      rw [toJson, toJson, Json.tagged_plain_inj] at h
      rw [FieldRef.eq_of_toJson h.2]
    | _ => simp [tag] at htag
  | aliasRef name =>
    cases e' with
    | aliasRef name' =>
      rw [toJson, toJson, Json.tagged_plain_inj] at h
      rw [Json.text.inj h.2]
    | _ => simp [tag] at htag
  | literal value =>
    cases e' with
    | literal value' =>
      rw [toJson, toJson, Json.tagged_plain_inj] at h
      rw [mapLiterals, mapLiterals, Value.encoded_eq_of_toJson h.2]
    | _ => simp [tag] at htag
  | binary op left right =>
    cases e' with
    | binary op' left' right' =>
      rw [toJson, toJson, Json.tagged_plain_inj] at h
      simp only [plain, plainMembers, Json.object.injEq, List.cons.injEq, Prod.mk.injEq, and_true, true_and,
        Json.text.injEq] at h
      obtain ⟨hop, hleft, hright⟩ := h
      rw [roots, Schema.declares_append] at he he'
      rw [mapLiterals, mapLiterals, BinaryOp.name_injective hop, encoded_eq_of_toJson left left' he.1 he'.1 hleft,
        encoded_eq_of_toJson right right' he.2 he'.2 hright]
    | _ => simp [tag] at htag
  | and operands =>
    cases e' with
    | and operands' =>
      rw [toJson, toJson, Json.tagged_plain_inj] at h
      rw [mapLiterals, mapLiterals, exprs_encoded_eq_of_toJson operands operands' he he' (Json.array.inj h.2)]
    | _ => simp [tag] at htag
  | or operands =>
    cases e' with
    | or operands' =>
      rw [toJson, toJson, Json.tagged_plain_inj] at h
      rw [mapLiterals, mapLiterals, exprs_encoded_eq_of_toJson operands operands' he he' (Json.array.inj h.2)]
    | _ => simp [tag] at htag
  | not operand =>
    cases e' with
    | not operand' =>
      rw [toJson, toJson, Json.tagged_plain_inj] at h
      rw [mapLiterals, mapLiterals, encoded_eq_of_toJson operand operand' he he' h.2]
    | _ => simp [tag] at htag
  | isNull operand negated =>
    cases e' with
    | isNull operand' negated' =>
      rw [toJson, toJson, Json.tagged_plain_inj] at h
      simp only [plain, plainMembers, Json.object.injEq, List.cons.injEq, Prod.mk.injEq, and_true, true_and,
        Json.bool.injEq] at h
      obtain ⟨hoperand, rfl⟩ := h
      rw [mapLiterals, mapLiterals, encoded_eq_of_toJson operand operand' he he' hoperand]
    | _ => simp [tag] at htag
  | inList operand values negated =>
    cases e' with
    | inList operand' values' negated' =>
      rw [toJson, toJson, Json.tagged_plain_inj] at h
      simp only [plain, plainMembers, Json.object.injEq, List.cons.injEq, Prod.mk.injEq, and_true, true_and,
        Json.bool.injEq, Json.array.injEq] at h
      obtain ⟨hoperand, hvalues, rfl⟩ := h
      rw [roots, Schema.declares_append] at he he'
      rw [mapLiterals, mapLiterals, encoded_eq_of_toJson operand operand' he.1 he'.1 hoperand,
        exprs_encoded_eq_of_toJson values values' he.2 he'.2 hvalues]
    | _ => simp [tag] at htag
  | case arms otherwise =>
    cases e' with
    | case arms' otherwise' =>
      rw [toJson_case, toJson_case, Json.tagged_plain_inj] at h
      simp only [plain, plainMembers, Json.object.injEq, List.cons.injEq, Prod.mk.injEq, and_true, true_and,
        Json.array.injEq] at h
      obtain ⟨harms, hotherwise⟩ := h
      rw [roots_case, Schema.declares_append] at he he'
      rw [mapLiterals_case, mapLiterals_case, arms_encoded_eq_of_toJson arms arms' he.1 he'.1 harms,
        optional_encoded_eq_of_toJson otherwise otherwise' he.2 he'.2 hotherwise]
    | _ => simp [tag] at htag
  | aggregate function arg distinct =>
    cases e' with
    | aggregate function' arg' distinct' =>
      rw [toJson_aggregate, toJson_aggregate, Json.tagged_plain_inj] at h
      simp only [plain, plainMembers, Json.object.injEq, List.cons.injEq, Prod.mk.injEq, and_true, true_and,
        Json.text.injEq, Json.bool.injEq] at h
      obtain ⟨hfunction, harg, rfl⟩ := h
      rw [roots_aggregate] at he he'
      rw [mapLiterals_aggregate, mapLiterals_aggregate, AggregateFunction.name_injective hfunction,
        optional_encoded_eq_of_toJson arg arg' he he' harg]
    | _ => simp [tag] at htag
  | outer field =>
    cases e' with
    | outer field' =>
      rw [toJson, toJson, Json.tagged_plain_inj] at h
      simp only [plain, plainMembers, Json.object.injEq, List.cons.injEq, Prod.mk.injEq, and_true, true_and,
        Json.text.injEq] at h
      rw [h]
    | _ => simp [tag] at htag
  | correlated plan =>
    cases e' with
    | correlated plan' =>
      rw [toJson, toJson, Json.tagged_plain_inj] at h
      rw [mapLiterals, mapLiterals, plan_encoded_eq_of_toJson plan plan' he he' h.2]
    | _ => simp [tag] at htag
  | existsRow plan negated =>
    cases e' with
    | existsRow plan' negated' =>
      rw [toJson, toJson, Json.tagged_plain_inj] at h
      simp only [plain, plainMembers, Json.object.injEq, List.cons.injEq, Prod.mk.injEq, and_true, true_and,
        Json.bool.injEq] at h
      obtain ⟨hplan, rfl⟩ := h
      rw [mapLiterals, mapLiterals, plan_encoded_eq_of_toJson plan plan' he he' hplan]
    | _ => simp [tag] at htag
termination_by structural e

theorem optional_encoded_eq_of_toJson (e e' : Option Expr) (he : schema.Declares (e.elim [] roots))
    (he' : schema.Declares (e'.elim [] roots)) (h : (Json.ofOption toJson e).plain = (Json.ofOption toJson e').plain) :
    e.map (mapLiterals Value.encoded) = e'.map (mapLiterals Value.encoded) := by
  cases e with
  | none =>
    cases e' with
    | none => rfl
    | some e' => exact absurd h.symm e'.toJson_ne_null
  | some e =>
    cases e' with
    | none => exact absurd h e.toJson_ne_null
    | some e' => exact congrArg some (encoded_eq_of_toJson e e' he he' h)
termination_by structural e

theorem exprs_encoded_eq_of_toJson (es es' : List Expr) (he : schema.Declares (rootsOfExprs es))
    (he' : schema.Declares (rootsOfExprs es')) (h : plainItems (exprsToJson es) = plainItems (exprsToJson es')) :
    mapLiteralsOfExprs Value.encoded es = mapLiteralsOfExprs Value.encoded es' := by
  cases es with
  | nil =>
    cases es' with
    | nil => rfl
    | cons e' es' => cases h
  | cons e es =>
    cases es' with
    | nil => cases h
    | cons e' es' =>
      obtain ⟨hfirst, hrest⟩ := List.cons.inj h
      rw [rootsOfExprs, Schema.declares_append] at he he'
      rw [mapLiteralsOfExprs, mapLiteralsOfExprs, encoded_eq_of_toJson e e' he.1 he'.1 hfirst,
        exprs_encoded_eq_of_toJson es es' he.2 he'.2 hrest]
termination_by structural es

theorem arms_encoded_eq_of_toJson (arms arms' : List (Expr × Expr)) (he : schema.Declares (rootsOfArms arms))
    (he' : schema.Declares (rootsOfArms arms')) (h : plainItems (armsToJson arms) = plainItems (armsToJson arms')) :
    mapLiteralsOfArms Value.encoded arms = mapLiteralsOfArms Value.encoded arms' := by
  cases arms with
  | nil =>
    cases arms' with
    | nil => rfl
    | cons arm' arms' => cases h
  | cons arm arms =>
    cases arms' with
    | nil => cases h
    | cons arm' arms' =>
      obtain ⟨test, result⟩ := arm
      obtain ⟨test', result'⟩ := arm'
      simp only [armsToJson, plainItems, plain, List.cons.injEq, Json.array.injEq, and_true] at h
      obtain ⟨⟨htest, hresult⟩, hrest⟩ := h
      rw [rootsOfArms, Schema.declares_append, Schema.declares_append] at he he'
      rw [mapLiteralsOfArms, mapLiteralsOfArms, encoded_eq_of_toJson test test' he.1.1 he'.1.1 htest,
        encoded_eq_of_toJson result result' he.1.2 he'.1.2 hresult,
        arms_encoded_eq_of_toJson arms arms' he.2 he'.2 hrest]
termination_by structural arms

theorem annotations_encoded_eq_of_toJson (annotations annotations' : List Annotation)
    (he : schema.Declares (rootsOfAnnotations annotations)) (he' : schema.Declares (rootsOfAnnotations annotations'))
    (h : plainItems (annotationsToJson annotations) = plainItems (annotationsToJson annotations')) :
    mapLiteralsOfAnnotations Value.encoded annotations = mapLiteralsOfAnnotations Value.encoded annotations' := by
  cases annotations with
  | nil =>
    cases annotations' with
    | nil => rfl
    | cons first' rest' => cases first'; cases h
  | cons first rest =>
    obtain ⟨aliasName, e⟩ := first
    cases annotations' with
    | nil => cases h
    | cons first' rest' =>
      obtain ⟨aliasName', e'⟩ := first'
      simp only [annotationsToJson, plainItems, plain, plainMembers, List.cons.injEq, Json.object.injEq,
        Prod.mk.injEq, Json.text.injEq, true_and, and_true] at h
      obtain ⟨⟨rfl, hfirst⟩, hrest⟩ := h
      rw [rootsOfAnnotations, Schema.declares_append] at he he'
      rw [mapLiteralsOfAnnotations, mapLiteralsOfAnnotations, encoded_eq_of_toJson e e' he.1 he'.1 hfirst,
        annotations_encoded_eq_of_toJson rest rest' he.2 he'.2 hrest]
termination_by structural annotations

theorem ordering_encoded_eq_of_toJson (keys keys' : List OrderKey)
    (he : schema.Declares (rootsOfOrdering keys)) (he' : schema.Declares (rootsOfOrdering keys'))
    (h : plainItems (orderingToJson keys) = plainItems (orderingToJson keys')) :
    mapLiteralsOfOrdering Value.encoded keys = mapLiteralsOfOrdering Value.encoded keys' := by
  cases keys with
  | nil =>
    cases keys' with
    | nil => rfl
    | cons first' rest' => cases first'; cases h
  | cons first rest =>
    obtain ⟨e, direction⟩ := first
    cases keys' with
    | nil => cases h
    | cons first' rest' =>
      obtain ⟨e', direction'⟩ := first'
      simp only [orderingToJson, plainItems, plain, plainMembers, List.cons.injEq, Json.object.injEq,
        Prod.mk.injEq, Json.text.injEq, true_and, and_true] at h
      obtain ⟨⟨hfirst, hdirection⟩, hrest⟩ := h
      rw [rootsOfOrdering, Schema.declares_append] at he he'
      rw [mapLiteralsOfOrdering, mapLiteralsOfOrdering, encoded_eq_of_toJson e e' he.1 he'.1 hfirst,
        Direction.name_injective hdirection, ordering_encoded_eq_of_toJson rest rest' he.2 he'.2 hrest]
termination_by structural keys

theorem plan_encoded_eq_of_toJson (p p' : Plan) (he : schema.Declares p.roots) (he' : schema.Declares p'.roots)
    (h : p.toJson.plain = p'.toJson.plain) : p.mapLiterals Value.encoded = p'.mapLiterals Value.encoded := by
  obtain ⟨root, filters, annotations, projection, ordering, limit, offset, distinct, loadings⟩ := p
  obtain ⟨root', filters', annotations', projection', ordering', limit', offset', distinct', loadings'⟩ := p'
  simp only [Plan.toJson, plain, plainMembers, Json.object.injEq, List.cons.injEq, Prod.mk.injEq, Json.text.injEq,
    Json.array.injEq, Json.bool.injEq, true_and, and_true] at h
  obtain ⟨hroot, hfilters, hannotations, hprojection, hordering, hlimit, hoffset, rfl, hloadings⟩ := h
  simp only [Plan.roots, Schema.Declares, List.forall_mem_cons, List.forall_mem_append] at he he'
  obtain ⟨heroot, ⟨hefilters, heannotations⟩, heordering⟩ := he
  obtain ⟨heroot', ⟨hefilters', heannotations'⟩, heordering'⟩ := he'
  obtain rfl : root = root' := by
    rw [hroot, heroot'] at heroot
    exact (Option.some.inj heroot).symm
  rw [Plan.mapLiterals, Plan.mapLiterals, exprs_encoded_eq_of_toJson filters filters' hefilters hefilters' hfilters,
    annotations_encoded_eq_of_toJson annotations annotations' heannotations heannotations' hannotations,
    projection_eq_of_toJson hprojection,
    ordering_encoded_eq_of_toJson ordering ordering' heordering heordering' hordering,
    pageBound_eq_of_toJson hlimit, pageBound_eq_of_toJson hoffset, loadings_eq_of_toJson hloadings]
termination_by structural p

end

end Expr

end Injective

/-! ## What the encoding does not tell -/

namespace Expr

mutual

/-- The encoding does not tell an expression from what it is encoded as. -/
theorem toJson_encoded (e : Expr) : (e.mapLiterals Value.encoded).toJson.plain = e.toJson.plain := by
  cases e with
  | literal value =>
    rw [mapLiterals, toJson, toJson, Json.tagged_plain_inj]
    exact ⟨rfl, value.toTaggedJson_encoded⟩
  | binary op left right =>
    simp only [mapLiterals, toJson, Json.tagged_plain_inj, plain, plainMembers, toJson_encoded left,
      toJson_encoded right, and_self]
  | and operands =>
    simp only [mapLiterals, toJson, Json.tagged_plain_inj, plain, exprs_toJson_encoded operands, and_self]
  | or operands =>
    simp only [mapLiterals, toJson, Json.tagged_plain_inj, plain, exprs_toJson_encoded operands, and_self]
  | not operand => simp only [mapLiterals, toJson, Json.tagged_plain_inj, toJson_encoded operand, and_self]
  | isNull operand negated =>
    simp only [mapLiterals, toJson, Json.tagged_plain_inj, plain, plainMembers, toJson_encoded operand, and_self]
  | inList operand values negated =>
    simp only [mapLiterals, toJson, Json.tagged_plain_inj, plain, plainMembers, toJson_encoded operand,
      exprs_toJson_encoded values, and_self]
  | case arms otherwise =>
    simp only [mapLiterals_case, toJson_case, Json.tagged_plain_inj, plain, plainMembers, arms_toJson_encoded arms,
      optional_toJson_encoded otherwise, and_self]
  | aggregate function arg distinct =>
    simp only [mapLiterals_aggregate, toJson_aggregate, Json.tagged_plain_inj, plain, plainMembers,
      optional_toJson_encoded arg, and_self]
  | correlated plan => simp only [mapLiterals, toJson, Json.tagged_plain_inj, plan_toJson_encoded plan, and_self]
  | existsRow plan negated =>
    simp only [mapLiterals, toJson, Json.tagged_plain_inj, plain, plainMembers, plan_toJson_encoded plan, and_self]
  | _ => rfl
termination_by structural e

theorem optional_toJson_encoded (e : Option Expr) :
    (Json.ofOption toJson (e.map (mapLiterals Value.encoded))).plain = (Json.ofOption toJson e).plain := by
  cases e with
  | none => rfl
  | some e => exact toJson_encoded e
termination_by structural e

theorem exprs_toJson_encoded (es : List Expr) :
    plainItems (exprsToJson (mapLiteralsOfExprs Value.encoded es)) = plainItems (exprsToJson es) := by
  cases es with
  | nil => rfl
  | cons e rest =>
    simp only [mapLiteralsOfExprs, exprsToJson, plainItems, toJson_encoded e, exprs_toJson_encoded rest]
termination_by structural es

theorem arms_toJson_encoded (arms : List (Expr × Expr)) :
    plainItems (armsToJson (mapLiteralsOfArms Value.encoded arms)) = plainItems (armsToJson arms) := by
  cases arms with
  | nil => rfl
  | cons arm rest =>
    obtain ⟨test, result⟩ := arm
    simp only [mapLiteralsOfArms, armsToJson, plainItems, plain, toJson_encoded test, toJson_encoded result,
      arms_toJson_encoded rest]
termination_by structural arms

theorem annotations_toJson_encoded (annotations : List Annotation) :
    plainItems (annotationsToJson (mapLiteralsOfAnnotations Value.encoded annotations)) =
      plainItems (annotationsToJson annotations) := by
  cases annotations with
  | nil => rfl
  | cons first rest =>
    obtain ⟨aliasName, e⟩ := first
    simp only [mapLiteralsOfAnnotations, annotationsToJson, plainItems, plain, plainMembers, toJson_encoded e,
      annotations_toJson_encoded rest]
termination_by structural annotations

theorem ordering_toJson_encoded (keys : List OrderKey) :
    plainItems (orderingToJson (mapLiteralsOfOrdering Value.encoded keys)) = plainItems (orderingToJson keys) := by
  cases keys with
  | nil => rfl
  | cons first rest =>
    obtain ⟨e, direction⟩ := first
    simp only [mapLiteralsOfOrdering, orderingToJson, plainItems, plain, plainMembers, toJson_encoded e,
      ordering_toJson_encoded rest]
termination_by structural keys

theorem plan_toJson_encoded (p : Plan) : (p.mapLiterals Value.encoded).toJson.plain = p.toJson.plain := by
  obtain ⟨root, filters, annotations, projection, ordering, limit, offset, distinct, loadings⟩ := p
  simp only [Plan.mapLiterals, Plan.toJson, plain, plainMembers, exprs_toJson_encoded filters,
    annotations_toJson_encoded annotations, ordering_toJson_encoded ordering]
termination_by structural p

end

end Expr

/-- Two plans of one schema have one encoding when they differ in nothing but their reals that are no number. -/
theorem Plan.toJson_eq_iff {schema : Schema} {p p' : Plan} (hp : p.Over schema) (hp' : p'.Over schema) :
    p.toJson.plain = p'.toJson.plain ↔ p.encoded = p'.encoded := by
  constructor
  · exact Expr.plan_encoded_eq_of_toJson p p' hp hp'
  · intro h
    rw [← Expr.plan_toJson_encoded p, ← Expr.plan_toJson_encoded p']
    exact congrArg (fun q : Plan => q.toJson.plain) h

end RelQuery
