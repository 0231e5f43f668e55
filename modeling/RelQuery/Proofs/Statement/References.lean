/-
What the compilation of an expression asks its statement for.

The tables of a statement change only through the references of its expressions: columns, aliases, fields of the
enclosing row and subplans. `Expr.references` lists them with the role in which each is asked for, and compiling an
expression does to the tables what answering its references one after another does (`lower_references`), whatever the
expression makes of the answers. So facts about tables are proved for one reference and follow for whole expressions.
- `map_node_references`: they are the nodes that refer to something, in the same order.
- `run_columns`: with the aliases resolved, a row's expressions refer to columns only.
-/
import RelQuery.Proofs.Lists
import RelQuery.Proofs.Plan.Meaning

namespace RelQuery

/-! ## Compilations -/

/-- A computation that succeeds in two steps succeeds in each. -/
theorem ok_of_bind {ε α β : Type} {e : Except ε α} {f : α → Except ε β} {b : β} (h : e >>= f = .ok b) :
    ∃ a, e = .ok a ∧ f a = .ok b := by
  cases e with
  | error failure => cases h
  | ok a => exact ⟨a, rfl, h⟩

theorem map_ok {ε α β : Type} {e : Except ε α} {f : α → β} {b : β} (h : e.map f = .ok b) :
    ∃ a, e = .ok a ∧ f a = b := by
  cases e with
  | error failure => cases h
  | ok a => exact ⟨a, rfl, Except.ok.inj h⟩

namespace Lowering

variable {α β : Type}

/-- a compilation with its result left aside -/
def effect (act : Lowering α) : Lowering Unit := do
  let _ ← act
  return ()

@[simp] theorem effect_pure (a : α) : effect (pure a : Lowering α) = pure () := by simp [effect]

theorem effect_bind (act : Lowering α) (f : α → Lowering β) {rest : Lowering Unit} (h : ∀ a, effect (f a) = rest) :
    effect (act >>= f) = act.effect >>= fun _ => rest := by
  have hf : (fun a => f a >>= fun _ => (pure () : Lowering Unit)) = fun _ => rest := funext h
  simp only [effect, bind_assoc, hf, pure_bind]

/-- a result put into a larger one -/
@[simp] theorem effect_bind_pure (act : Lowering α) (f : α → β) :
    effect (act >>= fun a => pure (f a)) = act.effect := by
  simp [effect]

theorem bind_eq {act : Lowering α} {s s' : JoinState} {a : α} (h : act s = .ok (a, s')) (next : α → Lowering β) :
    (act >>= next) s = next a s' := by
  change (act s >>= fun result => next result.1 result.2) = _
  rw [h]
  rfl

/-- compiling and then using the result -/
theorem bind_ok {act : Lowering α} {f : α → Lowering β} {s s' : JoinState} {b : β} (h : (act >>= f) s = .ok (b, s')) :
    ∃ a s₁, act s = .ok (a, s₁) ∧ f a s₁ = .ok (b, s') := by
  simp only [bind, StateT.bind, Except.bind] at h
  split at h
  · cases h
  · next x hx => exact ⟨x.1, x.2, hx, h⟩

theorem pure_ok {a b : α} {s s' : JoinState} : (pure a : Lowering α) s = .ok (b, s') ↔ a = b ∧ s = s' := by
  constructor
  · intro h
    cases h
    exact ⟨rfl, rfl⟩
  · rintro ⟨rfl, rfl⟩
    rfl

/-! Results put into a larger one. -/

theorem bind_pure_ok {act : Lowering α} {f : α → β} {s s' : JoinState} {b : β}
    (h : (act >>= fun a => pure (f a)) s = .ok (b, s')) : ∃ a, act s = .ok (a, s') ∧ f a = b := by
  obtain ⟨a, s₁, ha, hpure⟩ := bind_ok h
  obtain ⟨rfl, rfl⟩ := pure_ok.1 hpure
  exact ⟨a, ha, rfl⟩

theorem bind₂_pure_ok {γ : Type} {act : Lowering α} {next : α → Lowering β} {f : α → β → γ} {s s' : JoinState} {c : γ}
    (h : (act >>= fun a => next a >>= fun b => pure (f a b)) s = .ok (c, s')) :
    ∃ a b s₁, act s = .ok (a, s₁) ∧ next a s₁ = .ok (b, s') ∧ f a b = c := by
  obtain ⟨a, s₁, ha, hmore⟩ := bind_ok h
  obtain ⟨b, hb, hc⟩ := bind_pure_ok hmore
  exact ⟨a, b, s₁, ha, hb, hc⟩

theorem bind₃_pure_ok {γ δ : Type} {act : Lowering α} {next : α → Lowering β} {last : α → β → Lowering γ}
    {f : α → β → γ → δ} {s s' : JoinState} {d : δ}
    (h : (act >>= fun a => next a >>= fun b => last a b >>= fun c => pure (f a b c)) s = .ok (d, s')) :
    ∃ a b c s₁ s₂, act s = .ok (a, s₁) ∧ next a s₁ = .ok (b, s₂) ∧ last a b s₂ = .ok (c, s') ∧ f a b c = d := by
  obtain ⟨a, s₁, ha, hmore⟩ := bind_ok h
  obtain ⟨b, c, s₂, hb, hc, hd⟩ := bind₂_pure_ok hmore
  exact ⟨a, b, c, s₁, s₂, ha, hb, hc, hd⟩

/-- A step gives one result for each of a list, in order. -/
theorem forall₂_of_mapM_ok {f : α → Lowering β} : {as : List α} → ∀ {bs s s'},
    (as.mapM f : Lowering (List β)) s = .ok (bs, s') → List.Forall₂ (fun a b => ∃ t t', f a t = .ok (b, t')) as bs
  | [], bs, s, s', h => by
    obtain ⟨rfl, -⟩ := pure_ok.1 h
    exact .nil
  | a :: rest, bs, s, s', h => by
    rw [List.mapM_cons] at h
    obtain ⟨first, more, s₁, hfirst, hrest, rfl⟩ := bind₂_pure_ok h
    exact .cons ⟨s, s₁, hfirst⟩ (forall₂_of_mapM_ok hrest)

theorem length_mapM {f : α → Lowering β} {as : List α} {bs : List β} {s s' : JoinState}
    (h : (as.mapM f : Lowering (List β)) s = .ok (bs, s')) : bs.length = as.length :=
  (forall₂_of_mapM_ok h).length_eq.symm

/-- What a step gives on each of a list comes from one of its members. -/
theorem mem_of_mapM_ok {f : α → Lowering β} {as : List α} {bs : List β} {s s' : JoinState}
    (h : (as.mapM f : Lowering (List β)) s = .ok (bs, s')) {b : β} (hb : b ∈ bs) :
    ∃ a ∈ as, ∃ t t', f a t = .ok (b, t') := by
  obtain ⟨a, hpair, hone⟩ := exists_of_forall₂ (forall₂_of_mapM_ok h).flip hb
  exact ⟨a, (List.of_mem_zip hpair).2, hone⟩

theorem effect_ok {act : Lowering α} {s s' : JoinState} : act.effect s = .ok ((), s') ↔ ∃ a, act s = .ok (a, s') := by
  constructor
  · intro h
    obtain ⟨a, s₁, ha, hs⟩ := bind_ok h
    obtain ⟨-, rfl⟩ := pure_ok.1 hs
    exact ⟨a, ha⟩
  · rintro ⟨a, ha⟩
    exact bind_eq ha _

/-- a computation without tables, inside a compilation -/
theorem liftM_ok {e : Except QueryError α} {a : α} {s s' : JoinState} (h : (liftM e : Lowering α) s = .ok (a, s')) :
    e = .ok a ∧ s' = s := by
  cases e with
  | error failure => cases h
  | ok result => cases h; exact ⟨rfl, rfl⟩

/-- Every step of a sequence that succeeds succeeds. -/
theorem forM_step_ok {γ : Type} {step : γ → Lowering Unit} {c : γ} :
    ∀ {cs : List γ}, c ∈ cs → ∀ {s s'}, (forM cs step : Lowering Unit) s = .ok ((), s') →
      ∃ t t', step c t = .ok ((), t')
  | first :: rest, hc, s, s', h => by
    rw [List.forM_cons] at h
    obtain ⟨_, s₁, hfirst, hrest⟩ := bind_ok h
    rcases List.mem_cons.1 hc with rfl | hc
    · exact ⟨s, s₁, hfirst⟩
    · exact forM_step_ok hc hrest

end Lowering

/-! ## References -/

/-- one reference that a statement has to answer -/
inductive Reference where
  | column (ref : FieldRef) (role : Role)
  | aliased (name : String) (role : Role)
  | outer (name : String)
  | scalar (plan : Plan)
  | existence (plan : Plan) (negated : Bool)

namespace Reference

/-- the expression that a reference comes from -/
def node : Reference → Expr
  | column ref _ => .field ref
  | aliased name _ => .aliasRef name
  | outer name => .outer name
  | scalar plan => .correlated plan
  | existence plan negated => .existsRow plan negated

/-- finds what a reference refers to -/
def answer (scope : Scope) (expand : Expansion) : Reference → Lowering Unit
  | column ref role => (scope.column ref role).effect
  | aliased name role => (expand role name).effect
  | outer name => (scope.outerColumn name).effect
  | scalar plan => (Lowering.nested plan scope fun schema outer next => plan.select schema .scalar outer next).effect
  | existence plan _ =>
    (Lowering.nested plan scope fun schema outer next => plan.select schema .existence outer next).effect

end Reference

namespace Expr

/-- whether an expression refers to something outside itself -/
def isReference : Expr → Bool
  | .field _ | .aliasRef _ | .outer _ | .correlated _ | .existsRow .. => true
  | _ => false

mutual

/-- the references of an expression, each with the role it is asked for in -/
def references : Expr → Role → List Reference
  | .field ref => fun role => [.column ref role]
  | .aliasRef name => fun role => [.aliased name role]
  | .literal _ => fun _ => []
  | .binary _ left right => fun role => left.references role ++ right.references role
  | .and operands => fun role => referencesOfList operands role
  | .or operands => fun role => referencesOfList operands role.weakened
  | .not operand | .isNull operand _ => fun role => operand.references role.weakened
  | .inList operand values negated => fun role =>
    let role := if negated then role.weakened else role
    operand.references role ++ referencesOfList values role
  | .case arms none => fun role => referencesOfArms arms role.weakened
  | .case arms (some e) => fun role => referencesOfArms arms role.weakened ++ e.references role.weakened
  | .aggregate _ none _ => fun _ => []
  | .aggregate _ (some arg) _ => fun role => arg.references role.aggregated
  | .outer name => fun _ => [.outer name]
  | .correlated plan => fun _ => [.scalar plan]
  | .existsRow plan negated => fun _ => [.existence plan negated]
termination_by structural e => e

def referencesOfList : List Expr → Role → List Reference
  | [] => fun _ => []
  | e :: rest => fun role => e.references role ++ referencesOfList rest role
termination_by structural es => es

def referencesOfArms : List (Expr × Expr) → Role → List Reference
  | [] => fun _ => []
  | (test, result) :: rest => fun role => test.references role ++ result.references role ++ referencesOfArms rest role
termination_by structural arms => arms

end

mutual

theorem map_node_references :
    (e : Expr) → (role : Role) → (e.references role).map Reference.node = e.nodes.filter isReference
  | .field _, _ | .aliasRef _, _ | .literal _, _ | .outer _, _ | .correlated _, _ | .existsRow .., _
  | .aggregate _ none _, _ => rfl
  | .binary _ left right, role => by
    simp [references, nodes, isReference, map_node_references left role, map_node_references right role]
  | .and operands, role => by simp [references, nodes, isReference, map_node_referencesOfList operands role]
  | .or operands, role => by simp [references, nodes, isReference, map_node_referencesOfList operands role.weakened]
  | .not operand, role | .isNull operand _, role => by
    simp [references, nodes, isReference, map_node_references operand role.weakened]
  | .inList operand values negated, role => by
    simp [references, nodes, isReference, map_node_references operand, map_node_referencesOfList values]
  | .case arms none, role => by simp [references, nodes, isReference, map_node_referencesOfArms arms role.weakened]
  | .case arms (some e), role => by
    simp [references, nodes, isReference, map_node_referencesOfArms arms role.weakened,
      map_node_references e role.weakened]
  | .aggregate _ (some arg) _, role => by
    simp [references, nodes, isReference, map_node_references arg role.aggregated]
termination_by structural e => e

theorem map_node_referencesOfList : (es : List Expr) → (role : Role) →
    (referencesOfList es role).map Reference.node = (nodesOfList es).filter isReference
  | [], _ => rfl
  | e :: rest, role => by
    simp [referencesOfList, nodesOfList, map_node_references e role, map_node_referencesOfList rest role]
termination_by structural es => es

theorem map_node_referencesOfArms : (arms : List (Expr × Expr)) → (role : Role) →
    (referencesOfArms arms role).map Reference.node = (nodesOfArms arms).filter isReference
  | [], _ => rfl
  | (test, result) :: rest, role => by
    simp [referencesOfArms, nodesOfArms, map_node_references test role, map_node_references result role,
      map_node_referencesOfArms rest role]
termination_by structural arms => arms

end

/-! ## Compiling is answering the references -/

open Lowering

variable (scope : Scope) (expand : Expansion)

mutual

theorem lower_references : (e : Expr) → (role : Role) →
    (e.lower scope expand role).effect = forM (e.references role) (Reference.answer scope expand)
  | .field _, _ | .aliasRef _, _ | .outer _, _ => by simp [lower, references, Reference.answer, effect]
  | .literal _, _ | .aggregate _ none _, _ | .case [] none, _ => by simp [lower, references, referencesOfArms]
  | .correlated _, _ | .existsRow .., _ => by
    simp only [lower, references, Reference.answer, List.forM_cons, List.forM_nil, effect_bind_pure]
    simp [effect]
  | .binary _ left right, role => by
    simp only [lower, references, List.forM_append, ← lower_references left role, ← lower_references right role]
    exact effect_bind _ _ fun _ => effect_bind_pure _ _
  | .and operands, role => by
    simp only [lower, references, ← lowerList_references operands role]
    exact effect_bind_pure _ _
  | .or operands, role => by
    simp only [lower, references, ← lowerList_references operands role.weakened]
    exact effect_bind_pure _ _
  | .not operand, role | .isNull operand _, role => by
    simp only [lower, references, ← lower_references operand role.weakened]
    exact effect_bind_pure _ _
  | .inList operand values negated, role => by
    simp only [lower, references, List.forM_append, ← lower_references operand, ← lowerList_references values]
    exact effect_bind _ _ fun _ => effect_bind_pure _ _
  | .case [] (some e), role => by
    simp only [lower, references, referencesOfArms, List.nil_append, ← lower_references e role.weakened]
  | .case (arm :: arms) none, role => by
    simp only [lower, references, ← lowerArms_references (arm :: arms) role.weakened]
    exact effect_bind_pure _ _
  | .case (arm :: arms) (some e), role => by
    simp only [lower, references, List.forM_append, ← lowerArms_references (arm :: arms) role.weakened,
      ← lower_references e role.weakened]
    exact effect_bind _ _ fun _ => effect_bind_pure _ _
  | .aggregate _ (some arg) _, role => by
    simp only [lower, references, ← lower_references arg role.aggregated]
    exact effect_bind_pure _ _
termination_by structural e => e

theorem lowerList_references : (es : List Expr) → (role : Role) →
    (lowerList es scope expand role).effect = forM (referencesOfList es role) (Reference.answer scope expand)
  | [], _ => by simp [lowerList, referencesOfList]
  | e :: rest, role => by
    simp only [lowerList, referencesOfList, List.forM_append, ← lower_references e role,
      ← lowerList_references rest role]
    exact effect_bind _ _ fun _ => effect_bind_pure _ _
termination_by structural es => es

theorem lowerArms_references : (arms : List (Expr × Expr)) → (role : Role) →
    (lowerArms arms scope expand role).effect = forM (referencesOfArms arms role) (Reference.answer scope expand)
  | [], _ => by simp [lowerArms, referencesOfArms]
  | (test, result) :: rest, role => by
    simp only [lowerArms, referencesOfArms, List.forM_append, ← lower_references test role,
      ← lower_references result role,
      ← lowerArms_references rest role, bind_assoc]
    exact effect_bind _ _ fun _ => effect_bind _ _ fun _ => effect_bind_pure _ _
termination_by structural arms => arms

end

theorem mem_aliases_node {r : Reference} {name : String} (h : name ∈ r.node.aliases) :
    ∃ role, r = .aliased name role := by
  cases r with
  | aliased other role =>
    obtain rfl : name = other := by simpa [aliases, Reference.node, nodes] using h
    exact ⟨role, rfl⟩
  | column | outer | scalar | existence => simp [aliases, Reference.node, nodes] at h

/-- a reference comes from a node -/
theorem node_mem_nodes {e : Expr} {role : Role} {r : Reference} (h : r ∈ e.references role) : r.node ∈ e.nodes := by
  have hmem : r.node ∈ (e.references role).map Reference.node := List.mem_map_of_mem h
  rw [map_node_references] at hmem
  exact (List.mem_filter.1 hmem).1

/-- what a node refers to is asked for -/
theorem exists_reference {e node : Expr} (h : node ∈ e.nodes) (hnode : node.isReference) (role : Role) :
    ∃ r ∈ e.references role, r.node = node := by
  have hmem : node ∈ (e.references role).map Reference.node := by
    rw [map_node_references]
    exact List.mem_filter.2 ⟨h, hnode⟩
  exact List.mem_map.1 hmem

/-- an alias named in an expression is asked for -/
theorem aliased_mem_references {e : Expr} {name : String} (h : name ∈ e.aliases) (role : Role) :
    ∃ asked, .aliased name asked ∈ e.references role := by
  obtain ⟨r, hr, heq⟩ := exists_reference (mem_aliases.1 h) rfl role
  have hname : name ∈ r.node.aliases := by simp [heq, aliases, nodes]
  obtain ⟨asked, rfl⟩ := mem_aliases_node hname
  exact ⟨asked, hr⟩

/-- a field of the enclosing row named in an expression is asked for -/
theorem outer_mem_references {e : Expr} {name : String} (h : .outer name ∈ e.nodes) (role : Role) :
    .outer name ∈ e.references role := by
  obtain ⟨r, hr, heq⟩ := exists_reference h rfl role
  cases r with
  | outer other =>
    obtain rfl : other = name := by simpa [Reference.node] using heq
    exact hr
  | column | aliased | scalar | existence => cases heq

end Expr

/-! ## Aliases resolved -/

theorem lookup_annotationFragments (name : String) : (annotations : List Annotation) →
    (annotationFragments annotations).lookup name =
      ((annotations.find? (·.aliasName = name)).map (·.expr)).map Expr.lower
  | [] => rfl
  | ⟨aliasName, e⟩ :: rest => by
    by_cases h : name = aliasName
    · simp [annotationFragments, h]
    · have hne : ¬aliasName = name := fun heq => h heq.symm
      simp only [annotationFragments, List.lookup_cons, beq_false_of_ne h, List.find?_cons, decide_eq_false hne]
      exact lookup_annotationFragments name rest

/-- an alias compiled is its annotation compiled, one alias step shorter -/
theorem Plan.expand_succ (p : Plan) (scope : Scope) (budget : Nat) (role : Role) (name : String) :
    p.fragments.expand scope (budget + 1) role name =
      match p.annotationOf name with
      | none => throw (.unknownPath scope.root.name name)
      | some e => e.lower scope (p.fragments.expand scope budget) role := by
  simp only [Fragments.expand, fragments, lookup_annotationFragments, annotationOf]
  cases p.annotations.find? (·.aliasName = name) <;> rfl

theorem Plan.expand_ok {p : Plan} {scope : Scope} {budget : Nat} {role : Role} {name : String} {s s' : JoinState}
    {x : Sql.Expr} (h : p.fragments.expand scope (budget + 1) role name s = .ok (x, s')) :
    ∃ e, p.annotationOf name = some e ∧ e.lower scope (p.fragments.expand scope budget) role s = .ok (x, s') := by
  rw [p.expand_succ] at h
  cases hname : p.annotationOf name with
  | none => rw [hname] at h; cases h
  | some e => rw [hname] at h; exact ⟨e, rfl, h⟩

namespace Plan

variable {p : Plan}

/-- what a reference of an expression reaches, the expression reaches -/
theorem Reaches.of_reference {e node : Expr} {role : Role} {r : Reference} (hr : r ∈ e.references role)
    (h : p.Reaches r.node node) : p.Reaches e node := by
  have hnode := Expr.node_mem_nodes hr
  cases h with
  | part hmem =>
    have hsame : node = r.node := by cases r <;> simpa [Reference.node, Expr.nodes] using hmem
    exact .part (hsame ▸ hnode)
  | through hname hannotation hinner =>
    obtain ⟨asked, rfl⟩ := Expr.mem_aliases_node hname
    exact .through (Expr.mem_aliases.2 hnode) hannotation hinner

theorem Rowwise.of_mem_references {e : Expr} {role : Role} {r : Reference} (h : p.Rowwise e)
    (hr : r ∈ e.references role) : p.Rowwise r.node :=
  fun node hreach => h node (hreach.of_reference hr)

theorem Rowwise.of_alias {name : String} {e : Expr} (h : p.Rowwise (.aliasRef name))
    (he : p.annotationOf name = some e) :
    p.Rowwise e :=
  fun node hreach => h node (.through (by simp [Expr.aliases, Expr.nodes]) he hreach)

end Plan

/-- a column asked for in a role -/
structure ColumnReference where
  ref : FieldRef
  role : Role

/-- answers the reference of a column -/
def ColumnReference.answer (scope : Scope) (r : ColumnReference) : Lowering Unit := (scope.column r.ref r.role).effect

/-- the columns that a reference comes down to, annotations followed a number of steps -/
def Reference.columns (p : Plan) : Nat → Reference → List ColumnReference
  | _, .column ref role => [⟨ref, role⟩]
  | budget + 1, .aliased name role =>
    match p.annotationOf name with
    | none => []
    | some e => (e.references role).flatMap (columns p budget)
  | _, _ => []

/-- the columns that an expression of a plan reads, each with the role it is read in -/
def Plan.columns (p : Plan) (e : Expr) (role : Role) : List ColumnReference :=
  (e.references role).flatMap (Reference.columns p p.aliasBudget)

theorem length_annotationFragments : (annotations : List Annotation) →
    (annotationFragments annotations).length = annotations.length
  | [] => rfl
  | ⟨_, _⟩ :: rest => by simp [annotationFragments, length_annotationFragments rest]

theorem Plan.expansion_eq (p : Plan) (scope : Scope) :
    p.fragments.expansion scope = p.fragments.expand scope p.aliasBudget := by
  simp [Fragments.expansion, fragments, length_annotationFragments, aliasBudget]

theorem forM_flatMap_ok {scope : Scope} {expand : Expansion} {columns : Reference → List ColumnReference} :
    ∀ {rs : List Reference}, (∀ r ∈ rs, ∀ {s s'}, r.answer scope expand s = .ok ((), s') →
      (forM (columns r) (ColumnReference.answer scope) : Lowering Unit) s = .ok ((), s')) →
    ∀ {s s'}, (forM rs (Reference.answer scope expand) : Lowering Unit) s = .ok ((), s') →
      (forM (rs.flatMap columns) (ColumnReference.answer scope) : Lowering Unit) s = .ok ((), s')
  | [], _, s, s', h => h
  | r :: rest, hstep, s, s', h => by
    rw [List.forM_cons] at h
    obtain ⟨_, s₁, hr, hrest⟩ := Lowering.bind_ok h
    have hcolumns := hstep r (by simp) hr
    have hmore := forM_flatMap_ok (fun r hr => hstep r (by simp [hr])) hrest
    rw [List.flatMap_cons, List.forM_append, Lowering.bind_eq hcolumns]
    exact hmore

theorem Scope.outerColumn_ok {scope : Scope} {name : String} {x : Sql.Expr} {s s' : JoinState}
    (h : scope.outerColumn name s = .ok (x, s')) :
    s' = s ∧ ∃ o f, scope.outer = some o ∧ o.entity.field name = some f ∧ x = .columnOf o.name f.name := by
  unfold outerColumn at h
  cases ho : scope.outer with
  | none => rw [ho] at h; cases h
  | some o =>
    cases hf : o.entity.field name with
    | none => simp only [ho, hf] at h; cases h
    | some f =>
      simp only [ho, hf] at h
      obtain ⟨rfl, rfl⟩ := Lowering.pure_ok.1 h
      exact ⟨rfl, o, f, rfl, hf, rfl⟩

/-- Answering a reference of a row's expression is answering the references of its columns. -/
theorem Reference.run_columns {p : Plan} {scope : Scope} : (budget : Nat) → (r : Reference) → p.Rowwise r.node →
    ∀ {s s'}, r.answer scope (p.fragments.expand scope budget) s = .ok ((), s') →
      (forM (r.columns p budget) (ColumnReference.answer scope) : Lowering Unit) s = .ok ((), s')
  | budget, .column ref role, _, s, s', h => by
    simpa [columns, ColumnReference.answer, answer, Lowering.effect] using h
  | budget, .outer name, _, s, s', h => by
    obtain ⟨x, hx⟩ := Lowering.effect_ok.1 h
    obtain ⟨rfl, -⟩ := Scope.outerColumn_ok hx
    simp only [columns]
    rfl
  | budget, .scalar plan, hrow, s, s', h => by
    have := hrow (.correlated plan) (.part (by simp [node, Expr.nodes]))
    cases this
  | budget, .existence plan negated, hrow, s, s', h => by
    have := hrow (.existsRow plan negated) (.part (by simp [node, Expr.nodes]))
    cases this
  | 0, .aliased name role, _, s, s', h => by cases h
  | budget + 1, .aliased name role, hrow, s, s', h => by
    obtain ⟨x, hx⟩ := Lowering.effect_ok.1 h
    obtain ⟨e, he, hlower⟩ := Plan.expand_ok hx
    have hreferences := Lowering.effect_ok.2 ⟨x, hlower⟩
    rw [Expr.lower_references] at hreferences
    simp only [columns, he]
    exact forM_flatMap_ok
      (fun r hr => Reference.run_columns budget r ((hrow.of_alias he).of_mem_references hr)) hreferences

/-- What compiling a row's expression does to the tables, reading its columns one after another does. -/
theorem Plan.run_columns {p : Plan} {scope : Scope} {e : Expr} {role : Role} {s s' : JoinState} {x : Sql.Expr}
    (hrow : p.Rowwise e) (h : e.lower scope (p.fragments.expansion scope) role s = .ok (x, s')) :
    (forM (p.columns e role) (ColumnReference.answer scope) : Lowering Unit) s = .ok ((), s') := by
  have hreferences := Lowering.effect_ok.2 ⟨x, h⟩
  rw [Expr.lower_references, p.expansion_eq] at hreferences
  exact forM_flatMap_ok (fun r hr => Reference.run_columns _ r (hrow.of_mem_references hr)) hreferences

end RelQuery
