/-
What a compiled expression takes from its statement.

The leaves of a compiled expression are those of the answers to its references, in order (`Resolves`); operators add
none. With the aliases resolved the references are columns, fields of the enclosing row and subplans
(`Reference.flatten`), so what holds of the leaves of one answered reference holds of every leaf of a statement.
- `lower_resolves`, `lowerAll_resolves`: compiled expressions resolve their references.
- `mem_query_leaves`: the leaves of a plan's query come from its joins and its compiled expressions.
- `Plan.induction_subplans`: what a plan inherits from its subplans, every plan has.
-/
import RelQuery.Proofs.Lists
import RelQuery.Proofs.Sql.Scoping
import RelQuery.Proofs.Statement.JoinedRows

namespace RelQuery

open Sql (Leaf)

/-! ## References resolved -/

/-- finds what a reference refers to, as an expression -/
def Reference.resolve (scope : Scope) (expand : Expansion) : Reference → Lowering Sql.Expr
  | column ref role => scope.column ref role
  | aliased name role => expand role name
  | outer name => scope.outerColumn name
  | scalar plan => do
    let q ← Lowering.nested plan scope fun schema outer next => plan.select schema .scalar outer next
    return .subquery q
  | existence plan negated => do
    let q ← Lowering.nested plan scope fun schema outer next => plan.select schema .existence outer next
    return .existsRow q negated

/-- References resolved one after another between two states of the tables, with the leaves of the answers. -/
inductive Resolves (scope : Scope) (expand : Expansion) : List Reference → JoinState → JoinState → List Leaf → Prop
  | nil {s : JoinState} : Resolves scope expand [] s s []
  | cons {r : Reference} {rest : List Reference} {s s₁ s' : JoinState} {x : Sql.Expr} {leaves : List Leaf} :
    r.resolve scope expand s = .ok (x, s₁) → Resolves scope expand rest s₁ s' leaves →
    Resolves scope expand (r :: rest) s s' (x.leaves ++ leaves)

section Resolving

variable {scope : Scope} {expand : Expansion}

namespace Resolves

variable {rs more : List Reference} {s s₁ s' : JoinState} {leaves others : List Leaf}

theorem append (h : Resolves scope expand rs s s₁ leaves) (h' : Resolves scope expand more s₁ s' others) :
    Resolves scope expand (rs ++ more) s s' (leaves ++ others) := by
  induction h with
  | nil => exact h'
  | cons hr _ ih =>
    rw [List.cons_append, List.append_assoc]
    exact .cons hr (ih h')

/-- Each reference has been resolved to what brings in leaves of its own. -/
theorem of_mem {r : Reference} (h : Resolves scope expand rs s s' leaves) (hr : r ∈ rs) :
    ∃ t x t', r.resolve scope expand t = .ok (x, t') ∧ x.leaves ⊆ leaves := by
  induction h with
  | nil => cases hr
  | cons hfirst _ ih =>
    rcases List.mem_cons.1 hr with rfl | hr
    · exact ⟨_, _, _, hfirst, List.subset_append_left _ _⟩
    · obtain ⟨t, x, t', hx, hsubset⟩ := ih hr
      exact ⟨t, x, t', hx, List.subset_append_of_subset_right _ hsubset⟩

/-- one reference, its answer being the whole expression -/
theorem single {r : Reference} {x : Sql.Expr} (h : r.resolve scope expand s = .ok (x, s')) :
    Resolves scope expand [r] s s' x.leaves := by
  have hone := Resolves.cons h .nil
  rwa [List.append_nil] at hone

end Resolves

theorem foldl_binary_leaves (op : Sql.BinaryOp) (rest : List Sql.Expr) (e : Sql.Expr) :
    (rest.foldl (.binary op) e).leaves = e.leaves ++ Sql.listLeaves rest := by
  induction rest generalizing e with
  | nil => simp [Sql.listLeaves]
  | cons next rest ih =>
    rw [List.foldl_cons, ih]
    simp [Sql.Expr.leaves, Sql.listLeaves]

theorem connect_leaves (op : Sql.BinaryOp) (neutral : Int64) (es : List Sql.Expr) :
    (connect op neutral es).leaves = Sql.listLeaves es := by
  cases es with
  | nil => rfl
  | cons e rest => exact foldl_binary_leaves op rest e

mutual

/-- Compiling an expression resolves its references and adds no leaf of its own. -/
theorem Expr.lower_resolves : (e : Expr) → ∀ {role s s' x}, e.lower scope expand role s = .ok (x, s') →
    Resolves scope expand (e.references role) s s' x.leaves
  | .field ref, role, s, s', x, h | .aliasRef name, role, s, s', x, h | .outer name, role, s, s', x, h => .single h
  | .correlated plan, role, s, s', x, h | .existsRow plan _, role, s, s', x, h => .single h
  | .literal v, role, s, s', x, h => by
    obtain ⟨rfl, rfl⟩ := Lowering.pure_ok.1 h
    exact .nil
  | .binary op left right, role, s, s', x, h => by
    obtain ⟨l, r, s₁, hl, hr, rfl⟩ := Lowering.bind₂_pure_ok h
    exact (left.lower_resolves hl).append (right.lower_resolves hr)
  | .and operands, role, s, s', x, h | .or operands, role, s, s', x, h => by
    obtain ⟨es, hes, rfl⟩ := Lowering.bind_pure_ok h
    rw [connect_leaves]
    exact lowerList_resolves operands hes
  | .not operand, role, s, s', x, h | .isNull operand _, role, s, s', x, h => by
    obtain ⟨e, he, rfl⟩ := Lowering.bind_pure_ok h
    have hoperand := operand.lower_resolves he
    exact hoperand
  | .inList operand values negated, role, s, s', x, h => by
    obtain ⟨e, es, s₁, he, hes, rfl⟩ := Lowering.bind₂_pure_ok h
    exact (operand.lower_resolves he).append (lowerList_resolves values hes)
  | .case [] none, role, s, s', x, h => by
    obtain ⟨rfl, rfl⟩ := Lowering.pure_ok.1 h
    exact .nil
  | .case [] (some otherwise), role, s, s', x, h => otherwise.lower_resolves h
  | .case (arm :: arms) none, role, s, s', x, h => by
    obtain ⟨ws, hws, rfl⟩ := Lowering.bind_pure_ok h
    exact lowerArms_resolves (arm :: arms) hws
  | .case (arm :: arms) (some otherwise), role, s, s', x, h => by
    obtain ⟨ws, e, s₁, hws, he, rfl⟩ := Lowering.bind₂_pure_ok h
    exact (lowerArms_resolves (arm :: arms) hws).append (otherwise.lower_resolves he)
  | .aggregate function none distinct, role, s, s', x, h => by
    obtain ⟨rfl, rfl⟩ := Lowering.pure_ok.1 h
    exact .nil
  | .aggregate function (some arg) distinct, role, s, s', x, h => by
    obtain ⟨e, he, rfl⟩ := Lowering.bind_pure_ok h
    have hleaves : (Sql.Expr.call function.sqlName [e] distinct).leaves = e.leaves := by
      simp [Sql.Expr.leaves, Sql.listLeaves]
    rw [hleaves]
    exact arg.lower_resolves he
termination_by structural e => e

theorem lowerList_resolves : (es : List Expr) → ∀ {role s s' xs}, lowerList es scope expand role s = .ok (xs, s') →
    Resolves scope expand (Expr.referencesOfList es role) s s' (Sql.listLeaves xs)
  | [], role, s, s', xs, h => by
    obtain ⟨rfl, rfl⟩ := Lowering.pure_ok.1 h
    exact .nil
  | e :: rest, role, s, s', xs, h => by
    obtain ⟨x, xs, s₁, hx, hxs, rfl⟩ := Lowering.bind₂_pure_ok h
    exact (e.lower_resolves hx).append (lowerList_resolves rest hxs)
termination_by structural es => es

theorem lowerArms_resolves : (arms : List (Expr × Expr)) →
    ∀ {role s s' ws}, lowerArms arms scope expand role s = .ok (ws, s') →
    Resolves scope expand (Expr.referencesOfArms arms role) s s' (Sql.armLeaves ws)
  | [], role, s, s', ws, h => by
    obtain ⟨rfl, rfl⟩ := Lowering.pure_ok.1 h
    exact .nil
  | (test, result) :: rest, role, s, s', ws, h => by
    obtain ⟨t, r, more, s₁, s₂, ht, hr, hws, rfl⟩ := Lowering.bind₃_pure_ok h
    exact ((test.lower_resolves ht).append (result.lower_resolves hr)).append (lowerArms_resolves rest hws)
termination_by structural arms => arms

end

end Resolving

/-! ## Aliases resolved -/

/-- the columns, fields of the enclosing row and subplans that a reference comes down to, annotations followed a number
of steps -/
def Reference.flatten (p : Plan) : Nat → Reference → List Reference
  | budget + 1, .aliased name role =>
    match p.annotationOf name with
    | none => []
    | some e => (e.references role).flatMap (flatten p budget)
  | 0, .aliased .. => []
  | _, r => [r]

/-- what an expression of a plan takes from its statement -/
def Plan.sources (p : Plan) (e : Expr) (role : Role) : List Reference :=
  (e.references role).flatMap (Reference.flatten p p.aliasBudget)

section Flattening

variable {p : Plan} {scope : Scope}

/-- Resolving references is resolving what they come down to, whatever aliases mean there. -/
theorem Resolves.flatten (other : Expansion) : (budget : Nat) → ∀ {rs s s' leaves},
    Resolves scope (p.fragments.expand scope budget) rs s s' leaves →
    Resolves scope other (rs.flatMap (Reference.flatten p budget)) s s' leaves := by
  intro budget
  induction budget with
  | zero =>
    intro rs s s' leaves h
    induction h with
    | nil => exact .nil
    | @cons r rest s s₁ s' x leaves hr _ ih =>
      rw [List.flatMap_cons]
      cases r with
      | aliased name role => cases hr
      | column | outer | scalar | existence => exact .cons hr ih
  | succ budget hbudget =>
    intro rs s s' leaves h
    induction h with
    | nil => exact .nil
    | @cons r rest s s₁ s' x leaves hr _ ih =>
      rw [List.flatMap_cons]
      cases r with
      | aliased name role =>
        obtain ⟨e, he, hlower⟩ := Plan.expand_ok hr
        have hinner := hbudget (e.lower_resolves hlower)
        simp only [Reference.flatten, he]
        exact hinner.append ih
      | column | outer | scalar | existence => exact .cons hr ih

/-- Expressions compiled one after another resolve what they take from their statement. -/
theorem Plan.lowerAll_resolves (other : Expansion) : {items : List (Expr × Role)} → ∀ {s s' xs},
    p.lowerAll scope items s = .ok (xs, s') →
    Resolves scope other (items.flatMap fun item => p.sources item.1 item.2) s s' (xs.flatMap Sql.Expr.leaves)
  | [], s, s', xs, h => by
    obtain ⟨rfl, rfl⟩ := Lowering.pure_ok.1 h
    exact .nil
  | item :: rest, s, s', xs, h => by
    obtain ⟨x, more, s₁, rfl, hx, hmore⟩ := lowerAll_cons_ok h
    rw [p.expansion_eq] at hx
    exact (Resolves.flatten other p.aliasBudget (item.1.lower_resolves hx)).append (lowerAll_resolves other hmore)

/-- What a reference comes down to is reached from it, and is no alias. -/
theorem Reference.of_mem_flatten {r : Reference} (budget : Nat) {asked : Reference} (h : r ∈ asked.flatten p budget) :
    p.Reaches asked.node r.node ∧ ∀ name role, r ≠ .aliased name role := by
  induction budget generalizing asked with
  | zero =>
    cases asked with
    | aliased name role => cases h
    | column | outer | scalar | existence =>
      obtain rfl := List.mem_singleton.1 h
      exact ⟨.part (Expr.mem_nodes_self _), by simp⟩
  | succ budget ih =>
    cases asked with
    | aliased name role =>
      simp only [flatten] at h
      split at h
      · cases h
      · next e he =>
        obtain ⟨inner, hinner, hr⟩ := List.mem_flatMap.1 h
        obtain ⟨hreach, hplain⟩ := ih hr
        exact ⟨.through (Expr.mem_aliases.2 (Expr.mem_nodes_self _)) he (hreach.of_reference hinner), hplain⟩
    | column | outer | scalar | existence =>
      obtain rfl := List.mem_singleton.1 h
      exact ⟨.part (Expr.mem_nodes_self _), by simp⟩

/-- A statement takes from outside a column of an output, or what stands in an expression of the plan. -/
theorem Plan.of_mem_sources {outputs : List Output} {r : Reference}
    (h : r ∈ (p.items outputs).flatMap fun item => p.sources item.1 item.2) :
    (∀ name role, r ≠ .aliased name role) ∧
      ((∃ ref role, r = .column ref role) ∨ ∃ e ∈ p.expressions, r.node ∈ e.nodes) := by
  obtain ⟨item, hitem, hr⟩ := List.mem_flatMap.1 h
  obtain ⟨asked, hasked, hflat⟩ := List.mem_flatMap.1 hr
  obtain ⟨hreach, hplain⟩ := Reference.of_mem_flatten p.aliasBudget hflat
  refine ⟨hplain, ?_⟩
  rcases (hreach.of_reference hasked).node_mem with hnode | hinner
  · simp only [items, List.mem_append, List.mem_map] at hitem
    rcases hitem with (⟨o, -, rfl⟩ | ⟨e, he, rfl⟩) | ⟨key, hkey, rfl⟩
    · cases hterm : o.term with
      | field ref =>
        have hself : r.node = .field ref := by simpa [hterm, OutputTerm.expr, Expr.nodes] using hnode
        cases r with
        | column ref role => exact .inl ⟨ref, role, rfl⟩
        | aliased | outer | scalar | existence => cases hself
      | aliasRef name =>
        have hself : r.node = .aliasRef name := by simpa [hterm, OutputTerm.expr, Expr.nodes] using hnode
        cases r with
        | aliased name role => exact absurd rfl (hplain name role)
        | column | outer | scalar | existence => cases hself
    · exact .inr ⟨e, List.mem_append_left _ (List.mem_append_left _ he), hnode⟩
    · exact .inr ⟨key.expr, List.mem_append_right _ (List.mem_map_of_mem hkey), hnode⟩
  · exact .inr hinner

end Flattening

/-! ## The leaves of a query -/

theorem mem_listLeaves {leaf : Leaf} {es : List Sql.Expr} : leaf ∈ Sql.listLeaves es ↔ ∃ e ∈ es, leaf ∈ e.leaves := by
  induction es with
  | nil => simp [Sql.listLeaves]
  | cons e rest ih => simp [Sql.listLeaves, ih]

/-- A conjunction has the leaves of its operands. -/
theorem mem_conjunction_leaves {leaf : Leaf} {es : List Sql.Expr} :
    (∃ x ∈ Sql.Expr.conjunction es, leaf ∈ x.leaves) ↔ ∃ e ∈ es, leaf ∈ e.leaves := by
  cases es with
  | nil => simp [Sql.Expr.conjunction]
  | cons first rest =>
    have hleaves : (rest.foldl Sql.Expr.and first).leaves = Sql.listLeaves (first :: rest) :=
      foldl_binary_leaves .and rest first
    simp [Sql.Expr.conjunction, hleaves, mem_listLeaves]

/-- A leaf of a plan's query is one of its joins' conditions or of its compiled expressions. -/
theorem Plan.mem_query_leaves {p : Plan} {scope : Scope} {outputs : List Output} {joins : List Sql.Join}
    {results conditions keys : List Sql.Expr} {leaf : Leaf}
    (h : leaf ∈ (p.query scope outputs joins results conditions keys).leaves) :
    (∃ join ∈ joins, leaf ∈ join.on.leaves) ∨ leaf ∈ (results ++ conditions ++ keys).flatMap Sql.Expr.leaves := by
  obtain ⟨e, he, hleaf⟩ := List.mem_flatMap.1 h
  have hof : ∀ e, leaf ∈ e.leaves → e ∈ results ∨ e ∈ conditions ∨ e ∈ keys →
      leaf ∈ (results ++ conditions ++ keys).flatMap Sql.Expr.leaves := fun e hleaf hmem =>
    List.mem_flatMap.2 ⟨e, by simpa [or_assoc] using hmem, hleaf⟩
  have hfilters : ∀ (keep : Bool × Sql.Expr → Bool) (e : Sql.Expr),
      e ∈ (Sql.Expr.conjunction (((List.zipWith (fun e condition => (p.exprAggregates e, condition)) p.filters
        conditions).filter keep).map Prod.snd)).toList → leaf ∈ e.leaves →
      leaf ∈ (results ++ conditions ++ keys).flatMap Sql.Expr.leaves := by
    intro keep e he hleaf
    obtain ⟨other, hother, hleaf⟩ := mem_conjunction_leaves.1 ⟨_, Option.mem_toList.1 he, hleaf⟩
    obtain ⟨pair, hpair, rfl⟩ := List.mem_map.1 hother
    obtain ⟨_, -, condition, hcondition, rfl⟩ := exists_of_mem_zipWith (List.mem_filter.1 hpair).1
    exact hof _ hleaf (.inr (.inl hcondition))
  simp only [Sql.Query.expressions, query, List.map_map, List.mem_append, List.mem_map, Function.comp_apply] at he
  rcases he with ((((⟨item, hitem, rfl⟩ | ⟨join, hjoin, rfl⟩) | he) | he) | he) | ⟨key, hkey, rfl⟩
  · exact .inr (hof _ hleaf (.inl (List.of_mem_zip hitem).2))
  · exact .inl ⟨join, hjoin, hleaf⟩
  · exact .inr (hfilters _ e he hleaf)
  · split at he
    · obtain ⟨item, hitem, rfl⟩ := List.mem_map.1 he
      exact .inr (hof _ hleaf (.inl (List.of_mem_zip (List.mem_filter.1 hitem).1).2))
    · cases he
  · exact .inr (hfilters _ e he hleaf)
  · obtain ⟨_, -, x, hx, rfl⟩ := exists_of_mem_zipWith hkey
    exact .inr (hof _ hleaf (.inr (.inr hx)))

/-! ## Subplans -/

mutual

theorem Expr.sizeOf_node_le {node : Expr} : (e : Expr) → node ∈ e.nodes → sizeOf node ≤ sizeOf e
  | .field _, h | .aliasRef _, h | .literal _, h | .outer _, h | .correlated _, h | .existsRow .., h
  | .aggregate _ none _, h => by
    obtain rfl := List.mem_singleton.1 h
    exact Nat.le_refl _
  | .binary op left right, h => by
    simp only [nodes, List.mem_cons, List.mem_append] at h
    rcases h with rfl | h | h
    · exact Nat.le_refl _
    · have := sizeOf_node_le left h
      simp only [binary.sizeOf_spec]
      omega
    · have := sizeOf_node_le right h
      simp only [binary.sizeOf_spec]
      omega
  | .and operands, h | .or operands, h => by
    simp only [nodes, List.mem_cons] at h
    rcases h with rfl | h
    · exact Nat.le_refl _
    · have := sizeOf_node_le_list operands h
      simp only [and.sizeOf_spec, or.sizeOf_spec]
      omega
  | .not operand, h | .isNull operand _, h => by
    simp only [nodes, List.mem_cons] at h
    rcases h with rfl | h
    · exact Nat.le_refl _
    · have := sizeOf_node_le operand h
      simp only [not.sizeOf_spec, isNull.sizeOf_spec]
      omega
  | .inList operand values negated, h => by
    simp only [nodes, List.mem_cons, List.mem_append] at h
    rcases h with rfl | h | h
    · exact Nat.le_refl _
    · have := sizeOf_node_le operand h
      simp only [inList.sizeOf_spec]
      omega
    · have := sizeOf_node_le_list values h
      simp only [inList.sizeOf_spec]
      omega
  | .case arms none, h => by
    simp only [nodes, List.mem_cons, List.append_nil] at h
    rcases h with rfl | h
    · exact Nat.le_refl _
    · have := sizeOf_node_le_arms arms h
      simp only [case.sizeOf_spec]
      omega
  | .case arms (some e), h => by
    simp only [nodes, List.mem_cons, List.mem_append] at h
    rcases h with rfl | h | h
    · exact Nat.le_refl _
    · have := sizeOf_node_le_arms arms h
      simp only [case.sizeOf_spec]
      omega
    · have := sizeOf_node_le e h
      simp only [case.sizeOf_spec, Option.some.sizeOf_spec]
      omega
  | .aggregate function (some e) distinct, h => by
    simp only [nodes, List.mem_cons] at h
    rcases h with rfl | h
    · exact Nat.le_refl _
    · have := sizeOf_node_le e h
      simp only [aggregate.sizeOf_spec, Option.some.sizeOf_spec]
      omega
termination_by structural e => e

theorem Expr.sizeOf_node_le_list {node : Expr} : (es : List Expr) → node ∈ nodesOfList es → sizeOf node ≤ sizeOf es
  | e :: rest, h => by
    rcases List.mem_append.1 h with h | h
    · have := sizeOf_node_le e h
      simp only [List.cons.sizeOf_spec]
      omega
    · have := sizeOf_node_le_list rest h
      simp only [List.cons.sizeOf_spec]
      omega
termination_by structural es => es

theorem Expr.sizeOf_node_le_arms {node : Expr} : (arms : List (Expr × Expr)) → node ∈ nodesOfArms arms →
    sizeOf node ≤ sizeOf arms
  | (test, result) :: rest, h => by
    simp only [nodesOfArms, List.mem_append] at h
    simp only [List.cons.sizeOf_spec, Prod.mk.sizeOf_spec]
    rcases h with (h | h) | h
    · have := sizeOf_node_le test h
      omega
    · have := sizeOf_node_le result h
      omega
    · have := sizeOf_node_le_arms rest h
      omega
termination_by structural arms => arms

end

namespace Plan

/-- the plans nested directly in the expressions of a plan -/
def subplans (p : Plan) : List Plan := p.expressions.flatMap Expr.subplans

theorem sizeOf_expression_lt {p : Plan} {e : Expr} (h : e ∈ p.expressions) : sizeOf e < sizeOf p := by
  obtain ⟨root, filters, annotations, projection, ordering, limit, offset, distinct, loadings⟩ := p
  simp only [expressions, List.mem_append, List.mem_map] at h
  simp only [mk.sizeOf_spec]
  rcases h with (h | ⟨a, ha, rfl⟩) | ⟨key, hkey, rfl⟩
  · have := List.sizeOf_lt_of_mem h
    omega
  · have hlist := List.sizeOf_lt_of_mem ha
    have hown : sizeOf a.expr < sizeOf a := by
      cases a
      simp
    omega
  · have hlist := List.sizeOf_lt_of_mem hkey
    have hown : sizeOf key.expr < sizeOf key := by
      cases key
      simp
      omega
    omega

theorem sizeOf_subplan_lt {p inner : Plan} (h : inner ∈ p.subplans) : sizeOf inner < sizeOf p := by
  obtain ⟨e, he, hinner⟩ := List.mem_flatMap.1 h
  obtain ⟨node, hnode, hplan⟩ := List.mem_filterMap.1 hinner
  have hlt := sizeOf_expression_lt he
  have hle := Expr.sizeOf_node_le e hnode
  cases node with
  | correlated plan =>
    obtain rfl := Option.some.inj hplan
    simp only [Expr.correlated.sizeOf_spec] at hle
    omega
  | existsRow plan negated =>
    obtain rfl := Option.some.inj hplan
    simp only [Expr.existsRow.sizeOf_spec] at hle
    omega
  | _ => cases hplan

/-- What holds of a plan when it holds of the plans nested in it, holds of every plan. -/
theorem induction_subplans {motive : Plan → Prop} (step : ∀ p, (∀ inner ∈ p.subplans, motive inner) → motive p)
    (p : Plan) : motive p :=
  step p fun inner _ => induction_subplans step inner
termination_by sizeOf p
decreasing_by exact sizeOf_subplan_lt ‹_›

end Plan

end RelQuery
