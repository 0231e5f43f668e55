/-
What the limits on alias steps leave out: nothing.

Everything that goes through the aliases of a plan counts its steps and stops at a limit, in place of remembering which
aliases it has met. A chain of aliases without repetition has no more steps than there are annotations, so none of these
limits cuts one; what is cut goes in a circle.
- `isAggregateAlias_iff`, `reachesRelations_iff`: a search finds what can be reached, through any chain of aliases.
- `plainField_iff`: an expression is taken for a field when it unfolds to the field.
- `mem_bareFields_iff`: the fields outside aggregates are those that can be reached without entering one.
- `Unfolds.lower`: an expression is compiled as what it unfolds to.
- `Plain.lower_ok`, `Plain.lower_error`: one that needs no row but its own is compiled when it can be unfolded, and
  refused for an alias otherwise.
-/
import RelQuery.Proofs.Plan.Unfolding
import RelQuery.Proofs.Statement.Definite

namespace RelQuery

/-! ## Searches for nodes -/

namespace Plan

variable {p : Plan} {e inner node full : Expr} {name key : String} {ref : FieldRef} {steps : Nat}

/-- An alias depends on a group when an annotation with an aggregate is reached from it. -/
theorem isAggregateAlias_iff : p.isAggregateAlias name = true ↔ ∃ reached inner,
    p.Reaches (.aliasRef name) (.aliasRef reached) ∧ p.annotationOf reached = some inner ∧
      inner.containsAggregate = true := by
  rw [isAggregateAlias_eq, exprAggregates_iff]
  constructor
  · rintro ⟨node, hreach, hnode⟩
    rcases reaches_iff.1 hreach with hmem | ⟨reached, inner, hreached, hinner, hmem⟩
    · obtain rfl : node = .aliasRef name := by simpa [Expr.nodes] using hmem
      cases hnode
    · exact ⟨reached, inner, hreached, hinner, List.any_eq_true.2 ⟨node, hmem, hnode⟩⟩
  · rintro ⟨reached, inner, hreached, hinner, haggregate⟩
    obtain ⟨node, hmem, hnode⟩ := List.any_eq_true.1 haggregate
    exact ⟨node, hreached.beyond hinner (.part hmem), hnode⟩

/-- A step of the search for fields of other rows looks at the nodes of an expression. -/
theorem reachesRelationsWithin_succ : p.reachesRelationsWithin (steps + 1) e = true ↔
    (∃ node ∈ e.nodes, ∃ ref, node = .field ref ∧ ref.hops ≠ []) ∨
      ∃ name, .aliasRef name ∈ e.nodes ∧ (p.annotationOf name).any (p.reachesRelationsWithin steps) = true := by
  rw [reachesRelationsWithin, Bool.or_eq_true, List.any_eq_true, List.any_eq_true]
  refine or_congr ⟨?_, ?_⟩ (exists_congr fun name => and_congr Expr.mem_aliases ?_)
  · rintro ⟨ref, href, hhops⟩
    refine ⟨.field ref, ?_, ref, rfl, by simpa [FieldRef.isLocal] using hhops⟩
    obtain ⟨node, hnode, hsome⟩ := List.mem_filterMap.1 href
    cases node <;> simp at hsome
    exact hsome ▸ hnode
  · rintro ⟨_, hnode, ref, rfl, hhops⟩
    exact ⟨ref, mem_fieldRefs hnode, by simpa [FieldRef.isLocal] using hhops⟩
  · cases p.annotationOf name <;> simp

theorem reachesRelations_search : p.Search (fun e node => node ∈ e.nodes)
    (fun node => ∃ ref, node = .field ref ∧ ref.hops ≠ [])
    (fun steps name => (p.annotationOf name).any (p.reachesRelationsWithin steps)) where
  start name := by cases p.annotationOf name <;> simp [reachesRelationsWithin]
  step steps name := by simp only [Option.any_eq_true, reachesRelationsWithin_succ]

/-- Tables of other rows are needed exactly where a field with a hop is reached. -/
theorem reachesRelations_iff : p.reachesRelations e = true ↔ ∃ ref, p.Reaches e (.field ref) ∧ ref.hops ≠ [] := by
  rw [reachesRelations, aliasBudget, reachesRelationsWithin_succ, reachesRelations_search.found_iff le_rfl]
  simp only [reachesBy_nodes]
  constructor
  · rintro ⟨_, hreach, ref, rfl, hhops⟩
    exact ⟨ref, hreach, hhops⟩
  · rintro ⟨ref, hreach, hhops⟩
    exact ⟨_, hreach, ref, rfl, hhops⟩

/-! ## Fields -/

/-- An expression unfolds to a field when it is the field, or an alias of what does. -/
theorem unfolds_field_cases (h : p.Unfolds e full) (hfull : full = .field ref) :
    e = .field ref ∨ ∃ name inner, e = .aliasRef name ∧ p.annotationOf name = some inner ∧
      p.Unfolds inner (.field ref) := by
  obtain ⟨inner, full, hinner, hdeeper⟩ := h
  cases e with
  | field own => exact .inl hfull
  | aliasRef name =>
    have hname : name ∈ (Expr.aliasRef name).aliases := List.mem_singleton.2 rfl
    have hfield : full name = .field ref := hfull
    exact .inr ⟨name, inner name, rfl, hinner name hname, hfield ▸ hdeeper name hname⟩
  | case arms otherwise => cases otherwise <;> cases hfull
  | aggregate function arg distinct => cases arg <;> cases hfull
  | _ => cases hfull

theorem unfolds_of_plainField (h : p.plainField steps e = some ref) : p.Unfolds e (.field ref) := by
  induction steps generalizing e with
  | zero =>
    obtain rfl | ⟨fewer, name, note, hsteps, -⟩ := plainField_cases h
    · exact .mk Expr.aliasRef Expr.aliasRef nofun nofun
    · cases hsteps
  | succ steps ih =>
    obtain rfl | ⟨fewer, name, note, hsteps, rfl, hnote, hplain⟩ := plainField_cases h
    · exact .mk Expr.aliasRef Expr.aliasRef nofun nofun
    · obtain rfl := Nat.succ.inj hsteps
      have hname : ∀ other ∈ (Expr.aliasRef name).aliases, other = name := fun _ => List.mem_singleton.1
      refine .mk (fun _ => note) (fun _ => .field ref) (fun other hother => ?_) (fun _ _ => ih hplain)
      rw [hname other hother, hnote]

theorem plainField_of_unfolds (h : p.Unfolds e (.field ref)) (hends : p.EndsWithin steps e) :
    p.plainField steps e = some ref := by
  induction steps generalizing e with
  | zero =>
    obtain rfl | ⟨name, inner, rfl, -⟩ := unfolds_field_cases h rfl
    · rfl
    · cases hends
  | succ steps ih =>
    obtain rfl | ⟨name, inner, rfl, hinner, hdeeper⟩ := unfolds_field_cases h rfl
    · rfl
    · obtain ⟨fewer, own, hsteps, hown, hless⟩ := hends.next (List.mem_singleton.2 rfl)
      obtain rfl := Nat.succ.inj hsteps
      obtain rfl := Option.some.inj (hinner.symm.trans hown)
      rw [plainField, hinner]
      exact ih hdeeper hless

/-- An expression is taken for a field when all aliases unfolded it is one. -/
theorem plainField_iff : p.plainField p.aliasBudget e = some ref ↔ p.Unfolds e (.field ref) := by
  refine ⟨unfolds_of_plainField, fun h => plainField_of_unfolds h ?_⟩
  exact (endsWithin_iff (Nat.le_succ _)).2 ⟨h.not_dangles, h.not_circles⟩

end Plan

/-! ## Fields outside aggregates -/

namespace Expr

/-- A node of an expression outside its aggregates; an aggregate itself is one, its argument is not. -/
inductive Bare : Expr → Expr → Prop where
  | self (e : Expr) : Bare e e
  | part {e part node : Expr} : part ∈ e.children → e.isAggregate = false → Bare part node → Bare e node

/-- whether a node by itself reads a field of the row: it is the field, or a subplan that refers to it -/
def Reads (root : Entity) (key : String) : Expr → Prop
  | .field ref => ref.key = key
  | .correlated plan | .existsRow plan _ => ∃ name ∈ plan.outerRefs, ∃ f, root.field name = some f ∧ f.name = key
  | _ => False

variable {root : Entity} {expand : String → List String} {key name : String}

/-- what reads a field, by itself or as an alias -/
def ReadsBy (root : Entity) (expand : String → List String) (key : String) (node : Expr) : Prop :=
  node.Reads root key ∨ ∃ name, node = .aliasRef name ∧ key ∈ expand name

theorem mem_outerFields {plan : Plan} :
    key ∈ plan.outerRefs.filterMap (fun name => (root.field name).map (·.name)) ↔
      ∃ name ∈ plan.outerRefs, ∃ f, root.field name = some f ∧ f.name = key := by
  simp

mutual

/-- A field outside aggregates is read by a node there. -/
theorem bare_of_mem : (e : Expr) → key ∈ e.bareFields root expand → ∃ node, e.Bare node ∧ node.ReadsBy root expand key
  | .field ref, h => ⟨_, .self _, .inl (List.mem_singleton.1 h).symm⟩
  | .aliasRef name, h => ⟨_, .self _, .inr ⟨name, rfl, h⟩⟩
  | .literal _, h | .aggregate .., h | .outer _, h => by cases h
  | .binary _ left right, h => by
    rcases List.mem_append.1 h with h | h
    · exact (bare_of_mem left h).imp fun _ ⟨hbare, hreads⟩ => ⟨.part (by simp [children]) rfl hbare, hreads⟩
    · exact (bare_of_mem right h).imp fun _ ⟨hbare, hreads⟩ => ⟨.part (by simp [children]) rfl hbare, hreads⟩
  | .and operands, h | .or operands, h => by
    obtain ⟨part, hpart, node, hbare, hreads⟩ := bare_of_memList operands h
    exact ⟨node, .part hpart rfl hbare, hreads⟩
  | .not operand, h | .isNull operand _, h =>
    (bare_of_mem operand h).imp fun _ ⟨hbare, hreads⟩ => ⟨.part (by simp [children]) rfl hbare, hreads⟩
  | .inList operand values _, h => by
    rcases List.mem_append.1 h with h | h
    · exact (bare_of_mem operand h).imp fun _ ⟨hbare, hreads⟩ => ⟨.part (by simp [children]) rfl hbare, hreads⟩
    · obtain ⟨part, hpart, node, hbare, hreads⟩ := bare_of_memList values h
      exact ⟨node, .part (List.mem_cons_of_mem _ hpart) rfl hbare, hreads⟩
  | .case arms none, h => by
    simp only [bareFields, List.append_nil] at h
    obtain ⟨part, hpart, node, hbare, hreads⟩ := bare_of_memArms arms h
    exact ⟨node, .part (List.mem_append_left _ hpart) rfl hbare, hreads⟩
  | .case arms (some e), h => by
    rcases List.mem_append.1 h with h | h
    · obtain ⟨part, hpart, node, hbare, hreads⟩ := bare_of_memArms arms h
      exact ⟨node, .part (List.mem_append_left _ hpart) rfl hbare, hreads⟩
    · exact (bare_of_mem e h).imp fun _ ⟨hbare, hreads⟩ => ⟨.part (by simp [children]) rfl hbare, hreads⟩
  | .correlated plan, h | .existsRow plan _, h => ⟨_, .self _, .inl (mem_outerFields.1 h)⟩
termination_by structural e => e

theorem bare_of_memList : (es : List Expr) → key ∈ bareFieldsOfList root expand es →
    ∃ part ∈ es, ∃ node, part.Bare node ∧ node.ReadsBy root expand key
  | [], h => by cases h
  | e :: rest, h => by
    rcases List.mem_append.1 h with h | h
    · exact ⟨e, List.mem_cons_self, bare_of_mem e h⟩
    · obtain ⟨part, hpart, hreads⟩ := bare_of_memList rest h
      exact ⟨part, List.mem_cons_of_mem _ hpart, hreads⟩
termination_by structural es => es

theorem bare_of_memArms : (arms : List (Expr × Expr)) → key ∈ bareFieldsOfArms root expand arms →
    ∃ part ∈ armSides arms, ∃ node, part.Bare node ∧ node.ReadsBy root expand key
  | [], h => by cases h
  | (test, result) :: rest, h => by
    rcases List.mem_append.1 h with h | h
    · rcases List.mem_append.1 h with h | h
      · exact ⟨test, by simp [armSides], bare_of_mem test h⟩
      · exact ⟨result, by simp [armSides], bare_of_mem result h⟩
    · obtain ⟨part, hpart, hreads⟩ := bare_of_memArms rest h
      exact ⟨part, by simp [armSides, hpart], hreads⟩
termination_by structural arms => arms

end

theorem bareFields_subset_list {part : Expr} {es : List Expr} (hpart : part ∈ es) :
    part.bareFields root expand ⊆ bareFieldsOfList root expand es := by
  induction es with
  | nil => cases hpart
  | cons e rest ih =>
    rcases List.mem_cons.1 hpart with rfl | hpart
    · exact List.subset_append_left _ _
    · exact List.subset_append_of_subset_right _ (ih hpart)

theorem bareFields_subset_arms {part : Expr} {arms : List (Expr × Expr)} (hpart : part ∈ armSides arms) :
    part.bareFields root expand ⊆ bareFieldsOfArms root expand arms := by
  induction arms with
  | nil => cases hpart
  | cons arm rest ih =>
    simp only [armSides, List.mem_cons] at hpart
    simp only [bareFieldsOfArms]
    rcases hpart with rfl | rfl | hpart
    · exact List.subset_append_of_subset_left _ (List.subset_append_left _ _)
    · exact List.subset_append_of_subset_left _ (List.subset_append_right _ _)
    · exact List.subset_append_of_subset_right _ (ih hpart)

/-- What a part reads, the whole reads, unless it aggregates the part. -/
theorem bareFields_subset {part : Expr} : {e : Expr} → part ∈ e.children → e.isAggregate = false →
    part.bareFields root expand ⊆ e.bareFields root expand
  | .field _, hpart, _ | .aliasRef _, hpart, _ | .literal _, hpart, _ | .outer _, hpart, _ | .correlated _, hpart, _
  | .existsRow .., hpart, _ => by cases hpart
  | .aggregate .., _, hplain => by cases hplain
  | .binary _ left right, hpart, _ => by
    simp only [children, List.mem_cons, List.not_mem_nil, or_false] at hpart
    rcases hpart with rfl | rfl
    · exact List.subset_append_left _ _
    · exact List.subset_append_right _ _
  | .and operands, hpart, _ | .or operands, hpart, _ => bareFields_subset_list hpart
  | .not operand, hpart, _ | .isNull operand _, hpart, _ => by
    obtain rfl := List.mem_singleton.1 hpart
    exact List.Subset.refl _
  | .inList operand values _, hpart, _ => by
    rcases List.mem_cons.1 hpart with rfl | hpart
    · exact List.subset_append_left _ _
    · exact List.subset_append_of_subset_right _ (bareFields_subset_list hpart)
  | .case arms none, hpart, _ => by
    rw [children, Option.toList, List.append_nil] at hpart
    exact List.subset_append_of_subset_left _ (bareFields_subset_arms hpart)
  | .case arms (some e), hpart, _ => by
    rcases List.mem_append.1 hpart with hpart | hpart
    · exact List.subset_append_of_subset_left _ (bareFields_subset_arms hpart)
    · obtain rfl := List.mem_singleton.1 hpart
      exact List.subset_append_right _ _

/-- The fields of an expression outside aggregates are those that its nodes there read. -/
theorem mem_bareFields_iff {e : Expr} : key ∈ e.bareFields root expand ↔
    (∃ node, e.Bare node ∧ node.Reads root key) ∨ ∃ name, e.Bare (.aliasRef name) ∧ key ∈ expand name := by
  constructor
  · intro h
    obtain ⟨node, hbare, hreads | ⟨name, rfl, hmem⟩⟩ := bare_of_mem e h
    · exact .inl ⟨node, hbare, hreads⟩
    · exact .inr ⟨name, hbare, hmem⟩
  · have hsubset : ∀ {node}, e.Bare node → node.bareFields root expand ⊆ e.bareFields root expand := fun hbare => by
      induction hbare with
      | self => exact List.Subset.refl _
      | part hpart hplain _ ih => exact List.Subset.trans ih (bareFields_subset hpart hplain)
    rintro (⟨node, hbare, hreads⟩ | ⟨name, hbare, hmem⟩)
    · refine hsubset hbare ?_
      cases node <;> first
        | exact List.mem_singleton.2 (Eq.symm hreads)
        | exact mem_outerFields.2 hreads
        | exact hreads.elim
    · exact hsubset hbare hmem

end Expr

namespace Plan

variable {p : Plan} {e node : Expr} {name key : String}

theorem aliasBareFields_search : p.Search Expr.Bare (fun node => node.Reads p.root key)
    (fun steps name => (p.aliasBareFields steps name).contains key) where
  start _ := rfl
  step steps name := by
    rw [aliasBareFields]
    cases p.annotationOf name with
    | none => simp
    | some e => simp [Expr.mem_bareFields_iff]

/-- The fields of an expression outside aggregates are those read by nodes that are reached without entering one. -/
theorem mem_bareFields_iff :
    key ∈ p.bareFields e ↔ ∃ node, p.ReachesBy Expr.Bare e node ∧ node.Reads p.root key := by
  have hbudget : p.annotations.length ≤ p.aliasBudget := Nat.le_succ _
  rw [bareFields, Expr.mem_bareFields_iff, ← aliasBareFields_search.found_iff hbudget]
  simp

end Plan

/-! ## Aliases compiled -/

namespace Expr

variable {scope : Scope} {expand given : Expansion} {f : String → Expr}

mutual

/-- Expressions in place of aliases are compiled as the aliases, if each is compiled as its alias. -/
theorem lower_replaceAliases : (e : Expr) →
    (∀ name, .aliasRef name ∈ e.nodes → ∀ role, (f name).lower scope given role = expand role name) →
    ∀ role, (e.replaceAliases f).lower scope given role = e.lower scope expand role
  | .field _, _, _ | .literal _, _, _ | .aggregate _ none _, _, _ | .outer _, _, _ | .correlated _, _, _
  | .existsRow .., _, _ | .case [] none, _, _ => by simp [replaceAliases, replaceAliasesOfArms, lower]
  | .aliasRef name, h, role => h name (by simp [nodes]) role
  | .binary _ left right, h, role => by
    simp only [nodes, List.mem_cons, List.mem_append, or_imp, forall_and] at h
    simp only [replaceAliases, lower, lower_replaceAliases left h.2.1, lower_replaceAliases right h.2.2]
  | .and operands, h, role | .or operands, h, role => by
    simp only [nodes, List.mem_cons, or_imp, forall_and] at h
    simp only [replaceAliases, lower, lowerList_replaceAliases operands h.2]
  | .not operand, h, role | .isNull operand _, h, role | .aggregate _ (some operand) _, h, role => by
    simp only [nodes, List.mem_cons, or_imp, forall_and] at h
    simp only [replaceAliases, lower, lower_replaceAliases operand h.2]
  | .inList operand values _, h, role => by
    simp only [nodes, List.mem_cons, List.mem_append, or_imp, forall_and] at h
    simp only [replaceAliases, lower, lower_replaceAliases operand h.2.1, lowerList_replaceAliases values h.2.2]
  | .case [] (some e), h, role => by
    simp only [nodes, nodesOfArms, List.nil_append, List.mem_cons, or_imp, forall_and] at h
    simp only [replaceAliases, replaceAliasesOfArms, lower, lower_replaceAliases e h.2]
  | .case (arm :: arms) none, h, role => by
    simp only [nodes, List.append_nil, List.mem_cons, or_imp, forall_and] at h
    have harms := lowerArms_replaceAliases (arm :: arms) h.2
    simp only [replaceAliasesOfArms] at harms
    simp only [replaceAliases, replaceAliasesOfArms, lower, harms]
  | .case (arm :: arms) (some e), h, role => by
    simp only [nodes, List.mem_cons, List.mem_append, or_imp, forall_and] at h
    have harms := lowerArms_replaceAliases (arm :: arms) h.2.1
    simp only [replaceAliasesOfArms] at harms
    simp only [replaceAliases, replaceAliasesOfArms, lower, harms, lower_replaceAliases e h.2.2]
termination_by structural e => e

theorem lowerList_replaceAliases : (es : List Expr) →
    (∀ name, .aliasRef name ∈ nodesOfList es → ∀ role, (f name).lower scope given role = expand role name) →
    ∀ role, lowerList (replaceAliasesOfList f es) scope given role = lowerList es scope expand role
  | [], _, _ => rfl
  | e :: rest, h, role => by
    simp only [nodesOfList, List.mem_append, or_imp, forall_and] at h
    simp only [replaceAliasesOfList, lowerList, lower_replaceAliases e h.1, lowerList_replaceAliases rest h.2]
termination_by structural es => es

theorem lowerArms_replaceAliases : (arms : List (Expr × Expr)) →
    (∀ name, .aliasRef name ∈ nodesOfArms arms → ∀ role, (f name).lower scope given role = expand role name) →
    ∀ role, lowerArms (replaceAliasesOfArms f arms) scope given role = lowerArms arms scope expand role
  | [], _, _ => rfl
  | (test, result) :: rest, h, role => by
    simp only [nodesOfArms, List.mem_append, or_imp, forall_and] at h
    simp only [replaceAliasesOfArms, lowerArms, lower_replaceAliases test h.1.1, lower_replaceAliases result h.1.2,
      lowerArms_replaceAliases rest h.2]
termination_by structural arms => arms

end

end Expr

namespace Plan

variable {p : Plan} {e inner full : Expr} {name : String} {scope : Scope} {expand : Expansion} {role : Role}
  {steps : Nat}

theorem Unfolds.lower_within (hfull : p.Unfolds e full) (hends : p.EndsWithin steps e) (expand : Expansion)
    (role : Role) :
    full.lower scope expand role = e.lower scope (p.fragments.expand scope steps) role := by
  induction hfull generalizing steps role with
  | mk inner full hinner _ ih =>
    refine Expr.lower_replaceAliases _ (fun name hmem role => ?_) role
    have hname := Expr.mem_aliases.2 hmem
    obtain ⟨fewer, own, rfl, hown, hless⟩ := hends.next hname
    obtain rfl := Option.some.inj ((hinner name hname).symm.trans hown)
    rw [p.expand_succ, hinner name hname]
    exact ih name hname hless role

/-- An expression is compiled as what it unfolds to, whatever aliases would mean there. -/
theorem Unfolds.lower (hfull : p.Unfolds e full) (expand : Expansion) (role : Role) :
    full.lower scope expand role = e.lower scope (p.fragments.expansion scope) role := by
  rw [p.expansion_eq]
  exact hfull.lower_within ((endsWithin_iff (Nat.le_succ _)).2 ⟨hfull.not_dangles, hfull.not_circles⟩) expand role

/-- No expression is compiled whose chains of aliases do not end. -/
theorem CompilesWithin.endsWithin (h : p.CompilesWithin scope steps e) : p.EndsWithin steps e := by
  induction steps generalizing e with
  | zero =>
    refine List.eq_nil_iff_forall_not_mem.2 fun name hname => ?_
    obtain ⟨fewer, -, hsteps, -⟩ := h.inner hname
    cases hsteps
  | succ steps ih =>
    intro name hname
    obtain ⟨fewer, inner, hsteps, hinner, hdeeper⟩ := h.inner hname
    obtain rfl := Nat.succ.inj hsteps
    exact ⟨inner, hinner, ih hdeeper⟩

end Plan

/-! ## Expressions that need no other tables -/

namespace Lowering

variable {α β : Type} {bad worse : QueryError → Prop} {act : Lowering α} {failure : QueryError}

/-- A compilation that leaves the tables as they are, or fails with an error of a kind. -/
def Stays (bad : QueryError → Prop) (act : Lowering α) : Prop :=
  ∀ s, (∃ a, act s = .ok (a, s)) ∨ ∃ failure, act s = .error failure ∧ bad failure

theorem Stays.pure (a : α) : Stays bad (pure a) := fun _ => .inl ⟨a, rfl⟩

theorem Stays.throw (h : bad failure) : Stays bad (throw failure : Lowering α) := fun _ => .inr ⟨failure, rfl, h⟩

theorem Stays.mono (h : act.Stays bad) (hworse : ∀ failure, bad failure → worse failure) : act.Stays worse :=
  fun s => (h s).imp_right fun ⟨failure, hfailure, hbad⟩ => ⟨failure, hfailure, hworse failure hbad⟩

theorem Stays.bind {f : α → Lowering β} (hact : act.Stays bad) (hf : ∀ a, (f a).Stays bad) : (act >>= f).Stays bad := by
  intro s
  rcases hact s with ⟨a, ha⟩ | ⟨failure, hfailure, hbad⟩
  · rw [bind_eq ha]
    exact hf a s
  · refine .inr ⟨failure, ?_, hbad⟩
    change (act s >>= fun result => f result.1 result.2) = _
    rw [hfailure]
    rfl

theorem Stays.forM {γ : Type} {cs : List γ} {step : γ → Lowering Unit} (h : ∀ c ∈ cs, (step c).Stays bad) :
    (forM cs step : Lowering Unit).Stays bad := by
  induction cs with
  | nil => exact .pure ()
  | cons c rest ih =>
    obtain ⟨hc, hrest⟩ := List.forall_mem_cons.1 h
    rw [List.forM_cons]
    exact hc.bind fun _ => ih hrest

/-- A compilation does to the tables what it does with its result left aside, and fails as then. -/
theorem stays_of_effect (h : act.effect.Stays bad) : act.Stays bad := by
  intro s
  cases hact : act s with
  | ok result =>
    rcases h s with ⟨_, hs⟩ | ⟨failure, hfailure, -⟩
    · obtain ⟨a, ha⟩ := effect_ok.1 hs
      exact .inl ⟨a, hact ▸ ha⟩
    · rw [effect, bind_eq hact] at hfailure
      cases hfailure
  | error failure =>
    rcases h s with ⟨_, hs⟩ | ⟨other, hother, hbad⟩
    · obtain ⟨a, ha⟩ := effect_ok.1 hs
      cases hact.symm.trans ha
    · have heffect : act.effect s = .error failure := by
        change (act s >>= fun result => _) = _
        rw [hact]
        rfl
      obtain rfl : failure = other := Except.error.inj (heffect.symm.trans hother)
      exact .inr ⟨failure, rfl, hbad⟩

end Lowering

/-- whether a node needs no row but that of the root: no field of a related or an enclosing row, and no subplan -/
def Expr.IsPlain (root : Entity) : Expr → Prop
  | .field ref => ref.root = root.name ∧ ref.hops = []
  | .outer _ | .correlated _ | .existsRow .. => False
  | _ => True

namespace Plan

variable {p : Plan} {e inner : Expr} {name : String} {scope : Scope} {expand : Expansion} {role : Role} {steps : Nat}
  {bad : QueryError → Prop}

variable (p) in
/-- An expression of aliases, literals, operators and fields of the root, its annotations included. -/
def Plain (e : Expr) : Prop := ∀ node, p.Reaches e node → node.IsPlain p.root

theorem Plain.next (h : p.Plain e) (hname : name ∈ e.aliases) (hinner : p.annotationOf name = some inner) :
    p.Plain inner :=
  fun node hreach => h node (.through hname hinner hreach)

/-- Where the aliases of a plain expression leave the tables as they are, it does. -/
theorem Plain.lower_stays (hplain : p.Plain e) (hroot : scope.root = p.root)
    (hexpand : ∀ name ∈ e.aliases, ∀ role, (expand role name).Stays bad) : (e.lower scope expand role).Stays bad := by
  refine Lowering.stays_of_effect ?_
  rw [Expr.lower_references]
  refine Lowering.Stays.forM fun r hr => ?_
  have hmem := Expr.node_mem_nodes hr
  have hnode := hplain r.node (.part hmem)
  cases r with
  | column ref asked =>
    obtain ⟨hown, hhops⟩ := hnode
    refine Lowering.Stays.bind ?_ fun _ => .pure ()
    rw [Scope.column, if_neg (by rw [hroot]; exact not_not_intro hown), if_pos (by simp [FieldRef.isLocal, hhops])]
    exact .pure _
  | aliased name asked => exact (hexpand name (Expr.mem_aliases.2 hmem) asked).bind fun _ => .pure ()
  | outer | scalar | existence => exact hnode.elim

/-- A plain expression is compiled, or refused for an alias in a chain that does not end. -/
theorem Plain.lower_within_stays (hplain : p.Plain e) (hroot : scope.root = p.root) :
    (e.lower scope (p.fragments.expand scope steps) role).Stays fun failure => ¬p.EndsWithin steps e ∧
      ∃ name, p.Reaches e (.aliasRef name) ∧ failure = .unknownPath p.root.name name := by
  induction steps generalizing e role with
  | zero =>
    refine hplain.lower_stays hroot fun name hname role => .throw ⟨fun hends => ?_, name, ?_, by rw [hroot]⟩
    · obtain ⟨fewer, -, hsteps, -⟩ := EndsWithin.next hends hname
      cases hsteps
    · exact .part (Expr.mem_aliases.1 hname)
  | succ steps ih =>
    refine hplain.lower_stays hroot fun name hname role => ?_
    have hreach : p.Reaches e (.aliasRef name) := .part (Expr.mem_aliases.1 hname)
    rw [p.expand_succ]
    cases hinner : p.annotationOf name with
    | none =>
      refine .throw ⟨fun hends => ?_, name, hreach, by rw [hroot]⟩
      obtain ⟨-, inner, -, hsome, -⟩ := EndsWithin.next hends hname
      cases hinner.symm.trans hsome
    | some inner =>
      refine (ih (hplain.next hname hinner)).mono fun failure => ?_
      rintro ⟨hends, other, hother, rfl⟩
      refine ⟨fun hall => hends ?_, other, hreach.beyond hinner hother, rfl⟩
      obtain ⟨fewer, own, hsteps, hown, hless⟩ := hall.next hname
      obtain rfl := Nat.succ.inj hsteps
      obtain rfl := Option.some.inj (hinner.symm.trans hown)
      exact hless

/-- A plain expression whose aliases are all there and lead to no circle is compiled. -/
theorem Plain.lower_ok (hplain : p.Plain e) (hroot : scope.root = p.root) (hends : ¬p.Dangles e ∧ ¬p.Circles e)
    (role : Role) (s : JoinState) :
    ∃ x, e.lower scope (p.fragments.expansion scope) role s = .ok (x, s) := by
  rw [p.expansion_eq]
  rcases hplain.lower_within_stays hroot s with hok | ⟨failure, -, hbad, -⟩
  · exact hok
  · exact absurd ((endsWithin_iff (Nat.le_succ _)).2 hends) hbad

/-- A plain expression with a missing alias or a circle is refused for one of the aliases that it reaches. -/
theorem Plain.lower_error (hplain : p.Plain e) (hroot : scope.root = p.root) (hends : p.Dangles e ∨ p.Circles e)
    (role : Role) (s : JoinState) : ∃ name, p.Reaches e (.aliasRef name) ∧
      e.lower scope (p.fragments.expansion scope) role s = .error (.unknownPath p.root.name name) := by
  rw [p.expansion_eq]
  rcases hplain.lower_within_stays hroot s with ⟨x, hx⟩ | ⟨failure, hfailure, -, name, hreach, rfl⟩
  · have hcompiles : p.CompilesWithin scope (p.annotations.length + 1) e := ⟨role, s, x, s, hx⟩
    obtain ⟨hdangles, hcircles⟩ := (endsWithin_iff (Nat.le_succ _)).1 hcompiles.endsWithin
    exact absurd hends (not_or.2 ⟨hdangles, hcircles⟩)
  · exact ⟨name, hreach, hfailure⟩

/-- Where all annotations are plain, an expression is if it is so by itself. -/
theorem plain_of_annotations (hannotations : ∀ a ∈ p.annotations, ∀ node ∈ a.expr.nodes, node.IsPlain p.root)
    (he : ∀ node ∈ e.nodes, node.IsPlain p.root) : p.Plain e := by
  intro node hreach
  rcases reaches_iff.1 hreach with hmem | ⟨name, inner, -, hinner, hmem⟩
  · exact he node hmem
  · obtain ⟨a, ha, rfl⟩ := Option.map_eq_some_iff.1 hinner
    exact hannotations a (List.mem_of_find?_eq_some ha) node hmem

/-! ## The limits -/

/-- No limit on alias steps cuts a chain that ends, whatever annotations there are:
- an alias counts as an aggregate exactly when an annotation with an aggregate is reached from it, and a filter needs
  the tables of other rows exactly when a field with a hop is reached;
- what can be unfolded is what reaches neither a missing alias nor a circle, and it is compiled as what it unfolds to;
- an expression of aliases, literals, operators and own fields is compiled in that case, and refused otherwise for an
  alias that it reaches;
- an expression is taken for the field that it unfolds to, and the fields that it reads outside aggregates are those
  that are reached without entering one. -/
theorem alias_limits_exact (p : Plan) :
    (∀ name, p.isAggregateAlias name = true ↔ ∃ reached inner, p.Reaches (.aliasRef name) (.aliasRef reached) ∧
      p.annotationOf reached = some inner ∧ inner.containsAggregate = true) ∧
    (∀ e, p.reachesRelations e = true ↔ ∃ ref, p.Reaches e (.field ref) ∧ ref.hops ≠ []) ∧
    (∀ e, (∃ full, p.Unfolds e full) ↔ ¬p.Dangles e ∧ ¬p.Circles e) ∧
    (∀ e full, p.Unfolds e full → full.aliases = [] ∧
      ∀ scope expand role, full.lower scope expand role = e.lower scope (p.fragments.expansion scope) role) ∧
    (∀ e, p.Plain e → ∀ scope : Scope, scope.root = p.root → ∀ role s,
      (¬p.Dangles e ∧ ¬p.Circles e → ∃ x, e.lower scope (p.fragments.expansion scope) role s = .ok (x, s)) ∧
      (p.Dangles e ∨ p.Circles e → ∃ name, p.Reaches e (.aliasRef name) ∧
        e.lower scope (p.fragments.expansion scope) role s = .error (.unknownPath p.root.name name))) ∧
    (∀ e ref, p.plainField p.aliasBudget e = some ref ↔ p.Unfolds e (.field ref)) ∧
    (∀ e key, key ∈ p.bareFields e ↔ ∃ node, p.ReachesBy Expr.Bare e node ∧ node.Reads p.root key) := by
  refine ⟨fun _ => isAggregateAlias_iff, fun _ => reachesRelations_iff, fun _ => unfolds_iff, fun e full hfull => ?_,
    fun e hplain scope hroot role s => ?_, fun _ _ => plainField_iff, fun _ _ => mem_bareFields_iff⟩
  · exact ⟨hfull.aliases_eq_nil, fun scope expand role => hfull.lower expand role⟩
  · exact ⟨fun hends => hplain.lower_ok hroot hends role s, fun hends => hplain.lower_error hroot hends role s⟩

/-! ## A sample: parts with annotations in knots -/

def samplePart : Entity where
  name := "part"
  table := "parts"
  primaryKey := "id"
  fields := [⟨"id", .int, false⟩, ⟨"weight", .int, false⟩]
  relations := []

/-- an alias of an alias that comes later, a sum over it, two annotations of each other, and one of nothing -/
def knottedPlan : Plan :=
  { ofEntity samplePart with annotations := [
    ⟨"heavy", .binary .gt (.aliasRef "load") (.literal (.int 3))⟩,
    ⟨"total", .aggregate .sum (some (.aliasRef "load")) false⟩,
    ⟨"load", .aliasRef "own"⟩,
    ⟨"own", .field ⟨"part", "weight", [], ⟨"weight", .int, false⟩⟩⟩,
    ⟨"here", .not (.aliasRef "there")⟩,
    ⟨"there", .isNull (.aliasRef "here") false⟩,
    ⟨"lost", .aliasRef "nowhere"⟩] }

theorem knottedPlan_plain (name : String) : knottedPlan.Plain (.aliasRef name) := by
  refine plain_of_annotations ?_ (by simp [Expr.nodes, Expr.IsPlain])
  simp [knottedPlan, Expr.nodes, Expr.IsPlain, samplePart, ofEntity]

/-- The chain of three is followed to its end, for a sum as well; the circle and the missing alias are refused. -/
theorem alias_limits_exact_knots :
    let scope := Scope.ofSelect ⟨[samplePart]⟩ samplePart "t0" none
    let compiled := fun name =>
      (Expr.aliasRef name).lower scope (knottedPlan.fragments.expansion scope) .output { next := 1 }
    (∃ x, compiled "heavy" = .ok (x, { next := 1 })) ∧ knottedPlan.isAggregateAlias "total" = true ∧
      (∃ name, compiled "there" = .error (.unknownPath "part" name)) ∧
      ∃ name, compiled "lost" = .error (.unknownPath "part" name) := by
  intro scope compiled
  obtain ⟨haggregates, -, -, -, hlower, -, -⟩ := alias_limits_exact knottedPlan
  have hself : ∀ name, knottedPlan.Reaches (.aliasRef name) (.aliasRef name) :=
    fun name => .part (Expr.mem_nodes_self _)
  have hheavy : knottedPlan.EndsWithin 7 (.aliasRef "heavy") := by decide
  have hthere : knottedPlan.Circles (.aliasRef "there") := by
    have hhere : knottedPlan.Reaches (.isNull (.aliasRef "here") false) (.aliasRef "here") :=
      .part (by simp [Expr.nodes])
    have hback : knottedPlan.Reaches (.not (.aliasRef "there")) (.aliasRef "there") := .part (by simp [Expr.nodes])
    exact ⟨"there", _, hself _, rfl, hhere.beyond rfl hback⟩
  have hlost : knottedPlan.Dangles (.aliasRef "lost") := ⟨"nowhere", (hself "lost").beyond rfl (hself _), rfl⟩
  refine ⟨(hlower _ (knottedPlan_plain _) scope rfl _ _).1 ((endsWithin_iff le_rfl).1 hheavy),
    (haggregates _).2 ⟨"total", _, hself _, rfl, rfl⟩, ?_, ?_⟩
  · obtain ⟨name, -, herror⟩ := (hlower _ (knottedPlan_plain _) scope rfl _ _).2 (.inr hthere)
    exact ⟨name, herror⟩
  · obtain ⟨name, -, herror⟩ := (hlower _ (knottedPlan_plain _) scope rfl _ _).2 (.inl hlost)
    exact ⟨name, herror⟩

end Plan

end RelQuery
