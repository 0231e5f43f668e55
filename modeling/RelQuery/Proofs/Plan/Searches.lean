/-
Searches through aliases.

The annotations of a plan may name each other, in a circle too, and a search through them is cut off after a number of
steps. It misses nothing for that: as long as another step finds another annotation there is an annotation left, so
after as many steps as there are annotations the search has settled. `Plan.Search` is such a search for a kind of node,
among those parts of an expression that it looks at.
- `Search.found_iff`: a search of enough steps finds what can be reached through aliases, and nothing else.
- `exprAggregates_iff`, `isGrouped_iff`: an expression depends on a group when its form with all aliases expanded
  contains an aggregate; a plan is grouped when an annotation, a filter or an order key does.
-/
import Mathlib.Tactic
import RelQuery.Proofs.Plan.Meaning

namespace RelQuery

namespace Plan

/-- An expression reaches its parts, and what the annotations of aliases among them reach. -/
inductive ReachesBy (p : Plan) (parts : Expr → Expr → Prop) : Expr → Expr → Prop where
  | part {e node : Expr} : parts e node → ReachesBy p parts e node
  | through {e inner node : Expr} {name : String} : parts e (.aliasRef name) → p.annotationOf name = some inner →
    ReachesBy p parts inner node → ReachesBy p parts e node

/-- A search from aliases for nodes of a kind; each step follows the aliases among the parts of an annotation. -/
structure Search (p : Plan) (parts : Expr → Expr → Prop) (hit : Expr → Prop) (found : Nat → String → Bool) :
    Prop where
  start (name : String) : found 0 name = false
  step (steps : Nat) (name : String) : found (steps + 1) name = true ↔ ∃ e, p.annotationOf name = some e ∧
    ((∃ node, parts e node ∧ hit node) ∨ ∃ inner, parts e (.aliasRef inner) ∧ found steps inner = true)

variable (p : Plan) (found : Nat → String → Bool)

/-- the aliases from which something is found in a number of steps -/
def foundFrom (steps : Nat) : Finset String :=
  (p.annotations.map (·.aliasName)).toFinset.filter fun name => found steps name = true

variable {p} {found} {parts : Expr → Expr → Prop} {hit : Expr → Prop} {e node : Expr} {name : String} {steps : Nat}

namespace Search

variable (search : p.Search parts hit found)

include search

/-- What is found is found by a longer search. -/
theorem mono (steps : Nat) (h : found steps name = true) : found (steps + 1) name = true := by
  induction steps generalizing name with
  | zero => simp [search.start] at h
  | succ steps ih =>
    obtain ⟨e, he, hfound⟩ := (search.step _ _).1 h
    refine (search.step _ _).2 ⟨e, he, hfound.imp_right ?_⟩
    rintro ⟨inner, hinner, hdeeper⟩
    exact ⟨inner, hinner, ih hdeeper⟩

theorem mem_foundFrom : name ∈ p.foundFrom found steps ↔ found steps name = true := by
  rw [foundFrom, Finset.mem_filter, List.mem_toFinset]
  refine and_iff_right_of_imp fun h => ?_
  cases steps with
  | zero => simp [search.start] at h
  | succ steps =>
    obtain ⟨e, he, -⟩ := (search.step _ _).1 h
    obtain ⟨note, hnote, -⟩ := Option.map_eq_some_iff.1 he
    exact List.mem_map.2 ⟨note, List.mem_of_find?_eq_some hnote, by simpa using List.find?_some hnote⟩

theorem foundFrom_mono : Monotone (p.foundFrom found) :=
  monotone_nat_of_le_succ fun steps _ hname => search.mem_foundFrom.2 (search.mono steps (search.mem_foundFrom.1 hname))

/-- A step that finds nothing new is followed by another one. -/
theorem foundFrom_settled (h : p.foundFrom found steps = p.foundFrom found (steps + 1)) :
    p.foundFrom found (steps + 1) = p.foundFrom found (steps + 2) := by
  have hsame : ∀ name, found steps name = true ↔ found (steps + 1) name = true := fun name => by
    rw [← search.mem_foundFrom, h, search.mem_foundFrom]
  ext name
  rw [search.mem_foundFrom, search.mem_foundFrom, search.step, search.step]
  simp only [hsame]

/-- After as many steps as there are annotations nothing new is found. -/
theorem foundFrom_stable (hsteps : p.annotations.length ≤ steps) :
    p.foundFrom found steps = p.foundFrom found (steps + 1) := by
  have hcard : ∀ n, p.annotations.length ≤ n →
      (p.foundFrom found n).card = (p.foundFrom found p.annotations.length).card := fun n hn => by
    refine Nat.stabilises_of_monotone (fun a b hab => Finset.card_le_card (search.foundFrom_mono hab)) (fun m => ?_)
      (fun m hm => ?_) hn
    · calc (p.foundFrom found m).card ≤ (p.annotations.map (·.aliasName)).toFinset.card := Finset.card_filter_le _ _
        _ ≤ (p.annotations.map (·.aliasName)).length := List.toFinset_card_le _
        _ = p.annotations.length := List.length_map _
    · have hequal := Finset.eq_of_subset_of_card_le (search.foundFrom_mono (Nat.le_succ m)) hm.ge
      rw [search.foundFrom_settled hequal]
  refine Finset.eq_of_subset_of_card_le (search.foundFrom_mono (Nat.le_succ steps)) ?_
  rw [hcard steps hsteps, hcard (steps + 1) (Nat.le_succ_of_le hsteps)]

/-! ## What is found -/

/-- A search finds what is reached through the annotation of its alias. -/
theorem reaches_of_found (steps : Nat) (h : found steps name = true) :
    ∃ e, p.annotationOf name = some e ∧ ∃ node, p.ReachesBy parts e node ∧ hit node := by
  induction steps generalizing name with
  | zero => simp [search.start] at h
  | succ steps ih =>
    obtain ⟨e, he, ⟨node, hnode, hhit⟩ | ⟨inner, hinner, hdeeper⟩⟩ := (search.step _ _).1 h
    · exact ⟨e, he, node, .part hnode, hhit⟩
    · obtain ⟨next, hnext, node, hreach, hhit⟩ := ih hdeeper
      exact ⟨e, he, node, .through hinner hnext hreach, hhit⟩

/-- Whatever is reached from an expression is in it, or found from an alias in it. -/
theorem found_of_reaches (hsteps : p.annotations.length ≤ steps) (h : p.ReachesBy parts e node) (hhit : hit node) :
    (∃ node, parts e node ∧ hit node) ∨ ∃ name, parts e (.aliasRef name) ∧ found steps name = true := by
  induction h with
  | part hnode => exact .inl ⟨_, hnode, hhit⟩
  | @through e inner node name hname hinner _ ih =>
    have hfound : found (steps + 1) name = true := (search.step _ _).2 ⟨inner, hinner, ih hhit⟩
    rw [← search.mem_foundFrom, ← search.foundFrom_stable hsteps, search.mem_foundFrom] at hfound
    exact .inr ⟨name, hname, hfound⟩

/-- A search of enough steps from the aliases of an expression finds what the expression reaches, and nothing else. -/
theorem found_iff (hsteps : p.annotations.length ≤ steps) :
    ((∃ node, parts e node ∧ hit node) ∨ ∃ name, parts e (.aliasRef name) ∧ found steps name = true) ↔
      ∃ node, p.ReachesBy parts e node ∧ hit node := by
  constructor
  · rintro (⟨node, hnode, hhit⟩ | ⟨name, hname, hdeeper⟩)
    · exact ⟨node, .part hnode, hhit⟩
    · obtain ⟨inner, hinner, node, hreach, hhit⟩ := search.reaches_of_found steps hdeeper
      exact ⟨node, .through hname hinner hreach, hhit⟩
  · rintro ⟨node, hreach, hhit⟩
    exact search.found_of_reaches hsteps hreach hhit

end Search

/-- With all nodes for parts, that is what an expression reaches. -/
theorem reachesBy_nodes : p.ReachesBy (fun e node => node ∈ e.nodes) e node ↔ p.Reaches e node := by
  constructor
  · intro h
    induction h with
    | part hmem => exact .part hmem
    | through hname hinner _ ih => exact .through (Expr.mem_aliases.2 hname) hinner ih
  · intro h
    induction h with
    | part hmem => exact .part hmem
    | through hname hinner _ ih => exact .through (Expr.mem_aliases.1 hname) hinner ih

/-! ## Aggregates -/

variable (p) in
/-- With all aliases expanded, the expression contains an aggregate; subplans are not entered. -/
def Aggregates (e : Expr) : Prop := ∃ node, p.Reaches e node ∧ node.isAggregate = true

theorem aliasAggregates_search :
    p.Search (fun e node => node ∈ e.nodes) (fun node => node.isAggregate = true) p.aliasAggregates where
  start _ := rfl
  step steps name := by
    rw [aliasAggregates]
    cases p.annotationOf name with
    | none => simp
    | some e => simp [Expr.containsAggregate, Expr.mem_aliases]

/-- An expression is taken to depend on a group when its expanded form contains an aggregate. -/
theorem exprAggregates_iff {e : Expr} : p.exprAggregates e = true ↔ p.Aggregates e := by
  have hbudget : p.annotations.length ≤ p.aliasBudget := Nat.le_succ _
  have hfound := aliasAggregates_search.found_iff (p := p) (e := e) hbudget
  simp only [reachesBy_nodes] at hfound
  rw [Aggregates, ← hfound]
  simp [exprAggregates, Expr.containsAggregate, Expr.mem_aliases, isAggregateAlias]

instance : DecidablePred p.Aggregates := fun _ => decidable_of_iff _ exprAggregates_iff

variable (p) in
/-- The plan aggregates in an annotation, by the alias that it has, in a filter or in an order key. -/
def Groups : Prop :=
  (∃ a ∈ p.annotations, p.Aggregates (.aliasRef a.aliasName)) ∨ (∃ e ∈ p.filters, p.Aggregates e) ∨
    ∃ key ∈ p.ordering, p.Aggregates key.expr

/-- An alias depends on a group as an expression that is nothing else. -/
theorem isAggregateAlias_eq (name : String) : p.isAggregateAlias name = p.exprAggregates (.aliasRef name) := by
  simp [exprAggregates, Expr.containsAggregate, Expr.nodes, Expr.isAggregate, Expr.aliases]

theorem isGrouped_iff : p.isGrouped = true ↔ p.Groups := by
  simp only [isGrouped, hasAggregates, Bool.or_eq_true, List.any_eq_true, isAggregateAlias_eq, exprAggregates_iff,
    or_assoc, Groups]

instance : Decidable p.Groups := decidable_of_iff _ isGrouped_iff

end Plan

end RelQuery
