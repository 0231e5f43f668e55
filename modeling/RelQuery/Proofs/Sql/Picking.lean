/-
Which row of a group is read.

What a query computes for a group it reads, outside aggregates, from one row of the group, and a database may take any.
A query is unambiguous (`Query.Unambiguous`) when that row does not matter: rows with the same key give each part without
aggregates of an output, of HAVING and of an order key one value.
- `Expr.Constant.of_leaves`, `Expr.Constant.of_value`: an expression made of what two rows have in common, and one that
  has the same value on both by itself.
- `Query.Unambiguous.eval_eq`: whichever rows are picked, an unambiguous query gives the same rows.
-/
import RelQuery.Proofs.Sql.Dependence

namespace RelQuery.Sql

variable {db : Database}

/-! ## Expressions -/

/-- an expression that does not tell two rows of a group apart, in its parts without aggregates and as a whole -/
structure Expr.Constant (db : Database) (f g : Frame) (e : Expr) : Prop where
  parts : ∀ part ∈ e.bareParts, part.eval db (.ofFrame f) = part.eval db (.ofFrame g)
  value : ∀ group, e.eval db ⟨f, group⟩ = e.eval db ⟨g, group⟩

theorem Expr.Constant.of_leaves {e : Expr} {S : Frame → Frame → Prop} (h : ∀ leaf ∈ e.bareLeaves, leaf.Same db S)
    {f g : Frame} (hfg : S f g) : e.Constant db f g where
  parts _ hpart := Expr.eval_agree_row (fun leaf hleaf => h leaf (e.bareLeaves_of_part hpart hleaf)) hfg
  value := Expr.eval_agree_group h hfg

theorem Expr.Constant.of_value {e : Expr} (haggregates : e.aggregates = false) {f g : Frame}
    (h : e.eval db (.ofFrame f) = e.eval db (.ofFrame g)) : e.Constant db f g where
  parts part hpart := by
    rw [Expr.bareParts_of_not_aggregates haggregates] at hpart
    rw [List.mem_singleton.1 hpart]
    exact h
  value group :=
    (e.eval_of_not_aggregates haggregates f group []).trans (h.trans (e.eval_of_not_aggregates haggregates g [] group))

/-! ## Queries -/

/-- a choice of a row from each group that has one -/
structure Picks where
  pick : List Frame → Option Frame
  mem : ∀ {group f}, pick group = some f → f ∈ group
  isSome : ∀ {group}, group ≠ [] → (pick group).isSome

namespace Clauses

variable (c : Clauses)

/-- the groups, each with the row that is picked -/
def contextsPicking (picks : Picks) (outer : Frame) (wholeTable : Bool) : List Context :=
  if !c.grouped then c.kept.map .ofFrame
  else if wholeTable then [⟨(picks.pick c.kept).getD outer, c.kept⟩]
  else c.keys.map fun key =>
    let group := c.kept.filter fun frame => c.groupKey (.ofFrame frame) = key
    ⟨(picks.pick group).getD outer, group⟩

end Clauses

namespace Query

variable (q : Query)

/-- what is computed once for a group -/
def groupExpressions : List Expr := q.select.map (·.expr) ++ q.having.toList ++ q.orderBy.map (·.expr)

/-- the rows of a query that reads each group from the row picked -/
def evalPicking (db : Database) (outer : Frame) (picks : Picks) : List (List Value) :=
  (q.clauses db outer).present db.toOperators
    ((q.clauses db outer).contextsPicking picks outer q.groupBy.isEmpty)

/-- whether rows with the same key give whatever is computed for their group one value -/
def Unambiguous (db : Database) (outer : Frame) : Prop :=
  ∀ f ∈ (q.clauses db outer).kept, ∀ g ∈ (q.clauses db outer).kept,
    (q.clauses db outer).groupKey (.ofFrame f) = (q.clauses db outer).groupKey (.ofFrame g) →
    ∀ e ∈ q.groupExpressions, e.Constant db f g

variable {q}

/-- The row picked from a group, and the first one, stand for the same values. -/
theorem Unambiguous.picked {outer : Frame} (h : q.Unambiguous db outer) (picks : Picks) {group : List Frame}
    (hgroup : ∀ f ∈ group, f ∈ (q.clauses db outer).kept) (hkey : ∀ f ∈ group, ∀ g ∈ group,
      (q.clauses db outer).groupKey (.ofFrame f) = (q.clauses db outer).groupKey (.ofFrame g)) :
    ∀ e ∈ q.groupExpressions,
      e.eval db ⟨group.headD outer, group⟩ = e.eval db ⟨(picks.pick group).getD outer, group⟩ := by
  intro e he
  cases hpick : picks.pick group with
  | none =>
    cases group with
    | nil => rfl
    | cons first rest =>
      have hsome := picks.isSome (List.cons_ne_nil first rest)
      rw [hpick] at hsome
      cases hsome
  | some f =>
    have hf := picks.mem hpick
    cases group with
    | nil => cases hf
    | cons first rest =>
      have hfirst : first ∈ first :: rest := List.mem_cons_self
      exact (h first (hgroup first hfirst) f (hgroup f hf) (hkey first hfirst f hf) e he).value _

/-- The rows of an unambiguous query do not depend on the rows picked. -/
theorem Unambiguous.eval_eq {outer : Frame} (h : q.Unambiguous db outer) (picks : Picks) :
    q.evalPicking db outer picks = q.eval db outer := by
  obtain ⟨c, hc⟩ : ∃ c, c = q.clauses db outer := ⟨_, rfl⟩
  have heach : ∀ places : List (List Frame), (∀ group ∈ places, (∀ f ∈ group, f ∈ c.kept) ∧
      ∀ f ∈ group, ∀ g ∈ group, c.groupKey (.ofFrame f) = c.groupKey (.ofFrame g)) →
      c.present db.toOperators (places.map fun group => ⟨(picks.pick group).getD outer, group⟩) =
        c.present db.toOperators (places.map fun group => ⟨group.headD outer, group⟩) := by
    intro places hplaces
    have hvalue : ∀ group ∈ places, ∀ e ∈ q.groupExpressions,
        e.eval db ⟨(picks.pick group).getD outer, group⟩ = e.eval db ⟨group.headD outer, group⟩ := by
      intro group hmem e he
      rw [hc] at hplaces
      exact (h.picked picks (hplaces group hmem).1 (hplaces group hmem).2 e he).symm
    rw [hc]
    refine Clauses.present_eq (fun group hmem => ?_) (fun group hmem => ?_) (fun group hmem => ?_) rfl rfl rfl _
    · simp only [clauses]
      cases hhaving : q.having with
      | none => simp only [evalCondition]
      | some e => simp only [evalCondition, hvalue group hmem e (by simp [groupExpressions, hhaving])]
    · simp only [clauses, evalKeys_eq_map]
      exact List.map_congr_left fun key hkey =>
        hvalue group hmem key.expr (by simp [groupExpressions, List.mem_map_of_mem hkey])
    · simp only [clauses, evalItems_eq_map]
      exact List.map_congr_left fun item hitem =>
        hvalue group hmem item.expr (by simp [groupExpressions, List.mem_map_of_mem hitem])
  rw [Query.eval_eq, Clauses.rows_eq_present, evalPicking, ← hc]
  unfold Clauses.contextsPicking Clauses.contexts
  split
  · rfl
  · split
    · next hwhole =>
      refine heach [c.kept] fun group hmem => ?_
      obtain rfl := List.mem_singleton.1 hmem
      -- nothing to group by is the same key everywhere
      have hnothing : ∀ context, c.groupKey context = [] := by
        intro context
        rw [hc, clauses, List.isEmpty_iff.1 hwhole]
        rfl
      exact ⟨fun f hf => hf, fun f _ g _ => by rw [hnothing, hnothing]⟩
    · have hgroups := heach (c.keys.map fun key => c.kept.filter fun frame => c.groupKey (.ofFrame frame) = key)
        fun group hmem => by
          obtain ⟨key, -, rfl⟩ := List.mem_map.1 hmem
          refine ⟨fun f hf => List.mem_of_mem_filter hf, fun f hf g hg => ?_⟩
          have hf' := (List.mem_filter.1 hf).2
          have hg' := (List.mem_filter.1 hg).2
          rw [decide_eq_true_iff] at hf' hg'
          rw [hf', hg']
      rw [List.map_map, List.map_map] at hgroups
      exact hgroups

end Query

end RelQuery.Sql
