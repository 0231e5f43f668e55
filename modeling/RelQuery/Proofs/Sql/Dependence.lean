/-
What the value of an expression depends on.

An expression depends on its columns and on the statements nested in it: those outside its aggregates are read from the
row in scope (`Expr.bareLeaves`), those inside from the rows of the group. A well scoped statement depends, of all the
rows around it, on the columns that it reads from the table open to it.
- `Expr.eval_agree`: rows that the leaves do not tell apart give an expression one value.
- `WellScoped.eval_agree`: so do rows around a statement, by induction on the statements nested in it.
- `Expr.bareLeaves_of_part`: what the parts without aggregates depend on stands outside aggregates.
-/
import RelQuery.Proofs.Sql.Alike
import RelQuery.Proofs.Sql.Scoping

namespace RelQuery.Sql

variable {db : Database}

/-! ## Leaves outside aggregates -/

mutual

/-- the columns of an expression and the statements nested in it, its aggregates left out -/
def Expr.bareLeaves : Expr → List Leaf
  | .column table name => [.column (table, name)]
  | .star (some table) => [.column (some table, "*")]
  | .int _ | .param _ | .star none | .call .. => []
  | .binary _ left right => left.bareLeaves ++ right.bareLeaves
  | .not e | .isNull e _ | .paren e => e.bareLeaves
  | .case arms none => armBareLeaves arms
  | .case arms (some e) => armBareLeaves arms ++ e.bareLeaves
  | .subquery q | .existsRow q _ => [.statement q]
  | .inList e values _ => e.bareLeaves ++ listBareLeaves values
  | .inQuery e q _ => e.bareLeaves ++ [.statement q]
termination_by structural e => e

def listBareLeaves : List Expr → List Leaf
  | [] => []
  | e :: rest => e.bareLeaves ++ listBareLeaves rest
termination_by structural es => es

def armBareLeaves : List (Expr × Expr) → List Leaf
  | [] => []
  | (test, result) :: rest => test.bareLeaves ++ result.bareLeaves ++ armBareLeaves rest
termination_by structural arms => arms

end

mutual

theorem Expr.bareLeaves_sublist : (e : Expr) → List.Sublist e.bareLeaves e.leaves
  | .column .. | .star none | .star (some _) | .int _ | .param _ | .subquery _ | .existsRow .. => List.Sublist.refl _
  | .call .. => List.nil_sublist _
  | .binary _ left right => left.bareLeaves_sublist.append right.bareLeaves_sublist
  | .not e | .isNull e _ | .paren e => e.bareLeaves_sublist
  | .case arms none => armBareLeaves_sublist arms
  | .case arms (some e) => (armBareLeaves_sublist arms).append e.bareLeaves_sublist
  | .inList e values _ => e.bareLeaves_sublist.append (listBareLeaves_sublist values)
  | .inQuery e _ _ => e.bareLeaves_sublist.append (List.Sublist.refl _)
termination_by structural e => e

theorem listBareLeaves_sublist : (es : List Expr) → List.Sublist (listBareLeaves es) (listLeaves es)
  | [] => List.Sublist.refl _
  | e :: rest => e.bareLeaves_sublist.append (listBareLeaves_sublist rest)
termination_by structural es => es

theorem armBareLeaves_sublist : (arms : List (Expr × Expr)) → List.Sublist (armBareLeaves arms) (armLeaves arms)
  | [] => List.Sublist.refl _
  | (test, result) :: rest =>
    (test.bareLeaves_sublist.append result.bareLeaves_sublist).append (armBareLeaves_sublist rest)
termination_by structural arms => arms

end

/-! ## Expressions -/

/-- Rows that are related do not differ in a column, or in what a statement makes of them. -/
def Leaf.Same (db : Database) (S : Frame → Frame → Prop) : Leaf → Prop
  | .column c => ∀ f g, S f g → cell (f c.1) c.2 = cell (g c.1) c.2
  | .statement q => ∀ f g, S f g → q.eval db f = q.eval db g

section Agreement

variable {T : Frame → Frame → Prop}

/-- what is read from each of the related rows of two groups -/
theorem map_group_eq {α : Type} {read : Context → α} (hread : ∀ f g, T f g → read (.ofFrame f) = read (.ofFrame g))
    {group group' : List Frame} (h : List.Forall₂ T group group') :
    group.map (fun f => read (.ofFrame f)) = group'.map fun g => read (.ofFrame g) := by
  induction h with
  | nil => rfl
  | cons hfirst _ ih => rw [List.map_cons, List.map_cons, hread _ _ hfirst, ih]

mutual

/-- An expression has one value where its leaves outside aggregates do not tell the rows in scope apart, and its leaves
do not tell the rows of the groups apart. -/
theorem Expr.eval_agree : (e : Expr) → {S : Frame → Frame → Prop} → (∀ leaf ∈ e.bareLeaves, leaf.Same db S) →
    (∀ leaf ∈ e.leaves, leaf.Same db T) → ∀ {c c' : Context}, S c.frame c'.frame →
    List.Forall₂ T c.group c'.group → e.eval db c = e.eval db c'
  | .column table name, S, hbare, _, c, c', hframe, _ => hbare _ (List.mem_singleton.2 rfl) _ _ hframe
  | .int _, _, _, _, _, _, _, _ | .param _, _, _, _, _, _, _, _ | .star _, _, _, _, _, _, _, _ => rfl
  | .binary op left right, S, hbare, hall, c, c', hframe, hgroup => by
    simp only [Expr.bareLeaves, Expr.leaves, List.mem_append, or_imp, forall_and] at hbare hall
    simp only [Expr.eval, left.eval_agree hbare.1 hall.1 hframe hgroup,
      right.eval_agree hbare.2 hall.2 hframe hgroup]
  | .not e, S, hbare, hall, c, c', hframe, hgroup | .isNull e _, S, hbare, hall, c, c', hframe, hgroup
  | .paren e, S, hbare, hall, c, c', hframe, hgroup => by
    simp only [Expr.eval, e.eval_agree hbare hall hframe hgroup]
  | .call function args distinct, S, _, hall, c, c', _, hgroup => by
    have hargs : ∀ f g, T f g → evalList db args (.ofFrame f) = evalList db args (.ofFrame g) := fun f g hfg =>
      evalList_agree args (fun leaf hleaf => hall leaf ((listBareLeaves_sublist args).subset hleaf)) hall hfg .nil
    simp only [Expr.eval, map_group_eq hargs hgroup]
  | .case arms none, S, hbare, hall, c, c', hframe, hgroup => by
    simp only [Expr.eval, evalArms_agree arms hbare hall hframe hgroup]
  | .case arms (some e), S, hbare, hall, c, c', hframe, hgroup => by
    simp only [Expr.bareLeaves, Expr.leaves, List.mem_append, or_imp, forall_and] at hbare hall
    simp only [Expr.eval, evalArms_agree arms hbare.1 hall.1 hframe hgroup, e.eval_agree hbare.2 hall.2 hframe hgroup]
  | .subquery q, S, hbare, _, c, c', hframe, _ | .existsRow q _, S, hbare, _, c, c', hframe, _ => by
    have hq : q.eval db c.frame = q.eval db c'.frame := hbare _ (List.mem_singleton.2 rfl) _ _ hframe
    simp only [Expr.eval, hq]
  | .inList e values _, S, hbare, hall, c, c', hframe, hgroup => by
    simp only [Expr.bareLeaves, Expr.leaves, List.mem_append, or_imp, forall_and] at hbare hall
    simp only [Expr.eval, e.eval_agree hbare.1 hall.1 hframe hgroup,
      evalList_agree values hbare.2 hall.2 hframe hgroup]
  | .inQuery e q _, S, hbare, hall, c, c', hframe, hgroup => by
    simp only [Expr.bareLeaves, Expr.leaves, List.mem_append, or_imp, forall_and] at hbare hall
    have hq : q.eval db c.frame = q.eval db c'.frame := hbare.2 _ (List.mem_singleton.2 rfl) _ _ hframe
    simp only [Expr.eval, e.eval_agree hbare.1 hall.1 hframe hgroup, hq]
termination_by structural e => e

theorem evalList_agree : (es : List Expr) → {S : Frame → Frame → Prop} →
    (∀ leaf ∈ listBareLeaves es, leaf.Same db S) → (∀ leaf ∈ listLeaves es, leaf.Same db T) → ∀ {c c' : Context},
    S c.frame c'.frame → List.Forall₂ T c.group c'.group → evalList db es c = evalList db es c'
  | [], _, _, _, _, _, _, _ => rfl
  | e :: rest, S, hbare, hall, c, c', hframe, hgroup => by
    simp only [listBareLeaves, listLeaves, List.mem_append, or_imp, forall_and] at hbare hall
    simp only [evalList, e.eval_agree hbare.1 hall.1 hframe hgroup,
      evalList_agree rest hbare.2 hall.2 hframe hgroup]
termination_by structural es => es

theorem evalArms_agree : (arms : List (Expr × Expr)) → {S : Frame → Frame → Prop} →
    (∀ leaf ∈ armBareLeaves arms, leaf.Same db S) → (∀ leaf ∈ armLeaves arms, leaf.Same db T) → ∀ {c c' : Context},
    S c.frame c'.frame → List.Forall₂ T c.group c'.group → evalArms db arms c = evalArms db arms c'
  | [], _, _, _, _, _, _, _ => rfl
  | (test, result) :: rest, S, hbare, hall, c, c', hframe, hgroup => by
    simp only [armBareLeaves, armLeaves, List.mem_append, or_imp, forall_and] at hbare hall
    funext otherwise
    simp only [evalArms, test.eval_agree hbare.1.1 hall.1.1 hframe hgroup,
      result.eval_agree hbare.1.2 hall.1.2 hframe hgroup, evalArms_agree rest hbare.2 hall.2 hframe hgroup]
termination_by structural arms => arms

end

/-- where no group is at hand -/
theorem Expr.eval_agree_row {e : Expr} {S : Frame → Frame → Prop} (hbare : ∀ leaf ∈ e.bareLeaves, leaf.Same db S)
    {f g : Frame} (hfg : S f g) : e.eval db (.ofFrame f) = e.eval db (.ofFrame g) := by
  have hnone : ∀ leaf ∈ e.leaves, leaf.Same db fun _ _ => False := by
    rintro (c | q) - _ _ ⟨⟩
  exact e.eval_agree hbare hnone hfg .nil

/-- in one group -/
theorem Expr.eval_agree_group {e : Expr} {S : Frame → Frame → Prop} (hbare : ∀ leaf ∈ e.bareLeaves, leaf.Same db S)
    {f g : Frame} (hfg : S f g) (group : List Frame) : e.eval db ⟨f, group⟩ = e.eval db ⟨g, group⟩ := by
  have hsame : ∀ leaf ∈ e.leaves, leaf.Same db Eq := by
    rintro (c | q) - f g rfl <;> rfl
  exact e.eval_agree hbare hsame hfg (List.forall₂_refl group)

end Agreement

/-! ## Parts without aggregates -/

mutual

/-- Without aggregates an expression does not depend on the group. -/
theorem Expr.eval_of_not_aggregates : (e : Expr) → e.aggregates = false → ∀ (f : Frame) (group group' : List Frame),
    e.eval db ⟨f, group⟩ = e.eval db ⟨f, group'⟩
  | .column .., _, _, _, _ | .int _, _, _, _, _ | .param _, _, _, _, _ | .star _, _, _, _, _
  | .subquery _, _, _, _, _ | .existsRow .., _, _, _, _ => rfl
  | .binary op left right, h, f, group, group' => by
    simp only [Expr.aggregates, Bool.or_eq_false_iff] at h
    simp only [Expr.eval, left.eval_of_not_aggregates h.1 f group group',
      right.eval_of_not_aggregates h.2 f group group']
  | .not e, h, f, group, group' | .isNull e _, h, f, group, group' | .paren e, h, f, group, group'
  | .inQuery e _ _, h, f, group, group' => by
    simp only [Expr.eval, e.eval_of_not_aggregates h f group group']
  | .case arms none, h, f, group, group' => by
    simp only [Expr.eval, evalArms_of_not_aggregates arms h f group group']
  | .case arms (some e), h, f, group, group' => by
    simp only [Expr.aggregates, Bool.or_eq_false_iff] at h
    simp only [Expr.eval, evalArms_of_not_aggregates arms h.1 f group group',
      e.eval_of_not_aggregates h.2 f group group']
  | .inList e values _, h, f, group, group' => by
    simp only [Expr.aggregates, Bool.or_eq_false_iff] at h
    simp only [Expr.eval, e.eval_of_not_aggregates h.1 f group group',
      evalList_of_not_aggregates values h.2 f group group']
termination_by structural e => e

theorem evalList_of_not_aggregates : (es : List Expr) → Expr.listAggregates es = false →
    ∀ (f : Frame) (group group' : List Frame), evalList db es ⟨f, group⟩ = evalList db es ⟨f, group'⟩
  | [], _, _, _, _ => rfl
  | e :: rest, h, f, group, group' => by
    simp only [Expr.listAggregates, Bool.or_eq_false_iff] at h
    simp only [evalList, e.eval_of_not_aggregates h.1 f group group', evalList_of_not_aggregates rest h.2 f group group']
termination_by structural es => es

theorem evalArms_of_not_aggregates : (arms : List (Expr × Expr)) → Expr.armsAggregate arms = false →
    ∀ (f : Frame) (group group' : List Frame), evalArms db arms ⟨f, group⟩ = evalArms db arms ⟨f, group'⟩
  | [], _, _, _, _ => rfl
  | (test, result) :: rest, h, f, group, group' => by
    simp only [Expr.armsAggregate, Bool.or_eq_false_iff] at h
    funext otherwise
    simp only [evalArms, test.eval_of_not_aggregates h.1.1 f group group',
      result.eval_of_not_aggregates h.1.2 f group group', evalArms_of_not_aggregates rest h.2 f group group']
termination_by structural arms => arms

end

/-- an expression by itself, or its parts when it is computed from aggregates -/
def Expr.wholeOr (e : Expr) (parts : List Expr) : List Expr := if e.aggregates then parts else [e]

mutual

/-- the largest parts of an expression that stand outside its aggregates and hold none -/
def Expr.bareParts : Expr → List Expr
  | .column table name => [.column table name]
  | .int n => [.int n]
  | .param v => [.param v]
  | .star table => [.star table]
  | .call .. => []
  | .subquery q => [.subquery q]
  | .existsRow q negated => [.existsRow q negated]
  | .binary op left right => (Expr.binary op left right).wholeOr (left.bareParts ++ right.bareParts)
  | .not e => (Expr.not e).wholeOr e.bareParts
  | .isNull e negated => (Expr.isNull e negated).wholeOr e.bareParts
  | .paren e => (Expr.paren e).wholeOr e.bareParts
  | .case arms none => (Expr.case arms none).wholeOr (armBareParts arms)
  | .case arms (some e) => (Expr.case arms (some e)).wholeOr (armBareParts arms ++ e.bareParts)
  | .inList e values negated => (Expr.inList e values negated).wholeOr (e.bareParts ++ listBareParts values)
  | .inQuery e q negated => (Expr.inQuery e q negated).wholeOr (e.bareParts ++ [.subquery q])
termination_by structural e => e

def listBareParts : List Expr → List Expr
  | [] => []
  | e :: rest => e.bareParts ++ listBareParts rest
termination_by structural es => es

def armBareParts : List (Expr × Expr) → List Expr
  | [] => []
  | (test, result) :: rest => test.bareParts ++ result.bareParts ++ armBareParts rest
termination_by structural arms => arms

end

/-- Without aggregates an expression is its only part. -/
theorem Expr.bareParts_of_not_aggregates {e : Expr} (h : e.aggregates = false) : e.bareParts = [e] := by
  have hwhole : ∀ parts, e.wholeOr parts = [e] := fun parts => by
    rw [Expr.wholeOr, h]
    rfl
  cases e with
  | call => cases h
  | case arms otherwise => cases otherwise <;> exact hwhole _
  | binary | not | isNull | paren | inList | inQuery => exact hwhole _
  | column | int | param | star | subquery | existsRow => rfl

theorem Expr.mem_wholeOr {e part : Expr} {parts : List Expr} (h : part ∈ e.wholeOr parts) : part = e ∨ part ∈ parts := by
  unfold Expr.wholeOr at h
  split at h
  · exact .inr h
  · exact .inl (List.mem_singleton.1 h)

mutual

/-- The columns of a part, and the statements nested in it, stand outside the aggregates. -/
theorem Expr.bareLeaves_of_part : (e : Expr) → ∀ {part}, part ∈ e.bareParts → part.bareLeaves ⊆ e.bareLeaves
  | .column .., _, h | .int _, _, h | .param _, _, h | .star _, _, h | .subquery _, _, h | .existsRow .., _, h => by
    obtain rfl := List.mem_singleton.1 h
    exact List.Subset.refl _
  | .call .., _, h => by cases h
  | .not e, _, h | .isNull e _, _, h | .paren e, _, h => by
    rcases Expr.mem_wholeOr h with rfl | h
    · exact List.Subset.refl _
    · exact e.bareLeaves_of_part h
  | .binary op left right, _, h => by
    rcases Expr.mem_wholeOr h with rfl | h
    · exact List.Subset.refl _
    · rcases List.mem_append.1 h with h | h
      · exact List.Subset.trans (left.bareLeaves_of_part h) (List.subset_append_left _ _)
      · exact List.Subset.trans (right.bareLeaves_of_part h) (List.subset_append_right _ _)
  | .case arms none, _, h => by
    rcases Expr.mem_wholeOr h with rfl | h
    · exact List.Subset.refl _
    · exact armBareLeaves_of_part arms h
  | .case arms (some e), _, h => by
    rcases Expr.mem_wholeOr h with rfl | h
    · exact List.Subset.refl _
    · rcases List.mem_append.1 h with h | h
      · exact List.Subset.trans (armBareLeaves_of_part arms h) (List.subset_append_left _ _)
      · exact List.Subset.trans (e.bareLeaves_of_part h) (List.subset_append_right _ _)
  | .inList e values _, _, h => by
    rcases Expr.mem_wholeOr h with rfl | h
    · exact List.Subset.refl _
    · rcases List.mem_append.1 h with h | h
      · exact List.Subset.trans (e.bareLeaves_of_part h) (List.subset_append_left _ _)
      · exact List.Subset.trans (listBareLeaves_of_part values h) (List.subset_append_right _ _)
  | .inQuery e q _, _, h => by
    rcases Expr.mem_wholeOr h with rfl | h
    · exact List.Subset.refl _
    · rcases List.mem_append.1 h with h | h
      · exact List.Subset.trans (e.bareLeaves_of_part h) (List.subset_append_left _ _)
      · obtain rfl := List.mem_singleton.1 h
        exact List.subset_append_right _ _
termination_by structural e => e

theorem listBareLeaves_of_part : (es : List Expr) → ∀ {part}, part ∈ listBareParts es →
    part.bareLeaves ⊆ listBareLeaves es
  | e :: rest, _, h => by
    rcases List.mem_append.1 h with h | h
    · exact List.Subset.trans (e.bareLeaves_of_part h) (List.subset_append_left _ _)
    · exact List.Subset.trans (listBareLeaves_of_part rest h) (List.subset_append_right _ _)
termination_by structural es => es

theorem armBareLeaves_of_part : (arms : List (Expr × Expr)) → ∀ {part}, part ∈ armBareParts arms →
    part.bareLeaves ⊆ armBareLeaves arms
  | (test, result) :: rest, _, h => by
    simp only [armBareParts, List.mem_append] at h
    simp only [armBareLeaves]
    rcases h with (h | h) | h
    · exact fun leaf hleaf => by simp [test.bareLeaves_of_part h hleaf]
    · exact fun leaf hleaf => by simp [result.bareLeaves_of_part h hleaf]
    · exact fun leaf hleaf => by simp [armBareLeaves_of_part rest h hleaf]
termination_by structural arms => arms

end

/-! ## Statements -/

section Statements

variable {S : Frame → Frame → Prop}

/-- Related rows, one by one, as pairs. -/
theorem exists_pairs {fs gs : List Frame} (h : List.Forall₂ S fs gs) :
    ∃ pairs : List { pair : Frame × Frame // S pair.1 pair.2 },
      fs = pairs.map (·.1.1) ∧ gs = pairs.map (·.1.2) := by
  induction h with
  | nil => exact ⟨[], rfl, rfl⟩
  | @cons f g _ _ hfg _ ih =>
    obtain ⟨pairs, rfl, rfl⟩ := ih
    exact ⟨⟨(f, g), hfg⟩ :: pairs, rfl, rfl⟩

/-- Joining a table keeps rows related that its condition does not tell apart. -/
theorem extend_forall₂ (hbind : ∀ f g name row, S f g → S (f.bind name row) (g.bind name row)) {join : Join}
    (hon : ∀ leaf ∈ join.on.leaves, leaf.Same db S) {f g : Frame} (hfg : S f g) :
    List.Forall₂ S (join.extend db f) (join.extend db g) := by
  have hbare : ∀ leaf ∈ join.on.bareLeaves, leaf.Same db S := fun leaf hleaf =>
    hon leaf (join.on.bareLeaves_sublist.subset hleaf)
  have hfound : List.Forall₂ S
      (((db.rows join.table.table).map fun row => f.bind join.table.name (some row)).filter fun joined =>
        db.truth (join.on.eval db (.ofFrame joined)) = .yes)
      (((db.rows join.table.table).map fun row => g.bind join.table.name (some row)).filter fun joined =>
        db.truth (join.on.eval db (.ofFrame joined)) = .yes) := by
    refine List.rel_filter (fun joined joined' hjoined => ?_) ?_
    · have hvalue := Expr.eval_agree_row hbare hjoined
      simp only [hvalue]
    · exact List.forall₂_map_left_iff.2 (List.forall₂_map_right_iff.2
        (List.forall₂_same.2 fun row _ => hbind f g _ (some row) hfg))
  unfold Join.extend
  cases hkind : join.kind with
  | inner => exact hfound
  | left =>
    revert hfound
    generalize List.filter _ _ = left
    generalize List.filter _ _ = right
    intro hfound
    cases hfound with
    | nil => exact .cons (hbind f g _ none hfg) .nil
    | cons hfirst hrest => exact .cons hfirst hrest

theorem joinFrames_forall₂ (hbind : ∀ f g name row, S f g → S (f.bind name row) (g.bind name row)) :
    {joins : List Join} → (∀ join ∈ joins, ∀ leaf ∈ join.on.leaves, leaf.Same db S) → ∀ {fs gs : List Frame},
    List.Forall₂ S fs gs → List.Forall₂ S (joinFrames db joins fs) (joinFrames db joins gs)
  | [], _, _, _, h => h
  | join :: rest, hon, fs, gs, h => by
    rw [joinFrames_cons, joinFrames_cons]
    have hone : List.Forall₂ S (fs.flatMap (join.extend db)) (gs.flatMap (join.extend db)) :=
      List.rel_flatMap h fun _ _ hfg => extend_forall₂ hbind (hon join (by simp)) hfg
    exact joinFrames_forall₂ hbind (fun other hother => hon other (by simp [hother])) hone

/-- A query reads the same from rows that its leaves do not tell apart. -/
theorem Query.alike_self {q : Query} (h : ∀ leaf ∈ q.leaves, leaf.Same db S) :
    q.Alike db (fun c c' => S c.frame c'.frame ∧ List.Forall₂ S c.group c'.group) q := by
  have hreads : ∀ e ∈ q.expressions, ∀ c c' : Context,
      S c.frame c'.frame ∧ List.Forall₂ S c.group c'.group → e.eval db c = e.eval db c' := by
    intro e he c c' hc
    have hleaves : ∀ leaf ∈ e.leaves, leaf.Same db S := fun leaf hleaf => h leaf (List.mem_flatMap.2 ⟨e, he, hleaf⟩)
    exact e.eval_agree (fun leaf hleaf => hleaves leaf (e.bareLeaves_sublist.subset hleaf)) hleaves hc.1 hc.2
  have hlist : ∀ es : List Expr, es ⊆ q.expressions → List.Forall₂
      (Expr.Alike db fun c c' => S c.frame c'.frame ∧ List.Forall₂ S c.group c'.group) es es := fun es hes =>
    List.forall₂_same.2 fun e he => ⟨hreads e (hes he), rfl⟩
  have hcondition : ∀ condition : Option Expr, condition.toList ⊆ q.expressions → ∀ c c' : Context,
      S c.frame c'.frame ∧ List.Forall₂ S c.group c'.group →
      (evalCondition db condition c = .yes ↔ evalCondition db condition c' = .yes) := by
    intro condition hsub c c' hc
    cases condition with
    | none => simp only [evalCondition]
    | some e => simp only [evalCondition, hreads e (hsub (by simp)) c c' hc]
  constructor
  · exact hlist _ fun e he => by simp [expressions, List.mem_map.1 he]
  · exact hcondition _ fun e he => by simp_all [expressions]
  · exact hlist _ fun e he => by simp [expressions, he]
  · exact hcondition _ fun e he => by simp_all [expressions]
  · rfl
  · exact hlist _ fun e he => by simp [expressions, List.mem_map.1 he]
  all_goals rfl

/-- Rows around a statement that agree in what is not named around it, and in what it reads from the open table. -/
structure Query.Agree (q : Query) (enclosing : List String) (outer : Option String) (f g : Frame) : Prop where
  own : ∀ name ∉ enclosing, f (some name) = g (some name)
  opened : ∀ c, q.Reads c → (∃ name, outer = some name ∧ c.1 = outer) → cell (f c.1) c.2 = cell (g c.1) c.2

namespace Query.Agree

variable {q : Query} {enclosing : List String} {outer : Option String} {f g f' g' : Frame}

/-- Rows keep agreeing when the tables that are added to both are the same. -/
theorem update (h : q.Agree enclosing outer f g) (hrows : ∀ n, f' n = g' n ∨ f' n = f n ∧ g' n = g n) :
    q.Agree enclosing outer f' g' := by
  refine ⟨fun name hname => ?_, fun c hc hopen => ?_⟩
  · rcases hrows (some name) with hsame | ⟨hf, hg⟩
    · exact hsame
    · rw [hf, hg, h.own name hname]
  · rcases hrows c.1 with hsame | ⟨hf, hg⟩
    · rw [hsame]
    · rw [hf, hg, h.opened c hc hopen]

theorem bind (h : q.Agree enclosing outer f g) (name : String) (row : Option Tuple) :
    q.Agree enclosing outer (f.bind name row) (g.bind name row) := by
  refine h.update fun n => ?_
  by_cases hn : n = some name
  · exact .inl (by simp [Frame.bind, hn])
  · exact .inr (by simp [Frame.bind, hn])

theorem enter (h : q.Agree enclosing outer f g) (name : String) (row : Tuple) :
    q.Agree enclosing outer (f.enter name row) (g.enter name row) := by
  refine h.update fun n => ?_
  by_cases hn : n = none ∨ n = some name
  · exact .inl (by simp [Frame.enter, hn])
  · exact .inr (by simp [Frame.enter, hn])

/-- The rows that a query starts from agree when its derived table has the same rows around both. -/
theorem sourceFrames (h : q.Agree enclosing outer f g)
    (hderived : ∀ inner name, q.source = some (.derived inner name) → inner.eval db f = inner.eval db g) :
    List.Forall₂ (q.Agree enclosing outer) (sourceFrames db q.source f) (sourceFrames db q.source g) := by
  have hentered : ∀ {α : Type} (name : String) (tuple : α → Tuple) (rows : List α),
      List.Forall₂ (q.Agree enclosing outer) (rows.map fun row => f.enter name (tuple row))
        (rows.map fun row => g.enter name (tuple row)) := fun name tuple rows =>
    List.forall₂_map_left_iff.2 (List.forall₂_map_right_iff.2
      (List.forall₂_same.2 fun row _ => h.enter name (tuple row)))
  cases hsource : q.source with
  | none => exact .cons h .nil
  | some source =>
    cases source with
    | table t => exact hentered _ id _
    | derived inner name =>
      rw [sourceFrames_derived, sourceFrames_derived, hderived inner name hsource]
      exact hentered _ _ _

end Query.Agree

/-- A statement gives rows that its leaves do not tell apart the same result. -/
theorem Query.eval_of_leaves {q : Query} {S : Frame → Frame → Prop} (hleaves : ∀ leaf ∈ q.leaves, leaf.Same db S)
    (hbind : ∀ f g name row, S f g → S (f.bind name row) (g.bind name row)) {f g : Frame} (hfg : S f g)
    (hsource : List.Forall₂ S (sourceFrames db q.source f) (sourceFrames db q.source g)) :
    q.eval db f = q.eval db g := by
  have hon : ∀ join ∈ q.joins, ∀ leaf ∈ join.on.leaves, leaf.Same db S := fun join hjoin leaf hleaf =>
    hleaves leaf (List.mem_flatMap.2 ⟨join.on, by simp [expressions, List.mem_map_of_mem hjoin], hleaf⟩)
  obtain ⟨pairs, hleft, hright⟩ := exists_pairs (joinFrames_forall₂ hbind hon hsource)
  refine Query.Parallel.eval_eq ⟨Query.alike_self hleaves, hleft, hright, fun pair group => ⟨pair.2, ?_⟩, hfg, .nil⟩
  exact List.forall₂_map_left_iff.2 (List.forall₂_map_right_iff.2 (List.forall₂_same.2 fun other _ => other.2))

/-- A statement depends, of the rows around it, on what it reads from the table open to it: rows that differ in tables
of the names `enclosing` only, and agree in those columns, give it the same rows. -/
theorem Query.WellScoped.eval_agree {q : Query} {enclosing : List String} {outer : Option String}
    (h : q.WellScoped enclosing outer) {f g : Frame} (hagree : q.Agree enclosing outer f g) :
    q.eval db f = q.eval db g := by
  induction h generalizing f g with
  | @mk enclosing outer q distinct apart columns nested oneOuter derived ihNested ihDerived =>
    have hown : ∀ {f g}, q.Agree enclosing outer f g → ∀ name ∈ q.names, f (some name) = g (some name) :=
      fun h name hname => h.own name (apart name hname)
    have hleaves : ∀ leaf ∈ q.leaves, leaf.Same db (q.Agree enclosing outer) := by
      rintro (c | inner) hleaf f g h
      · rcases columns c hleaf with ⟨name, hname, hc⟩ | hopen
        · rw [hc, hown h name hname]
        · exact h.opened c (.own hleaf) hopen
      · refine ihNested inner hleaf ⟨fun name hname => ?_, fun c _ hroot => ?_⟩
        · exact h.own name fun hmem => hname (List.mem_append_right _ hmem)
        · -- the table open to a statement nested in the query is the query's own root
          obtain ⟨name, hroot, hc⟩ := hroot
          rw [hc, hroot, hown h name (by simp [names, hroot])]
    refine Query.eval_of_leaves hleaves (fun _ _ name row h => h.bind name row) hagree (hagree.sourceFrames ?_)
    intro inner name hsource
    refine ihDerived inner name hsource ⟨fun other hother => ?_, fun c hc hopen => ?_⟩
    · exact hagree.own other fun hmem => hother (List.mem_append_right _ hmem)
    · exact hagree.opened c (.derived hsource hc) hopen

end Statements

end RelQuery.Sql
