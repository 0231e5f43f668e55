/-
One plan compiled twice gives one statement, up to the names of tables.

When all expressions of two statements are compiled, a renaming that takes the tables of the one to those of the other
takes its joins and clauses to those of the other (`Settled.exists_pairs`, `Settled.node_rename`, `query_rename`). So a
plan that compiles nested in one statement compiles nested in every other over the same entity, to the same query under
other names (`Plan.isCopied`), by induction on the plans nested in it.
- `lowerAll_mirrors`: expressions of plans with the same annotations, compiled in two statements.
-/
import RelQuery.Proofs.Statement.Ambiguity
import RelQuery.Proofs.Statement.Renamed

namespace RelQuery

open Sql (Query OneToOne Follows)

/-! ## Joins -/

/-- a join with its tables renamed -/
def JoinNode.rename (ρ : String → String) (node : JoinNode) : JoinNode :=
  { node with aliasName := ρ node.aliasName, parent := ρ node.parent }

/-- Lists that correspond one by one are mapped to each other by what maps corresponding members to each other. -/
theorem map_eq_of_map_eq {α β : Type} {f g : α → β} {h : α → α} : {xs ys : List α} → xs.map f = ys.map g →
    (∀ x ∈ xs, ∀ y ∈ ys, f x = g y → h x = y) → xs.map h = ys
  | [], [], _, _ => rfl
  | x :: xs, y :: ys, heq, hsame => by
    obtain ⟨hfirst, hrest⟩ := List.cons.inj heq
    rw [List.map_cons, hsame x (by simp) y (by simp) hfirst,
      map_eq_of_map_eq hrest fun x hx y hy => hsame x (by simp [hx]) y (by simp [hy])]

/-! ## The tables of two statements -/

/-- the names of the root tables, and of the joins of each path that both statements join -/
def tablePairs (n n' : Nat) (s t : JoinState) : List (String × String) :=
  (tableAlias n, tableAlias n') :: s.nodes.flatMap fun node =>
    (t.nodes.filter (·.path = node.path)).map fun other => (node.aliasName, other.aliasName)

section Tables

variable {n n' : Nat} {s t : JoinState}

theorem mem_tablePairs {pair : String × String} : pair ∈ tablePairs n n' s t ↔ pair = (tableAlias n, tableAlias n') ∨
    ∃ node ∈ s.nodes, ∃ other ∈ t.nodes, node.path = other.path ∧ pair = (node.aliasName, other.aliasName) := by
  simp only [tablePairs, List.mem_cons, List.mem_flatMap, List.mem_map, List.mem_filter, decide_eq_true_eq]
  refine or_congr_right ⟨?_, ?_⟩
  · rintro ⟨node, hnode, other, ⟨hother, hpath⟩, rfl⟩
    exact ⟨node, hnode, other, hother, hpath.symm, rfl⟩
  · rintro ⟨node, hnode, other, hother, hpath, rfl⟩
    exact ⟨node, hnode, other, ⟨hother, hpath.symm⟩, rfl⟩

/-- Joins of one statement have one name when they have one path, and only then. -/
theorem JoinState.Named.alias_iff (h : s.Named n) (hlaid : LaidOut s.pathJoins) {a b : JoinNode} (ha : a ∈ s.nodes)
    (hb : b ∈ s.nodes) : a.aliasName = b.aliasName ↔ a.path = b.path := by
  have hpaths : (s.nodes.map (·.path)).Nodup := by
    have hpairs := (laidOut_iff.1 hlaid).2.1
    rw [pathJoins, List.map_map] at hpairs
    exact hpairs.imp fun hne => hne.1
  constructor
  · intro halias
    rw [List.inj_on_of_nodup_map h.distinct ha hb halias]
  · intro hpath
    rw [List.inj_on_of_nodup_map hpaths ha hb hpath]

/-- The tables of two statements are paired one to one. -/
theorem oneToOne_tablePairs (hs : s.Named n) (ht : t.Named n') (hlaid : LaidOut s.pathJoins)
    (hlaid' : LaidOut t.pathJoins) : OneToOne (tablePairs n n' s t) := by
  intro a ha b hb
  rcases mem_tablePairs.1 ha with rfl | ⟨node, hnode, other, hother, hpath, rfl⟩ <;>
    rcases mem_tablePairs.1 hb with rfl | ⟨node', hnode', other', hother', hpath', rfl⟩
  · exact iff_of_true rfl rfl
  · exact iff_of_false (hs.root_ne hnode') (ht.root_ne hother')
  · exact iff_of_false (hs.root_ne hnode).symm (ht.root_ne hother).symm
  · rw [hs.alias_iff hlaid hnode hnode', ht.alias_iff hlaid' hother hother', hpath, hpath']

end Tables

/-- The next names of two statements are paired beside names that were given out before. -/
theorem oneToOne_next {n m n' m' : Nat} {pairs : List (String × String)} (hpairs : OneToOne pairs)
    (hgiven : ∀ pair ∈ pairs, GivenOut n m pair.1 ∧ GivenOut n' m' pair.2) :
    OneToOne (pairs ++ [(tableAlias m, tableAlias m')]) := by
  refine hpairs.append (.single _) fun pair hpair next hnext => ?_
  obtain rfl := List.mem_singleton.1 hnext
  obtain ⟨hfirst, hsecond⟩ := hgiven pair hpair
  exact ⟨hfirst.ne (.next m) (Nat.le_refl m), hsecond.ne (.next m') (Nat.le_refl m')⟩

/-- A name spent by a statement after its root table is neither that table nor a join of it. -/
theorem JoinState.Spent.ne_table {n : Nat} {s : JoinState} {name : String}
    (h : JoinState.Spent { next := n + 1 } s name) : tableAlias n ≠ name ∧ ∀ node ∈ s.nodes, node.aliasName ≠ name := by
  refine ⟨?_, h.unjoined⟩
  rintro rfl
  obtain ⟨k, hle, -, hname⟩ := h.given
  have hsame : n = k := tableAlias_inj.1 hname
  have hlater : n + 1 ≤ k := hle
  omega

namespace Plan

section Settled

variable {p p' : Plan} {schema : Schema} {n n' : Nat} {outer outer' : Option Outer} {final final' : JoinState}
  {rs rs' : List ColumnReference} {ρ : String → String}

/-- What is compiled in all of two SELECTs is the same under every renaming that follows certain pairs of the names given
out for them, and takes the rows around them to each other; such a renaming takes their tables to each other. -/
theorem Settled.exists_pairs (h : p.Settled schema n outer rs final) (h' : p'.Settled schema n' outer' rs' final')
    {α : Type} {read : (String → String) → α} {y : α}
    (hread : Renamed (p.site schema n outer) (p'.site schema n' outer') { next := n + 1 } final { next := n' + 1 }
      final' read y) :
    ∃ pairs, OneToOne pairs ∧ (∀ pair ∈ pairs, GivenOut n final.next pair.1 ∧ GivenOut n' final'.next pair.2) ∧
      ∀ ρ, (∀ o o', outer = some o → outer' = some o' → ρ o.name = o'.name) → Follows ρ pairs →
        Carries ρ (p.site schema n outer) (p'.site schema n' outer') final final' ∧ read ρ = y := by
  obtain ⟨spent, hspent, hmem, hsame⟩ := hread.same
  have hlaid : LaidOut final.pathJoins := h.joins ▸ layout_laidOut
  have hlaid' : LaidOut final'.pathJoins := h'.joins ▸ layout_laidOut
  have hgiven : ∀ {n : Nat} {final : JoinState}, final.Named n → GivenOut n final.next (tableAlias n) ∧
      ∀ node ∈ final.nodes, GivenOut n final.next node.aliasName := by
    intro n final hnamed
    refine ⟨⟨n, Nat.le_refl n, hnamed.beyond, rfl⟩, fun node hnode => ?_⟩
    obtain ⟨m, hlt, hnext, hname⟩ := hnamed.numbered node hnode
    exact ⟨m, Nat.le_of_lt hlt, hnext, hname⟩
  refine ⟨tablePairs n n' final final' ++ spent, ?_, fun pair hpair => ?_, fun ρ houter hfollows => ?_⟩
  · refine (oneToOne_tablePairs h.named h'.named hlaid hlaid').append hspent fun pair hpair name hname => ?_
    obtain ⟨hroot, hjoins⟩ := (hmem name hname).1.ne_table
    obtain ⟨hroot', hjoins'⟩ := (hmem name hname).2.ne_table
    rcases mem_tablePairs.1 hpair with rfl | ⟨node, hnode, other, hother, -, rfl⟩
    · exact ⟨hroot, hroot'⟩
    · exact ⟨hjoins node hnode, hjoins' other hother⟩
  · rcases List.mem_append.1 hpair with hpair | hpair
    · obtain ⟨hroot, hjoins⟩ := hgiven h.named
      obtain ⟨hroot', hjoins'⟩ := hgiven h'.named
      rcases mem_tablePairs.1 hpair with rfl | ⟨node, hnode, other, hother, -, rfl⟩
      · exact ⟨hroot, hroot'⟩
      · exact ⟨hjoins node hnode, hjoins' other hother⟩
    · obtain ⟨hfirst, hsecond⟩ := hmem pair hpair
      exact ⟨hfirst.given.widen (Nat.le_succ n) (Nat.le_refl _), hsecond.given.widen (Nat.le_succ n') (Nat.le_refl _)⟩
  · obtain ⟨htables, hspent⟩ := Sql.follows_append.1 hfollows
    have hroot : ρ (tableAlias n) = tableAlias n' := htables _ (mem_tablePairs.2 (.inl rfl))
    have hcarries : Carries ρ (p.site schema n outer) (p'.site schema n' outer') final final' :=
      ⟨congrArg some hroot, hroot, houter, fun node hnode other hother hpath =>
        htables _ (mem_tablePairs.2 (.inr ⟨node, hnode, other, hother, hpath, rfl⟩))⟩
    exact ⟨hcarries, hsame ρ hcarries hspent⟩

/-- Joins of one path by one relation are the same once the one is renamed, since their parents are joins of one path. -/
theorem Settled.node_rename (h : p.Settled schema n outer rs final) (h' : p'.Settled schema n' outer' rs' final')
    (hcarries : Carries ρ (p.site schema n outer) (p'.site schema n' outer') final final') {node other : JoinNode}
    (hnode : node ∈ final.nodes) (hother : other ∈ final'.nodes) (hsame : node.pathJoin = other.pathJoin) :
    node.rename ρ = other := by
  obtain ⟨hpath, hkind, hrelation, htable⟩ := PathJoin.mk.inj hsame
  have hpaths : ∀ {schema : Schema} {root : Entity} {rs : List ColumnReference} {s : JoinState},
      s.pathJoins = layout schema root rs → ∀ node ∈ s.nodes, node.path ≠ [] := by
    intro schema root rs s hjoins node hnode
    have hlaid : LaidOut s.pathJoins := hjoins ▸ layout_laidOut
    exact hlaid.paths _ (List.mem_map_of_mem hnode)
  have hparent : ρ node.parent = other.parent := by
    rcases h.parented node hnode with ⟨hroot, hname⟩ | ⟨parent, hmem, hstands, hname⟩ <;>
      rcases h'.parented other hother with ⟨hroot', hname'⟩ | ⟨parent', hmem', hstands', hname'⟩
    · have hqualifier := hcarries.root
      rw [hname, hname'] at hqualifier
      exact Option.some.inj hqualifier
    · exact absurd (hstands'.trans (hpath ▸ hroot)) (hpaths h'.joins parent' hmem')
    · exact absurd (hstands.trans (hpath ▸ hroot')) (hpaths h.joins parent hmem)
    · rw [← hname, ← hname']
      exact hcarries.joined parent hmem parent' hmem' (by rw [hstands, hstands', hpath])
  have halias : ρ node.aliasName = other.aliasName := hcarries.joined node hnode other hother hpath
  obtain ⟨path, aliasName, parent, kind, relation, table⟩ := node
  obtain ⟨path', aliasName', parent', kind', relation', table'⟩ := other
  cases hpath
  cases hkind
  cases hrelation
  cases htable
  cases hparent
  cases halias
  rfl

end Settled

/-! ## Expressions of plans -/

section Expressions

variable {p p' : Plan} {a b : Site}

/-- plans nested in the annotations are copied -/
def CopiedNotes (p : Plan) : Prop := ∀ note ∈ p.annotations, ∀ plan ∈ note.expr.subplans, plan.Copied

/-- An alias compiles in both of two statements to the same, in plans with the same annotations. -/
theorem expand_mirrors (hcopies : a.Copies b) (hsame : p'.annotations = p.annotations) (hnotes : p.CopiedNotes) :
    (budget : Nat) → ∀ role name, Mirrors a b Sql.Expr.rename (p.fragments.expand a.scope budget role name)
      (p'.fragments.expand b.scope budget role name)
  | 0, _, _ => by
    intro s t x s' hs ht h
    cases h
  | budget + 1, role, name => by
    rw [p.expand_succ, p'.expand_succ, annotationOf_congr hsame]
    cases he : p.annotationOf name with
    | none =>
      intro s t x s' hs ht h
      cases h
    | some e =>
      obtain ⟨note, hnote, rfl⟩ := Option.map_eq_some_iff.1 he
      refine note.expr.lower_mirrors hcopies (fun node hnode => ?_) role
      exact ⟨fun plan hplan => hnotes note (List.mem_of_find?_eq_some hnote) plan (mem_subplans_of_node hnode hplan),
        fun name _ role => expand_mirrors hcopies hsame hnotes budget role name⟩

/-- Expressions that compile one after another in one statement do so in the other, and give the same. -/
theorem lowerAll_mirrors (hcopies : a.Copies b) (hsame : p'.annotations = p.annotations) (hnotes : p.CopiedNotes) :
    {items : List (Expr × Role)} → (∀ item ∈ items, ∀ plan ∈ item.1.subplans, plan.Copied) →
    Mirrors a b Sql.renameList (p.lowerAll a.scope items) (p'.lowerAll b.scope items)
  | [], _ => .const [] fun _ => rfl
  | item :: rest, hitems => by
    have hbudget : p'.aliasBudget = p.aliasBudget := by rw [aliasBudget, aliasBudget, hsame]
    have hfirst : Mirrors a b Sql.Expr.rename (item.1.lower a.scope (p.fragments.expansion a.scope) item.2)
        (item.1.lower b.scope (p'.fragments.expansion b.scope) item.2) := by
      rw [p.expansion_eq, p'.expansion_eq, hbudget]
      refine item.1.lower_mirrors hcopies (fun node hnode => ?_) item.2
      exact ⟨fun plan hplan => hitems item (by simp) plan (mem_subplans_of_node hnode hplan),
        fun name _ role => expand_mirrors hcopies hsame hnotes _ role name⟩
    have hrest := lowerAll_mirrors hcopies hsame hnotes fun item hitem => hitems item (List.mem_cons_of_mem _ hitem)
    simp only [lowerAll, List.mapM_cons]
    exact hfirst.map₂ List.cons (fun _ _ _ => rfl) hrest

theorem copied_items {outputs : List Output} (hnested : ∀ inner ∈ p.subplans, inner.Copied) :
    ∀ item ∈ p.items outputs, ∀ plan ∈ item.1.subplans, plan.Copied := by
  intro item hitem plan hplan
  rcases mem_items hitem with ⟨term, hterm⟩ | hmem
  · cases term <;> simp [hterm, OutputTerm.expr, Expr.subplans, Expr.nodes] at hplan
  · exact hnested plan (List.mem_flatMap.2 ⟨_, hmem, hplan⟩)

theorem copied_notes (hnested : ∀ inner ∈ p.subplans, inner.Copied) : p.CopiedNotes := by
  intro note hnote plan hplan
  refine hnested plan (List.mem_flatMap.2 ⟨note.expr, ?_, hplan⟩)
  exact List.mem_append_left _ (List.mem_append_right _ (List.mem_map_of_mem hnote))

end Expressions

/-! ## Queries -/

section Queries

variable {p p' : Plan} {scope scope' : Scope} {outputs : List Output} {joins joins' : List Sql.Join}
  {results results' conditions conditions' keys keys' : List Sql.Expr}

/-- the compiled filters that depend on a group of rows, or those that do not -/
def testsOf (p : Plan) (aggregating : Bool) (conditions : List Sql.Expr) : List Sql.Expr :=
  ((p.filters.zip conditions).filter fun test => p.exprAggregates test.1 = aggregating).map Prod.snd

theorem testsOf_map (ρ : String → String) (aggregating : Bool) :
    (p.testsOf aggregating conditions).map (Sql.Expr.rename ρ) =
      p.testsOf aggregating (conditions.map (Sql.Expr.rename ρ)) := by
  rw [testsOf, testsOf, List.zip_map_right, List.filter_map, List.map_map, List.map_map]
  rfl

theorem query_condition : (p.query scope outputs joins results conditions keys).condition =
    Sql.Expr.conjunction (p.testsOf false conditions) := by
  simp only [query, testsOf, ← List.map_uncurry_zip_eq_zipWith, List.filter_map, List.map_map]
  congr 2
  simp [Function.comp_def]
  rfl

theorem query_having : (p.query scope outputs joins results conditions keys).having =
    Sql.Expr.conjunction (p.testsOf true conditions) := by
  simp only [query, testsOf, ← List.map_uncurry_zip_eq_zipWith, List.filter_map, List.map_map]
  congr 2
  simp [Function.comp_def]
  rfl

theorem query_select_rename (ρ : String → String) :
    (p.query scope outputs joins results conditions keys).select.map (Sql.SelectItem.rename ρ) =
      (p'.query scope' outputs joins' (results.map (Sql.Expr.rename ρ)) conditions' keys').select := by
  simp only [query, List.zip_map_right, List.map_map]
  rfl

/-- In a plan with other filters the group key stays the same as long as that plan groups alike. -/
theorem query_groupBy_rename (ρ : String → String) (hgrouped : p'.isGrouped = p.isGrouped)
    (haggregates : p'.exprAggregates = p.exprAggregates) :
    (p.query scope outputs joins results conditions keys).groupBy.map (Sql.Expr.rename ρ) =
      (p'.query scope' outputs joins' (results.map (Sql.Expr.rename ρ)) conditions' keys').groupBy := by
  simp only [query, hgrouped, haggregates]
  split
  · rw [List.zip_map_right, List.filter_map, List.map_map, List.map_map]
    rfl
  · rfl

theorem query_orderBy_rename (ρ : String → String) (hordering : p'.ordering = p.ordering) :
    (p.query scope outputs joins results conditions keys).orderBy.map (Sql.OrderKey.rename ρ) =
      (p'.query scope' outputs joins' results' conditions' (keys.map (Sql.Expr.rename ρ))).orderBy := by
  simp only [query, hordering, List.map_zipWith, List.zipWith_map_right]
  rfl

theorem rootTable_rename {ρ : String → String} (hroot : scope.root = scope'.root)
    (hqualifier : scope.qualifier.map ρ = scope'.qualifier) : scope.rootTable.rename ρ = scope'.rootTable := by
  rw [Scope.rootTable, Scope.rootTable, ← hqualifier, ← hroot]
  rfl

/-- The query of a plan, renamed, is the one made of the renamed expressions. -/
theorem query_rename {ρ : String → String} (hroot : scope.root = scope'.root)
    (hqualifier : scope.qualifier.map ρ = scope'.qualifier) (hjoins : joins.map (Sql.Join.rename ρ) = joins') :
    (p.query scope outputs joins results conditions keys).rename ρ =
      p.query scope' outputs joins' (results.map (Sql.Expr.rename ρ)) (conditions.map (Sql.Expr.rename ρ))
        (keys.map (Sql.Expr.rename ρ)) := by
  refine Query.rename_of (query_select_rename ρ) rfl ?_ hjoins ?_ (query_groupBy_rename ρ rfl rfl) ?_
    (query_orderBy_rename ρ rfl) rfl
  · exact congrArg (fun table => some (Sql.Source.table table)) (rootTable_rename hroot hqualifier)
  · rw [query_condition, query_condition, Sql.Expr.conjunction_rename, testsOf_map]
  · rw [query_having, query_having, Sql.Expr.conjunction_rename, testsOf_map]

end Queries

/-! ## Statements -/

section Statements

variable {p : Plan} {schema : Schema} {purpose : Purpose} {outputs : List Output} {shape : ResultShape}

/-- What is compiled of a plan's items is what its outputs, filters and order keys are compiled to. -/
theorem lowerAll_items {scope : Scope} {s s' : JoinState} {zs : List Sql.Expr}
    (h : p.lowerAll scope (p.items outputs) s = .ok (zs, s')) :
    ∃ results conditions keys, zs = results ++ conditions ++ keys ∧ results.length = outputs.length ∧
      conditions.length = p.filters.length := by
  obtain ⟨firsts, keys, s₁, rfl, hfirsts, -⟩ := lowerAll_split h
  obtain ⟨results, conditions, s₂, rfl, hresults, hconditions⟩ := lowerAll_split hfirsts
  exact ⟨results, conditions, keys, rfl, (lowerAll_length hresults).trans (List.length_map ..),
    (lowerAll_length hconditions).trans (List.length_map ..)⟩

/-- A plan that compiles has passed its check. -/
theorem select_checked {outer : Option Outer} {next : Nat} {selected : Selection × Nat}
    (h : p.select schema purpose outer next = .ok selected) (houtputs : p.outputs schema purpose = .ok (outputs, shape)) :
    p.isGrouped = true → p.IsDefinite outputs := by
  intro hgrouped
  obtain ⟨outputs', shape', houtputs', hdefinite⟩ := select_definite hgrouped h
  obtain ⟨rfl, -⟩ := Prod.mk.inj (Except.ok.inj (houtputs'.symm.trans houtputs))
  exact hdefinite

/-- Nested in two statements over rows of one entity, a plan for its rows or its one value is copied. -/
theorem select_copied (hnested : ∀ inner ∈ p.subplans, inner.Copied) (hpurpose : purpose = .rows ∨ purpose = .scalar)
    {o o' : Outer} {n n' m : Nat} {selection : Selection} (hentity : o.entity = o'.entity)
    (ho : ∀ k, n ≤ k → o.name ≠ tableAlias k) (ho' : ∀ k, n' ≤ k → o'.name ≠ tableAlias k)
    (h : p.select schema purpose (some o) n = .ok (selection, m)) :
    ∃ selection' m', p.select schema purpose (some o') n' = .ok (selection', m') ∧
      ∃ pairs, OneToOne pairs ∧ (∀ pair ∈ pairs, GivenOut n m pair.1 ∧ GivenOut n' m' pair.2) ∧
        ∀ ρ, ρ o.name = o'.name → Follows ρ pairs → selection.query.rename ρ = selection'.query := by
  obtain ⟨outputs, final, houtputs, hclauses, -, rfl⟩ := select_ok hpurpose h
  obtain ⟨results, conditions, keys, hresults, hconditions, -, hlower, hquery⟩ := lowerClauses_ok hclauses
  have hcopies : (p.site schema n (some o)).Copies (p.site schema n' (some o')) :=
    ⟨rfl, rfl, congrArg some hentity, rfl⟩
  obtain ⟨zs, final', hlower', hrenamed⟩ := lowerAll_mirrors hcopies rfl (copied_notes hnested) (copied_items hnested)
    _ { next := n' + 1 } _ _ site_tidy site_tidy hlower
  obtain ⟨results', conditions', keys', rfl, hresults', hconditions'⟩ := lowerAll_items hlower'
  have hdefinite : p.isGrouped = true → p.checkGrouping outputs = .ok () := fun hgrouped =>
    checkGrouping_ok.2 (select_checked h houtputs hgrouped)
  have hselect := select_of hpurpose houtputs hdefinite (lowerClauses_of hresults' hconditions' hlower')
  have hsettled := lowerAll_settled ⟨rfl, fun o₁ h₁ => Option.some.inj h₁ ▸ ho⟩ hlower
  have hsettled' := lowerAll_settled ⟨rfl, fun o₁ h₁ => Option.some.inj h₁ ▸ ho'⟩ hlower'
  obtain ⟨pairs, hpairs, hgiven, hsame⟩ := hsettled.exists_pairs hsettled' hrenamed
  refine ⟨_, _, hselect, pairs, hpairs, hgiven, fun ρ hopen hfollows => ?_⟩
  have houter : ∀ o₁ o₂, some o = some o₁ → some o' = some o₂ → ρ o₁.name = o₂.name := by
    intro o₁ o₂ h₁ h₂
    rw [← Option.some.inj h₁, ← Option.some.inj h₂, hopen]
  obtain ⟨hcarries, hall⟩ := hsame ρ houter hfollows
  rw [Sql.renameList_eq, List.map_append, List.map_append] at hall
  obtain ⟨hfirst, rfl⟩ := List.append_inj hall (by simp [hresults, hresults', hconditions, hconditions'])
  obtain ⟨rfl, rfl⟩ := List.append_inj hfirst (by simp [hresults, hresults'])
  have hnodes : final.nodes.map (JoinNode.rename ρ) = final'.nodes :=
    map_eq_of_map_eq (hsettled.joins.trans hsettled'.joins.symm) fun node hnode other hother hsame =>
      hsettled.node_rename hsettled' hcarries hnode hother hsame
  have hjoins : final.joins.map (Sql.Join.rename ρ) = final'.joins := by
    rw [JoinState.joins, JoinState.joins, ← hnodes, List.map_map, List.map_map]
    rfl
  rw [hquery]
  exact query_rename rfl hcarries.root hjoins

/-- A query reduced, renamed, is the renamed query reduced, when its own name as a derived table is renamed with it. -/
theorem reduceTo_rename {ρ : String → String} {column : Sql.Expr} (hcolumn : column.rename ρ = column) {wrap : Bool}
    {next next' : Nat} (hnext : wrap = true → ρ (tableAlias next) = tableAlias next') (paged : Bool) (q : Query) :
    (reduceTo column wrap paged q next).rename ρ = reduceTo column wrap paged (q.rename ρ) next' := by
  cases wrap with
  | false => cases paged <;> simp [reduceTo, Query.rename_eq, Sql.SelectItem.rename, hcolumn]
  | true =>
    have hname := hnext rfl
    cases paged <;>
      simp [reduceTo, Query.rename_eq, Query.selecting, Sql.Source.rename, Sql.SelectItem.rename, hcolumn, hname]

/-- A statement takes at least one name. -/
theorem select_lt {outer : Option Outer} {n m : Nat} {selection : Selection}
    (h : p.select schema purpose outer n = .ok (selection, m)) : n < m :=
  (p.scoped_anywhere h).advances

/-- Every plan is copied from one statement to another. -/
theorem isCopied (p : Plan) : p.Copied := by
  induction p using induction_subplans with
  | step p hnested =>
    intro schema purpose o o' n n' selection m hpurpose hentity ho ho' h
    rcases hpurpose with rfl | rfl
    · exact select_copied hnested (.inr rfl) hentity ho ho' h
    rw [select_reduced schema rfl] at h
    obtain ⟨⟨rows, k⟩, hrows, hpack⟩ := map_ok h
    obtain ⟨rfl, rfl⟩ := Prod.mk.inj hpack
    obtain ⟨rows', k', hrows', pairs, hpairs, hgiven, hsame⟩ := select_copied hnested (.inl rfl) hentity ho ho' hrows
    refine ⟨_, _, (select_reduced schema rfl _ _).trans (congrArg (Except.map _) hrows'), ?_⟩
    have hreduced : ∀ ρ, ρ o.name = o'.name → Follows ρ pairs →
        (p.isWrapped = true → ρ (tableAlias k) = tableAlias k') →
        (reduceTo (.int 1) p.isWrapped p.isPaged rows.query k).rename ρ =
          reduceTo (.int 1) p.isWrapped p.isPaged rows'.query k' := by
      intro ρ hopen hfollows hderived
      have hone : (Sql.Expr.int 1).rename ρ = .int 1 := rfl
      rw [reduceTo_rename hone hderived, hsame ρ hopen hfollows]
    cases hwrapped : p.isWrapped with
    | false =>
      rw [hwrapped] at hreduced
      exact ⟨pairs, hpairs, hgiven, fun ρ hopen hfollows => hreduced ρ hopen hfollows fun h => absurd h Bool.false_ne_true⟩
    | true =>
      rw [hwrapped] at hreduced
      -- the derived table takes the next name in both statements
      refine ⟨pairs ++ [(tableAlias k, tableAlias k')], oneToOne_next hpairs hgiven, fun pair hpair => ?_,
        fun ρ hopen hfollows => ?_⟩
      · rcases List.mem_append.1 hpair with hpair | hpair
        · obtain ⟨hfirst, hsecond⟩ := hgiven pair hpair
          exact ⟨hfirst.widen (Nat.le_refl n) (Nat.le_succ k), hsecond.widen (Nat.le_refl n') (Nat.le_succ k')⟩
        · obtain rfl := List.mem_singleton.1 hpair
          have hlt : n < k := select_lt hrows
          have hlt' : n' < k' := select_lt hrows'
          exact ⟨(GivenOut.next k).widen (Nat.le_of_lt hlt) (Nat.le_refl _),
            (GivenOut.next k').widen (Nat.le_of_lt hlt') (Nat.le_refl _)⟩
      · obtain ⟨hfollows, hderived⟩ := Sql.follows_append.1 hfollows
        exact hreduced ρ hopen hfollows fun _ => hderived _ List.mem_cons_self

end Statements

end Plan

end RelQuery
