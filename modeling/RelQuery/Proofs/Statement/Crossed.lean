/-
A plan with two neighbouring filters in the other order.

Its expressions compile in another order, so its joins come in another order too, and the names given out differ; but the
joins are the same (`layout_perm`), and what is compiled is the same once it is renamed (`lowerAll_crossed`). So the
statements for the rows of both plans are the same but for the order of joins and conditions (`rows_crossed`).
-/
import RelQuery.Proofs.Statement.Copies
import RelQuery.Proofs.Statement.KeptRows

namespace RelQuery

open Sql (Query OneToOne Follows)

/-! ## Joins -/

section Layout

variable {schema : Schema} {root : Entity} {rs rs' : List ColumnReference}

theorem mem_layout_of_perm (hleads : ∀ r ∈ rs, schema.Leads root r.ref.hops) (hperm : rs.Perm rs') {join : PathJoin}
    (hjoin : join ∈ layout schema root rs) : join ∈ layout schema root rs' := by
  have hleads' : ∀ r ∈ rs', schema.Leads root r.ref.hops := fun r hr => hleads r (hperm.mem_iff.2 hr)
  have hpaths : join.path ∈ rs.flatMap fun r => hopPaths r.ref.hops [] :=
    (mem_paths_layout fun r hr => (hleads r hr).finds).1 (List.mem_map_of_mem hjoin)
  obtain ⟨other, hother, hpath⟩ := List.mem_map.1
    ((mem_paths_layout fun r hr => (hleads' r hr).finds).2 ((hperm.flatMap_right _).mem_iff.1 hpaths))
  have hinner : IsInnerIn (layout schema root rs) join.path ↔ IsInnerIn (layout schema root rs') join.path := by
    rw [isInner_layout, isInner_layout]
    exact (hperm.flatMap_right _).mem_iff
  rw [layout_laidOut.isInner_iff hjoin, ← hpath, layout_laidOut.isInner_iff hother] at hinner
  have hkind : join.kind = other.kind := by
    cases hone : join.kind <;> cases htwo : other.kind <;> simp_all
  obtain ⟨hrelation, htable⟩ := (layout_sound hleads join hjoin).unique (layout_sound hleads' other hother) hpath.symm
  obtain ⟨path, kind, relation, table⟩ := join
  cases hpath
  cases hkind
  cases hrelation
  cases htable
  exact hother

/-- Columns in another order are joined in another order, but by the same joins. -/
theorem layout_perm (hleads : ∀ r ∈ rs, schema.Leads root r.ref.hops) (hperm : rs.Perm rs') :
    (layout schema root rs).Perm (layout schema root rs') := by
  have hleads' : ∀ r ∈ rs', schema.Leads root r.ref.hops := fun r hr => hleads r (hperm.mem_iff.2 hr)
  refine (List.perm_ext_iff_of_nodup layout_laidOut.nodup.of_map layout_laidOut.nodup.of_map).2 fun join => ⟨?_, ?_⟩
  · exact mem_layout_of_perm hleads hperm
  · exact mem_layout_of_perm hleads' hperm.symm

end Layout

namespace Plan

/-! ## Expressions crossed -/

/-- expressions and what they are compiled to, in no order -/
def compiledPairs (items : List (Expr × Role)) (xs : List Sql.Expr) : Multiset ((Expr × Role) × Sql.Expr) :=
  Multiset.ofList (items.zip xs)

theorem compiledPairs_append {items more : List (Expr × Role)} {xs ys : List Sql.Expr} (h : xs.length = items.length) :
    compiledPairs (items ++ more) (xs ++ ys) = compiledPairs items xs + compiledPairs more ys := by
  rw [compiledPairs, List.zip_append h.symm, ← Multiset.coe_add]
  rfl

/-- Where one statement compiles two lists of expressions one after the other, another statement may compile them the
other way round. -/
theorem lowerAll_crossed {a b : Site} {p p' : Plan} (hcopies : a.Copies b) (hsame : p'.annotations = p.annotations)
    {before xs ys after : List (Expr × Role)} {s s' t : JoinState} {zs : List Sql.Expr} (hs : a.Tidy s) (ht : b.Tidy t)
    (h : p.lowerAll a.scope (before ++ (xs ++ ys) ++ after) s = .ok (zs, s')) :
    ∃ zs' t', p'.lowerAll b.scope (before ++ (ys ++ xs) ++ after) t = .ok (zs', t') ∧
      Renamed a b s s' t t' (fun ρ => compiledPairs (before ++ (xs ++ ys) ++ after) (Sql.renameList ρ zs))
        (compiledPairs (before ++ (ys ++ xs) ++ after) zs') := by
  have hmirror : ∀ items, Mirrors a b Sql.renameList (p.lowerAll a.scope items) (p'.lowerAll b.scope items) := fun items =>
    lowerAll_mirrors hcopies hsame (fun _ _ plan _ => plan.isCopied) fun _ _ plan _ => plan.isCopied
  obtain ⟨firsts, es, s₃, rfl, hfirsts, hes⟩ := lowerAll_split h
  obtain ⟨bs, both, s₁, rfl, hbs, hboth⟩ := lowerAll_split hfirsts
  obtain ⟨cs, ds, s₂, rfl, hcs, hds⟩ := lowerAll_split hboth
  obtain ⟨bs', t₁, hbs', hb⟩ := hmirror before s t bs s₁ hs ht hbs
  -- the other statement compiles the second list where the first one compiles the first
  obtain ⟨ds', t₂, hds', hd⟩ := hmirror ys s₂ t₁ ds s₃ (lowerAll_tidy hb.tidy hcs).2 hb.tidy' hds
  obtain ⟨cs', t₃, hcs', hc⟩ := hmirror xs s₁ t₂ cs s₂ hb.tidy hd.tidy' hcs
  have hcrossed := hc.crossed hd
  obtain ⟨es', t', hes', he⟩ := hmirror after s₃ t₃ es s' hcrossed.tidy hcrossed.tidy' hes
  refine ⟨(bs' ++ (ds' ++ cs')) ++ es', t', ?_, ?_⟩
  · exact lowerAll_append_ok (lowerAll_append_ok hbs' (lowerAll_append_ok hds' hcs')) hes'
  have hall := ((hb.both hcrossed).both he).map
    fun parts : (List Sql.Expr × List Sql.Expr × List Sql.Expr) × List Sql.Expr =>
      compiledPairs before parts.1.1 + (compiledPairs xs parts.1.2.1 + compiledPairs ys parts.1.2.2) +
        compiledPairs after parts.2
  refine hall.congr (fun ρ => ?_) ?_
  · simp only [Sql.renameList_eq, List.map_append]
    rw [compiledPairs_append, compiledPairs_append, compiledPairs_append] <;>
      simp [lowerAll_length hbs, lowerAll_length hcs, lowerAll_length hds]
  · rw [compiledPairs_append, compiledPairs_append, compiledPairs_append, add_comm (compiledPairs ys ds')] <;>
      simp [lowerAll_length hbs', lowerAll_length hcs', lowerAll_length hds']

/-! ## Plans with other filters -/

/-- the plan with other filters -/
def withFilters (p : Plan) (filters : List Expr) : Plan := { p with filters }

section Filters

variable {p : Plan} {filters : List Expr}

theorem exprAggregates_withFilters : (p.withFilters filters).exprAggregates = p.exprAggregates :=
  funext (exprAggregates_congr rfl)

theorem bareFields_withFilters : (p.withFilters filters).bareFields = p.bareFields := by
  have halias : ∀ budget, (p.withFilters filters).aliasBareFields budget = p.aliasBareFields budget := by
    intro budget
    induction budget with
    | zero => rfl
    | succ budget ih =>
      funext name
      simp only [aliasBareFields, ih]
      rfl
  funext e
  simp only [bareFields, halias]
  rfl

theorem plainField_withFilters (e : Expr) (budget : Nat) :
    (p.withFilters filters).plainField budget e = p.plainField budget e := by
  induction budget generalizing e with
  | zero => cases e <;> rfl
  | succ budget ih =>
    cases e with
    | aliasRef name =>
      simp only [plainField, ih]
      rfl
    | _ => rfl

theorem isGrouped_withFilters (hperm : p.filters.Perm filters) : (p.withFilters filters).isGrouped = p.isGrouped := by
  have hnotes : (p.withFilters filters).hasAggregates = p.hasAggregates := hasAggregates_congr rfl
  have hfilters : (p.withFilters filters).filters.any p.exprAggregates = p.filters.any p.exprAggregates :=
    hperm.symm.any_eq
  rw [isGrouped, isGrouped, hnotes, exprAggregates_withFilters, hfilters]
  rfl

/-- Whether a group is definite does not depend on the order of the filters. -/
theorem isDefinite_withFilters (hperm : p.filters.Perm filters) (outputs : List Output) :
    (p.withFilters filters).IsDefinite outputs ↔ p.IsDefinite outputs := by
  have hfields : (p.withFilters filters).groupFields outputs = p.groupFields outputs := by
    simp only [groupFields, groupOutputs, exprAggregates_withFilters, plainField_withFilters]
    rfl
  have haliases : (p.withFilters filters).groupAliases outputs = p.groupAliases outputs := by
    simp only [groupAliases, groupOutputs, exprAggregates_withFilters]
  have hchecked : ((p.withFilters filters).checked outputs).Perm (p.checked outputs) := by
    simp only [checked, exprAggregates_withFilters, haliases]
    exact ((hperm.symm.filter _).append_left _).append_right _
  simp only [IsDefinite, hfields, bareFields_withFilters]
  exact forall_congr' fun e => imp_congr_left hchecked.mem_iff

theorem references_withFilters (hperm : p.filters.Perm filters) (outputs : List Output) :
    (p.references outputs).Perm ((p.withFilters filters).references outputs) := by
  have hsame : (p.withFilters filters).annotations = p.annotations := rfl
  have hrole : (p.withFilters filters).filterRole = p.filterRole := funext (filterRole_congr hsame)
  have hcolumns : (p.withFilters filters).columns = p.columns := funext fun e => funext (columns_congr hsame e)
  have hitems : (p.items outputs).Perm ((p.withFilters filters).items outputs) := by
    rw [items, items, hrole]
    exact ((hperm.map _).append_left _).append_right _
  rw [references, references, hcolumns]
  exact hitems.flatMap_right _

/-- the compiled filters of one kind, read off the items that they are compiled from -/
theorem testsOf_items (aggregating : Bool) (conditions : List Sql.Expr) : p.testsOf aggregating conditions =
    (((p.filters.map fun e => (e, p.filterRole e)).zip conditions).filter fun test =>
      p.exprAggregates test.1.1 = aggregating).map Prod.snd := by
  rw [testsOf, List.zip_map_left, List.filter_map, List.map_map]
  rfl

/-- Filters in another order that compile to the same, once it is renamed, are the same conditions. -/
theorem testsOf_perm {ρ : String → String} {conditions conditions' : List Sql.Expr}
    (h : compiledPairs (p.filters.map fun e => (e, p.filterRole e)) (conditions.map (Sql.Expr.rename ρ)) =
      compiledPairs (filters.map fun e => (e, p.filterRole e)) conditions') (aggregating : Bool) :
    ((p.testsOf aggregating conditions).map (Sql.Expr.rename ρ)).Perm
      ((p.withFilters filters).testsOf aggregating conditions') := by
  have hrole : (p.withFilters filters).filterRole = p.filterRole := funext (filterRole_congr rfl)
  rw [testsOf_map, testsOf_items, testsOf_items, hrole, exprAggregates_withFilters]
  exact ((Multiset.coe_eq_coe.1 h).filter _).map _

/-- A plan's query has the clauses of the query of the plan with its filters in another order, but for the order of joins
and conditions, once its tables are renamed. -/
theorem query_sameClauses {ρ : String → String} {scope scope' : Scope} {outputs : List Output}
    {joins joins' : List Sql.Join} {results conditions conditions' keys : List Sql.Expr} (hperm : p.filters.Perm filters)
    (hjoins : (joins.map (Sql.Join.rename ρ)).Perm joins')
    (hconditions : compiledPairs (p.filters.map fun e => (e, p.filterRole e)) (conditions.map (Sql.Expr.rename ρ)) =
      compiledPairs (filters.map fun e => (e, p.filterRole e)) conditions') :
    (p.query scope outputs joins results conditions keys).SameClauses ρ
      ((p.withFilters filters).query scope' outputs joins' (results.map (Sql.Expr.rename ρ)) conditions'
        (keys.map (Sql.Expr.rename ρ))) where
  select := query_select_rename ρ
  distinct := rfl
  joins := hjoins
  condition := ⟨_, _, query_condition, query_condition, testsOf_perm hconditions false⟩
  groupBy := query_groupBy_rename ρ (isGrouped_withFilters hperm) exprAggregates_withFilters
  having := ⟨_, _, query_having, query_having, testsOf_perm hconditions true⟩
  orderBy := query_orderBy_rename ρ rfl
  page := rfl

end Filters

/-- Every field that the expressions read is one of the schema, though maybe not of the plan's root entity. -/
def FieldsResolved (schema : Schema) (es : List Expr) : Prop :=
  ∀ e ∈ es, ∀ ref ∈ e.fieldRefs, FieldRef.resolve schema ref.root ref.path = .ok ref

/-! ## Filters crossed -/

section Crossed

variable {schema : Schema} {p : Plan} {before after : List Expr} {x y : Expr} {outputs : List Output}

theorem filters_crossed (hfilters : p.filters = before ++ [x, y] ++ after) :
    p.filters.Perm (before ++ [y, x] ++ after) := by
  rw [hfilters]
  exact ((List.Perm.swap y x []).append_left _).append_right _

/-- A plan's items with two neighbouring filters in the other order compile as well. -/
theorem items_crossed (hfilters : p.filters = before ++ [x, y] ++ after) {final : JoinState}
    {results conditions keys : List Sql.Expr} (hresults : results.length = outputs.length)
    (hconditions : conditions.length = p.filters.length)
    (h : p.lowerAll (p.site schema 0 none).scope (p.items outputs) { next := 1 } =
      .ok (results ++ conditions ++ keys, final)) :
    let other := p.withFilters (before ++ [y, x] ++ after)
    ∃ results' conditions' keys' final', results'.length = outputs.length ∧ conditions'.length = other.filters.length ∧
      other.lowerAll (other.site schema 0 none).scope (other.items outputs) { next := 1 } =
        .ok (results' ++ conditions' ++ keys', final') ∧
      Renamed (p.site schema 0 none) (other.site schema 0 none) { next := 1 } final { next := 1 } final'
        (fun ρ => ((results.map (Sql.Expr.rename ρ), compiledPairs (p.filters.map fun e => (e, p.filterRole e))
          (conditions.map (Sql.Expr.rename ρ))), keys.map (Sql.Expr.rename ρ)))
        ((results', compiledPairs (other.filters.map fun e => (e, p.filterRole e)) conditions'), keys') := by
  intro other
  have hcopies : (p.site schema 0 none).Copies (other.site schema 0 none) := ⟨rfl, rfl, rfl, rfl⟩
  have hsame : other.annotations = p.annotations := rfl
  have hrole : other.filterRole = p.filterRole := funext (filterRole_congr hsame)
  have hmirror : ∀ items, Mirrors (p.site schema 0 none) (other.site schema 0 none) Sql.renameList
      (p.lowerAll (p.site schema 0 none).scope items) (other.lowerAll (other.site schema 0 none).scope items) :=
    fun items => lowerAll_mirrors hcopies hsame (fun _ _ plan _ => plan.isCopied) fun _ _ plan _ => plan.isCopied
  obtain ⟨s₁, s₂, hfirst, hsecond, hthird⟩ := lowerAll_parts h (by simp [hresults]) (by simp [hconditions])
  obtain ⟨results', t₁, hfirst', hr⟩ := hmirror _ _ { next := 1 } _ _ site_tidy site_tidy hfirst
  have hitems : ∀ first second, (before ++ [first, second] ++ after).map (fun e => (e, p.filterRole e)) =
      before.map (fun e => (e, p.filterRole e)) ++ ([(first, p.filterRole first)] ++ [(second, p.filterRole second)]) ++
        after.map fun e => (e, p.filterRole e) := fun first second => by simp
  rw [hfilters, hitems x y] at hsecond
  obtain ⟨conditions', t₂, hsecond', hc⟩ := lowerAll_crossed hcopies hsame hr.tidy hr.tidy' hsecond
  obtain ⟨keys', final', hthird', hk⟩ := hmirror _ _ _ _ _ hc.tidy hc.tidy' hthird
  rw [← hitems y x] at hsecond'
  refine ⟨results', conditions', keys', final', ?_, ?_, ?_, ?_⟩
  · rw [lowerAll_length hfirst', List.length_map]
  · rw [lowerAll_length hsecond', List.length_map]
    rfl
  · rw [items, hrole]
    exact lowerAll_append_ok (lowerAll_append_ok hfirst' hsecond') hthird'
  · refine ((hr.both hc).both hk).congr (fun ρ => ?_) ?_
    · simp [Sql.renameList_eq, hfilters]
    · simp [other, withFilters]

/-- the joins of the statement of a plan's rows, each with the path that it stands for -/
def rowJoins (schema : Schema) (p : Plan) : Except QueryError (List JoinNode) := do
  let (outputs, _) ← p.outputs schema .rows
  let (_, state) ← (p.lowerClauses p.fragments (.ofSelect schema p.root (tableAlias 0) none) outputs).run { next := 1 }
  return state.nodes

theorem rowJoins_eq {shape : ResultShape} {q : Query} {final : JoinState}
    (houtputs : p.outputs schema .rows = .ok (outputs, shape))
    (hclauses : p.lowerClauses p.fragments (.ofSelect schema p.root (tableAlias 0) none) outputs { next := 1 } =
      .ok (q, final)) : p.rowJoins schema = .ok final.nodes := by
  have hrun : (p.lowerClauses p.fragments (.ofSelect schema p.root (tableAlias 0) none) outputs).run { next := 1 } =
      .ok (q, final) := hclauses
  rw [rowJoins, houtputs]
  dsimp only [bind, Except.bind]
  rw [hrun]
  rfl

/-- Joins that correspond to others in some order are these once they are renamed. -/
theorem nodes_perm {ρ : String → String} {nodes nodes' : List JoinNode}
    (hnodup : (nodes.map JoinNode.pathJoin).Nodup)
    (hperm : (nodes.map JoinNode.pathJoin).Perm (nodes'.map JoinNode.pathJoin))
    (hsame : ∀ node ∈ nodes, ∀ other ∈ nodes', node.pathJoin = other.pathJoin → node.rename ρ = other) :
    (nodes.map (JoinNode.rename ρ)).Perm nodes' := by
  have hrenamed : ((nodes.map (JoinNode.rename ρ)).map JoinNode.pathJoin) = nodes.map JoinNode.pathJoin := by
    rw [List.map_map]
    rfl
  refine (List.perm_ext_iff_of_nodup (.of_map JoinNode.pathJoin (hrenamed ▸ hnodup))
    (.of_map JoinNode.pathJoin (hperm.nodup_iff.1 hnodup))).2 fun node => ⟨fun hnode => ?_, fun hnode => ?_⟩
  · obtain ⟨first, hfirst, rfl⟩ := List.mem_map.1 hnode
    obtain ⟨second, hsecond, hpath⟩ := List.mem_map.1 (hperm.mem_iff.1 (List.mem_map_of_mem hfirst))
    rwa [hsame first hfirst second hsecond hpath.symm]
  · obtain ⟨first, hfirst, hpath⟩ := List.mem_map.1 (hperm.mem_iff.2 (List.mem_map_of_mem hnode))
    exact hsame first hfirst node hnode hpath ▸ List.mem_map_of_mem hfirst

/-- The rows of a plan with two neighbouring filters in the other order are selected by the same statement, but for the
order of joins and conditions, once its tables are renamed. -/
theorem rows_crossed (hfilters : p.filters = before ++ [x, y] ++ after) (hroot : schema.entity p.root.name = .ok p.root)
    (hresolved : FieldsResolved schema p.expressions)
    {selection : Selection} {m : Nat} (h : p.select schema .rows none 0 = .ok (selection, m)) :
    let other := p.withFilters (before ++ [y, x] ++ after)
    ∃ selection' m' nodes nodes', other.select schema .rows none 0 = .ok (selection', m') ∧
      selection'.columns = selection.columns ∧ selection'.shape = selection.shape ∧
      p.rowJoins schema = .ok nodes ∧ other.rowJoins schema = .ok nodes' ∧
      selection.query.joins = nodes.map JoinNode.join ∧ selection'.query.joins = nodes'.map JoinNode.join ∧
      selection.query.source = some (.table (p.site schema 0 none).scope.rootTable) ∧
      selection'.query.source = some (.table (other.site schema 0 none).scope.rootTable) ∧
      ∃ pairs, OneToOne pairs ∧ (∀ pair ∈ pairs, GivenOut 0 m pair.1 ∧ GivenOut 0 m' pair.2) ∧
        ∀ ρ, Follows ρ pairs → (nodes.map (JoinNode.rename ρ)).Perm nodes' ∧
          selection.query.SameClauses ρ selection'.query ∧
          selection.query.source.map (Sql.Source.rename ρ) = selection'.query.source := by
  intro other
  have hperm := filters_crossed hfilters
  have hgrouped : other.isGrouped = p.isGrouped := isGrouped_withFilters hperm
  obtain ⟨outputs, final, houtputs, hclauses, hcolumns, rfl⟩ := select_ok (.inl rfl) h
  obtain ⟨results, conditions, keys, hresults, hconditions, -, hlower, hquery⟩ := lowerClauses_ok hclauses
  obtain ⟨results', conditions', keys', final', hresults', hconditions', hlower', hrenamed⟩ :=
    items_crossed hfilters hresults hconditions hlower
  have houtputs' : other.outputs schema .rows = .ok (outputs, selection.shape) := houtputs
  have hcheck : other.isGrouped = true → other.checkGrouping outputs = .ok () := fun hgroups =>
    checkGrouping_ok.2 ((isDefinite_withFilters hperm outputs).2 (select_checked h houtputs (hgrouped ▸ hgroups)))
  have hclauses' := lowerClauses_of hresults' hconditions' hlower'
  have hselect' := select_of (.inl rfl) houtputs' hcheck hclauses'
  have hnumbered : ∀ q : Plan, (q.site schema 0 none).scope.Numbered 0 := fun q => ⟨rfl, nofun⟩
  have hsettled := lowerAll_settled (hnumbered p) hlower
  have hsettled' := lowerAll_settled (hnumbered other) hlower'
  obtain ⟨pairs, hpairs, hgiven, hsame⟩ := hsettled.exists_pairs hsettled' hrenamed
  refine ⟨_, _, final.nodes, final'.nodes, hselect', hcolumns.symm, rfl, rowJoins_eq houtputs hclauses,
    rowJoins_eq houtputs' hclauses', hquery ▸ rfl, rfl, hquery ▸ rfl, rfl, pairs, hpairs, hgiven, fun ρ hfollows => ?_⟩
  obtain ⟨hcarries, hall⟩ := hsame ρ nofun hfollows
  obtain ⟨hfirst, rfl⟩ := Prod.mk.inj hall
  obtain ⟨rfl, hconditionsPerm⟩ := Prod.mk.inj hfirst
  have hlayout : final.pathJoins.Perm final'.pathJoins := by
    -- a field of another entity is not compiled
    have hleads := references_lead_of hroot houtputs fun r hr e he href =>
      ⟨r.ref.path, lowerAll_rooted hlower r hr ▸ hresolved e he r.ref href⟩
    rw [hsettled.joins, hsettled'.joins]
    exact layout_perm hleads (references_withFilters hperm outputs)
  have hnodup : final.pathJoins.Nodup := hsettled.joins ▸ layout_laidOut.nodup.of_map
  have hnodes : (final.nodes.map (JoinNode.rename ρ)).Perm final'.nodes :=
    nodes_perm hnodup hlayout fun node hnode other hother hpath =>
      hsettled.node_rename hsettled' hcarries hnode hother hpath
  have hjoins : (final.joins.map (Sql.Join.rename ρ)).Perm final'.joins := by
    have hjoined := hnodes.map JoinNode.join
    rw [List.map_map] at hjoined
    rw [JoinState.joins, List.map_map]
    exact hjoined
  refine ⟨hnodes, ?_, ?_⟩
  · rw [hquery]
    exact query_sameClauses hperm hjoins hconditionsPerm
  · rw [hquery]
    exact congrArg (fun table => some (Sql.Source.table table)) (rootTable_rename rfl hcarries.root)

end Crossed

end Plan

end RelQuery
