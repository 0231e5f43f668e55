/-
The clauses of a compiled plan.

A statement's clauses are the outputs, filters and order keys of the plan, compiled one after another with the same
tables (`lowerClauses_ok`, `select_ok`); a statement that only counts or looks for rows is the statement of the rows,
reduced (`select_reduced`). `outputs_cases` says what the outputs can be. Aggregates appear in a compiled expression
when the plan knows it for one that depends on a group, and only then (`lower_aggregates`).
-/
import RelQuery.Proofs.Statement.Lowering
import RelQuery.Statement.Compile

namespace RelQuery

/-! ## Aggregates -/

section Aggregates

variable {scope : Scope} {expand : Expansion}

theorem foldl_binary_aggregates (op : Sql.BinaryOp) (rest : List Sql.Expr) (e : Sql.Expr) :
    (rest.foldl (.binary op) e).aggregates = (e.aggregates || Sql.Expr.listAggregates rest) := by
  induction rest generalizing e with
  | nil => simp [Sql.Expr.listAggregates]
  | cons next rest ih =>
    rw [List.foldl_cons, ih]
    simp [Sql.Expr.aggregates, Sql.Expr.listAggregates, Bool.or_assoc]

theorem connect_aggregates (op : Sql.BinaryOp) (neutral : Int64) (es : List Sql.Expr) :
    (connect op neutral es).aggregates = Sql.Expr.listAggregates es := by
  cases es with
  | nil => rfl
  | cons e rest => exact foldl_binary_aggregates op rest e

theorem column_aggregates {ref : FieldRef} {role : Role} {x : Sql.Expr} {s s' : JoinState}
    (h : scope.column ref role s = .ok (x, s')) : x.aggregates = false := by
  obtain ⟨-, ⟨-, rfl, -⟩ | ⟨-, name, -, rfl⟩⟩ := Scope.column_cases h <;> rfl

/-- whether a node makes an expression depend on a group, when `f` says which aliases do -/
def Expr.isGrouping (f : String → Bool) : Expr → Bool
  | .aggregate .. => true
  | .aliasRef name => f name
  | _ => false

theorem Expr.any_isGrouping (f : String → Bool) (e : Expr) :
    e.nodes.any (isGrouping f) = (e.containsAggregate || e.aliases.any f) := by
  have hnode : ∀ node, isGrouping f node = true ↔
      isAggregate node = true ∨ ∃ name, node = .aliasRef name ∧ f name = true := by
    intro node
    cases node <;> simp [isGrouping, isAggregate]
  rw [Bool.eq_iff_iff, Bool.or_eq_true, containsAggregate, List.any_eq_true, List.any_eq_true, List.any_eq_true]
  constructor
  · rintro ⟨node, hmem, hgrouping⟩
    rcases (hnode node).1 hgrouping with haggregate | ⟨name, rfl, hname⟩
    · exact .inl ⟨node, hmem, haggregate⟩
    · exact .inr ⟨name, mem_aliases.2 hmem, hname⟩
  · rintro (⟨node, hmem, haggregate⟩ | ⟨name, hmem, hname⟩)
    · exact ⟨node, hmem, (hnode node).2 (.inl haggregate)⟩
    · exact ⟨_, mem_aliases.1 hmem, (hnode _).2 (.inr ⟨name, rfl, hname⟩)⟩

/-- aliases are compiled to aggregates as `f` says -/
def Expansion.GroupsAs (expand : Expansion) (f : String → Bool) : Prop :=
  ∀ name role s x s', expand role name s = .ok (x, s') → x.aggregates = f name

variable {f : String → Bool}

mutual

theorem Expr.lower_isGrouping (hexpand : expand.GroupsAs f) : (e : Expr) →
    ∀ {role s s' x}, e.lower scope expand role s = .ok (x, s') → x.aggregates = e.nodes.any (Expr.isGrouping f)
  | .field ref, role, s, s', x, h => by
    rw [column_aggregates h]
    rfl
  | .aliasRef name, role, s, s', x, h => by
    rw [hexpand name _ _ _ _ h]
    simp [Expr.nodes, Expr.isGrouping]
  | .literal v, role, s, s', x, h => by
    obtain ⟨rfl, -⟩ := Lowering.pure_ok.1 h
    rfl
  | .binary op left right, role, s, s', x, h => by
    obtain ⟨l, r, s₁, hl, hr, rfl⟩ := Lowering.bind₂_pure_ok h
    simp [Sql.Expr.aggregates, Expr.nodes, Expr.isGrouping, Expr.lower_isGrouping hexpand left hl,
      Expr.lower_isGrouping hexpand right hr]
  | .and operands, role, s, s', x, h | .or operands, role, s, s', x, h => by
    obtain ⟨es, hes, rfl⟩ := Lowering.bind_pure_ok h
    simp [connect_aggregates, Expr.nodes, Expr.isGrouping, lowerList_isGrouping hexpand operands hes]
  | .not operand, role, s, s', x, h | .isNull operand _, role, s, s', x, h => by
    obtain ⟨e, he, rfl⟩ := Lowering.bind_pure_ok h
    simp [Sql.Expr.aggregates, Expr.nodes, Expr.isGrouping, Expr.lower_isGrouping hexpand operand he]
  | .inList operand values negated, role, s, s', x, h => by
    obtain ⟨e, es, s₁, he, hes, rfl⟩ := Lowering.bind₂_pure_ok h
    simp [Sql.Expr.aggregates, Expr.nodes, Expr.isGrouping, Expr.lower_isGrouping hexpand operand he,
      lowerList_isGrouping hexpand values hes]
  | .case [] none, role, s, s', x, h => by
    obtain ⟨rfl, -⟩ := Lowering.pure_ok.1 h
    rfl
  | .case [] (some otherwise), role, s, s', x, h => by
    simp [Expr.nodes, Expr.nodesOfArms, Expr.isGrouping, Expr.lower_isGrouping hexpand otherwise h]
  | .case (arm :: arms) none, role, s, s', x, h => by
    obtain ⟨ws, hws, rfl⟩ := Lowering.bind_pure_ok h
    simp [Sql.Expr.aggregates, Expr.nodes, Expr.isGrouping, lowerArms_isGrouping hexpand (arm :: arms) hws]
  | .case (arm :: arms) (some otherwise), role, s, s', x, h => by
    obtain ⟨ws, e, s₁, hws, he, rfl⟩ := Lowering.bind₂_pure_ok h
    simp [Sql.Expr.aggregates, Expr.nodes, Expr.isGrouping, lowerArms_isGrouping hexpand (arm :: arms) hws,
      Expr.lower_isGrouping hexpand otherwise he]
  | .aggregate function none distinct, role, s, s', x, h => by
    obtain ⟨rfl, -⟩ := Lowering.pure_ok.1 h
    rfl
  | .aggregate function (some arg) distinct, role, s, s', x, h => by
    obtain ⟨e, -, rfl⟩ := Lowering.bind_pure_ok h
    rfl
  | .outer name, role, s, s', x, h => by
    obtain ⟨-, o, f, -, -, rfl⟩ := Scope.outerColumn_ok h
    rfl
  | .correlated plan, role, s, s', x, h | .existsRow plan _, role, s, s', x, h => by
    obtain ⟨q, -, rfl⟩ := Lowering.bind_pure_ok h
    rfl
termination_by structural e => e

theorem lowerList_isGrouping (hexpand : expand.GroupsAs f) : (es : List Expr) →
    ∀ {role s s' xs}, lowerList es scope expand role s = .ok (xs, s') →
    Sql.Expr.listAggregates xs = (Expr.nodesOfList es).any (Expr.isGrouping f)
  | [], role, s, s', xs, h => by
    obtain ⟨rfl, -⟩ := Lowering.pure_ok.1 h
    rfl
  | e :: rest, role, s, s', xs, h => by
    obtain ⟨x, xs, s₁, hx, hxs, rfl⟩ := Lowering.bind₂_pure_ok h
    simp [Sql.Expr.listAggregates, Expr.nodesOfList, Expr.lower_isGrouping hexpand e hx,
      lowerList_isGrouping hexpand rest hxs]
termination_by structural es => es

theorem lowerArms_isGrouping (hexpand : expand.GroupsAs f) : (arms : List (Expr × Expr)) →
    ∀ {role s s' ws}, lowerArms arms scope expand role s = .ok (ws, s') →
    Sql.Expr.armsAggregate ws = (Expr.nodesOfArms arms).any (Expr.isGrouping f)
  | [], role, s, s', ws, h => by
    obtain ⟨rfl, -⟩ := Lowering.pure_ok.1 h
    rfl
  | (test, result) :: rest, role, s, s', ws, h => by
    obtain ⟨t, r, more, s₁, s₂, ht, hr, hws, rfl⟩ := Lowering.bind₃_pure_ok h
    simp [Sql.Expr.armsAggregate, Expr.nodesOfArms, Expr.lower_isGrouping hexpand test ht,
      Expr.lower_isGrouping hexpand result hr, lowerArms_isGrouping hexpand rest hws, Bool.or_assoc]
termination_by structural arms => arms

end

end Aggregates

/-- the one column of a statement that is only asked how many rows there are, or whether there is one -/
def Purpose.reduced : Purpose → Option Sql.Expr
  | .rows | .scalar => none
  | .existence => some (.int 1)
  | .count => some .countRows

namespace Plan

variable {p : Plan} {scope : Scope}

theorem expand_aggregates : (budget : Nat) →
    (p.fragments.expand scope budget).GroupsAs (p.aliasAggregates budget)
  | 0 => fun _ _ _ _ _ h => by cases h
  | budget + 1 => fun name role s x s' h => by
    obtain ⟨e, he, hlower⟩ := expand_ok h
    rw [e.lower_isGrouping (expand_aggregates budget) hlower, Expr.any_isGrouping]
    simp only [aliasAggregates, he]

/-- An expression is compiled to an aggregate when it depends on a group, and only then. -/
theorem lower_aggregates {e : Expr} {role : Role} {s s' : JoinState} {x : Sql.Expr}
    (h : e.lower scope (p.fragments.expansion scope) role s = .ok (x, s')) : x.aggregates = p.exprAggregates e := by
  rw [p.expansion_eq] at h
  rw [e.lower_isGrouping (expand_aggregates p.aliasBudget) h, Expr.any_isGrouping]
  rfl

/-! ## Clauses -/

/-- compiling each of a list and putting something around it -/
theorem mapM_pack {α β : Type} {f : α → Lowering Sql.Expr} {pack : α → Sql.Expr → β} : {as : List α} →
    {s s' : JoinState} → {bs : List β} → (as.mapM fun a => do let e ← f a; return pack a e) s = .ok (bs, s') →
    ∃ es, as.mapM f s = .ok (es, s') ∧ es.length = as.length ∧ bs = List.zipWith pack as es
  | [], s, s', bs, h => by
    obtain ⟨rfl, rfl⟩ := Lowering.pure_ok.1 h
    exact ⟨[], rfl, rfl, rfl⟩
  | a :: rest, s, s', bs, h => by
    rw [List.mapM_cons] at h
    obtain ⟨b, s₁, hb, hmore⟩ := Lowering.bind_ok h
    obtain ⟨e, he, rfl⟩ := Lowering.bind_pure_ok hb
    obtain ⟨more, hrest, rfl⟩ := Lowering.bind_pure_ok hmore
    obtain ⟨es, hes, hlength, rfl⟩ := mapM_pack hrest
    refine ⟨e :: es, ?_, by simp [hlength], rfl⟩
    rw [List.mapM_cons, Lowering.bind_eq he, Lowering.bind_eq hes]
    rfl

theorem mapM_packed {α β : Type} {f : α → Lowering Sql.Expr} (pack : α → Sql.Expr → β) : {as : List α} →
    {s s' : JoinState} → {es : List Sql.Expr} → as.mapM f s = .ok (es, s') →
    (as.mapM fun a => do let e ← f a; return pack a e) s = .ok (List.zipWith pack as es, s')
  | [], s, s', es, h => by
    obtain ⟨rfl, rfl⟩ := Lowering.pure_ok.1 h
    rfl
  | a :: rest, s, s', es, h => by
    rw [List.mapM_cons] at h
    obtain ⟨e, more, s₁, he, hrest, rfl⟩ := Lowering.bind₂_pure_ok h
    have hfirst : (do let e ← f a; return pack a e) s = .ok (pack a e, s₁) := Lowering.bind_eq he _
    rw [List.mapM_cons, Lowering.bind_eq hfirst, Lowering.bind_eq (mapM_packed pack hrest)]
    rfl

theorem filterFragments_eq (filters : List Expr) : filterFragments filters = filters.map fun e => (e, e.lower) := by
  induction filters with
  | nil => rfl
  | cons e rest ih => rw [filterFragments, ih, List.map_cons]

theorem orderFragments_eq (keys : List OrderKey) :
    orderFragments keys = keys.map fun key => (key.direction, key.expr.lower) := by
  induction keys with
  | nil => rfl
  | cons key rest ih =>
    obtain ⟨e, direction⟩ := key
    rw [orderFragments, ih, List.map_cons]

/-- An output is compiled as the expression it is. -/
theorem OutputTerm.lower_eq (scope : Scope) (expand : Expansion) (role : Role) (term : OutputTerm) :
    term.lower scope expand role = term.expr.lower scope expand role := by
  cases term <;> rfl

/-- the role of a filter -/
def filterRole (p : Plan) (e : Expr) : Role := if p.exprAggregates e then .computed else .filter

/-- what a statement with these outputs computes, in the order of compilation -/
def items (p : Plan) (outputs : List Output) : List (Expr × Role) :=
  outputs.map (fun o => (o.term.expr, o.role)) ++ p.filters.map (fun e => (e, p.filterRole e)) ++
    p.ordering.map fun key => (key.expr, .output)

/-- the query of a plan from its compiled outputs, filters and order keys -/
def query (p : Plan) (scope : Scope) (outputs : List Output) (joins : List Sql.Join)
    (results conditions keys : List Sql.Expr) : Sql.Query :=
  let filters := List.zipWith (fun e condition => (p.exprAggregates e, condition)) p.filters conditions
  { select := (outputs.zip results).map fun item => ⟨item.2, item.1.selectAlias⟩
    distinct := p.distinct
    source := some (.table scope.rootTable)
    joins
    condition := Sql.Expr.conjunction ((filters.filter fun f => !f.1).map Prod.snd)
    groupBy := if p.isGrouped then
        ((outputs.zip results).filter fun item => !p.exprAggregates item.1.term.expr).map Prod.snd
      else []
    having := Sql.Expr.conjunction ((filters.filter fun f => f.1).map Prod.snd)
    orderBy := List.zipWith (fun key e => ⟨e, some key.direction.toSql⟩) p.ordering keys
    page := if p.isPaged then some ⟨p.limit, p.offset⟩ else none }

theorem lowerAll_append_ok {items more : List (Expr × Role)} {s s₁ s' : JoinState} {xs ys : List Sql.Expr}
    (h : p.lowerAll scope items s = .ok (xs, s₁)) (h' : p.lowerAll scope more s₁ = .ok (ys, s')) :
    p.lowerAll scope (items ++ more) s = .ok (xs ++ ys, s') := by
  simp only [lowerAll] at h h' ⊢
  rw [List.mapM_append, Lowering.bind_eq h, Lowering.bind_eq h']
  rfl

theorem lowerAll_aggregates : {items : List (Expr × Role)} → ∀ {s s' xs},
    p.lowerAll scope items s = .ok (xs, s') →
    xs.map (·.aggregates) = items.map fun item => p.exprAggregates item.1
  | [], s, s', xs, h => by
    obtain ⟨rfl, -⟩ := Lowering.pure_ok.1 h
    rfl
  | item :: rest, s, s', xs, h => by
    obtain ⟨y, more, s₁, rfl, hy, hmore⟩ := lowerAll_cons_ok h
    rw [List.map_cons, List.map_cons, lower_aggregates hy, lowerAll_aggregates hmore]

theorem lowerAll_aggregateless {items : List (Expr × Role)} (hplain : ∀ item ∈ items, p.exprAggregates item.1 = false)
    {s s' : JoinState} {xs : List Sql.Expr} (h : p.lowerAll scope items s = .ok (xs, s')) :
    ∀ x ∈ xs, x.aggregates = false := by
  intro x hx
  have hmem : x.aggregates ∈ xs.map (·.aggregates) := List.mem_map_of_mem hx
  rw [lowerAll_aggregates h] at hmem
  obtain ⟨item, hitem, heq⟩ := List.mem_map.1 hmem
  exact heq.symm.trans (hplain item hitem)

theorem lowerAll_length {items : List (Expr × Role)} {s s' : JoinState} {xs : List Sql.Expr}
    (h : p.lowerAll scope items s = .ok (xs, s')) : xs.length = items.length := by
  simpa using congrArg List.length (lowerAll_aggregates h)

theorem lowerAll_split {items more : List (Expr × Role)} {s s' : JoinState} {zs : List Sql.Expr}
    (h : p.lowerAll scope (items ++ more) s = .ok (zs, s')) :
    ∃ xs ys s₁, zs = xs ++ ys ∧ p.lowerAll scope items s = .ok (xs, s₁) ∧ p.lowerAll scope more s₁ = .ok (ys, s') := by
  rw [lowerAll, List.mapM_append] at h
  obtain ⟨xs, ys, s₁, hxs, hys, rfl⟩ := Lowering.bind₂_pure_ok h
  exact ⟨xs, ys, s₁, rfl, hxs, hys⟩

theorem lowerAll_parts {before items after : List (Expr × Role)} {s s' : JoinState} {xs ys zs : List Sql.Expr}
    (h : p.lowerAll scope (before ++ items ++ after) s = .ok (xs ++ ys ++ zs, s')) (hxs : xs.length = before.length)
    (hys : ys.length = items.length) : ∃ s₁ s₂, p.lowerAll scope before s = .ok (xs, s₁) ∧
      p.lowerAll scope items s₁ = .ok (ys, s₂) ∧ p.lowerAll scope after s₂ = .ok (zs, s') := by
  obtain ⟨firsts, thirds, s₂, heq, hfirsts, hthird⟩ := lowerAll_split h
  obtain ⟨xs', ys', s₁, rfl, hfirst, hsecond⟩ := lowerAll_split hfirsts
  have hlength : (xs ++ ys).length = (xs' ++ ys').length := by
    rw [List.length_append, List.length_append, hxs, hys, lowerAll_length hfirst, lowerAll_length hsecond]
  obtain ⟨hboth, rfl⟩ := List.append_inj heq hlength
  obtain ⟨rfl, rfl⟩ := List.append_inj hboth (hxs.trans (lowerAll_length hfirst).symm)
  exact ⟨s₁, s₂, hfirst, hsecond, hthird⟩

/-- The clauses are what the outputs, filters and order keys are compiled to, one after another. -/
theorem lowerClauses_ok {outputs : List Output} {s s' : JoinState} {q : Sql.Query}
    (h : p.lowerClauses p.fragments scope outputs s = .ok (q, s')) :
    ∃ results conditions keys, results.length = outputs.length ∧ conditions.length = p.filters.length ∧
      keys.length = p.ordering.length ∧
      p.lowerAll scope (p.items outputs) s = .ok (results ++ conditions ++ keys, s') ∧
      q = p.query scope outputs s'.joins results conditions keys := by
  obtain ⟨items, s₁, hitems, hmore⟩ := Lowering.bind_ok h
  obtain ⟨conditions, s₂, hconditions, hlast⟩ := Lowering.bind_ok hmore
  obtain ⟨keys, s₃, hkeys, hget⟩ := Lowering.bind_ok hlast
  obtain ⟨state, s₄, hstate, hpure⟩ := Lowering.bind_ok hget
  cases hstate
  obtain ⟨rfl, rfl⟩ := Lowering.pure_ok.1 hpure
  have hfilters : p.fragments.filters = p.filters.map fun e => (e, e.lower) := filterFragments_eq p.filters
  have hordering : p.fragments.ordering = p.ordering.map fun key => (key.direction, key.expr.lower) :=
    orderFragments_eq p.ordering
  rw [hfilters, List.mapM_map] at hconditions
  rw [hordering, List.mapM_map] at hkeys
  obtain ⟨results, hresults, hresultsLength, rfl⟩ := mapM_pack hitems
  obtain ⟨tests, htests, htestsLength, rfl⟩ := mapM_pack hconditions
  obtain ⟨sorts, hsorts, hsortsLength, rfl⟩ := mapM_pack hkeys
  refine ⟨results, tests, sorts, hresultsLength, htestsLength, hsortsLength, ?_, rfl⟩
  have hfirst : p.lowerAll scope (outputs.map fun o => (o.term.expr, o.role)) s = .ok (results, s₁) := by
    simp only [OutputTerm.lower_eq] at hresults
    rw [lowerAll, List.mapM_map]
    exact hresults
  have hsecond : p.lowerAll scope (p.filters.map fun e => (e, p.filterRole e)) s₁ = .ok (tests, s₂) := by
    rw [lowerAll, List.mapM_map]
    exact htests
  have hthird : p.lowerAll scope (p.ordering.map fun key => (key.expr, .output)) s₂ = .ok (sorts, s₃) := by
    rw [lowerAll, List.mapM_map]
    exact hsorts
  exact lowerAll_append_ok (lowerAll_append_ok hfirst hsecond) hthird

/-- The outputs, filters and order keys compiled one after another make the clauses. -/
theorem lowerClauses_of {outputs : List Output} {s s' : JoinState} {results conditions keys : List Sql.Expr}
    (hresults : results.length = outputs.length) (hconditions : conditions.length = p.filters.length)
    (h : p.lowerAll scope (p.items outputs) s = .ok (results ++ conditions ++ keys, s')) :
    p.lowerClauses p.fragments scope outputs s =
      .ok (p.query scope outputs s'.joins results conditions keys, s') := by
  obtain ⟨s₁, s₂, hfirst, hsecond, hthird⟩ := lowerAll_parts h (by simp [hresults]) (by simp [hconditions])
  have hfilters : p.fragments.filters = p.filters.map fun e => (e, e.lower) := filterFragments_eq p.filters
  have hordering : p.fragments.ordering = p.ordering.map fun key => (key.direction, key.expr.lower) :=
    orderFragments_eq p.ordering
  rw [lowerAll, List.mapM_map] at hfirst hsecond hthird
  have houtputs : (outputs.mapM (fun o : Output => o.term.lower scope (p.fragments.expansion scope) o.role) :
      Lowering (List Sql.Expr)) s = .ok (results, s₁) := by
    simp only [OutputTerm.lower_eq]
    exact hfirst
  have hitems := mapM_packed Prod.mk houtputs
  have htests := mapM_packed (fun e x => (p.exprAggregates e, x)) hsecond
  have hkeys := mapM_packed (fun (key : OrderKey) x => (⟨x, some key.direction.toSql⟩ : Sql.OrderKey)) hthird
  have hget : (get : Lowering JoinState) s' = .ok (s', s') := rfl
  rw [lowerClauses, hfilters, hordering, List.mapM_map, List.mapM_map]
  refine (Lowering.bind_eq hitems _).trans ((Lowering.bind_eq htests _).trans ((Lowering.bind_eq hkeys _).trans ?_))
  exact Lowering.bind_eq hget _

theorem zipWith_filters : {filters : List Expr} → (∀ e ∈ filters, p.exprAggregates e = false) →
    {conditions : List Sql.Expr} → conditions.length = filters.length →
    List.zipWith (fun e condition => (p.exprAggregates e, condition)) filters conditions =
      conditions.map fun condition => (false, condition)
  | [], _, [], _ => rfl
  | e :: rest, hplain, condition :: more, hlength => by
    have hrest := zipWith_filters (fun e he => hplain e (by simp [he])) (Nat.succ.inj hlength)
    rw [List.zipWith_cons_cons, List.map_cons, hrest, hplain e (by simp)]

/-- Without aggregates a query neither groups its rows nor filters groups; all filters are conditions on rows. -/
theorem query_ungrouped {outputs : List Output} {joins : List Sql.Join} {results conditions keys : List Sql.Expr}
    (hgrouped : p.isGrouped = false) (hfilters : ∀ e ∈ p.filters, p.exprAggregates e = false)
    (hresults : results.length = outputs.length) (hconditions : conditions.length = p.filters.length)
    (hplain : ∀ x ∈ results ++ conditions ++ keys, x.aggregates = false) :
    let q := p.query scope outputs joins results conditions keys
    q.isGrouped = false ∧ q.having = none ∧ q.condition = Sql.Expr.conjunction conditions ∧
      q.select.map (·.expr) = results := by
  intro q
  have hzip := zipWith_filters hfilters hconditions
  have hhaving : q.having = none := by simp [q, query, hzip, List.filter_map, Function.comp_def, Sql.Expr.conjunction]
  have hselect : q.select.map (·.expr) = results := by
    have hsnd : (outputs.zip results).map Prod.snd = results := List.map_snd_zip (by omega)
    simpa [q, query, Function.comp_def] using hsnd
  refine ⟨?_, hhaving, by simp [q, query, hzip, List.filter_map, Function.comp_def], hselect⟩
  have hitems : q.select.any (·.expr.aggregates) = false := List.any_eq_false.2 fun item hitem => by
    have hmem : item.expr ∈ results := hselect ▸ List.mem_map_of_mem hitem
    simp [hplain item.expr (by simp [hmem])]
  have hkeys : q.orderBy.any (·.expr.aggregates) = false := List.any_eq_false.2 fun key hkey => by
    have hzipped : key ∈ List.zipWith (fun (order : OrderKey) e => (⟨e, some order.direction.toSql⟩ : Sql.OrderKey))
        p.ordering keys := hkey
    rw [← List.map_uncurry_zip_eq_zipWith] at hzipped
    obtain ⟨⟨order, e⟩, hpair, rfl⟩ := List.mem_map.1 hzipped
    have he : e ∈ keys := (List.of_mem_zip hpair).2
    simp [Function.uncurry, hplain e (by simp [he])]
  have hgroupBy : q.groupBy = [] := by simp [q, query, hgrouped]
  rw [Sql.Query.isGrouped, hgroupBy, hhaving, hitems, hkeys]
  rfl

/-- the outputs of a plan whose rows become records: fields of the root, fields of joined relations, annotations -/
inductive RecordOutputs (schema : Schema) (p : Plan) (kept : List String) : List Output → Prop where
  | mk {aliases : List String} {fields joined annotations : List Output} :
    kept.mapM (Output.ofRootField schema p.root) = .ok fields → p.joinedOutputs schema = .ok joined →
      aliases.mapM p.annotationOutput = .ok annotations → RecordOutputs schema p kept (fields ++ joined ++ annotations)

/-- A plan's outputs are the names it projects, or those of records with all fields or some. -/
theorem outputs_cases {schema : Schema} {purpose : Purpose} {outputs : List Output} {shape : ResultShape}
    (h : p.outputs schema purpose = .ok (outputs, shape)) :
    (∃ names, names.mapM (p.namedOutput schema) = .ok outputs ∧ shape = .mapping names) ∨
    (p.RecordOutputs schema (p.root.fields.map (·.name)) outputs ∧ shape = .record p.root.name) ∨
    ∃ names, p.RecordOutputs schema (p.narrowedFields names) outputs ∧
      shape = .narrowedRecord p.root.name (p.narrowedFields names) := by
  unfold Plan.outputs at h
  split at h
  · split at h
    · next name _ =>
      obtain ⟨output, houtput, hpure⟩ := ok_of_bind h
      obtain ⟨rfl, rfl⟩ := Prod.mk.inj (Except.ok.inj hpure)
      refine .inl ⟨[name], ?_, rfl⟩
      rw [List.mapM_cons, houtput]
      rfl
    · cases h
  · obtain ⟨fields, hfields, hmore⟩ := ok_of_bind h
    obtain ⟨joined, hjoined, hlast⟩ := ok_of_bind hmore
    obtain ⟨annotations, hannotations, hpure⟩ := ok_of_bind hlast
    obtain ⟨rfl, rfl⟩ := Prod.mk.inj (Except.ok.inj hpure)
    have hnames : (p.root.fields.map (·.name)).mapM (Output.ofRootField schema p.root) = .ok fields := by
      rw [List.mapM_map]
      exact hfields
    have haliases : (p.annotations.map (·.aliasName)).mapM p.annotationOutput = .ok annotations := by
      rw [List.mapM_map]
      exact hannotations
    exact .inr (.inl ⟨.mk hnames hjoined haliases, rfl⟩)
  · obtain ⟨named, hnamed, hpure⟩ := ok_of_bind h
    obtain ⟨rfl, rfl⟩ := Prod.mk.inj (Except.ok.inj hpure)
    exact .inl ⟨_, hnamed, rfl⟩
  · obtain ⟨fields, hfields, hmore⟩ := ok_of_bind h
    obtain ⟨joined, hjoined, hlast⟩ := ok_of_bind hmore
    obtain ⟨annotations, hannotations, hpure⟩ := ok_of_bind hlast
    obtain ⟨rfl, rfl⟩ := Prod.mk.inj (Except.ok.inj hpure)
    exact .inr (.inr ⟨_, .mk hfields hjoined hannotations, rfl⟩)

/-! ## Statements -/

/-- The statement of a plan's rows, or of its one value, is made of its clauses. -/
theorem select_ok {schema : Schema} {purpose : Purpose} (hpurpose : purpose = .rows ∨ purpose = .scalar)
    {outer : Option Outer} {next n : Nat} {selection : Selection}
    (h : p.select schema purpose outer next = .ok (selection, n)) :
    ∃ outputs final, p.outputs schema purpose = .ok (outputs, selection.shape) ∧
      p.lowerClauses p.fragments (.ofSelect schema p.root (tableAlias next) outer) outputs { next := next + 1 } =
        .ok (selection.query, final) ∧
      selection.columns = outputs.map (·.column) ∧ n = final.next := by
  rw [select_eq] at h
  obtain ⟨⟨outputs, shape⟩, houtputs, hmore⟩ := ok_of_bind h
  have hrun : (do
      let compiled ← (p.lowerClauses p.fragments (.ofSelect schema p.root (tableAlias next) outer) outputs).run
        { next := next + 1 }
      return (⟨compiled.1, outputs.map (·.column), shape⟩, compiled.2.next)) = Except.ok (selection, n) := by
    rcases hpurpose with rfl | rfl
    all_goals
      dsimp only at hmore
      split at hmore
      · obtain ⟨_, -, hrun⟩ := ok_of_bind hmore
        exact hrun
      · exact hmore
  obtain ⟨⟨q, final⟩, hclauses, hpure⟩ := ok_of_bind hrun
  obtain ⟨rfl, rfl⟩ := Prod.mk.inj (Except.ok.inj hpure)
  exact ⟨outputs, final, houtputs, hclauses, rfl, rfl⟩

/-- The clauses of a plan that passes its check make the statement of its rows, or of its one value. -/
theorem select_of {schema : Schema} {purpose : Purpose} (hpurpose : purpose = .rows ∨ purpose = .scalar)
    {outer : Option Outer} {next : Nat} {outputs : List Output} {shape : ResultShape} {q : Sql.Query}
    {final : JoinState} (houtputs : p.outputs schema purpose = .ok (outputs, shape))
    (hcheck : p.isGrouped = true → p.checkGrouping outputs = .ok ())
    (hclauses : p.lowerClauses p.fragments (.ofSelect schema p.root (tableAlias next) outer) outputs
      { next := next + 1 } = .ok (q, final)) :
    p.select schema purpose outer next = .ok (⟨q, outputs.map (·.column), shape⟩, final.next) := by
  rw [select_eq, assemble, houtputs]
  have hrun : (p.lowerClauses p.fragments (.ofSelect schema p.root (tableAlias next) outer) outputs).run
      { next := next + 1 } = .ok (q, final) := hclauses
  dsimp only [bind, Except.bind]
  cases hgrouped : p.isGrouped with
  | true =>
    rw [if_pos rfl, hcheck hgrouped, hrun]
    rcases hpurpose with rfl | rfl <;> rfl
  | false =>
    rw [if_neg (by simp), hrun]
    rcases hpurpose with rfl | rfl <;> rfl

theorem outputs_reduced (schema : Schema) {purpose : Purpose} {column : Sql.Expr}
    (hcolumn : purpose.reduced = some column) : p.outputs schema purpose = p.outputs schema .rows := by
  unfold Plan.outputs
  cases purpose with
  | rows | scalar => cases hcolumn
  | existence | count =>
    cases p.projection with
    | none => rfl
    | some projection => obtain ⟨_ | _, names⟩ := projection <;> rfl

/-- whether a reduced statement keeps the statement of the rows as a derived table -/
def isWrapped (p : Plan) : Bool := p.isGrouped || p.distinct || p.isPaged

/-- Where only the number or the existence of rows matters, the statement is that of the rows, reduced. -/
theorem select_reduced (schema : Schema) {purpose : Purpose} {column : Sql.Expr}
    (hcolumn : purpose.reduced = some column) (outer : Option Outer) (next : Nat) :
    p.select schema purpose outer next = (p.select schema .rows outer next).map fun selected =>
      (⟨reduceTo column p.isWrapped p.isPaged selected.1.query selected.2, selected.1.columns, selected.1.shape⟩,
        selected.2 + p.isWrapped.toNat) := by
  cases purpose with
  | rows | scalar => cases hcolumn
  | existence | count =>
    obtain rfl := Option.some.inj hcolumn
    rw [select_eq, select_eq, assemble, assemble, outputs_reduced schema rfl]
    cases p.outputs schema .rows with
    | error failure => rfl
    | ok found =>
      dsimp only [bind, Except.bind]
      split
      · cases p.checkGrouping found.1 with
        | error failure => rfl
        | ok _ =>
          cases (p.lowerClauses p.fragments (.ofSelect schema p.root (tableAlias next) outer) found.1).run
            { next := next + 1 } <;> rfl
      · cases (p.lowerClauses p.fragments (.ofSelect schema p.root (tableAlias next) outer) found.1).run
          { next := next + 1 } <;> rfl

/-- Rows are counted by their statement, reduced to a count. -/
theorem countQuery_eq {schema : Schema} {selection : Selection} {next : Nat}
    (h : p.select schema .rows none 0 = .ok (selection, next)) :
    p.countQuery schema = .ok (reduceTo .countRows p.isWrapped p.isPaged selection.query next) := by
  rw [countQuery, select_reduced schema rfl, h]
  rfl

/-- Whether there is a row is told by their statement, reduced to a constant and to one row. -/
theorem existsQuery_eq {schema : Schema} {selection : Selection} {next : Nat}
    (h : p.select schema .rows none 0 = .ok (selection, next)) :
    p.existsQuery schema = .ok (limitedTo 1 (reduceTo (.int 1) p.isWrapped p.isPaged selection.query next)) := by
  rw [existsQuery, select_reduced schema rfl, h]
  rfl

theorem select_of_rowSelection {schema : Schema} {selection : Selection} (h : p.rowSelection schema = .ok selection) :
    ∃ n, p.select schema .rows none 0 = .ok (selection, n) := by
  rw [rowSelection] at h
  cases hselected : p.select schema .rows none 0 with
  | error failure => rw [hselected] at h; cases h
  | ok selected =>
    rw [hselected] at h
    obtain rfl : selected.1 = selection := Except.ok.inj h
    exact ⟨selected.2, rfl⟩

/-- The statement of a plan's rows by itself, its root table being the first. -/
theorem rowSelection_ok {schema : Schema} {selection : Selection} (h : p.rowSelection schema = .ok selection) :
    ∃ outputs final results conditions keys, p.outputs schema .rows = .ok (outputs, selection.shape) ∧
      results.length = outputs.length ∧ conditions.length = p.filters.length ∧ keys.length = p.ordering.length ∧
      p.lowerAll (.ofSelect schema p.root (tableAlias 0) none) (p.items outputs) { next := 1 } =
        .ok (results ++ conditions ++ keys, final) ∧
      selection.columns = outputs.map (·.column) ∧
      selection.query =
        p.query (.ofSelect schema p.root (tableAlias 0) none) outputs final.joins results conditions keys := by
  obtain ⟨n, hselect⟩ := select_of_rowSelection h
  obtain ⟨outputs, final, houtputs, hclauses, hcolumns, -⟩ := select_ok (.inl rfl) hselect
  obtain ⟨results, conditions, keys, hresults, hconditions, hkeys, hlower, hquery⟩ := lowerClauses_ok hclauses
  exact ⟨outputs, final, results, conditions, keys, houtputs, hresults, hconditions, hkeys, hlower, hcolumns, hquery⟩

/-- Once its rows can be selected, a plan compiles unless a fetch of its relations fails. -/
theorem compile_eq {schema : Schema} {selection : Selection} (h : p.rowSelection schema = .ok selection)
    (d : Sql.Dialect) : p.compile schema d =
      (if selection.shape.isMapping then .ok [] else p.batches schema selection.columns).map fun batched =>
        ⟨.ofTokens d (selection.query.tokens d) selection.columns, batched, selection.shape⟩ := by
  rw [compile, h]
  dsimp only [bind, Except.bind]
  split <;> rfl

/-- the parts of a compiled plan -/
theorem compile_ok {schema : Schema} {d : Sql.Dialect} {q : CompiledQuery}
    (h : p.compile schema d = .ok q) : ∃ outputs, p.outputs schema .rows = .ok (outputs, q.shape) ∧
      q.primary.columns = outputs.map (·.column) ∧
      (q.batched = [] ∨ q.shape.isMapping = false ∧ p.batches schema q.primary.columns = .ok q.batched) := by
  obtain ⟨selection, hselection, -⟩ := ok_of_bind h
  obtain ⟨outputs, _, _, _, _, houtputs, -, -, -, -, hcolumns, -⟩ := rowSelection_ok hselection
  rw [compile_eq hselection] at h
  obtain ⟨batched, hbatched, rfl⟩ := map_ok h
  refine ⟨outputs, houtputs, hcolumns, ?_⟩
  split at hbatched
  · exact .inl (Except.ok.inj hbatched).symm
  · next hshape => exact .inr ⟨Bool.eq_false_iff.2 hshape, hbatched⟩

/-- Relations are fetched in batches for records only. -/
theorem batches_of_compile {schema : Schema} {d : Sql.Dialect} {q : CompiledQuery} (h : p.compile schema d = .ok q)
    (hshape : q.shape.isMapping = false) : p.batches schema q.primary.columns = .ok q.batched := by
  obtain ⟨selection, hselection, -⟩ := ok_of_bind h
  rw [compile_eq hselection] at h
  obtain ⟨batched, hbatched, rfl⟩ := map_ok h
  rwa [if_neg (by simpa using hshape)] at hbatched

end Plan

end RelQuery
