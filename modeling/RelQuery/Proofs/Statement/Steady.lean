/-
Plans compiled in two statements.

A plan nested in a statement depends on the row open to it and on nothing else of that statement (`Plan.isSteady`): its
tables are numbered otherwise in another statement, but its joined rows correspond one by one and its clauses read them
alike. By induction on the plans nested in it, since its clauses read theirs.
- `lowerAll_agrees`: expressions compiled in two statements, one after another.
- `select_parallel`: the two statements of one plan.
-/
import RelQuery.Proofs.Statement.Twins

namespace RelQuery

open Sql (Query Frame Context)

namespace Plan

variable {db : Sql.Database} {a b : Site} {p p' : Plan}

/-! ## Expressions of plans -/

theorem annotationOf_congr (hsame : p'.annotations = p.annotations) : p'.annotationOf = p.annotationOf := by
  funext name
  rw [annotationOf, annotationOf, hsame]

theorem isAggregateAlias_congr (hsame : p'.annotations = p.annotations) : p'.isAggregateAlias = p.isAggregateAlias := by
  have halias : ∀ budget name, p'.aliasAggregates budget name = p.aliasAggregates budget name := by
    intro budget
    induction budget with
    | zero => exact fun _ => rfl
    | succ budget ih =>
      intro name
      have hany : p'.aliasAggregates budget = p.aliasAggregates budget := funext ih
      simp only [aliasAggregates, annotationOf_congr hsame, hany]
  funext name
  rw [isAggregateAlias, isAggregateAlias, aliasBudget, aliasBudget, hsame, halias]

theorem exprAggregates_congr (hsame : p'.annotations = p.annotations) (e : Expr) :
    p'.exprAggregates e = p.exprAggregates e := by
  rw [exprAggregates, exprAggregates, isAggregateAlias_congr hsame]

theorem hasAggregates_congr (hsame : p'.annotations = p.annotations) : p'.hasAggregates = p.hasAggregates := by
  rw [hasAggregates, hasAggregates, hsame, isAggregateAlias_congr hsame]

section Congr

variable (hsame : p'.annotations = p.annotations)

include hsame

theorem reference_columns_congr : (budget : Nat) → (asked : Reference) →
    asked.columns p' budget = asked.columns p budget
  | budget, .column .. => by cases budget <;> rfl
  | budget + 1, .aliased name role => by
    simp only [Reference.columns, annotationOf_congr hsame]
    split
    · rfl
    · exact List.flatMap_congr fun inner _ => reference_columns_congr budget inner
  | 0, .aliased .. => rfl
  | budget, .outer _ | budget, .scalar _ | budget, .existence .. => by cases budget <;> rfl

/-- Which columns an expression reads depends on the annotations only. -/
theorem columns_congr (e : Expr) (role : Role) : p'.columns e role = p.columns e role := by
  have hbudget : p'.aliasBudget = p.aliasBudget := by rw [aliasBudget, aliasBudget, hsame]
  rw [columns, columns, hbudget]
  exact List.flatMap_congr fun asked _ => reference_columns_congr hsame _ asked

theorem filterRole_congr (e : Expr) : p'.filterRole e = p.filterRole e := by
  rw [filterRole, filterRole, exprAggregates_congr hsame]

end Congr

/-- plans nested in the annotations are steady -/
def SteadyNotes (db : Sql.Database) (p : Plan) : Prop :=
  ∀ note ∈ p.annotations, ∀ plan ∈ note.expr.subplans, plan.Steady db

theorem mem_subplans_of_node {e node : Expr} (hnode : node ∈ e.nodes) {plan : Plan}
    (h : node = .correlated plan ∨ ∃ negated, node = .existsRow plan negated) : plan ∈ e.subplans := by
  rcases h with rfl | ⟨negated, rfl⟩
  · exact List.mem_filterMap.2 ⟨_, hnode, rfl⟩
  · exact List.mem_filterMap.2 ⟨_, hnode, rfl⟩

/-- An alias agrees with itself, in plans with the same annotations. -/
theorem expand_agrees (htwins : a.Twins b) (hsame : p'.annotations = p.annotations) (hnotes : p.SteadyNotes db) :
    (budget : Nat) → ∀ {name role role' s s' t t' x y}, a.Tidy s → b.Tidy t →
    p.fragments.expand a.scope budget role name s = .ok (x, s') →
    p'.fragments.expand b.scope budget role' name t = .ok (y, t') → Agrees a b s s' t t' (x.eval db) (y.eval db)
  | 0, _, _, _, _, _, _, _, _, _, _, _, h, _ => by cases h
  | budget + 1, name, _, _, s, s', t, t', x, y, hs, ht, h, h' => by
    obtain ⟨e, he, hlower⟩ := expand_ok h
    obtain ⟨e', he', hlower'⟩ := expand_ok h'
    rw [annotationOf_congr hsame, he] at he'
    obtain rfl := Option.some.inj he'
    obtain ⟨note, hnote, rfl⟩ := Option.map_eq_some_iff.1 he
    refine Expr.lower_agrees htwins note.expr (fun node hnode => ?_) hs ht hlower hlower'
    exact ⟨fun plan hplan => hnotes note (List.mem_of_find?_eq_some hnote) plan (mem_subplans_of_node hnode hplan),
      fun _ _ _ _ _ _ _ _ _ hs ht hx hy => expand_agrees htwins hsame hnotes budget hs ht hx hy⟩

/-- Compiled in two statements, expressions read the same one by one. -/
structure AgreeAll (db : Sql.Database) (a b : Site) (s s' t t' : JoinState) (xs ys : List Sql.Expr) : Prop where
  grows : s.Extends s'
  tidy : a.Tidy s'
  grows' : t.Extends t'
  tidy' : b.Tidy t'
  same : ∀ u v, s'.Extends u → t'.Extends v → List.Forall₂ (Sql.Expr.Alike db (MeetsIn a b u v)) xs ys

theorem lowerAll_agrees (htwins : a.Twins b) (hsame : p'.annotations = p.annotations) (hnotes : p.SteadyNotes db) :
    {items items' : List (Expr × Role)} → items.map Prod.fst = items'.map Prod.fst →
    (∀ item ∈ items, ∀ plan ∈ item.1.subplans, plan.Steady db) → ∀ {s s' t t' xs ys}, a.Tidy s → b.Tidy t →
    p.lowerAll a.scope items s = .ok (xs, s') → p'.lowerAll b.scope items' t = .ok (ys, t') →
    AgreeAll db a b s s' t t' xs ys
  | [], [], _, _, s, s', t, t', xs, ys, hs, ht, h, h' => by
    obtain ⟨rfl, rfl⟩ := Lowering.pure_ok.1 h
    obtain ⟨rfl, rfl⟩ := Lowering.pure_ok.1 h'
    exact ⟨.refl _, hs, .refl _, ht, fun _ _ _ _ => .nil⟩
  | item :: rest, item' :: rest', hitems, hsteady, s, s', t, t', xs, ys, hs, ht, h, h' => by
    obtain ⟨x, more, s₁, rfl, hx, hmore⟩ := lowerAll_cons_ok h
    obtain ⟨y, more', t₁, rfl, hy, hmore'⟩ := lowerAll_cons_ok h'
    obtain ⟨hfirst, hrest⟩ := List.cons.inj hitems
    have haggregates : x.aggregates = y.aggregates := by
      rw [lower_aggregates hx, lower_aggregates hy, exprAggregates_congr hsame, hfirst]
    have hbudget : p'.aliasBudget = p.aliasBudget := by rw [aliasBudget, aliasBudget, hsame]
    rw [p.expansion_eq] at hx
    rw [p'.expansion_eq, ← hfirst, hbudget] at hy
    have hparts : ∀ node ∈ item.1.nodes, Matched db a b (p.fragments.expand a.scope p.aliasBudget)
        (p'.fragments.expand b.scope p.aliasBudget) node := fun node hnode =>
      ⟨fun plan hplan => hsteady item (by simp) plan (mem_subplans_of_node hnode hplan),
        fun _ _ _ _ _ _ _ _ _ hs ht hx hy => expand_agrees htwins hsame hnotes _ hs ht hx hy⟩
    have hone := Expr.lower_agrees htwins item.1 hparts hs ht hx hy
    have hall := lowerAll_agrees htwins hsame hnotes hrest (fun item hitem => hsteady item (by simp [hitem]))
      hone.tidy hone.tidy' hmore hmore'
    exact ⟨hone.grows.trans hall.grows, hall.tidy, hone.grows'.trans hall.grows', hall.tidy', fun u v hu hv =>
      .cons ⟨fun c c' hc => hone.same u v (hall.grows.trans hu) (hall.grows'.trans hv) c c' hc, haggregates⟩
        (hall.same u v hu hv)⟩

/-! ## Queries -/

section Queries

variable {R : Context → Context → Prop}

theorem forall₂_masked {ι : Type} (mask : ι → Bool) {xs ys : List Sql.Expr}
    (h : List.Forall₂ (Sql.Expr.Alike db R) xs ys) : (is : List ι) →
    List.Forall₂ (Sql.Expr.Alike db R) (((is.zip xs).filter fun pair => mask pair.1).map Prod.snd)
      (((is.zip ys).filter fun pair => mask pair.1).map Prod.snd) := by
  induction h with
  | nil => simp
  | cons hx _ ih =>
    intro is
    cases is with
    | nil => exact .nil
    | cons i rest =>
      rw [List.zip_cons_cons, List.zip_cons_cons]
      cases hmask : mask i with
      | true =>
        simp only [List.filter_cons, hmask, if_true, List.map_cons]
        exact List.Forall₂.cons hx (ih rest)
      | false => simpa [hmask] using ih rest

theorem orderBy_alike {keys keys' : List Sql.Expr} (h : List.Forall₂ (Sql.Expr.Alike db R) keys keys') :
    (ordering : List OrderKey) →
    let orderBy := fun (keys : List Sql.Expr) => List.zipWith (fun (key : OrderKey) e =>
      (⟨e, some key.direction.toSql⟩ : Sql.OrderKey)) ordering keys
    List.Forall₂ (Sql.Expr.Alike db R) ((orderBy keys).map (·.expr)) ((orderBy keys').map (·.expr)) ∧
      (orderBy keys).map (·.direction) = (orderBy keys').map (·.direction) := by
  induction h with
  | nil => simp
  | cons hx _ ih =>
    rintro (_ | ⟨key, rest⟩)
    · exact ⟨.nil, rfl⟩
    · exact ⟨.cons hx (ih rest).1, congrArg (List.cons (some key.direction.toSql)) (ih rest).2⟩

/-- The queries of a plan are alike when its expressions are compiled alike. -/
theorem query_alike {scope scope' : Scope} {outputs : List Output} {joins joins' : List Sql.Join}
    {results results' conditions conditions' keys keys' : List Sql.Expr}
    (hresults : List.Forall₂ (Sql.Expr.Alike db R) results results')
    (hconditions : List.Forall₂ (Sql.Expr.Alike db R) conditions conditions')
    (hkeys : List.Forall₂ (Sql.Expr.Alike db R) keys keys') :
    (p.query scope outputs joins results conditions keys).Alike db R
      (p.query scope' outputs joins' results' conditions' keys') := by
  have hfilters : ∀ (mask : Bool → Bool) (tests : List Sql.Expr),
      ((List.zipWith (fun e condition => (p.exprAggregates e, condition)) p.filters tests).filter fun f =>
        mask f.1).map Prod.snd =
      ((p.filters.zip tests).filter fun pair => mask (p.exprAggregates pair.1)).map Prod.snd := by
    intro mask tests
    rw [← List.map_uncurry_zip_eq_zipWith, List.filter_map, List.map_map]
    rfl
  have hwhere := forall₂_masked (fun e => !p.exprAggregates e) hconditions p.filters
  have hhaving := forall₂_masked (fun e => p.exprAggregates e) hconditions p.filters
  rw [← hfilters fun aggregates => !aggregates, ← hfilters fun aggregates => !aggregates] at hwhere
  rw [← hfilters fun aggregates => aggregates, ← hfilters fun aggregates => aggregates] at hhaving
  refine ⟨?_, fun c c' hc => Sql.conjunction_alike hwhere hc, ?_, fun c c' hc => Sql.conjunction_alike hhaving hc, ?_,
    (orderBy_alike hkeys p.ordering).1, (orderBy_alike hkeys p.ordering).2, rfl, rfl⟩
  · simpa [query, Function.comp_def] using forall₂_masked (fun _ => true) hresults outputs
  · simp only [query]
    split
    · exact forall₂_masked (fun o : Output => !p.exprAggregates o.term.expr) hresults outputs
    · exact .nil
  · simp only [query, Sql.isSome_conjunction, Sql.isEmpty_alike hhaving]

end Queries

/-! ## The tables of a SELECT -/

/-- the site of a SELECT whose root table has the number `n` -/
def site (p : Plan) (schema : Schema) (n : Nat) (outer : Option Outer) : Site :=
  ⟨.ofSelect schema p.root (tableAlias n) outer, n⟩

section Tables

variable {schema : Schema} {n n' : Nat} {outer outer' : Option Outer} {final final' : JoinState}

theorem site_tidy : (p.site schema n outer).Tidy { next := n + 1 } := by
  refine ⟨Nat.le_succ n, nofun, fun m hm heq => ?_⟩
  have hsame : n = m := tableAlias_inj.1 heq
  have hle : n + 1 ≤ m := hm
  omega

/-- the tables of a SELECT when all of its expressions are compiled -/
structure Settled (p : Plan) (schema : Schema) (n : Nat) (outer : Option Outer) (rs : List ColumnReference)
    (final : JoinState) : Prop where
  numbered : (p.site schema n outer).scope.Numbered n
  named : final.Named n
  parented : final.Parented (p.site schema n outer).scope
  joins : final.pathJoins = layout schema p.root rs

theorem lowerAll_settled (hnumbered : (p.site schema n outer).scope.Numbered n) {outputs : List Output}
    {xs : List Sql.Expr}
    (h : p.lowerAll (p.site schema n outer).scope (p.items outputs) { next := n + 1 } = .ok (xs, final)) :
    p.Settled schema n outer (p.references outputs) final := by
  have hresolves := lowerAll_resolves (fun _ name => throw (.unknownPath p.root.name name)) h
  have hadvances := resolves_advance hnumbered.qualifier
    (fun r hr => suitable_sources (fun inner _ => inner.isScoped) hr) (.init n) nofun hresolves
  have hparented := hresolves.parented (fun r hr => (of_mem_sources hr).1) fun _ hnode => absurd hnode List.not_mem_nil
  exact ⟨hnumbered, hadvances.named, hparented, lowerAll_layout h⟩

theorem Settled.joinFrames {rs : List ColumnReference} (h : p.Settled schema n outer rs final) (f : Frame) :
    let scope := (p.site schema n outer).scope
    Sql.joinFrames db final.joins (Sql.sourceFrames db (some (.table scope.rootTable)) f) =
      (joinedPaths db schema p.root rs).map fun rows => scope.frame final.nodes rows f := by
  intro scope
  rw [joinedPaths, ← h.joins]
  exact sourceFrames_joinedRows h.numbered h.named (h.joins ▸ layout_laidOut) h.parented

/-- Numbers of nested statements name nothing in scope when they name nothing around. -/
theorem site_clear (rows : PathRows) {f : Frame}
    (hf : ∀ m, n ≤ m → m < final.next → f (some (tableAlias m)) = none) :
    (p.site schema n outer).Clear final ((p.site schema n outer).scope.frame final.nodes rows f) := by
  intro m hle hlt hroot hnodes
  rw [Scope.frame_unnamed _ _ (fun heq => hroot (by simp [Scope.asOuter, heq])) hnodes]
  exact hf m hle hlt

/-- Two SELECTs hold the same rows when these are the same at the root and on the paths that both join. -/
theorem Settled.meets {rs rs' : List ColumnReference} (h : p.Settled schema n outer rs final)
    (h' : p'.Settled schema n' outer' rs' final') {rows rows' : PathRows} {f g : Frame} (hroot : rows [] = rows' [])
    (hjoined : ∀ path ∈ final.nodes.map (·.path), path ∈ final'.nodes.map (·.path) → rows path = rows' path)
    (houter : ∀ o o', outer = some o → outer' = some o' → f (some o.name) = g (some o'.name))
    (hf : ∀ m, n ≤ m → m < final.next → f (some (tableAlias m)) = none)
    (hg : ∀ m, n' ≤ m → m < final'.next → g (some (tableAlias m)) = none) :
    Meets (p.site schema n outer) (p'.site schema n' outer') final final'
      ((p.site schema n outer).scope.frame final.nodes rows f)
      ((p'.site schema n' outer').scope.frame final'.nodes rows' g) := by
  have hstart : ∀ {p : Plan} {n outer final rs rows f}, p.Settled schema n outer rs final →
      (p.site schema n outer).scope.frame final.nodes rows f (p.site schema n outer).scope.qualifier = rows [] :=
    fun h => Scope.frame_root _ _ h.numbered _
  refine ⟨?_, ?_, ?_, ?_, site_clear rows hf, site_clear rows' hg⟩
  · rw [hstart h, hstart h', hroot]
  · exact (hstart h).trans (hroot.trans (hstart h').symm)
  · intro node hnode other hother hpath
    rw [Scope.frame_node _ _ h.numbered h.named hnode, Scope.frame_node _ _ h'.numbered h'.named hother, ← hpath]
    exact hjoined _ (List.mem_map_of_mem hnode) (hpath ▸ List.mem_map_of_mem hother)
  · intro o o' ho ho'
    rw [Scope.frame_enclosing _ _ h.numbered h.named ho, Scope.frame_enclosing _ _ h'.numbered h'.named ho']
    exact houter o o' ho ho'

/-- Without a row of their own they hold the rows around them. -/
theorem Settled.meets_around {rs rs' : List ColumnReference} (h : p.Settled schema n outer rs final)
    (h' : p'.Settled schema n' outer' rs' final') {f g : Frame}
    (houter : ∀ o o', outer = some o → outer' = some o' → f (some o.name) = g (some o'.name))
    (hf : ∀ m, n ≤ m → m < final.next → f (some (tableAlias m)) = none)
    (hg : ∀ m, n' ≤ m → m < final'.next → g (some (tableAlias m)) = none) :
    Meets (p.site schema n outer) (p'.site schema n' outer') final final' f g := by
  have hnone : ∀ {n : Nat} {final : JoinState} {f : Frame}, final.Named n →
      (∀ m, n ≤ m → m < final.next → f (some (tableAlias m)) = none) → f (some (tableAlias n)) = none ∧
        ∀ node ∈ final.nodes, f (some node.aliasName) = none := by
    intro n final f hnamed hf
    refine ⟨hf n (Nat.le_refl n) hnamed.beyond, fun node hnode => ?_⟩
    obtain ⟨k, hle, hlt, hname⟩ := hnamed.numbered node hnode
    rw [hname]
    exact hf k (Nat.le_of_lt hle) hlt
  obtain ⟨hroot, hjoins⟩ := hnone h.named hf
  obtain ⟨hroot', hjoins'⟩ := hnone h'.named hg
  exact ⟨hroot.trans hroot'.symm, hroot.trans hroot'.symm,
    fun node hnode other hother _ => (hjoins node hnode).trans (hjoins' other hother).symm, houter,
    fun m hle hlt _ _ => hf m hle hlt, fun m hle hlt _ _ => hg m hle hlt⟩

end Tables

/-! ## Nested plans -/

theorem mem_items {outputs : List Output} {item : Expr × Role} (h : item ∈ p.items outputs) :
    (∃ term : OutputTerm, item.1 = term.expr) ∨ item.1 ∈ p.expressions := by
  simp only [items, List.mem_append, List.mem_map] at h
  rcases h with (⟨o, -, rfl⟩ | ⟨e, he, rfl⟩) | ⟨key, hkey, rfl⟩
  · exact .inl ⟨o.term, rfl⟩
  · exact .inr (List.mem_append_left _ (List.mem_append_left _ he))
  · exact .inr (List.mem_append_right _ (List.mem_map_of_mem hkey))

/-- The statements of one plan are parallel where both hold the same row open. -/
theorem select_parallel (hnested : ∀ inner ∈ p.subplans, inner.Steady db) {schema : Schema} {purpose : Purpose}
    (hpurpose : purpose = .rows ∨ purpose = .scalar) {o o' : Outer} {n n' m m' : Nat}
    {selection selection' : Selection} (hentity : o.entity = o'.entity) (ho : ∀ k, n ≤ k → o.name ≠ tableAlias k)
    (ho' : ∀ k, n' ≤ k → o'.name ≠ tableAlias k) (h : p.select schema purpose (some o) n = .ok (selection, m))
    (h' : p.select schema purpose (some o') n' = .ok (selection', m')) {f g : Frame}
    (hopen : f (some o.name) = g (some o'.name)) (hf : ∀ k, n ≤ k → k < m → f (some (tableAlias k)) = none)
    (hg : ∀ k, n' ≤ k → k < m' → g (some (tableAlias k)) = none) :
    selection.query.Parallel db selection'.query f g := by
  obtain ⟨outputs, final, houtputs, hclauses, -, rfl⟩ := select_ok hpurpose h
  obtain ⟨outputs', final', houtputs', hclauses', -, rfl⟩ := select_ok hpurpose h'
  obtain rfl : outputs = outputs' := (Prod.mk.inj (Except.ok.inj (houtputs.symm.trans houtputs'))).1
  obtain ⟨results, conditions, keys, hresults, hconditions, -, hlower, hquery⟩ := lowerClauses_ok hclauses
  obtain ⟨results', conditions', keys', hresults', hconditions', -, hlower', hquery'⟩ := lowerClauses_ok hclauses'
  have htwins : (p.site schema n (some o)).Twins (p.site schema n' (some o')) := by
    refine ⟨rfl, rfl, fun _ _ h h' => ?_⟩
    obtain rfl := Option.some.inj h
    obtain rfl := Option.some.inj h'
    exact hentity
  have hitems : ∀ item ∈ p.items outputs, ∀ plan ∈ item.1.subplans, plan.Steady db := by
    intro item hitem plan hplan
    rcases mem_items hitem with ⟨term, hterm⟩ | hmem
    · cases term <;> simp [hterm, OutputTerm.expr, Expr.subplans, Expr.nodes] at hplan
    · exact hnested plan (List.mem_flatMap.2 ⟨_, hmem, hplan⟩)
  have hnotes : p.SteadyNotes db := fun note hnote plan hplan => by
    refine hnested plan (List.mem_flatMap.2 ⟨note.expr, ?_, hplan⟩)
    exact List.mem_append_left _ (List.mem_append_right _ (List.mem_map_of_mem hnote))
  have hagree := lowerAll_agrees htwins rfl hnotes rfl hitems site_tidy site_tidy hlower hlower'
  have halike := hagree.same final final' (.refl _) (.refl _)
  obtain ⟨hfirst, hkeys⟩ := forall₂_append_inj halike (by simp [hresults, hresults', hconditions, hconditions'])
  obtain ⟨houtputs, htests⟩ := forall₂_append_inj hfirst (by rw [hresults, hresults'])
  have hsettled := lowerAll_settled ⟨rfl, fun o₁ h₁ => Option.some.inj h₁ ▸ ho⟩ hlower
  have hsettled' := lowerAll_settled ⟨rfl, fun o₁ h₁ => Option.some.inj h₁ ▸ ho'⟩ hlower'
  have houter : ∀ o₁ o₂, some o = some o₁ → some o' = some o₂ → f (some o₁.name) = g (some o₂.name) := by
    intro o₁ o₂ h₁ h₂
    rw [← Option.some.inj h₁, ← Option.some.inj h₂, hopen]
  have hmeets : ∀ rows : PathRows, Meets (p.site schema n (some o)) (p.site schema n' (some o')) final final'
      ((p.site schema n (some o)).scope.frame final.nodes rows f)
      ((p.site schema n' (some o')).scope.frame final'.nodes rows g) := fun rows =>
    hsettled.meets hsettled' rfl (fun _ _ _ => rfl) houter hf hg
  rw [hquery, hquery']
  refine ⟨query_alike houtputs htests hkeys, hsettled.joinFrames f, hsettled'.joinFrames g,
    fun rows group => ⟨hmeets rows, ?_⟩, ⟨?_, .nil⟩⟩
  · exact List.forall₂_map_left_iff.2 (List.forall₂_map_right_iff.2 (List.forall₂_same.2 fun rows _ => hmeets rows))
  · exact hsettled.meets_around hsettled' houter hf hg

/-- What a nested plan gives depends on the row open to it only. -/
theorem isSteady (db : Sql.Database) (p : Plan) : p.Steady db := by
  induction p using induction_subplans with
  | step p hnested =>
    intro schema purpose o o' n n' selection selection' m m' hpurpose hentity ho ho' h h' f g hopen hf hg
    rcases hpurpose with rfl | rfl
    · exact (select_parallel hnested (.inr rfl) hentity ho ho' h h' hopen hf hg).eval_eq
    · rw [select_reduced schema rfl] at h h'
      obtain ⟨⟨rows, k⟩, hrows, hpack⟩ := map_ok h
      obtain ⟨⟨rows', k'⟩, hrows', hpack'⟩ := map_ok h'
      obtain ⟨rfl, rfl⟩ := Prod.mk.inj hpack
      obtain ⟨rfl, rfl⟩ := Prod.mk.inj hpack'
      have hparallel : rows.query.Parallel db rows'.query f g := by
        refine select_parallel hnested (.inl rfl) hentity ho ho' hrows hrows' hopen (fun i hle hlt => hf i hle ?_)
          fun i hle hlt => hg i hle ?_
        · exact Nat.lt_of_lt_of_le hlt (Nat.le_add_right _ _)
        · exact Nat.lt_of_lt_of_le hlt (Nat.le_add_right _ _)
      cases hwrapped : p.isWrapped <;> cases hpaged : p.isPaged
      · exact (hparallel.unordered.selecting 1).eval_eq
      · exact (hparallel.selecting 1).eval_eq
      · exact Query.around_eval_eq 1 (congrArg List.length hparallel.unordered.eval_eq) _ _
      · exact Query.around_eval_eq 1 (congrArg List.length hparallel.eval_eq) _ _

end Plan

end RelQuery
