/-
The joins of every statement, exactly.

A statement joins the relation paths of the columns that it refers to: each prefix of such a path once, onto the table
of the prefix before it, and by an inner join where one of the columns asks for that. Since a column that asks for an
inner join somewhere asks for inner joins all the way there, no inner join stands below an outer one. All of this holds
for every plan that compiles, whether or not its references have been resolved in the schema, and for the statements
nested in it.
- `mem_references_iff`: the columns that a statement refers to, with aliases followed as far as they lead.
- `lowerAll_exactJoins`: the joins of expressions compiled one after another.
- `select_joined`: by induction on the plans nested in a plan, the joins of all its statements.
-/
import RelQuery.Proofs.Statement.Layout

namespace RelQuery

open Sql (Leaf Query)

/-! ## What a statement refers to -/

/-- A reference reads a column: the one that it is, or one that the expression of its alias refers to. What stands in a
subplan is read there. -/
inductive Plan.Reads (p : Plan) : Reference → ColumnReference → Prop
  | column {ref : FieldRef} {role : Role} : Reads p (.column ref role) ⟨ref, role⟩
  | through {name : String} {role : Role} {e : Expr} {r : Reference} {c : ColumnReference} :
    p.annotationOf name = some e → r ∈ e.references role → Reads p r c → Reads p (.aliased name role) c

/-- a statement with these outputs refers to a column: in an output, a filter or an order key -/
def Plan.RefersTo (p : Plan) (outputs : List Output) (c : ColumnReference) : Prop :=
  ∃ item ∈ p.items outputs, ∃ r ∈ item.1.references item.2, p.Reads r c

section Reading

variable {p : Plan} {scope : Scope} {expand : Expansion} {c : ColumnReference}

theorem Reference.reads_of_mem_columns : (budget : Nat) → {r : Reference} → c ∈ r.columns p budget → p.Reads r c
  | _, .column ref role, h => by
    obtain rfl : c = ⟨ref, role⟩ := by simpa [columns] using h
    exact .column
  | budget + 1, .aliased name role, h => by
    simp only [columns] at h
    split at h
    · cases h
    · next e he =>
      obtain ⟨inner, hinner, hc⟩ := List.mem_flatMap.1 h
      exact .through he hinner (reads_of_mem_columns budget hc)
  | 0, .aliased .., h => by cases h
  | budget, .outer _, h => by cases budget <;> cases h
  | budget, .scalar _, h => by cases budget <;> cases h
  | budget, .existence .., h => by cases budget <;> cases h

/-- A reference that is resolved has its aliases followed to the end. -/
theorem Reference.mem_columns_of_reads : (budget : Nat) → {r : Reference} → {s s' : JoinState} → {x : Sql.Expr} →
    r.resolve scope (p.fragments.expand scope budget) s = .ok (x, s') → p.Reads r c → c ∈ r.columns p budget
  | budget, .column ref role, _, _, _, _, hreads => by
    cases hreads
    simp [columns]
  | 0, .aliased name role, _, _, _, h, _ => by cases h
  | budget + 1, .aliased name role, _, _, _, h, hreads => by
    obtain ⟨e, he, hlower⟩ := Plan.expand_ok h
    cases hreads with
    | through hannotation hinner hreads =>
      obtain rfl := Option.some.inj (he.symm.trans hannotation)
      obtain ⟨t, y, t', hresolve, -⟩ := (e.lower_resolves hlower).of_mem hinner
      simp only [columns, he]
      exact List.mem_flatMap.2 ⟨_, hinner, mem_columns_of_reads budget hresolve hreads⟩
  | _, .outer _, _, _, _, _, hreads | _, .scalar _, _, _, _, _, hreads | _, .existence .., _, _, _, _, hreads => by
    cases hreads

/-- The columns that a compiled statement refers to, aliases followed as far as they lead. -/
theorem Plan.mem_references_iff {outputs : List Output} {s s' : JoinState} {xs : List Sql.Expr}
    (h : p.lowerAll scope (p.items outputs) s = .ok (xs, s')) : c ∈ p.references outputs ↔ p.RefersTo outputs c := by
  constructor
  · intro hc
    obtain ⟨item, hitem, hcolumns⟩ := List.mem_flatMap.1 hc
    obtain ⟨r, hr, hmem⟩ := List.mem_flatMap.1 hcolumns
    exact ⟨item, hitem, r, hr, Reference.reads_of_mem_columns p.aliasBudget hmem⟩
  · rintro ⟨item, hitem, r, hr, hreads⟩
    obtain ⟨t, x, t', hlower⟩ := lowerAll_item_ok hitem h
    rw [p.expansion_eq] at hlower
    obtain ⟨u, y, u', hresolve, -⟩ := (item.1.lower_resolves hlower).of_mem hr
    exact List.mem_flatMap.2 ⟨item, hitem, List.mem_flatMap.2
      ⟨r, hr, Reference.mem_columns_of_reads p.aliasBudget hresolve hreads⟩⟩

end Reading

/-! ## Hops -/

/-- In its role a reference along hops asks for inner joins all the way to a path. -/
inductive Schema.AsksInner (schema : Schema) (role : Role) : Entity → List Relation → List String → Prop
  | hop {owner : Entity} {relation : Relation} {rest : List Relation} :
    joinKind role relation owner = .inner → AsksInner schema role owner (relation :: rest) [relation.name]
  | beyond {owner target : Entity} {relation : Relation} {rest : List Relation} {path : List String} :
    joinKind role relation owner = .inner → schema.entity relation.target = .ok target →
    AsksInner schema role target rest path → AsksInner schema role owner (relation :: rest) (relation.name :: path)

section Hops

variable {schema : Schema} {role : Role} {owner : Entity}

theorem Schema.AsksInner.ne_nil {hops : List Relation} {path : List String}
    (h : schema.AsksInner role owner hops path) : path ≠ [] := by
  cases h <;> simp

/-- Asked for at a path, inner joins are asked for at its parent. -/
theorem Schema.AsksInner.dropLast {hops : List Relation} {path : List String}
    (h : schema.AsksInner role owner hops path) (hparent : path.dropLast ≠ []) :
    schema.AsksInner role owner hops path.dropLast := by
  induction h with
  | hop => exact absurd rfl hparent
  | @beyond owner target relation rest path hkind htarget hrest ih =>
    rw [List.dropLast_cons_of_ne_nil hrest.ne_nil]
    by_cases hlast : path.dropLast = []
    · rw [hlast]
      exact .hop hkind
    · exact .beyond hkind htarget (ih hlast)

theorem mem_hopPaths {other : List String} : {hops : List Relation} → {path : List String} →
    (other ∈ hopPaths hops path ↔ ∃ more, other = path ++ more ∧ more ≠ [] ∧ more <+: hops.map (·.name))
  | [], path => by simp +contextual [hopPaths]
  | relation :: rest, path => by
    rw [hopPaths, List.mem_cons, mem_hopPaths, List.map_cons]
    constructor
    · rintro (rfl | ⟨more, rfl, -, hprefix⟩)
      · exact ⟨[relation.name], rfl, by simp, by simp⟩
      · exact ⟨relation.name :: more, by simp, by simp, List.cons_prefix_cons.2 ⟨rfl, hprefix⟩⟩
    · rintro ⟨more, rfl, hne, hprefix⟩
      cases more with
      | nil => exact absurd rfl hne
      | cons name more =>
        obtain ⟨rfl, hmore⟩ := List.cons_prefix_cons.1 hprefix
        by_cases hlast : more = []
        · exact .inl (by rw [hlast])
        · exact .inr ⟨more, by simp, hlast, hmore⟩

theorem mem_innerHops {other : List String} : {hops : List Relation} → {owner : Entity} → {path : List String} →
    {outerJoined : Bool} → schema.Finds hops →
    (other ∈ innerHops schema role hops owner path outerJoined ↔
      outerJoined = false ∧ ∃ more, other = path ++ more ∧ schema.AsksInner role owner hops more)
  | [], owner, path, outerJoined, _ => by
    refine iff_of_false (by simp [innerHops]) ?_
    rintro ⟨-, more, -, hasks⟩
    cases hasks
  | relation :: rest, owner, path, outerJoined, hfound => by
    obtain ⟨target, htarget⟩ := hfound relation (by simp)
    have hrest : schema.Finds rest := fun hop hhop => hfound hop (by simp [hhop])
    cases outerJoined with
    | true => simp [innerHops, htarget, mem_innerHops hrest]
    | false =>
      by_cases hkind : joinKind role relation owner = .inner
      · simp only [innerHops, htarget, hkind, if_true, Bool.false_eq_true, if_false, List.mem_append, List.mem_singleton,
          Bool.false_or, reduceCtorEq, decide_false, mem_innerHops hrest, true_and]
        constructor
        · rintro (rfl | ⟨more, rfl, hasks⟩)
          · exact ⟨[relation.name], rfl, .hop hkind⟩
          · exact ⟨relation.name :: more, by simp, .beyond hkind (Schema.entity_eq_ok.2 htarget) hasks⟩
        · rintro ⟨more, rfl, hasks⟩
          cases hasks with
          | hop => exact .inl rfl
          | @beyond _ reached _ _ more _ hreached hasks =>
            obtain rfl := Option.some.inj (htarget.symm.trans (Schema.entity_eq_ok.1 hreached))
            exact .inr ⟨more, by simp, hasks⟩
      · have hleft : joinKind role relation owner = .left := by
          cases hcase : joinKind role relation owner with
          | inner => exact absurd hcase hkind
          | left => rfl
        refine iff_of_false (by simp [innerHops, htarget, hleft, mem_innerHops hrest]) ?_
        rintro ⟨-, more, -, hasks⟩
        cases hasks with
        | hop hinner | beyond hinner => exact hkind hinner

/-- The paths joined are the prefixes of the columns' paths. -/
theorem mem_layout_iff {root : Entity} {rs : List ColumnReference} (hfinds : ∀ c ∈ rs, schema.Finds c.ref.hops)
    {path : List String} : path ∈ (layout schema root rs).map (·.path) ↔
      path ≠ [] ∧ ∃ c ∈ rs, path <+: c.ref.hops.map (·.name) := by
  rw [mem_paths_layout hfinds, List.mem_flatMap]
  simp only [mem_hopPaths, List.nil_append]
  constructor
  · rintro ⟨c, hc, more, rfl, hne, hprefix⟩
    exact ⟨hne, c, hc, hprefix⟩
  · rintro ⟨hne, c, hc, hprefix⟩
    exact ⟨c, hc, path, rfl, hne, hprefix⟩

/-- An inner join stands where a column asks for inner joins all the way. -/
theorem isInner_layout_iff {root : Entity} {rs : List ColumnReference} (hfinds : ∀ c ∈ rs, schema.Finds c.ref.hops)
    {path : List String} : IsInnerIn (layout schema root rs) path ↔
      ∃ c ∈ rs, schema.AsksInner c.role root c.ref.hops path := by
  rw [isInner_layout, List.mem_flatMap]
  refine exists_congr fun c => and_congr_right fun hc => ?_
  rw [mem_innerHops (hfinds c hc)]
  simp

/-- the join follows a hop of a column to the table of the hop's target -/
def PathJoin.Follows (schema : Schema) (c : ColumnReference) (join : PathJoin) : Prop :=
  ∃ before after target, c.ref.hops = before ++ join.relation :: after ∧
    join.path = (before ++ [join.relation]).map (·.name) ∧ schema.entity join.relation.target = .ok target ∧
    join.table = target.table

theorem PathJoin.follows_strengthen {c : ColumnReference} {join : PathJoin} (path : List String) (kind : Sql.JoinKind) :
    (join.strengthen path kind).Follows schema c ↔ join.Follows schema c := by
  unfold strengthen
  split <;> rfl

theorem askHops_follows {rs : List ColumnReference} {c : ColumnReference} (hc : c ∈ rs) :
    {hops before : List Relation} → {owner : Entity} → {outerJoined : Bool} → {joins : List PathJoin} →
    c.ref.hops = before ++ hops → (∀ join ∈ joins, ∃ c ∈ rs, join.Follows schema c) →
    ∀ join ∈ askHops schema c.role hops owner (before.map (·.name)) outerJoined joins, ∃ c ∈ rs, join.Follows schema c
  | [], _, _, _, _, _, h => h
  | relation :: rest, before, owner, outerJoined, joins, hhops, h => by
    unfold askHops
    split
    · exact h
    · next target htarget =>
      have hpath : before.map (·.name) ++ [relation.name] = (before ++ [relation]).map (·.name) := by simp
      rw [hpath]
      refine askHops_follows hc (by simp [hhops]) (forall_askPath (fun join hjoin => ?_) h ?_)
      · obtain ⟨other, hother, hfollows⟩ := hjoin
        exact ⟨other, hother, (PathJoin.follows_strengthen _ _).2 hfollows⟩
      · exact ⟨c, hc, before, rest, target, hhops, rfl, Schema.entity_eq_ok.2 htarget, rfl⟩

/-- Every join laid out follows a hop of one of the columns. -/
theorem layout_follows {root : Entity} {rs : List ColumnReference} :
    ∀ join ∈ layout schema root rs, ∃ c ∈ rs, join.Follows schema c := by
  have hfold : ∀ (cs : List ColumnReference) {joins : List PathJoin}, cs ⊆ rs →
      (∀ join ∈ joins, ∃ c ∈ rs, join.Follows schema c) →
      ∀ join ∈ cs.foldl (ColumnReference.ask schema root) joins, ∃ c ∈ rs, join.Follows schema c := by
    intro cs
    induction cs with
    | nil => exact fun _ h => h
    | cons c rest ih =>
      intro joins hcs h
      obtain ⟨hc, hrest⟩ := List.cons_subset.1 hcs
      have hfirst : ∀ join ∈ askHops schema c.role ([] ++ c.ref.hops) root (([] : List Relation).map (·.name)) false
          joins,
          ∃ c ∈ rs, join.Follows schema c := askHops_follows hc rfl h
      exact ih hrest hfirst
  exact hfold rs (List.Subset.refl _) nofun

end Hops

/-! ## The joins of one statement -/

/-- The joins of a statement with the root table `rootName`, which refers to these columns and no others. -/
structure ExactJoins (schema : Schema) (root : Entity) (rootName : String) (RefersTo : ColumnReference → Prop)
    (nodes : List JoinNode) : Prop where
  /-- no path is joined twice -/
  distinct : (nodes.map (·.path)).Nodup
  /-- each table has a name of its own -/
  named : (rootName :: nodes.map (·.aliasName)).Nodup
  /-- the paths joined are the prefixes of the columns' paths -/
  paths : ∀ path, path ∈ nodes.map (·.path) ↔
    path ≠ [] ∧ ∃ c, RefersTo c ∧ path <+: c.ref.hops.map (·.name)
  /-- a join is made by the columns of a relation which stands there in the path of a column -/
  follows : ∀ node ∈ nodes, ∃ c, RefersTo c ∧ node.pathJoin.Follows schema c
  /-- it is made onto the root table, or onto an earlier join at the path before it, which is inner if it is inner -/
  parents : ∀ before node after, nodes = before ++ node :: after →
    (node.path.dropLast = [] ∧ node.parent = rootName) ∨
      ∃ earlier ∈ before, earlier.path = node.path.dropLast ∧ earlier.aliasName = node.parent ∧
        (node.kind = .inner → earlier.kind = .inner)
  /-- it is inner when a column asks for inner joins all the way to it -/
  inner : ∀ node ∈ nodes, node.kind = .inner ↔
    ∃ c, RefersTo c ∧ schema.AsksInner c.role root c.ref.hops node.path

section Found

variable {scope : Scope} {expand : Expansion}

theorem Scope.joinHops_finds {role : Role} : {hops : List Relation} → {owner : Entity} → {parent name : String} →
    {path : List String} → {outerJoined : Bool} → {s s' : JoinState} →
    scope.joinHops role hops owner parent path outerJoined s = .ok (name, s') → scope.schema.Finds hops
  | [], _, _, _, _, _, _, _, _ => nofun
  | relation :: rest, _, _, _, _, _, _, _, h => by
    obtain ⟨target, kind, htarget, -, hrest⟩ := joinHops_cons_ok h
    intro hop hhop
    rcases List.mem_cons.1 hhop with rfl | hhop
    · exact ⟨target, Schema.entity_eq_ok.1 htarget⟩
    · exact joinHops_finds hrest hop hhop

/-- The hops of resolved references lead to entities. -/
theorem Resolves.finds {rs : List Reference} (hplain : ∀ r ∈ rs, ∀ name role, r ≠ .aliased name role)
    {s s' : JoinState} {leaves : List Leaf} (h : Resolves scope expand rs s s' leaves) :
    ∀ c ∈ rs.filterMap Reference.column?, scope.schema.Finds c.ref.hops := by
  intro c hc
  obtain ⟨r, hr, hcolumn⟩ := List.mem_filterMap.1 hc
  obtain ⟨t, x, t', hresolve, -⟩ := h.of_mem hr
  rcases r.resolve_cases (hplain r hr) hresolve with ⟨ref, role, _, name, rfl, -, hjoin⟩ | ⟨-, hlocal⟩
  · obtain rfl := Option.some.inj hcolumn
    exact Scope.joinHops_finds hjoin
  · rw [hlocal c hcolumn]
    exact nofun

end Found

section LaidOut

variable {nodes : List JoinNode} {node : JoinNode}

/-- What a join starts from stands before it. -/
theorem LaidOut.parent_mem {before after : List JoinNode}
    (h : LaidOut ((before ++ node :: after).map JoinNode.pathJoin)) {parent : JoinNode}
    (hmem : parent ∈ before ++ node :: after) (hpath : parent.path = node.path.dropLast) : parent ∈ before := by
  have hnode : node ∈ before ++ node :: after := by simp
  have horder : (before ++ node :: after).Pairwise fun a b => a.path ≠ b.path ∧ a.path.dropLast ≠ b.path :=
    List.pairwise_map.1 h.order
  rcases List.mem_append.1 hmem with hbefore | hlater
  · exact hbefore
  · exfalso
    rcases List.mem_cons.1 hlater with rfl | hafter
    · have hne : parent.path ≠ [] := h.paths parent.pathJoin (List.mem_map_of_mem hnode)
      have hlength := congrArg List.length hpath
      have hpositive := List.length_pos_of_ne_nil hne
      rw [List.length_dropLast] at hlength
      omega
    · have hstart := (List.pairwise_cons.1 (List.pairwise_append.1 horder).2.1).1 parent hafter
      exact hstart.2 hpath.symm

end LaidOut

namespace Plan

variable {p : Plan} {scope : Scope} {base : Nat}

/-- The joins of a plan's expressions compiled in one statement are exact. -/
theorem lowerAll_exactJoins (hqualifier : scope.qualifier = some (tableAlias base)) {outputs : List Output}
    {final : JoinState} {xs : List Sql.Expr}
    (h : p.lowerAll scope (p.items outputs) { next := base + 1 } = .ok (xs, final)) (hnamed : final.Named base) :
    ExactJoins scope.schema scope.root (tableAlias base) (p.RefersTo outputs) final.nodes := by
  have hplain : ∀ r ∈ (p.items outputs).flatMap fun item => p.sources item.1 item.2,
      ∀ name role, r ≠ .aliased name role := fun r hr => (of_mem_sources hr).1
  have hresolves := lowerAll_resolves (fun _ name => throw (.unknownPath p.root.name name)) h
  have hlayout : final.nodes.map JoinNode.pathJoin = layout scope.schema scope.root (p.references outputs) :=
    lowerAll_layout h
  have hlaid : LaidOut (final.nodes.map JoinNode.pathJoin) := hlayout ▸ layout_laidOut
  have hfinds : ∀ c ∈ p.references outputs, scope.schema.Finds c.ref.hops := by
    rw [references, ← p.filterMap_sources]
    exact hresolves.finds hplain
  have hmem : ∀ c, c ∈ p.references outputs ↔ p.RefersTo outputs c := fun c => mem_references_iff h
  have hinner : ∀ node ∈ final.nodes, node.kind = .inner ↔
      ∃ c, p.RefersTo outputs c ∧ scope.schema.AsksInner c.role scope.root c.ref.hops node.path := by
    intro node hnode
    have hkind : IsInnerIn (final.nodes.map JoinNode.pathJoin) node.path ↔ node.kind = .inner :=
      hlaid.isInner_iff (List.mem_map_of_mem hnode)
    rw [← hkind, hlayout, isInner_layout_iff hfinds]
    simp only [hmem]
  have hpaths : (final.nodes.map JoinNode.pathJoin).map (·.path) = final.nodes.map (·.path) := List.map_map
  refine ⟨hpaths ▸ hlaid.nodup, hnamed.nodup_names, ?_, ?_, ?_, hinner⟩
  · intro path
    rw [← hpaths, hlayout, mem_layout_iff hfinds]
    simp only [hmem]
  · intro node hnode
    obtain ⟨c, hc, hfollows⟩ := layout_follows node.pathJoin (hlayout ▸ List.mem_map_of_mem hnode)
    exact ⟨c, (hmem c).1 hc, hfollows⟩
  · intro before node after hnodes
    have hnode : node ∈ final.nodes := by simp [hnodes]
    have hparented : final.Parented scope := hresolves.parented hplain fun node hnode => by cases hnode
    rcases hparented node hnode with ⟨hroot, hname⟩ | ⟨parent, hparent, hpath, hname⟩
    · exact .inl ⟨hroot, Option.some.inj (hname.symm.trans hqualifier)⟩
    · refine .inr ⟨parent, ?_, hpath, hname, fun hkind => ?_⟩
      · rw [hnodes] at hparent hlaid
        exact hlaid.parent_mem hparent hpath
      · -- the column that asks for the inner join here asks for one at the parent
        obtain ⟨c, hc, hasks⟩ := (hinner node hnode).1 hkind
        have hne : parent.path ≠ [] := hlaid.paths parent.pathJoin (List.mem_map_of_mem hparent)
        exact (hinner parent hparent).2 ⟨c, hc, hpath ▸ hasks.dropLast (hpath ▸ hne)⟩

end Plan

/-! ## The joins of all statements -/

/-- A statement from a plan's root table has exactly the joins of the columns that the plan refers to for a purpose. -/
def Plan.JoinsExactly (schema : Schema) (p : Plan) (purpose : Purpose) (q : Query) : Prop :=
  ∃ outputs shape rootName nodes, p.outputs schema purpose = .ok (outputs, shape) ∧
    q.source = some (.table ⟨p.root.table, some rootName⟩) ∧ q.joins = nodes.map JoinNode.join ∧
    ExactJoins schema p.root rootName (p.RefersTo outputs) nodes

mutual

/-- A statement of a plan for a purpose has exact joins, and so have the statements nested in it; around another as its
derived table it has none itself. -/
inductive Plan.Joined (schema : Schema) : Plan → Purpose → Query → Prop
  | own {p : Plan} {purpose : Purpose} {q : Query} : p.JoinsExactly schema purpose q →
    (∀ inner, .statement inner ∈ q.leaves → Plan.JoinedWithin schema p inner) → Plan.Joined schema p purpose q
  | around {p : Plan} {purpose : Purpose} {column : Sql.Expr} {q : Query} {name : String} :
    column.leaves = [] → Plan.Joined schema p purpose q → Plan.Joined schema p purpose (.around column q name)

/-- a statement of one of the plans nested in a plan -/
inductive Plan.JoinedWithin (schema : Schema) : Plan → Query → Prop
  | subplan {p inner : Plan} {purpose : Purpose} {q : Query} :
    inner ∈ p.subplans → Plan.Joined schema inner purpose q → Plan.JoinedWithin schema p q

end

namespace Plan

/-- whether the statements of a plan have exact joins wherever they are compiled, and take names from the supply -/
def HasExactJoins (p : Plan) : Prop :=
  ∀ schema purpose outer next selection n, p.select schema purpose outer next = .ok (selection, n) →
    next < n ∧ p.Joined schema purpose selection.query

section Nested

variable {p : Plan} {scope : Scope} {expand : Expansion} {base : Nat}

theorem nested_joined {inner : Plan} {purpose : Purpose} (hinner : inner ∈ p.subplans) (hexact : inner.HasExactJoins)
    {s s' : JoinState} {q : Query} (hnamed : s.Named base)
    (h : Lowering.nested inner scope (fun schema outer next => inner.select schema purpose outer next) s =
      .ok (q, s')) : s'.Named base ∧ p.JoinedWithin scope.schema q := by
  obtain ⟨-, selection, n, hselect, rfl, rfl⟩ := nested_ok h
  obtain ⟨hnext, hjoined⟩ := hexact _ _ _ _ _ _ hselect
  refine ⟨⟨Nat.lt_trans hnamed.beyond hnext, fun node hnode => ?_, hnamed.distinct⟩, .subplan hinner hjoined⟩
  obtain ⟨m, hfirst, hlast, hname⟩ := hnamed.numbered node hnode
  exact ⟨m, hfirst, Nat.lt_trans hlast hnext, hname⟩

/-- Resolving a reference keeps the names of the joins apart, and a statement that it brings in has exact joins. -/
theorem resolve_joined (hqualifier : scope.qualifier = some (tableAlias base)) {r : Reference}
    (hplain : ∀ name role, r ≠ .aliased name role)
    (hsubplans : ∀ inner ∈ r.node.subplans, inner ∈ p.subplans ∧ inner.HasExactJoins) {s s' : JoinState} {x : Sql.Expr}
    (hnamed : s.Named base) (h : r.resolve scope expand s = .ok (x, s')) :
    s'.Named base ∧ ∀ q, .statement q ∈ x.leaves → p.JoinedWithin scope.schema q := by
  cases r with
  | column ref role =>
    obtain ⟨-, ⟨-, rfl, rfl⟩ | ⟨-, name, hjoin, rfl⟩⟩ := Scope.column_cases h
    · exact ⟨hnamed, fun q hq => by cases List.mem_singleton.1 hq⟩
    · simp only [Scope.joinPath, hqualifier] at hjoin
      exact ⟨(Scope.joinHops_ok hnamed hjoin).2.1, fun q hq => by cases List.mem_singleton.1 hq⟩
  | aliased name role => exact absurd rfl (hplain name role)
  | outer name =>
    obtain ⟨rfl, o, f, -, -, rfl⟩ := Scope.outerColumn_ok h
    exact ⟨hnamed, fun q hq => by cases List.mem_singleton.1 hq⟩
  | scalar inner | existence inner negated =>
    obtain ⟨nested, hnested, rfl⟩ := Lowering.bind_pure_ok h
    obtain ⟨hmem, hexact⟩ := hsubplans inner (by simp [Reference.node, Expr.subplans, Expr.nodes])
    obtain ⟨hnamed', hjoined⟩ := nested_joined hmem hexact hnamed hnested
    refine ⟨hnamed', fun q hq => ?_⟩
    cases List.mem_singleton.1 hq
    exact hjoined

theorem resolves_joined (hqualifier : scope.qualifier = some (tableAlias base)) {rs : List Reference}
    (hplain : ∀ r ∈ rs, ∀ name role, r ≠ .aliased name role)
    (hsubplans : ∀ r ∈ rs, ∀ inner ∈ r.node.subplans, inner ∈ p.subplans ∧ inner.HasExactJoins) {s s' : JoinState}
    {leaves : List Leaf} (hnamed : s.Named base) (h : Resolves scope expand rs s s' leaves) :
    s'.Named base ∧ ∀ q, .statement q ∈ leaves → p.JoinedWithin scope.schema q := by
  induction h with
  | nil => exact ⟨hnamed, nofun⟩
  | @cons r rest s s₁ s' x leaves hr _ ih =>
    obtain ⟨hfirst, hown⟩ := resolve_joined hqualifier (hplain r (by simp)) (hsubplans r (by simp)) hnamed hr
    obtain ⟨hlast, hothers⟩ := ih (fun r hr => hplain r (by simp [hr])) (fun r hr => hsubplans r (by simp [hr])) hfirst
    refine ⟨hlast, fun q hq => ?_⟩
    rcases List.mem_append.1 hq with hq | hq
    · exact hown q hq
    · exact hothers q hq

end Nested

variable {p : Plan}

/-- The plans in what a plan takes from its statement are nested in it. -/
theorem subplans_of_mem_sources {outputs : List Output} {r : Reference}
    (h : r ∈ (p.items outputs).flatMap fun item => p.sources item.1 item.2) :
    ∀ inner ∈ r.node.subplans, inner ∈ p.subplans := by
  intro inner hinner
  rcases (of_mem_sources h).2 with ⟨ref, role, rfl⟩ | ⟨e, he, hnode⟩
  · simp [Reference.node, Expr.subplans, Expr.nodes] at hinner
  · refine List.mem_flatMap.2 ⟨e, he, List.mem_filterMap.2 ⟨r.node, hnode, ?_⟩⟩
    cases r with
    | scalar other | existence other negated =>
      obtain rfl : inner = other := by simpa [Reference.node, Expr.subplans, Expr.nodes] using hinner
      rfl
    | column | aliased | outer => simp [Reference.node, Expr.subplans, Expr.nodes] at hinner

/-- The statement of a plan's rows has exact joins when those of the plans nested in it have. -/
theorem select_rows_joined (hnested : ∀ inner ∈ p.subplans, inner.HasExactJoins) {schema : Schema} {purpose : Purpose}
    (hpurpose : purpose = .rows ∨ purpose = .scalar) {outer : Option Outer} {next n : Nat} {selection : Selection}
    (h : p.select schema purpose outer next = .ok (selection, n)) :
    next < n ∧ p.JoinsExactly schema purpose selection.query ∧
      ∀ inner, .statement inner ∈ selection.query.leaves → p.JoinedWithin schema inner := by
  obtain ⟨outputs, final, houtputs, hclauses, -, rfl⟩ := select_ok hpurpose h
  obtain ⟨results, conditions, keys, -, -, -, hlower, hquery⟩ := lowerClauses_ok hclauses
  have hresolves := lowerAll_resolves (fun _ name => throw (.unknownPath p.root.name name)) hlower
  obtain ⟨hnamed, hstatements⟩ := resolves_joined rfl (fun r hr => (of_mem_sources hr).1)
    (fun r hr inner hinner => ⟨subplans_of_mem_sources hr inner hinner,
      hnested inner (subplans_of_mem_sources hr inner hinner)⟩) (.init next) hresolves
  rw [hquery]
  refine ⟨hnamed.beyond, ⟨outputs, _, _, final.nodes, houtputs, rfl, rfl, lowerAll_exactJoins rfl hlower hnamed⟩, ?_⟩
  intro inner hinner
  rcases mem_query_leaves hinner with ⟨join, hjoin, hon⟩ | hcompiled
  · -- the condition of a join has columns only
    obtain ⟨node, -, rfl⟩ := List.mem_map.1 hjoin
    rcases List.mem_append.1 hon with hleaf | hleaf <;> cases List.mem_singleton.1 hleaf
  · exact hstatements inner hcompiled

/-- A statement with clauses left out has the joins of the statement. -/
theorem Joined.of_part {schema : Schema} {purpose : Purpose} {q q' : Query} (hpart : q'.Part q)
    (hexact : p.JoinsExactly schema purpose q)
    (hnested : ∀ inner, .statement inner ∈ q.leaves → p.JoinedWithin schema inner) : p.Joined schema purpose q' := by
  obtain ⟨outputs, shape, rootName, nodes, houtputs, hsource, hjoins, hexact⟩ := hexact
  refine .own ⟨outputs, shape, rootName, nodes, houtputs, ?_, ?_, hexact⟩ fun inner hinner => ?_
  · rw [hpart.source, hsource]
  · rw [hpart.joins, hjoins]
  · exact hnested inner (hpart.leaves hinner)

/-- Every statement of every plan has exact joins, by induction on the plans nested in it. -/
theorem hasExactJoins (p : Plan) : p.HasExactJoins := by
  induction p using induction_subplans with
  | step p hnested =>
    intro schema purpose outer next selection n h
    cases hcolumn : purpose.reduced with
    | none =>
      have hpurpose : purpose = .rows ∨ purpose = .scalar := by cases purpose <;> simp_all [Purpose.reduced]
      obtain ⟨hnext, hexact, hstatements⟩ := select_rows_joined hnested hpurpose h
      exact ⟨hnext, .own hexact hstatements⟩
    | some column =>
      rw [select_reduced schema hcolumn] at h
      obtain ⟨⟨selected, m⟩, hrows, heq⟩ := map_ok h
      obtain ⟨rfl, rfl⟩ := Prod.mk.inj heq
      obtain ⟨hnext, ⟨outputs, shape, rootName, nodes, houtputs, hfound⟩, hstatements⟩ :=
        select_rows_joined hnested (.inl rfl) hrows
      have hexact : p.JoinsExactly schema purpose selected.query :=
        ⟨outputs, shape, rootName, nodes, (outputs_reduced schema hcolumn).trans houtputs, hfound⟩
      refine ⟨Nat.lt_add_right _ hnext, ?_⟩
      have hleaves := leaves_of_reduced hcolumn
      obtain ⟨inner, hpart, ⟨-, hr⟩ | ⟨-, hkept⟩⟩ := reduceTo_parts hleaves p.isWrapped p.isPaged selected.query m
      · rw [hr]
        exact .around hleaves (.of_part hpart hexact hstatements)
      · exact .of_part (hkept.trans hpart) hexact hstatements

/-- When a plan is compiled for a purpose, its statement and all statements nested in it have exact joins: each path
that is referred to once, each prefix before what extends it, and an inner join where inner joins are asked for all the
way. -/
theorem select_joined (schema : Schema) (p : Plan) (purpose : Purpose) (outer : Option Outer) (next : Nat)
    (selection : Selection) (n : Nat) (h : p.select schema purpose outer next = .ok (selection, n)) :
    p.Joined schema purpose selection.query :=
  (p.hasExactJoins schema purpose outer next selection n h).2

/-- entries that have a blog, with its rating, which is above three -/
def sampleRatedPlan : Plan :=
  { samplePlan with
    filters := [.existsRow sampleInnerPlan false, .binary .gt (.aliasRef "rated") (.literal (.int 3))] }

/-- The blog of an entry is joined once, by an inner join: the annotation can do without, but the filter cannot. -/
theorem select_joined_rated :
    ∃ selection n, sampleRatedPlan.select sampleSchema .rows none 0 = .ok (selection, n) ∧
      selection.query.joins.map (fun join => (join.kind, join.table.table)) = [(.inner, "blogs")] ∧
      sampleRatedPlan.Joined sampleSchema .rows selection.query :=
  ⟨_, _, rfl, rfl, select_joined sampleSchema sampleRatedPlan .rows none 0 _ _ rfl⟩

end Plan

end RelQuery
