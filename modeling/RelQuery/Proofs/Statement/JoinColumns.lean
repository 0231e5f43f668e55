/-
The columns that statements are joined and fetched by.

The paths of a built plan were followed in the schema (`Plan.Traced`), so that each join of its statements, at any depth,
compares the two columns of a relation of the entity it starts from (`JoinsAlong`).
- `Plan.Compilation.joinsByKeys`: the joins of a query.
- `Plan.Traced.everyStatement`: the joins of all statements of a plan.
-/
import RelQuery.Proofs.Plan.Building
import RelQuery.Proofs.Schema.Keys
import RelQuery.Proofs.Statement.Origins

namespace RelQuery

open Sql (Query)

/-! ## Paths that were followed -/

/-- the field references of an expression are paths followed from an entity -/
def Expr.Followed (schema : Schema) (root : Entity) (e : Expr) : Prop :=
  ∀ ref, .field ref ∈ e.nodes → ∃ path, FieldRef.resolve schema root.name path = .ok ref

/-- A reference that holds a field is that field. -/
theorem Reference.node_eq_field {ref : FieldRef} (r : Reference) (h : .field ref ∈ r.node.nodes) :
    r.node = .field ref := by
  cases r with
  | column => exact (List.mem_singleton.1 h).symm
  | aliased | outer | scalar | existence => cases List.mem_singleton.1 h

namespace Plan

/-- A plan from an entity of the schema whose field references are paths followed from there, like those of the plans
nested in it. -/
inductive Traced (schema : Schema) : Plan → Prop
  | mk {p : Plan} (root : schema.entity p.root.name = .ok p.root)
    (followed : ∀ e ∈ p.expressions, e.Followed schema p.root) (nested : ∀ inner ∈ p.subplans, Traced schema inner) :
    Traced schema p

variable {schema : Schema} {enclosing : Option Entity} {p : Plan} {earlier : List Plan}

namespace Traced

theorem root (h : p.Traced schema) : schema.entity p.root.name = .ok p.root := by
  cases h
  assumption

theorem followed (h : p.Traced schema) : ∀ e ∈ p.expressions, e.Followed schema p.root := by
  cases h
  assumption

theorem nested (h : p.Traced schema) : ∀ inner ∈ p.subplans, inner.Traced schema := by
  cases h
  assumption

end Traced

/-- The paths of a built plan were followed, in plans before it or in itself. -/
theorem Built.traced (h : Plan.Built schema enclosing p earlier) : p.Traced schema := by
  induction h with
  | start started =>
    obtain ⟨root, hroot, rfl⟩ := map_ok started
    exact .mk (Schema.entity_name hroot) nofun nofun
  | @step enclosing p next earlier step past built parts nested applied ih ihnested =>
    obtain ⟨hroot, -, hadded⟩ := apply_extends applied
    have hgiven : ∀ e ∈ step.expressions, e.Followed schema p.root := fun e he ref href => built.found (parts e he _ href)
    refine .mk (hroot ▸ ih.root) (fun e he => ?_) fun inner hinner => ?_
    · rw [hroot]
      rcases hadded e he with hold | hstep | ⟨given, hmem, rfl⟩ | ⟨key, hkey⟩
      · exact ih.followed e hold
      · exact hgiven e hstep
      · intro ref href
        exact hgiven given hmem ref ((List.mem_cons.1 href).resolve_left nofun)
      · intro ref href
        rcases named_cases hkey with ⟨-, rfl⟩ | ⟨found, hfound, rfl⟩
        · cases List.mem_singleton.1 href
        · cases List.mem_singleton.1 href
          exact ⟨key, hfound⟩
    · rcases mem_subplans_apply applied hinner with hold | ⟨e, he, hinner⟩
      · exact ih.nested inner hold
      · exact ihnested e he inner hinner

/-- A reference of a traced plan reads a column that a path leads to. -/
theorem Reads.followed (hp : ∀ e ∈ p.expressions, e.Followed schema p.root) {r : Reference} {c : ColumnReference}
    (h : p.Reads r c) (hr : r.node.Followed schema p.root) :
    ∃ path, FieldRef.resolve schema p.root.name path = .ok c.ref := by
  induction h with
  | column => exact hr _ List.mem_cons_self
  | @through name role e r c hannotation hreference _ ih =>
    refine ih fun ref href => ?_
    obtain ⟨note, hnote, rfl⟩ := Option.map_eq_some_iff.1 hannotation
    have hnode : note.expr.Followed schema p.root :=
      hp _ (mem_expressions.2 (.inr (.inl ⟨note, List.mem_of_find?_eq_some hnote, rfl⟩)))
    exact hnode ref (r.node_eq_field href ▸ Expr.node_mem_nodes hreference)

/-- A statement of a traced plan refers to columns that paths lead to. -/
theorem Traced.refersTo (h : p.Traced schema) {purpose : Purpose} {outputs : List Output} {shape : ResultShape}
    (houtputs : p.outputs schema purpose = .ok (outputs, shape)) {c : ColumnReference} (hc : p.RefersTo outputs c) :
    ∃ path, FieldRef.resolve schema p.root.name path = .ok c.ref := by
  obtain ⟨item, hitem, r, hr, hreads⟩ := hc
  refine hreads.followed h.followed fun ref href => ?_
  have hnode : .field ref ∈ item.1.nodes := r.node_eq_field href ▸ Expr.node_mem_nodes hr
  simp only [items, List.mem_append, List.mem_map] at hitem
  rcases hitem with (⟨o, ho, rfl⟩ | ⟨e, he, rfl⟩) | ⟨key, hkey, rfl⟩
  · cases outputs_origin houtputs o ho with
    | path resolved =>
      cases List.mem_singleton.1 hnode
      exact ⟨_, resolved⟩
    | computed => cases List.mem_singleton.1 hnode
  · exact h.followed e (mem_expressions.2 (.inl he)) ref hnode
  · exact h.followed key.expr (mem_expressions.2 (.inr (.inr ⟨key, hkey, rfl⟩))) ref hnode

end Plan

/-! ## Joins -/

/-- A join onto the target of a relation where the columns of the relation are equal. `tables` tells which entity stands
behind the name of a table. -/
inductive JoinsAlong (schema : Schema) (tables : String → Option Entity) : Sql.Join → Prop
  | mk {kind : Sql.JoinKind} {owner target : Entity} {relation : Relation} {parent name : String}
    (owned : owner ∈ schema.entities) (declared : relation ∈ owner.relations)
    (leads : schema.entity relation.target = .ok target) (starts : tables parent = some owner)
    (ends : tables name = some target) : JoinsAlong schema tables ⟨kind, ⟨target.table, some name⟩,
      .eq (.columnOf parent relation.localColumn) (.columnOf name relation.remoteColumn)⟩

/-- The joins of a query from the table of a plan's root. -/
def Plan.JoinsByKeys (schema : Schema) (p : Plan) (q : Query) : Prop :=
  ∃ tables : String → Option Entity,
    (∀ table, q.source = some (.table table) →
      ∃ name, table = ⟨p.root.table, some name⟩ ∧ tables name = some p.root) ∧
    ∀ join ∈ q.joins, JoinsAlong schema tables join

/-- A hop of a path stands at the entity that the hops before it reach. -/
theorem Schema.Leads.reach {schema : Schema} {e : Entity} (he : e ∈ schema.entities) {before after : List Relation}
    {relation : Relation} (h : schema.Leads e (before ++ relation :: after)) :
    ∃ owner ∈ schema.entities, schema.reach e (before.map (·.name)) = some owner ∧
      owner.relation relation.name = some relation := by
  induction before generalizing e with
  | nil =>
    cases h with
    | cons hrelation => exact ⟨e, he, rfl, hrelation⟩
  | cons first rest ih =>
    cases h with
    | cons hrelation htarget hmore =>
      obtain ⟨owner, howner, hreach, hdeclared⟩ := ih (mem_of_entity? htarget) hmore
      refine ⟨owner, howner, ?_, hdeclared⟩
      rw [List.map_cons, Schema.reach, hrelation]
      simp only [htarget]
      exact hreach

namespace ExactJoins

variable {schema : Schema} {root : Entity} {rootName : String} {RefersTo : ColumnReference → Prop}
  {nodes : List JoinNode}

/-- the entities behind the names of a statement's tables -/
def tables (schema : Schema) (root : Entity) (rootName : String) (nodes : List JoinNode) (name : String) :
    Option Entity :=
  if name = rootName then some root
  else (nodes.find? (·.aliasName = name)).bind fun node => schema.reach root node.path

theorem tables_node (h : ExactJoins schema root rootName RefersTo nodes) {node : JoinNode} (hnode : node ∈ nodes) :
    tables schema root rootName nodes node.aliasName = schema.reach root node.path := by
  obtain ⟨hroot, hnodup⟩ := List.nodup_cons.1 h.named
  have hne : node.aliasName ≠ rootName := fun heq => hroot (heq ▸ List.mem_map_of_mem hnode)
  rw [tables, if_neg hne, find?_of_nodup_map hnodup hnode]
  rfl

/-- Each join is made along a relation when the columns referred to are reached from the root. -/
theorem joinsAlong (h : ExactJoins schema root rootName RefersTo nodes) (hroot : root ∈ schema.entities)
    (hleads : ∀ c, RefersTo c → schema.Leads root c.ref.hops) {node : JoinNode} (hnode : node ∈ nodes) :
    JoinsAlong schema (tables schema root rootName nodes) node.join := by
  obtain ⟨c, hc, before, after, target, hhops, hpath, htarget, htable⟩ := h.follows node hnode
  obtain ⟨owner, howner, hreach, hrelation⟩ := (hhops ▸ hleads c hc : schema.Leads root _).reach hroot
  have hparent : node.path.dropLast = before.map (·.name) := by
    change node.pathJoin.path.dropLast = _
    rw [hpath]
    simp
  have honto : tables schema root rootName nodes node.aliasName = some target := by
    rw [h.tables_node hnode]
    change schema.reach root node.pathJoin.path = _
    rw [hpath, List.map_append]
    exact Schema.reach_snoc hreach hrelation (Schema.entity_eq_ok.1 htarget)
  have hfrom : tables schema root rootName nodes node.parent = some owner := by
    obtain ⟨earlier, later, hsplit⟩ := List.append_of_mem hnode
    rcases h.parents earlier node later hsplit with ⟨hnil, hname⟩ | ⟨parent, hmem, hat, hname, -⟩
    · rw [hnil] at hparent
      rw [hname, tables, if_pos rfl]
      rw [← hparent] at hreach
      exact hreach
    · have hmem : parent ∈ nodes := hsplit ▸ List.mem_append_left _ hmem
      rw [← hname, h.tables_node hmem, hat, hparent]
      exact hreach
  have hjoin : JoinsAlong schema (tables schema root rootName nodes) ⟨node.kind, ⟨target.table, some node.aliasName⟩,
      .eq (.columnOf node.parent node.relation.localColumn) (.columnOf node.aliasName node.relation.remoteColumn)⟩ :=
    .mk howner (Entity.mem_of_relation hrelation) htarget hfrom honto
  rw [← htable] at hjoin
  exact hjoin

end ExactJoins

namespace Plan

variable {schema : Schema} {p : Plan} {q : Query}

theorem Compilation.exactJoins (c : p.Compilation schema) :
    ExactJoins schema p.root (tableAlias c.next) (p.RefersTo c.outputs) c.final.nodes := by
  have hresolves := lowerAll_resolves (fun _ name => throw (.unknownPath p.root.name name)) c.lower
  obtain ⟨hnamed, -⟩ := resolves_joined rfl (fun r hr => (of_mem_sources hr).1)
    (fun r hr inner hinner => ⟨subplans_of_mem_sources hr inner hinner, hasExactJoins inner⟩) (.init c.next) hresolves
  exact lowerAll_exactJoins rfl c.lower hnamed

/-- A query with the tables of a traced plan's query is joined along relations. -/
theorem Compilation.joinsByKeys (hp : p.Traced schema) (c : p.Compilation schema) (hsource : q.source = c.query.source)
    (hjoins : q.joins = c.query.joins) : p.JoinsByKeys schema q := by
  have hexact := c.exactJoins
  have hleads : ∀ asked, p.RefersTo c.outputs asked → schema.Leads p.root asked.ref.hops := by
    intro asked hasked
    obtain ⟨path, hpath⟩ := hp.refersTo c.outputs_eq hasked
    exact FieldRef.resolve_leads hp.root hpath
  refine ⟨ExactJoins.tables schema p.root (tableAlias c.next) c.final.nodes, fun table htable => ?_, fun join hjoin => ?_⟩
  · rw [hsource, c.source_eq] at htable
    obtain rfl := Sql.Source.table.inj (Option.some.inj htable)
    exact ⟨_, rfl, if_pos rfl⟩
  · rw [hjoins] at hjoin
    obtain ⟨node, hnode, rfl⟩ := List.mem_map.1 hjoin
    exact hexact.joinsAlong (Schema.mem_of_entity hp.root) hleads hnode

/-- All queries that a traced plan yields are joined along relations. -/
theorem Yields.joinsByKeys (hp : p.Traced schema) (h : p.Yields schema q) : p.JoinsByKeys schema q := by
  induction h with
  | own c => exact c.joinsByKeys hp rfl rfl
  | derived c => exact c.joinsByKeys hp c.counted_part.source c.counted_part.joins
  | reduced c hreduced =>
    have hpart := c.reduced_part (leaves_of_reduced hreduced)
    exact c.joinsByKeys hp hpart.source hpart.joins
  | around => exact ⟨fun _ => none, nofun, nofun⟩
  | limited n _ ih => exact ih

/-- What holds of the queries of traced plans holds throughout the statements of one. -/
theorem Throughout.of_traced {A B : Plan → Query → Prop} (himp : ∀ part r, part.Traced schema → A part r → B part r)
    (hp : p.Traced schema) (h : Throughout A p q) : Throughout B p q := by
  induction h with
  | mk own sub nested _ _ hstatements hderived =>
    exact .mk (himp _ _ hp own) sub nested (fun inner hinner => hstatements inner hinner (hp.nested _ (nested inner hinner)))
      fun inner name hsource => hderived inner name hsource hp

theorem NestsIn.of_traced {A B : Plan → Query → Prop} (himp : ∀ part r, part.Traced schema → A part r → B part r)
    {plans : List Plan} (hplans : ∀ plan ∈ plans, plan.Traced schema) {x : Sql.Expr} (h : NestsIn A plans x) :
    NestsIn B plans x := by
  intro q hq
  obtain ⟨plan, hplan, hthroughout⟩ := h q hq
  exact ⟨plan, hplan, hthroughout.of_traced himp (hplans plan hplan)⟩

/-- The plan for the keys of a plan's rows asks for no other paths. -/
theorem Traced.keyed (hp : p.Traced schema) : p.keyed.Traced schema := by
  have hsub : p.keyed.expressions ⊆ p.expressions := by
    intro e he
    rcases mem_expressions.1 he with he | he | ⟨key, hkey, rfl⟩
    · exact mem_expressions.2 (.inl he)
    · exact mem_expressions.2 (.inr (.inl he))
    · refine mem_expressions.2 (.inr (.inr ⟨key, ?_, rfl⟩))
      simp only [Plan.keyed] at hkey
      split at hkey
      · exact hkey
      · cases hkey
  refine .mk hp.root (fun e he => hp.followed e (hsub he)) fun inner hinner => ?_
  obtain ⟨e, he, hmem⟩ := List.mem_flatMap.1 hinner
  exact hp.nested inner (List.mem_flatMap.2 ⟨e, hsub he, hmem⟩)

/-- Every join of every statement of a traced plan is made along a relation. -/
theorem Traced.everyStatement (hp : p.Traced schema) (d : Sql.Dialect) {assignments : List (String × Expr)}
    (hassignments : ∀ assigned ∈ assignments, ∀ inner ∈ assigned.2.subplans, inner.Traced schema) :
    p.EveryStatement schema d assignments (JoinsByKeys schema) := by
  have himp : ∀ (part : Plan) (r : Query), part.Traced schema → part.Yields schema r → part.JoinsByKeys schema r :=
    fun _ _ hpart h => h.joinsByKeys hpart
  have hkeyed : ∀ plan ∈ p.keyed :: p.subplans, plan.Traced schema := List.forall_mem_cons.2 ⟨hp.keyed, hp.nested⟩
  have hevery := Plan.everyStatement (A := Yields schema) (fun _ _ h => h) d p assignments
  refine ⟨fun compiled h => ?_, fun statement h => ?_, fun statement h => ?_, fun statement h => ?_, fun statement h => ?_⟩
  · obtain ⟨selection, hselection, hprimary, hthroughout⟩ := hevery.rows compiled h
    exact ⟨selection, hselection, hprimary, hthroughout.of_traced himp hp⟩
  · obtain ⟨q, hq, heq, hthroughout⟩ := hevery.count statement h
    exact ⟨q, hq, heq, hthroughout.of_traced himp hp⟩
  · obtain ⟨q, hq, heq, hthroughout⟩ := hevery.existence statement h
    exact ⟨q, hq, heq, hthroughout.of_traced himp hp⟩
  · obtain ⟨tree, htree, heq, hassigned, hcondition⟩ := hevery.update statement h
    refine ⟨tree, htree, heq, fun a ha => ?_, fun x hx => (hcondition x hx).of_traced himp hkeyed⟩
    obtain ⟨asked, hasked, hnests⟩ := hassigned a ha
    exact ⟨asked, hasked, hnests.of_traced himp
      (List.forall_mem_append.2 ⟨hassignments asked hasked, hp.nested⟩)⟩
  · obtain ⟨tree, htree, heq, hcondition⟩ := hevery.delete statement h
    exact ⟨tree, htree, heq, fun x hx => (hcondition x hx).of_traced himp hkeyed⟩

end Plan

end RelQuery
