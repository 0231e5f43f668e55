/-
What built plans are refused for.

A step of a plan checks every name that it is given, so that no statement of a built plan fails for a name that leads
nowhere: what is left are results that depend on the row of a group they are read from, and subplans that cannot be
nested. A computation that fails in no other way is called tame. Compiling an expression is tame when each of its
references is (`lower_tame`); an alias is tame because its annotation names only annotations before it (`expand_tame`).
A statement that can join no table, as that of a direct DELETE, is tame because such a one is only chosen for
expressions that reach no relation.
- `Plan.Valid.tame`: compiling a valid plan, for whatever purpose, is tame.
- `Plan.batches_tame`: a record has a column for every field that a relation to fetch is matched by.
- `Plan.Built.refusals`: the statements of a built plan are tame.
-/
import RelQuery.Proofs.Plan.Building
import RelQuery.Proofs.Statement.WellScoped

namespace RelQuery

/-! ## Tame computations -/

/-- A result, or one of the two refusals: a grouped result that is ambiguous, or a subplan that cannot be nested. -/
inductive Tame {α : Type} : Except QueryError α → Prop where
  | ok (a : α) : Tame (.ok a)
  | ambiguous (fault : GroupingFault) : Tame (.error (.ambiguousGrouping fault))
  | correlation (fault : CorrelationFault) : Tame (.error (.unsupportedCorrelation fault))

namespace Tame

variable {α β : Type} {r : Except QueryError α} {f : α → Except QueryError β} {as : List α}

theorem of_ok (h : ∃ a, r = .ok a) : Tame r := by
  obtain ⟨a, rfl⟩ := h
  exact ok a

theorem orFail {failure : QueryError} {o : Option α} (h : o.isSome) : Tame (orFail failure o) := by
  obtain ⟨a, rfl⟩ := Option.isSome_iff_exists.1 h
  exact ok a

theorem bind (hr : Tame r) (hf : ∀ a, r = .ok a → Tame (f a)) : Tame (r >>= f) := by
  cases hr with
  | ok a => exact hf a rfl
  | ambiguous fault => exact ambiguous fault
  | correlation fault => exact correlation fault

theorem map (hr : Tame r) (g : α → β) : Tame (r.map g) := by
  cases hr with
  | ok a => exact ok (g a)
  | ambiguous fault => exact ambiguous fault
  | correlation fault => exact correlation fault

theorem mapM (h : ∀ a ∈ as, Tame (f a)) : Tame (as.mapM f) := by
  induction as with
  | nil => exact ok []
  | cons a rest ih =>
    obtain ⟨ha, hrest⟩ := List.forall_mem_cons.1 h
    rw [List.mapM_cons]
    exact ha.bind fun b _ => (ih hrest).bind fun more _ => ok (b :: more)

theorem forM {step : α → Except QueryError Unit} (h : ∀ a ∈ as, Tame (step a)) : Tame (as.forM step) := by
  induction as with
  | nil => exact ok ()
  | cons a rest ih =>
    obtain ⟨ha, hrest⟩ := List.forall_mem_cons.1 h
    rw [List.forM_eq_forM, List.forM_cons]
    exact ha.bind fun _ _ => ih hrest

end Tame

namespace Lowering

variable {α β : Type} {act : Lowering α} {f : α → Lowering β} {as : List α}

/-- a compilation that is tame whatever tables there are -/
def Tame (act : Lowering α) : Prop := ∀ s, RelQuery.Tame (act s)

theorem Tame.pure (a : α) : Tame (pure a) := fun s => .ok (a, s)

theorem Tame.bind (hact : Tame act) (hf : ∀ a, Tame (f a)) : Tame (act >>= f) :=
  fun s => (hact s).bind fun result _ => hf result.1 result.2

theorem Tame.lift {r : Except QueryError α} (h : RelQuery.Tame r) : Tame (liftM r : Lowering α) :=
  fun s => h.bind fun a _ => .ok (a, s)

theorem Tame.mapM {f : α → Lowering β} (h : ∀ a ∈ as, Tame (f a)) : Tame (as.mapM f) := by
  induction as with
  | nil => exact .pure []
  | cons a rest ih =>
    obtain ⟨ha, hrest⟩ := List.forall_mem_cons.1 h
    rw [List.mapM_cons]
    exact ha.bind fun b => (ih hrest).bind fun more => .pure (b :: more)

theorem Tame.forM {step : α → Lowering Unit} (h : ∀ a ∈ as, Tame (step a)) : Tame (forM as step : Lowering Unit) := by
  induction as with
  | nil => exact .pure ()
  | cons a rest ih =>
    obtain ⟨ha, hrest⟩ := List.forall_mem_cons.1 h
    rw [List.forM_cons]
    exact ha.bind fun _ => ih hrest

/-- A compilation fails as it does with its result left aside. -/
theorem tame_of_effect (h : Tame act.effect) : Tame act := by
  intro s
  have heffect : RelQuery.Tame (act s >>= fun result => (Pure.pure ((), result.2) : Except QueryError (Unit × JoinState))) :=
    h s
  cases hact : act s with
  | ok result => exact .ok result
  | error e =>
    rw [hact] at heffect
    cases heffect with
    | ambiguous fault => exact .ambiguous fault
    | correlation fault => exact .correlation fault

end Lowering

/-! ## References -/

/-- the scope of a statement for rows of an entity, inside a row of the enclosing entity -/
structure Scope.Serves (scope : Scope) (schema : Schema) (root : Entity) (enclosing : Option Entity) : Prop where
  schema : scope.schema = schema
  root : scope.root = root
  outer : ∀ o ∈ scope.outer, enclosing = some o.entity

/-- Compiling a plan, for whatever purpose, is tame inside a row of the enclosing entity. -/
def Plan.TameIn (schema : Schema) (enclosing : Option Entity) (p : Plan) : Prop :=
  ∀ purpose outer n, (∀ o ∈ outer, enclosing = some o.entity) → Tame (p.select schema purpose outer n)

theorem Plan.checkCorrelation_tame (p : Plan) : Tame p.checkCorrelation := by
  unfold Plan.checkCorrelation
  split
  · exact .correlation _
  · exact .ok ()

section References

variable {scope : Scope} {schema : Schema} {root : Entity} {enclosing : Option Entity}
  (hscope : scope.Serves schema root enclosing)

include hscope

theorem Scope.joinHops_tame (role : Role) {hops : List Relation}
    (hhops : ∀ hop ∈ hops, ∃ target, schema.entity hop.target = .ok target) (owner : Entity) (parent : String)
    (path : List String) (outerJoined : Bool) : (scope.joinHops role hops owner parent path outerJoined).Tame := by
  induction hops generalizing owner parent path outerJoined with
  | nil => exact .pure parent
  | cons relation rest ih =>
    obtain ⟨hfirst, hrest⟩ := List.forall_mem_cons.1 hhops
    refine Lowering.Tame.bind (.lift (.of_ok (hscope.schema ▸ hfirst))) fun target => ?_
    exact Lowering.Tame.bind (fun s => .ok _) fun aliasName => ih hrest target aliasName _ _

/-- A path of the schema has its column, where tables can be joined or none is needed. -/
theorem Scope.column_tame {path : String} {ref : FieldRef} (href : FieldRef.resolve schema root.name path = .ok ref)
    (hreach : scope.qualifier.isSome ∨ ref.isLocal) (role : Role) : (scope.column ref role).Tame := by
  have hroot : ref.root = scope.root.name := by
    obtain ⟨resolved, -, hpure⟩ := ok_of_bind href
    rw [hscope.root, ← Except.ok.inj hpure]
  unfold column
  rw [if_neg (not_not_intro hroot)]
  split
  · exact .pure _
  · next hjoined =>
    obtain ⟨aliasName, haliasName⟩ := Option.isSome_iff_exists.1 (hreach.resolve_right hjoined)
    refine Lowering.Tame.bind ?_ fun aliasName => .pure _
    rw [joinPath, haliasName]
    exact joinHops_tame hscope role (fun hop hhop => ((Schema.resolve_declared href).1 hop hhop).2) _ _ _ _

theorem Scope.outerColumn_tame {name : String} (h : ∃ entity ∈ enclosing, (entity.field name).isSome) :
    (scope.outerColumn name).Tame := by
  intro s
  unfold outerColumn
  cases houter : scope.outer with
  | none => exact .correlation _
  | some o =>
    obtain ⟨entity, hentity, hfield⟩ := h
    obtain rfl := Option.some.inj ((hscope.outer o houter).symm.trans hentity)
    obtain ⟨f, hf⟩ := Option.isSome_iff_exists.1 hfield
    simp only [hf]
    exact .ok _

theorem Lowering.nested_tame {plan : Plan} (hplan : plan.TameIn schema (some root)) (purpose : Purpose) :
    (Lowering.nested plan scope fun schema outer next => plan.select schema purpose outer next).Tame := by
  refine Lowering.Tame.bind (.lift plan.checkCorrelation_tame) fun _ => Lowering.Tame.bind (fun s => .ok _) fun state => ?_
  refine Lowering.Tame.bind (.lift ?_) fun selected => Lowering.Tame.bind (fun s => .ok _) fun _ => .pure _
  rw [hscope.schema]
  refine hplan purpose _ _ fun o ho => ?_
  rw [← Option.some.inj ho, Scope.asOuter, hscope.root]

variable {expand : Expansion} {known : List String}

/-- An expression whose references are there is compiled, or refused for a subplan. -/
theorem Expr.lower_tame {e : Expr} (hfound : e.AllFound schema root enclosing known)
    (hnested : ∀ inner ∈ e.subplans, inner.TameIn schema (some root))
    (hreach : scope.qualifier.isSome ∨ ∀ ref ∈ e.fieldRefs, ref.isLocal)
    (hexpand : ∀ name ∈ e.aliases, ∀ role, (expand role name).Tame) (role : Role) :
    (e.lower scope expand role).Tame := by
  refine Lowering.tame_of_effect ?_
  rw [Expr.lower_references]
  refine Lowering.Tame.forM fun r hr => ?_
  have hmem := Expr.node_mem_nodes hr
  have hnode := hfound r.node hmem
  cases r with
  | column ref asked =>
    obtain ⟨path, href⟩ := hnode
    have hlocal : scope.qualifier.isSome ∨ ref.isLocal :=
      hreach.imp_right fun h => h ref (List.mem_filterMap.2 ⟨_, hmem, rfl⟩)
    exact Lowering.Tame.bind (scope.column_tame hscope href hlocal asked) fun _ => .pure ()
  | aliased name asked => exact Lowering.Tame.bind (hexpand name (Expr.mem_aliases.2 hmem) asked) fun _ => .pure ()
  | outer name => exact Lowering.Tame.bind (scope.outerColumn_tame hscope hnode) fun _ => .pure ()
  | scalar plan =>
    have hplan := hnested plan (List.mem_filterMap.2 ⟨_, hmem, rfl⟩)
    exact Lowering.Tame.bind (Lowering.nested_tame hscope hplan .scalar) fun _ => .pure ()
  | existence plan negated =>
    have hplan := hnested plan (List.mem_filterMap.2 ⟨_, hmem, rfl⟩)
    exact Lowering.Tame.bind (Lowering.nested_tame hscope hplan .existence) fun _ => .pure ()

end References

/-! ## Aliases -/

namespace Plan

variable {schema : Schema} {enclosing : Option Entity} {p : Plan} {scope : Scope}

theorem reaches_nothing {k : Nat} {e : Expr} (h : p.reachesRelationsWithin (k + 1) e = false) :
    (∀ ref ∈ e.fieldRefs, ref.isLocal) ∧
      ∀ name ∈ e.aliases, ∀ inner, p.annotationOf name = some inner → p.reachesRelationsWithin k inner = false := by
  rw [reachesRelationsWithin, Bool.or_eq_false_iff, List.any_eq_false, List.any_eq_false] at h
  refine ⟨fun ref href => by simpa using h.1 ref href, fun name hname inner hinner => ?_⟩
  simpa [hinner] using h.2 name hname

/-- An alias among the first annotations stands for one of them, which names only those before it. -/
theorem Resolved.annotationOf (hp : p.Resolved schema enclosing) {k : Nat} {name : String}
    (hname : name ∈ (p.annotations.take (k + 1)).map (·.aliasName)) :
    ∃ note ∈ p.annotations, p.annotationOf name = some note.expr ∧
      note.expr.AllFound schema p.root enclosing ((p.annotations.take k).map (·.aliasName)) := by
  have hsome : (p.annotations.find? (·.aliasName = name)).isSome := by
    obtain ⟨other, hother, heq⟩ := List.mem_map.1 hname
    exact List.find?_isSome.2 ⟨other, List.mem_of_mem_take hother, by simpa using heq⟩
  obtain ⟨note, hnote⟩ := Option.isSome_iff_exists.1 hsome
  obtain ⟨-, before, after, hsplit, hbefore⟩ := List.find?_eq_some_iff_append.1 hnote
  have hlength : before.length ≤ k := by
    by_contra hlong
    have htake : p.annotations.take (k + 1) = before.take (k + 1) := by
      rw [hsplit, List.take_append_of_le_length (by omega)]
    rw [htake] at hname
    obtain ⟨other, hother, heq⟩ := List.mem_map.1 hname
    simpa [heq] using hbefore other (List.mem_of_mem_take hother)
  refine ⟨note, List.mem_of_find?_eq_some hnote, by rw [Plan.annotationOf, hnote]; rfl, ?_⟩
  have hprefix : before ++ [note] <+: p.annotations := ⟨after, by rw [hsplit]; simp⟩
  refine (hp.annotations before note hprefix).mono (List.map_subset _ fun other hother => ?_)
  rw [hsplit, List.take_append, List.take_of_length_le hlength]
  exact List.mem_append_left _ hother

variable (hp : p.Resolved schema enclosing) (hsub : ∀ inner ∈ p.subplans, inner.TameIn schema (some p.root))
  (hscope : scope.Serves schema p.root enclosing)

include hp hsub hscope

/-- An alias is tame: the annotations that its own names are all before it. -/
theorem expand_tame (budget : Nat) : ∀ {k : Nat}, k ≤ budget → ∀ {name : String},
    name ∈ (p.annotations.take k).map (·.aliasName) →
    (scope.qualifier.isSome ∨ ∀ e, p.annotationOf name = some e → p.reachesRelationsWithin k e = false) →
    ∀ role, (p.fragments.expand scope budget role name).Tame := by
  induction budget with
  | zero =>
    intro k hk name hname
    obtain rfl := Nat.le_zero.1 hk
    cases hname
  | succ budget ih =>
    intro k hk name hname hreach role
    cases k with
    | zero => cases hname
    | succ k =>
      obtain ⟨note, hnote, hannotation, hfound⟩ := hp.annotationOf hname
      rw [expand_succ, hannotation]
      have hlocal := hreach.imp_right fun h => reaches_nothing (h note.expr hannotation)
      have hnested : ∀ inner ∈ note.expr.subplans, inner.TameIn schema (some p.root) := fun inner hinner =>
        hsub inner (List.mem_flatMap.2 ⟨note.expr, mem_expressions.2 (.inr (.inl ⟨note, hnote, rfl⟩)), hinner⟩)
      refine Expr.lower_tame hscope hfound hnested (hlocal.imp_right And.left) (fun other hother asked => ?_) role
      exact ih (Nat.le_of_succ_le_succ hk) (hfound _ (Expr.mem_aliases.1 hother))
        (hlocal.imp_right fun h => h.2 other hother) asked

/-- An expression of a plan is tame where its columns can be joined or are all of the root. -/
theorem lower_tame {e : Expr} (hfound : e.AllFound schema p.root enclosing p.aliasNames)
    (hnested : ∀ inner ∈ e.subplans, inner.TameIn schema (some p.root))
    (hreach : scope.qualifier.isSome ∨ p.reachesRelations e = false) (role : Role) :
    (e.lower scope (p.fragments.expansion scope) role).Tame := by
  have hlocal := hreach.imp_right reaches_nothing
  rw [p.expansion_eq]
  refine Expr.lower_tame hscope hfound hnested (hlocal.imp_right And.left) (fun name hname asked => ?_) role
  refine expand_tame hp hsub hscope _ (Nat.le_succ p.annotations.length) ?_ ?_ asked
  · rw [List.take_length]
    exact hfound _ (Expr.mem_aliases.1 hname)
  · exact hlocal.imp_right fun h => h.2 name hname

theorem filter_tame {e : Expr} (he : e ∈ p.filters)
    (hreach : scope.qualifier.isSome ∨ p.reachesRelations e = false) (role : Role) :
    (e.lower scope (p.fragments.expansion scope) role).Tame :=
  lower_tame hp hsub hscope (hp.filters e he)
    (fun inner hinner => hsub inner (List.mem_flatMap.2 ⟨e, mem_expressions.2 (.inl he), hinner⟩)) hreach role

end Plan

/-! ## Outputs -/

namespace Plan

variable {schema : Schema} {enclosing : Option Entity} {p : Plan}

theorem annotationOutput_ok {name : String} (h : name ∈ p.aliasNames) : ∃ o, p.annotationOutput name = .ok o := by
  obtain ⟨e, he⟩ := Option.isSome_iff_exists.1 (annotationOf_isSome.2 h)
  exact ⟨_, by rw [annotationOutput, he]; rfl⟩

theorem namedOutput_ok {name : String} (h : ∃ e, p.named schema name = .ok e) :
    ∃ o, p.namedOutput schema name = .ok o := by
  obtain ⟨e, he⟩ := h
  by_cases hannotation : name ∈ p.aliasNames
  · obtain ⟨o, ho⟩ := annotationOutput_ok hannotation
    exact ⟨o, by rw [namedOutput, if_pos (annotationOf_isSome.2 hannotation), ho]⟩
  · rcases named_cases he with ⟨hmem, -⟩ | ⟨ref, href, -⟩
    · exact absurd hmem hannotation
    · exact ⟨_, by rw [namedOutput, if_neg fun h => hannotation (annotationOf_isSome.1 h), href]; rfl⟩

variable (hkeyed : schema.Keyed) (hp : p.Resolved schema enclosing)

include hkeyed hp

/-- the output of a field of the root, under the field's own name -/
theorem ofRootField_ok {name : String} {f : Field} (hf : p.root.field name = some f) :
    Output.ofRootField schema p.root name =
      .ok ⟨⟨f.name, .root, some f.type⟩, .field ⟨p.root.name, name, [], f⟩, .output, none⟩ := by
  rw [Output.ofRootField, hkeyed.resolve_field hp.root hf]
  rfl

theorem joinedOutputs_tame : Tame (p.joinedOutputs schema) := by
  refine Tame.bind (.mapM fun name hname => ?_) fun outputs _ => .ok _
  obtain ⟨entry, hentry, rfl⟩ := List.mem_map.1 hname
  refine Tame.bind (.orFail (hp.loadings entry.1 (List.mem_map_of_mem (List.mem_filter.1 hentry).1))) ?_
  intro relation hfound
  have hrelation := orFail_eq_ok.1 hfound
  have hmem := Schema.mem_of_entity hp.root
  refine Tame.bind (.of_ok (hkeyed.exists_target hmem (Entity.mem_of_relation hrelation))) fun target htarget => ?_
  refine .mapM fun f hf => Tame.bind (.of_ok ?_) fun _ _ => .ok _
  obtain ⟨found, -, -, href⟩ := hkeyed.resolve_related hp.root hrelation htarget hf
  exact ⟨_, href⟩

/-- every field that a narrowed record has is one of the root -/
theorem narrowedFields_found {names : List String} {name : String} (h : name ∈ p.narrowedFields names) :
    ∃ f, p.root.field name = some f := by
  have hmem := Schema.mem_of_entity hp.root
  obtain ⟨f, hf, rfl⟩ := narrowedFields_declared (hkeyed.keyedByFields hmem) h
  exact (hkeyed.field_found hmem hf).imp fun _ => And.left

/-- The columns of a statement are found; only a scalar subplan can be refused, for their number. -/
theorem outputs_tame (purpose : Purpose) : Tame (p.outputs schema purpose) := by
  have hnamed : ∀ projection ∈ p.projection, ∀ name ∈ projection.names, Tame (p.namedOutput schema name) :=
    fun projection hprojection name hname => .of_ok (namedOutput_ok (hp.projection projection hprojection name hname))
  have hmem := Schema.mem_of_entity hp.root
  unfold outputs
  split
  · next projection =>
    split
    · next name heq =>
      have hprojected : ∃ projection ∈ p.projection, name ∈ projection.names := by
        cases hprojection : p.projection with
        | none => simp [hprojection] at heq
        | some projection =>
          have hnames : projection.names = [name] := by simpa [hprojection] using heq
          exact ⟨projection, rfl, hnames ▸ List.mem_cons_self⟩
      obtain ⟨projection, hprojection, hname⟩ := hprojected
      exact (hnamed projection hprojection name hname).bind fun _ _ => .ok _
    · exact .correlation _
  · refine Tame.bind (.mapM fun f hf => ?_) fun fields _ => ?_
    · obtain ⟨found, hfound, -⟩ := hkeyed.field_found hmem hf
      exact .of_ok ⟨_, ofRootField_ok hkeyed hp hfound⟩
    · refine (joinedOutputs_tame hkeyed hp).bind fun joined _ => Tame.bind (.mapM fun note hnote => ?_) fun _ _ => .ok _
      exact .of_ok (annotationOutput_ok (List.mem_map_of_mem hnote))
  · next names hprojection =>
    exact Tame.bind (.mapM fun name hname => hnamed _ hprojection name hname) fun _ _ => .ok _
  · next names hprojection =>
    refine Tame.bind (.mapM fun name hname => ?_) fun fields _ => ?_
    · obtain ⟨f, hf⟩ := narrowedFields_found hkeyed hp hname
      exact .of_ok ⟨_, ofRootField_ok hkeyed hp hf⟩
    · refine (joinedOutputs_tame hkeyed hp).bind fun joined _ => Tame.bind (.mapM fun name hname => ?_) fun _ _ => .ok _
      exact .of_ok (annotationOutput_ok (annotationOf_isSome.1 (List.mem_filter.1 hname).2))

end Plan

section Columns

variable {schema : Schema} {enclosing : Option Entity} {p : Plan} {outputs : List Output} {name : String}

/-- whether the term of an output refers to something that is there -/
def Output.IsFound (schema : Schema) (enclosing : Option Entity) (p : Plan) (o : Output) : Prop :=
  o.term.expr.AllFound schema p.root enclosing p.aliasNames

namespace Plan

theorem outputs_found {purpose : Purpose} {shape : ResultShape} (h : p.outputs schema purpose = .ok (outputs, shape)) :
    ∀ o ∈ outputs, o.IsFound schema enclosing p := by
  intro o ho node hnode
  cases outputs_origin h o ho with
  | path href _ =>
    obtain rfl := List.mem_singleton.1 hnode
    exact ⟨_, href⟩
  | computed he =>
    obtain rfl := List.mem_singleton.1 hnode
    exact annotationOf_isSome.1 (Option.isSome_iff_exists.2 ⟨_, he⟩)

end Plan

end Columns

/-! ## Statements -/

namespace Plan

variable {schema : Schema} {enclosing : Option Entity} {p : Plan}

theorem checkDefinite_tame (key : List String) (e : Expr) (fault : String → GroupingFault) :
    Tame (p.checkDefinite key e fault) := by
  unfold checkDefinite
  split
  · exact .ambiguous _
  · exact .ok ()

/-- A grouped plan can be refused only for what is ambiguous. -/
theorem checkGrouping_tame (outputs : List Output) : Tame (p.checkGrouping outputs) :=
  Tame.bind (.forM fun _ _ => checkDefinite_tame _ _ _) fun _ _ =>
    Tame.bind (.forM fun _ _ => checkDefinite_tame _ _ _) fun _ _ => .forM fun _ _ => checkDefinite_tame _ _ _

/-- The clauses of a plan are tame where its statement can join tables. -/
theorem lowerClauses_tame {scope : Scope} (hp : p.Resolved schema enclosing)
    (hsub : ∀ inner ∈ p.subplans, inner.TameIn schema (some p.root)) (hscope : scope.Serves schema p.root enclosing)
    (hjoins : scope.qualifier.isSome) {outputs : List Output} (houtputs : ∀ o ∈ outputs, o.IsFound schema enclosing p) :
    (p.lowerClauses p.fragments scope outputs).Tame := by
  have hfilters : p.fragments.filters = p.filters.map fun e => (e, e.lower) := filterFragments_eq p.filters
  have hordering : p.fragments.ordering = p.ordering.map fun key => (key.direction, key.expr.lower) :=
    orderFragments_eq p.ordering
  unfold lowerClauses
  refine Lowering.Tame.bind (.mapM fun o ho => ?_) fun items => ?_
  · rw [OutputTerm.lower_eq]
    refine Lowering.Tame.bind (lower_tame hp hsub hscope (houtputs o ho) ?_ (.inl hjoins) o.role) fun _ => .pure _
    intro inner hinner
    cases hterm : o.term <;> simp [hterm, OutputTerm.expr, Expr.subplans, Expr.nodes] at hinner
  refine Lowering.Tame.bind (.mapM fun filter hfilter => ?_) fun conditions => ?_
  · obtain ⟨e, he, rfl⟩ := List.mem_map.1 (hfilters ▸ hfilter)
    exact Lowering.Tame.bind (filter_tame hp hsub hscope he (.inl hjoins) _) fun _ => .pure _
  refine Lowering.Tame.bind (.mapM fun key hkey => ?_) fun keys => Lowering.Tame.bind (fun s => .ok _) fun _ => .pure _
  obtain ⟨key, hmem, rfl⟩ := List.mem_map.1 (hordering ▸ hkey)
  refine Lowering.Tame.bind (lower_tame hp hsub hscope (hp.ordering key hmem) ?_ (.inl hjoins) _) fun _ => .pure _
  exact fun inner hinner =>
    hsub inner (List.mem_flatMap.2 ⟨key.expr, mem_expressions.2 (.inr (.inr ⟨key, hmem, rfl⟩)), hinner⟩)

/-- A valid plan is compiled, or refused for something other than a name. -/
theorem Valid.tame (hkeyed : schema.Keyed) (hp : p.Valid schema enclosing) : p.TameIn schema enclosing := by
  induction hp with
  | @mk enclosing p hp _ hsub =>
    intro purpose outer n houter
    rw [select_eq]
    have hscope : (Scope.ofSelect schema p.root (tableAlias n) outer).Serves schema p.root enclosing :=
      ⟨rfl, rfl, houter⟩
    refine Tame.bind (outputs_tame hkeyed hp purpose) fun ⟨outputs, shape⟩ houtputs => ?_
    have hclauses := lowerClauses_tame hp hsub hscope rfl (outputs_found houtputs) { next := n + 1 }
    dsimp only
    split
    · exact (checkGrouping_tame outputs).bind fun _ _ => hclauses.bind fun _ _ => by cases purpose <;> exact .ok _
    · exact hclauses.bind fun _ _ => by cases purpose <;> exact .ok _

/-! ## Batches -/

/-- A statement for records has a column for every field that one of the plan's relations is matched by. -/
theorem RecordOutputs.localColumn (hkeyed : schema.Keyed) (hp : p.Resolved schema enclosing) {kept : List String}
    {outputs : List Output} (h : p.RecordOutputs schema kept outputs) {f : Field} (hf : f ∈ p.root.fields)
    (hkept : f.name ∈ kept) : ∃ c ∈ outputs.map (·.column), c.source = .root ∧ c.key = f.name := by
  obtain ⟨found, hfound, hname⟩ := hkeyed.field_found (Schema.mem_of_entity hp.root) hf
  obtain ⟨hfields, -, -⟩ := h
  obtain ⟨o, ho, heq⟩ := exists_of_mapM_ok hfields hkept
  rw [ofRootField_ok hkeyed hp hfound] at heq
  refine ⟨o.column, List.mem_map_of_mem (List.mem_append_left _ (List.mem_append_left _ ho)), ?_⟩
  rw [← Except.ok.inj heq]
  exact ⟨rfl, hname⟩

/-- The fetch of a loaded relation finds its columns on both sides. -/
theorem batches_tame (hkeyed : schema.Keyed) (hp : p.Resolved schema enclosing) {outputs : List Output}
    {shape : ResultShape} (houtputs : p.outputs schema .rows = .ok (outputs, shape)) (hshape : shape.isMapping = false) :
    Tame (p.batches schema (outputs.map (·.column))) := by
  refine .mapM fun name hname => ?_
  obtain ⟨entry, hentry, rfl⟩ := List.mem_map.1 hname
  have hloaded : entry.1 ∈ p.loadings.names := List.mem_map_of_mem (List.mem_filter.1 hentry).1
  obtain ⟨relation, hrelation⟩ := Option.isSome_iff_exists.1 (hp.loadings entry.1 hloaded)
  have hmem := Schema.mem_of_entity hp.root
  have hdeclared := Entity.mem_of_relation hrelation
  obtain ⟨target, htarget⟩ := hkeyed.exists_target hmem hdeclared
  obtain ⟨own, hown, hlocal⟩ := hkeyed.localColumn _ hmem _ hdeclared
  obtain ⟨key, hkey, hremote⟩ := hkeyed.remoteColumn _ hmem _ hdeclared target htarget
  have hcolumn : ∃ c ∈ outputs.map (·.column), c.source = .root ∧ c.key = own.name := by
    rcases outputs_cases houtputs with ⟨names, -, rfl⟩ | ⟨hrecord, -⟩ | ⟨names, hrecord, -⟩
    · cases hshape
    · exact hrecord.localColumn hkeyed hp hown (List.mem_map_of_mem hown)
    · refine hrecord.localColumn hkeyed hp hown ?_
      rw [narrowedFields, distinctNames, List.mem_eraseDups, List.mem_append, List.mem_cons]
      refine .inl (.inr (List.mem_filterMap.2 ⟨entry.1, hloaded, ?_⟩))
      rw [hrelation, Option.map_some, hlocal]
  obtain ⟨c, hc, hsource, hname⟩ := hcolumn
  have hindex : ((outputs.map (·.column)).findIdx? fun c => c.source = .root && c.key = relation.localColumn).isSome := by
    rw [List.findIdx?_isSome, List.any_eq_true]
    exact ⟨c, hc, by simp [hsource, hname, hlocal]⟩
  have hkeyIndex : (target.fields.findIdx? (·.name = relation.remoteColumn)).isSome := by
    rw [List.findIdx?_isSome, List.any_eq_true]
    exact ⟨key, hkey, by simpa using hremote⟩
  refine Tame.bind (.orFail (Option.isSome_iff_exists.2 ⟨relation, hrelation⟩)) fun found hfound => ?_
  obtain rfl := Option.some.inj (hrelation.symm.trans (orFail_eq_ok.1 hfound))
  refine Tame.bind (.of_ok ⟨target, htarget⟩) fun found hfound => ?_
  obtain rfl := Except.ok.inj (htarget.symm.trans hfound)
  exact Tame.bind (.orFail hindex) fun _ _ => Tame.bind (.orFail hkeyIndex) fun _ _ => .ok _

/-! ## Changes -/

/-- The plan for the keys of a valid plan's rows is there, and valid. -/
theorem Valid.keyPlan (hkeyed : schema.Keyed) (hp : p.Valid schema enclosing) :
    ∃ keyed, p.keyPlan schema = .ok keyed ∧ keyed.Valid schema enclosing := by
  have hmem := Schema.mem_of_entity hp.resolved.root
  have hnamed : ∃ e, p.named schema p.root.primaryKey = .ok e := by
    by_cases hannotation : p.root.primaryKey ∈ p.aliasNames
    · exact ⟨_, named_of_alias hannotation⟩
    · obtain ⟨f, hf⟩ := hkeyed.primaryKey_found hmem
      refine ⟨.field ⟨p.root.name, p.root.primaryKey, [], f⟩, ?_⟩
      rw [named, if_neg fun h => hannotation (annotationOf_isSome.1 h), hkeyed.resolve_field hp.resolved.root hf]
      rfl
  obtain ⟨e, he⟩ := hnamed
  have hproject : p.apply schema (.project [p.root.primaryKey]) =
      .ok { p with projection := some ⟨.mapping, [p.root.primaryKey]⟩ } := by
    simp only [Plan.apply, project, List.forM_cons, List.forM_nil, List.forM_eq_forM, he]
    rfl
  have hkeys := hp.apply_nil hkeyed rfl hproject
  have hplan : p.keyPlan schema = .ok (if p.isPaged then { p with projection := some ⟨.mapping, [p.root.primaryKey]⟩ }
      else ({ p with projection := some ⟨.mapping, [p.root.primaryKey]⟩ } : Plan).clearOrdering) := by
    have hproject : p.project schema [p.root.primaryKey] = _ := hproject
    rw [Plan.keyPlan, hproject]
    rfl
  refine ⟨_, hplan, ?_⟩
  split
  · exact hkeys
  · have hclear : ∀ q : Plan, q.apply schema .clearOrdering = .ok q.clearOrdering := fun _ => rfl
    exact hkeys.apply_nil hkeyed rfl (hclear _)

/-- A DELETE selects the keys of its rows, or has conditions that need no table but its own. -/
theorem Valid.delete_tame (hkeyed : schema.Keyed) (hp : p.Valid schema none) : Tame (p.delete schema) := by
  have hsub : ∀ inner ∈ p.subplans, inner.TameIn schema (some p.root) := fun inner hinner =>
    (hp.nested inner hinner).tame hkeyed
  have hscope : (Scope.ofChange schema p.root).Serves schema p.root none := ⟨rfl, rfl, nofun⟩
  have hkeys : Tame (p.keyQuery schema) := by
    unfold keyQuery
    split
    · obtain ⟨keyed, hplan, hvalid⟩ := hp.keyPlan hkeyed
      refine Tame.bind (.of_ok ⟨keyed, hplan⟩) fun found hfound => ?_
      obtain rfl := Except.ok.inj (hplan.symm.trans hfound)
      exact Tame.bind (hvalid.tame hkeyed .rows none 0 nofun) fun _ _ => .ok _
    · exact .ok _
  refine hkeys.bind fun ⟨keys, next⟩ hkeys => Tame.bind (.map ?_ _) fun _ _ => .ok _
  cases keys with
  | some q => exact .ok _
  | none =>
    have hdirect : p.needsKeys = false := by
      unfold keyQuery at hkeys
      split at hkeys
      · obtain ⟨keyed, -, hmore⟩ := ok_of_bind hkeys
        obtain ⟨selected, -, hpure⟩ := ok_of_bind hmore
        cases hpure
      · next hneeds => simpa using hneeds
    have hfilters : p.fragments.filters = p.filters.map fun e => (e, e.lower) := filterFragments_eq p.filters
    have hconditions : (p.fragments.filters.mapM fun filter => p.lowerInChange schema filter.2).Tame := by
      refine .mapM fun filter hfilter => ?_
      obtain ⟨e, he, rfl⟩ := List.mem_map.1 (hfilters ▸ hfilter)
      rw [needsKeys, Bool.or_eq_false_iff, List.any_eq_false] at hdirect
      have hreach : p.reachesRelations e = false := by
        have hneither := hdirect.2 e he
        rw [Bool.not_eq_true, Bool.or_eq_false_iff] at hneither
        exact hneither.2
      exact filter_tame hp.resolved hsub hscope he (.inr hreach) .filter
    exact Lowering.Tame.bind hconditions (fun _ => .pure _) { next }

/-! ## Built plans -/

/-- The statements of a built plan are compiled, unless a grouped result is ambiguous or a subplan cannot be nested: no
name that was checked when the plan was built is unknown afterwards. -/
theorem Built.refusals {schema : Schema} (hkeyed : schema.Keyed) {p : Plan} {earlier : List Plan}
    (hbuilt : Plan.Built schema none p earlier) (d : Sql.Dialect) :
    Tame (p.compile schema d) ∧ Tame (p.compileCount schema d) ∧ Tame (p.compileExists schema d) ∧
      Tame (p.compileDelete schema d) := by
  have hp := hbuilt.valid hkeyed
  have hselect : ∀ purpose, Tame (p.select schema purpose none 0) := fun purpose => hp.tame hkeyed purpose none 0 nofun
  refine ⟨?_, ?_, ?_, ?_⟩
  · refine Tame.bind (.map (hselect .rows) _) fun selection hselection => ?_
    obtain ⟨outputs, _, _, _, _, houtputs, -, -, -, -, hcolumns, -⟩ := rowSelection_ok hselection
    dsimp only
    split
    · exact .ok _
    · next hshape =>
      rw [hcolumns]
      exact (batches_tame hkeyed hp.resolved houtputs (Bool.eq_false_iff.2 hshape)).bind fun _ _ => .ok _
  · exact Tame.bind (.map (hselect .count) _) fun _ _ => .ok _
  · exact Tame.bind (.map (hselect .existence) _) fun _ _ => .ok _
  · exact (hp.delete_tame hkeyed).bind fun _ _ => .ok _

theorem sampleSchema_keyed : sampleSchema.Keyed where
  checked := ⟨[.declare "blog" (some "blogs") none [⟨"id", .int, false⟩, ⟨"rating", .int, false⟩] [],
    .declare "entry" (some "entries") none [⟨"id", .int, false⟩, ⟨"blog_id", .int, true⟩]
      [.toOne "blog" "blog" "blog_id"]], by rfl⟩
  undotted := by decide
  pk := by decide
  localColumn := by decide
  remoteColumn := by
    have hblog : ∀ e ∈ sampleSchema.entities, ∀ r ∈ e.relations, r.target = "blog" ∧ r.remoteColumn = "id" := by decide
    intro e he r hr target htarget
    obtain ⟨hname, hcolumn⟩ := hblog e he r hr
    rw [hname] at htarget
    obtain rfl := Except.ok.inj htarget
    exact ⟨⟨"id", .int, false⟩, by decide, hcolumn.symm⟩

/-- An entry's blog is built inside the entry, by a field of which it is asked for. -/
theorem sampleInnerPlan_built : Plan.Built sampleSchema (some sampleEntry) sampleInnerPlan [ofEntity sampleBlog] := by
  have hstart : Plan.Built sampleSchema (some sampleEntry) (ofEntity sampleBlog) [] := .start (rfl : Plan.start sampleSchema "blog" = _)
  refine .step (.filter _) (fun _ => []) hstart (fun e he node hnode => ?_) (fun e he inner hinner => ?_) rfl
  · obtain rfl := List.mem_singleton.1 he
    simp only [Expr.nodes, List.mem_cons, List.mem_append, List.not_mem_nil, or_false] at hnode
    rcases hnode with rfl | rfl | rfl
    · trivial
    · exact ⟨_, List.mem_cons_self, "id", rfl⟩
    · exact ⟨sampleEntry, rfl, rfl⟩
  · obtain rfl := List.mem_singleton.1 he
    simp [Expr.subplans, Expr.nodes] at hinner

/-- The different entries that have a blog, ordered along a relation and filtered by a subplan. -/
theorem Built.refusals_nested : Tame (sampleNestedPlan.compile sampleSchema .sqlite) ∧
    Tame (sampleNestedPlan.compileCount sampleSchema .sqlite) ∧
    Tame (sampleNestedPlan.compileExists sampleSchema .sqlite) ∧
    Tame (sampleNestedPlan.compileDelete sampleSchema .sqlite) := by
  have hnone {q : Expr → Prop} : ∀ e ∈ ([] : List Expr), q e := fun e he => absurd he List.not_mem_nil
  have hstart : Plan.Built sampleSchema none (ofEntity sampleEntry) [] := .start (rfl : Plan.start sampleSchema "entry" = _)
  have hfiltered : Plan.Built sampleSchema none _ _ :=
    .step (.filter (.existsRow sampleInnerPlan false)) (fun _ => [ofEntity sampleBlog]) hstart
      (fun e he node hnode => by
        obtain rfl := List.mem_singleton.1 he
        obtain rfl := List.mem_singleton.1 hnode
        trivial)
      (fun e he inner hinner => by
        obtain rfl := List.mem_singleton.1 he
        obtain rfl : inner = sampleInnerPlan := by simpa [Expr.subplans, Expr.nodes] using hinner
        exact sampleInnerPlan_built) rfl
  have hordered : Plan.Built sampleSchema none _ _ :=
    .step (.orderBy "blog.rating" .desc) (fun _ => []) hfiltered hnone hnone rfl
  have hbuilt : Plan.Built sampleSchema none sampleNestedPlan _ :=
    .step .distinct (fun _ => []) hordered hnone hnone rfl
  exact Built.refusals sampleSchema_keyed hbuilt .sqlite

end Plan

end RelQuery
