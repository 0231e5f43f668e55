/-
The joins of a statement and the rows they reach.

A relation path leads from a row of the root to a related row or to none (`Database.follow`). The joins of a statement
are laid out along such paths, each joined to the root or to an earlier join (`Laid`). When keys of to-one relations
match one row each, joining them all to a row makes one row of it, or none when an inner join finds nothing; which
joins are inner is known from the references alone (`innerHops`).
- `extend_join`: what one join makes of a row.
- `joinFrames_laid`: what all of them make of it.
- `columns_laid`: the joins that a list of references leads to, and which of them are inner.
-/
import RelQuery.Proofs.Schema.Names
import RelQuery.Proofs.Statement.Tables

namespace RelQuery

/-! ## Related rows -/

/-- the entity that relations lead to -/
def Schema.reach (schema : Schema) : Entity → List String → Option Entity
  | e, [] => some e
  | e, name :: rest =>
    match e.relation name with
    | none => none
    | some relation =>
      match schema.entity? relation.target with
      | none => none
      | some target => schema.reach target rest

namespace Sql.Database

variable (db : Database)

/-- whether two rows belong together in a relation -/
def matching (relation : Relation) (row other : Tuple) : Bool :=
  db.equals (row relation.localColumn) (other relation.remoteColumn) = .yes

/-- the row of the target that a row is related to -/
def related (relation : Relation) (target : Entity) (row : Option Tuple) : Option Tuple :=
  row.bind fun tuple => (db.rows target.table).find? (db.matching relation tuple)

/-- the row that relations lead to from a row -/
def follow (schema : Schema) : Entity → Option Tuple → List String → Option Tuple
  | _, row, [] => row
  | e, row, name :: rest =>
    match e.relation name with
    | none => none
    | some relation =>
      match schema.entity? relation.target with
      | none => none
      | some target => follow schema target (db.related relation target row) rest

/-- Each key of a to-one relation that is not null is the key of exactly one row. -/
def Referential (schema : Schema) : Prop :=
  ∀ e ∈ schema.entities, ∀ name relation target, e.relation name = some relation → relation.cardinality = .toOne →
    schema.entity? relation.target = some target → ∀ row ∈ db.rows e.table, row relation.localColumn ≠ .null →
    ((db.rows target.table).filter (db.matching relation row)).length = 1

end Sql.Database

section Follow

variable {db : Sql.Database} {schema : Schema}

theorem Schema.reach_mem {e owner : Entity} {path : List String} (he : e ∈ schema.entities)
    (h : schema.reach e path = some owner) : owner ∈ schema.entities := by
  induction path generalizing e with
  | nil => obtain rfl := Option.some.inj h; exact he
  | cons name rest ih =>
    unfold reach at h
    split at h
    · cases h
    · split at h
      · cases h
      · next target htarget => exact ih (mem_of_entity? htarget) h

theorem Schema.reach_snoc {e owner target : Entity} {path : List String} {name : String} {relation : Relation}
    (howner : schema.reach e path = some owner) (hrelation : owner.relation name = some relation)
    (htarget : schema.entity? relation.target = some target) : schema.reach e (path ++ [name]) = some target := by
  induction path generalizing e with
  | nil =>
    obtain rfl := Option.some.inj howner
    simp [reach, hrelation, htarget]
  | cons first rest ih =>
    simp only [List.cons_append, reach] at howner ⊢
    cases hfirst : e.relation first with
    | none => rw [hfirst] at howner; cases howner
    | some r =>
      cases hr : schema.entity? r.target with
      | none => simp only [hfirst, hr] at howner; cases howner
      | some t =>
        simp only [hfirst, hr] at howner ⊢
        exact ih howner

theorem follow_snoc {e owner target : Entity} {path : List String} {name : String} {relation : Relation}
    {row : Option Tuple} (howner : schema.reach e path = some owner) (hrelation : owner.relation name = some relation)
    (htarget : schema.entity? relation.target = some target) :
    db.follow schema e row (path ++ [name]) = db.related relation target (db.follow schema e row path) := by
  induction path generalizing e row with
  | nil =>
    obtain rfl := Option.some.inj howner
    simp [Sql.Database.follow, hrelation, htarget]
  | cons first rest ih =>
    simp only [List.cons_append, Sql.Database.follow, Schema.reach] at howner ⊢
    cases hfirst : e.relation first with
    | none => rw [hfirst] at howner; cases howner
    | some r =>
      cases hr : schema.entity? r.target with
      | none => simp only [hfirst, hr] at howner; cases howner
      | some t =>
        simp only [hfirst, hr] at howner ⊢
        exact ih howner

/-- A row that a path leads to is a row of the entity that it leads to. -/
theorem follow_mem {e owner : Entity} {path : List String} {row : Option Tuple} {found : Tuple}
    (hrow : ∀ tuple, row = some tuple → tuple ∈ db.rows e.table) (howner : schema.reach e path = some owner)
    (h : db.follow schema e row path = some found) : found ∈ db.rows owner.table := by
  induction path generalizing e row with
  | nil =>
    obtain rfl := Option.some.inj howner
    exact hrow found h
  | cons first rest ih =>
    simp only [Sql.Database.follow, Schema.reach] at howner h
    cases hfirst : e.relation first with
    | none => rw [hfirst] at howner; cases howner
    | some r =>
      cases hr : schema.entity? r.target with
      | none => simp only [hfirst, hr] at howner; cases howner
      | some t =>
        simp only [hfirst, hr] at howner h
        refine ih (fun tuple htuple => ?_) howner h
        obtain ⟨before, -, hfind⟩ := Option.bind_eq_some_iff.1 htuple
        exact List.mem_of_find?_eq_some hfind

/-- The rows that a row matches are its related row. -/
theorem filter_matching (href : db.Referential schema) {owner target : Entity} {name : String} {relation : Relation}
    (howner : owner ∈ schema.entities) (hrelation : owner.relation name = some relation)
    (hone : relation.cardinality = .toOne) (htarget : schema.entity? relation.target = some target) {row : Option Tuple}
    (hrow : ∀ tuple, row = some tuple → tuple ∈ db.rows owner.table) :
    (db.rows target.table).filter (fun other =>
      db.equals (cell row relation.localColumn) (other relation.remoteColumn) = .yes) =
      (db.related relation target row).toList := by
  have hnull : ∀ other : Tuple, db.equals .null (other relation.remoteColumn) ≠ .yes := by
    intro other
    simp [Operators.equals, Operators.test, Value.isNull]
  cases row with
  | none => simp [Sql.Database.related, hnull]
  | some tuple =>
    have hfind : (db.rows target.table).find? (db.matching relation tuple) =
        ((db.rows target.table).filter (db.matching relation tuple)).head? := List.head?_filter.symm
    have hfilter : (db.rows target.table).filter (fun other =>
        db.equals (cell (some tuple) relation.localColumn) (other relation.remoteColumn) = .yes) =
        (db.rows target.table).filter (db.matching relation tuple) := rfl
    rw [hfilter, Sql.Database.related, Option.bind_some, hfind]
    by_cases hlocal : tuple relation.localColumn = .null
    · have hnone : (db.rows target.table).filter (db.matching relation tuple) = [] := by
        refine List.filter_eq_nil_iff.2 fun other _ => ?_
        simp [Sql.Database.matching, hlocal, hnull]
      rw [hnone]
      rfl
    · obtain ⟨found, hfound⟩ := List.length_eq_one_iff.1
        (href owner howner name relation target hrelation hone htarget tuple (hrow tuple rfl) hlocal)
      rw [hfound]
      rfl

end Follow

/-! ## The layout of joins -/

/-- The table of this name stands at a path: it is the root table or one of the joins. -/
def StandsAt (scope : Scope) (nodes : List JoinNode) (path : List String) (name : String) : Prop :=
  path = [] ∧ scope.qualifier = some name ∨ ∃ node ∈ nodes, node.path = path ∧ node.aliasName = name

/-- a join onto the root or onto one of the joins before it -/
structure Hop (scope : Scope) (before : List JoinNode) (node : JoinNode) : Prop where
  leads : ∃ path owner target, node.path = path ++ [node.relation.name] ∧
    scope.schema.reach scope.root path = some owner ∧
    owner.relation node.relation.name = some node.relation ∧
    scope.schema.entity? node.relation.target = some target ∧ node.table = target.table ∧
    StandsAt scope before path node.parent
  toOne : node.relation.cardinality = .toOne

/-- joins that all follow to-one relations from the root or from an earlier join -/
inductive Laid (scope : Scope) : List JoinNode → Prop where
  | nil : Laid scope []
  | snoc {nodes : List JoinNode} {node : JoinNode} :
    Laid scope nodes → Hop scope nodes node → Laid scope (nodes ++ [node])

theorem JoinState.Named.of_append {first next : Nat} {nodes more : List JoinNode}
    (h : Named first ⟨nodes ++ more, next⟩) : Named first ⟨nodes, next⟩ where
  beyond := h.beyond
  numbered node hnode := h.numbered node (List.mem_append_left _ hnode)
  distinct := by
    have := h.distinct
    rw [List.map_append] at this
    exact (List.nodup_append.1 this).1

/-- the JOIN clause of a node -/
def JoinNode.join (node : JoinNode) : Sql.Join :=
  ⟨node.kind, ⟨node.table, some node.aliasName⟩,
    .eq (.columnOf node.parent node.relation.localColumn) (.columnOf node.aliasName node.relation.remoteColumn)⟩

section Evaluation

variable {db : Sql.Database} {scope : Scope} {first next : Nat} {enclosing : Sql.Frame}

/-- one more table in scope -/
theorem frame_snoc (hscope : scope.Numbered first) {nodes : List JoinNode} {node : JoinNode}
    (hnamed : JoinState.Named first ⟨nodes ++ [node], next⟩) (rows : List String → Option Tuple) :
    (scope.frame nodes rows enclosing).bind node.aliasName (rows node.path) =
      scope.frame (nodes ++ [node]) rows enclosing := by
  funext name
  cases name with
  | none => simp [Sql.Frame.bind, Scope.frame]
  | some name =>
    by_cases hname : name = node.aliasName
    · subst hname
      have hmem : node ∈ nodes ++ [node] := by simp
      have hnode := Scope.frame_node rows enclosing hscope hnamed hmem
      simpa [Sql.Frame.bind] using hnode.symm
    · have hne : ¬node.aliasName = name := fun heq => hname heq.symm
      simp [Sql.Frame.bind, Scope.frame, List.find?_append, hname, hne]

/-- The table that a join starts from is in scope before the join, under another name than the new table's. -/
theorem StandsAt.frame_parent {nodes : List JoinNode} {node : JoinNode} {path : List String}
    (h : StandsAt scope nodes path node.parent) (hscope : scope.Numbered first)
    (hnamed : JoinState.Named first ⟨nodes ++ [node], next⟩) (rows : List String → Option Tuple)
    (enclosing : Sql.Frame) :
    scope.frame nodes rows enclosing (some node.parent) = rows path ∧ node.parent ≠ node.aliasName := by
  obtain ⟨m, hfirst, -, halias⟩ := hnamed.numbered node (by simp)
  rcases h with ⟨rfl, hqualifier⟩ | ⟨parent, hmem, rfl, hname⟩
  · rw [← hqualifier]
    refine ⟨Scope.frame_root rows enclosing hscope nodes, fun heq => ?_⟩
    rw [heq, hscope.qualifier, halias] at hqualifier
    exact Nat.ne_of_lt hfirst (tableAlias_inj.1 (Option.some.inj hqualifier))
  · rw [← hname]
    refine ⟨Scope.frame_node rows enclosing hscope hnamed.of_append hmem, fun heq => ?_⟩
    have hdistinct := hnamed.distinct
    rw [List.map_append, List.nodup_append] at hdistinct
    exact hdistinct.2.2 _ (List.mem_map_of_mem hmem) _ (by simp) heq

/-- A join compares its columns with those of the row that its parent has in scope. -/
theorem JoinNode.join_extend {node : JoinNode} {frame : Sql.Frame} {row : Option Tuple}
    (hrow : frame (some node.parent) = row) (hne : node.parent ≠ node.aliasName) :
    node.join.extend db frame = node.join.kind.keep (frame.bind node.aliasName none)
      (((db.rows node.table).filter fun other => db.equals (cell row node.relation.localColumn)
        (other node.relation.remoteColumn) = .yes).map fun other => frame.bind node.aliasName (some other)) := by
  have hon : ∀ other : Tuple,
      db.truth (node.join.on.eval db (.ofFrame (frame.bind node.aliasName (some other)))) =
        db.equals (cell row node.relation.localColumn) (other node.relation.remoteColumn) := by
    intro other
    simp [JoinNode.join, Sql.Expr.eq, Sql.Expr.columnOf, Sql.Expr.eval, Sql.BinaryOp.apply, Sql.Context.ofFrame,
      Sql.Frame.bind, hrow, hne]
  have hname : node.join.table.name = node.aliasName := rfl
  have htable : node.join.table.table = node.table := rfl
  rw [Sql.Join.extend, hname, htable, List.filter_map]
  congr 3
  funext other
  simp only [Function.comp_apply, hon]

/-- One join finds the related row; without one, a left join goes on without a row and an inner join gives nothing. -/
theorem extend_join (href : db.Referential scope.schema) (hscope : scope.Numbered first)
    (hroot : scope.root ∈ scope.schema.entities) {nodes : List JoinNode} {node : JoinNode} (hhop : Hop scope nodes node)
    (hnamed : JoinState.Named first ⟨nodes ++ [node], next⟩) {row : Tuple} (hrow : row ∈ db.rows scope.root.table) :
    let rows := db.follow scope.schema scope.root (some row)
    node.join.extend db (scope.frame nodes rows enclosing) =
      if node.kind = .inner → (rows node.path).isSome then [scope.frame (nodes ++ [node]) rows enclosing] else [] := by
  intro rows
  obtain ⟨path, owner, target, hpath, howner, hrelation, htarget, htable, hparent⟩ := hhop.leads
  have hparentRow : ∀ tuple, rows path = some tuple → tuple ∈ db.rows owner.table := fun tuple htuple =>
    follow_mem (fun t ht => by obtain rfl := Option.some.inj ht; exact hrow) howner htuple
  have hrelated : rows node.path = db.related node.relation target (rows path) := by
    rw [hpath]
    exact follow_snoc howner hrelation htarget
  obtain ⟨hframe, hne⟩ := hparent.frame_parent hscope hnamed rows enclosing
  have hfound := filter_matching href (Schema.reach_mem hroot howner) hrelation hhop.toOne htarget hparentRow
  rw [JoinNode.join_extend hframe hne, htable, hfound, ← hrelated, ← frame_snoc hscope hnamed rows]
  cases hpresent : rows node.path with
  | some other => cases hkind : node.kind <;> simp [JoinNode.join, hkind, Sql.JoinKind.keep]
  | none => cases hkind : node.kind <;> simp [JoinNode.join, hkind, Sql.JoinKind.keep]

/-- Joining all tables to a row makes one row of it, or none when an inner join leads nowhere. -/
theorem joinFrames_laid (href : db.Referential scope.schema) (hscope : scope.Numbered first)
    (hroot : scope.root ∈ scope.schema.entities) {nodes : List JoinNode} (hlaid : Laid scope nodes)
    (hnamed : JoinState.Named first ⟨nodes, next⟩) {row : Tuple} (hrow : row ∈ db.rows scope.root.table) :
    let rows := db.follow scope.schema scope.root (some row)
    Sql.joinFrames db (nodes.map JoinNode.join) [scope.frame [] rows enclosing] =
      if ∀ node ∈ nodes, node.kind = .inner → (rows node.path).isSome then [scope.frame nodes rows enclosing]
      else [] := by
  intro rows
  induction hlaid with
  | nil => simp [Sql.joinFrames]
  | @snoc nodes node _ hhop ih =>
    have hextend : node.join.extend db (scope.frame nodes rows enclosing) =
        if node.kind = .inner → (rows node.path).isSome then [scope.frame (nodes ++ [node]) rows enclosing] else [] :=
      extend_join href hscope hroot hhop hnamed hrow
    rw [List.map_append, Sql.joinFrames_append, ih hnamed.of_append]
    by_cases hall : ∀ node ∈ nodes, node.kind = .inner → (rows node.path).isSome
    · rw [if_pos hall, List.map_singleton, Sql.joinFrames_cons, List.flatMap_singleton]
      simp only [Sql.joinFrames]
      rw [hextend]
      by_cases hnode : node.kind = .inner → (rows node.path).isSome
      · rw [if_pos hnode, if_pos]
        intro other hother
        rcases List.mem_append.1 hother with hother | hother
        · exact hall other hother
        · obtain rfl := List.mem_singleton.1 hother
          exact hnode
      · rw [if_neg hnode, if_neg fun h => hnode (h node (by simp))]
    · rw [if_neg hall, if_neg fun h => hall fun other hother => h other (by simp [hother]), Sql.joinFrames_flatMap]
      rfl

end Evaluation

/-! ## The joins of references -/

/-- relations that follow one another from an entity -/
inductive Schema.Leads (schema : Schema) : Entity → List Relation → Prop where
  | nil {e : Entity} : Leads schema e []
  | cons {e target : Entity} {relation : Relation} {rest : List Relation} :
    e.relation relation.name = some relation → schema.entity? relation.target = some target → Leads schema target rest →
    Leads schema e (relation :: rest)

/-- The relations of a path that has been resolved follow one another. -/
theorem Schema.follow_leads {schema : Schema} {failure : QueryError} : {segments : List String} → {e : Entity} →
    {resolved : ResolvedPath} → schema.follow failure e segments = .ok resolved → schema.Leads e resolved.hops
  | [], _, _, h => by cases h
  | [segment], e, resolved, h => by
    unfold follow at h
    split at h
    · next relation hrelation =>
      obtain ⟨target, htarget, h⟩ := ok_of_bind h
      obtain ⟨field, -, h⟩ := ok_of_bind h
      cases h
      have hname := Entity.relation_name hrelation
      exact .cons (hname ▸ hrelation) (entity_eq_ok.1 htarget) .nil
    · obtain ⟨field, -, h⟩ := ok_of_bind h
      cases h
      exact .nil
  | segment :: next :: rest, e, resolved, h => by
    unfold follow at h
    split at h
    · next relation hrelation =>
      obtain ⟨target, htarget, h⟩ := ok_of_bind h
      obtain ⟨path, hpath, h⟩ := ok_of_bind h
      cases h
      have hname := Entity.relation_name hrelation
      exact .cons (hname ▸ hrelation) (entity_eq_ok.1 htarget) (follow_leads hpath)
    · cases h

/-- A resolved reference is what its own path resolves to. -/
theorem FieldRef.resolve_self {schema : Schema} {root path : String} {ref : FieldRef}
    (h : FieldRef.resolve schema root path = .ok ref) : FieldRef.resolve schema ref.root ref.path = .ok ref := by
  obtain ⟨resolved, -, hpure⟩ := ok_of_bind h
  cases hpure
  exact h

theorem FieldRef.resolve_leads {schema : Schema} {e : Entity} {path : String} {ref : FieldRef}
    (he : schema.entity e.name = .ok e) (h : FieldRef.resolve schema e.name path = .ok ref) :
    schema.Leads e ref.hops := by
  obtain ⟨resolved, hresolved, h⟩ := ok_of_bind h
  cases h
  obtain ⟨start, hstart, hfollow⟩ := ok_of_bind hresolved
  obtain rfl : start = e := Except.ok.inj (hstart.symm.trans he)
  exact Schema.follow_leads hfollow

theorem Hop.of_places {scope : Scope} {before others : List JoinNode} {node other : JoinNode}
    (h : Hop scope before node) (hbefore : others.map JoinNode.place = before.map JoinNode.place)
    (hnode : other.place = node.place) : Hop scope others other := by
  obtain ⟨⟨path, owner, target, hpath, howner, hrelation, htarget, htable, hparent⟩, hone⟩ := h
  obtain ⟨hsame, -, hparentName, hsameRelation, hsameTable⟩ := JoinNode.place_eq.1 hnode
  refine ⟨⟨path, owner, target, ?_, howner, ?_, ?_, ?_, ?_⟩, ?_⟩
  · rw [hsame, hsameRelation, hpath]
  · rw [hsameRelation]; exact hrelation
  · rw [hsameRelation]; exact htarget
  · rw [hsameTable]; exact htable
  · rw [hparentName]
    refine hparent.imp_right fun ⟨parent, hmem, hparentPath, hname⟩ => ?_
    obtain ⟨twin, htwin, hplace⟩ := List.mem_map.1 (hbefore ▸ List.mem_map_of_mem hmem : parent.place ∈ others.map _)
    obtain ⟨htwinPath, htwinName, -⟩ := JoinNode.place_eq.1 hplace
    exact ⟨twin, htwin, htwinPath.trans hparentPath, htwinName.trans hname⟩
  · rw [hsameRelation]; exact hone

/-- The layout does not depend on the kinds of the joins. -/
theorem Laid.of_places {scope : Scope} {nodes others : List JoinNode} (h : Laid scope nodes)
    (hplaces : others.map JoinNode.place = nodes.map JoinNode.place) : Laid scope others := by
  induction h generalizing others with
  | nil =>
    obtain rfl := List.map_eq_nil_iff.1 hplaces
    exact .nil
  | snoc _ hhop ih =>
    rw [List.map_append, List.map_singleton] at hplaces
    obtain ⟨init, tail, rfl, hinit, htail⟩ := List.map_eq_append_iff.1 hplaces
    obtain ⟨last, rfl, hlast⟩ := List.map_eq_singleton_iff.1 htail
    exact .snoc (ih hinit) (hhop.of_places hinit hlast)

/-- whether a path is joined by an inner join -/
def JoinState.IsInner (s : JoinState) (path : List String) : Prop :=
  ∃ node ∈ s.nodes, node.path = path ∧ node.kind = .inner

theorem JoinState.touch_isInner (s : JoinState) (path : List String) (kind : Sql.JoinKind) (parent : String)
    (relation : Relation) (table : String) (other : List String) :
    (s.touch path kind parent relation table).2.IsInner other ↔ s.IsInner other ∨ other = path ∧ kind = .inner := by
  rcases touch_cases s path kind parent relation table with ⟨found, hfind, heq⟩ | ⟨-, heq⟩
  · rw [heq]
    simp only [IsInner, strengthen, List.mem_map]
    constructor
    · rintro ⟨_, ⟨node, hnode, rfl⟩, hpath, hkind⟩
      by_cases hhit : node.path = path ∧ kind = .inner
      · simp only [hhit, decide_true, Bool.and_self, if_true] at hpath
        exact .inr ⟨hpath.symm, hhit.2⟩
      · have hmiss : ¬(decide (node.path = path) && decide (kind = .inner)) = true := by simpa using hhit
        rw [if_neg hmiss] at hpath hkind
        exact .inl ⟨node, hnode, hpath, hkind⟩
    · rintro (⟨node, hnode, hpath, hkind⟩ | ⟨rfl, rfl⟩)
      · refine ⟨_, ⟨node, hnode, rfl⟩, ?_, ?_⟩ <;> split <;> first | exact hpath | exact hkind | rfl
      · have hpath : found.path = other := by simpa using List.find?_some hfind
        exact ⟨_, ⟨found, List.mem_of_find?_eq_some hfind, rfl⟩, by simp [hpath], by simp [hpath]⟩
  · rw [heq]
    simp only [IsInner, List.mem_append, List.mem_singleton]
    constructor
    · rintro ⟨node, hnode | rfl, hpath, hkind⟩
      · exact .inl ⟨node, hnode, hpath, hkind⟩
      · exact .inr ⟨hpath.symm, hkind⟩
    · rintro (⟨node, hnode, hpath, hkind⟩ | ⟨rfl, rfl⟩)
      · exact ⟨node, .inl hnode, hpath, hkind⟩
      · exact ⟨_, .inr rfl, rfl, rfl⟩

/-- the paths that a reference asks to join by inner joins -/
def innerHops (schema : Schema) (role : Role) : List Relation → Entity → List String → Bool → List (List String)
  | [], _, _, _ => []
  | relation :: rest, owner, path, outerJoined =>
    match schema.entity? relation.target with
    | none => []
    | some target =>
      let kind := if outerJoined then .left else joinKind role relation owner
      let path := path ++ [relation.name]
      (if kind = .inner then [path] else []) ++ innerHops schema role rest target path (outerJoined || kind = .left)

/-- the paths that a column's reference asks to join by inner joins -/
def ColumnReference.innerPaths (scope : Scope) (r : ColumnReference) : List (List String) :=
  innerHops scope.schema r.role r.ref.hops scope.root [] false

section Columns

variable {scope : Scope} {first : Nat}

theorem joinHops_isInner {role : Role} {other : List String} : {hops : List Relation} → {owner : Entity} →
    {parent name : String} → {path : List String} → {outerJoined : Bool} → {s s' : JoinState} →
    scope.joinHops role hops owner parent path outerJoined s = .ok (name, s') →
    (s'.IsInner other ↔ s.IsInner other ∨ other ∈ innerHops scope.schema role hops owner path outerJoined)
  | [], _, _, _, _, _, s, s', h => by
    obtain ⟨-, rfl⟩ := Lowering.pure_ok.1 h
    simp [innerHops]
  | relation :: rest, owner, parent, name, path, outerJoined, s, s', h => by
    obtain ⟨target, kind, htarget, hkind, hrest⟩ := Scope.joinHops_cons_ok h
    rw [joinHops_isInner hrest, JoinState.touch_isInner]
    simp only [innerHops, Schema.entity_eq_ok.1 htarget, ← hkind, List.mem_append]
    by_cases hinner : kind = .inner <;> simp [hinner, or_assoc]

theorem touch_laid {s : JoinState} (hlaid : Laid scope s.nodes) {path : List String} {parent : String}
    {owner target : Entity}
    {relation : Relation} (kind : Sql.JoinKind) (hparent : StandsAt scope s.nodes path parent)
    (howner : scope.schema.reach scope.root path = some owner)
    (hrelation : owner.relation relation.name = some relation)
    (htarget : scope.schema.entity? relation.target = some target) (hone : relation.cardinality = .toOne) :
    Laid scope (s.touch (path ++ [relation.name]) kind parent relation target.table).2.nodes := by
  rcases s.touch_cases (path ++ [relation.name]) kind parent relation target.table with ⟨found, -, heq⟩ | ⟨-, heq⟩
  · rw [heq]
    exact hlaid.of_places (JoinState.map_place_strengthen _ kind s.nodes)
  · rw [heq]
    exact .snoc hlaid ⟨⟨path, owner, target, rfl, howner, hrelation, htarget, rfl, hparent⟩, hone⟩

theorem joinHops_laid {role : Role} : {hops : List Relation} → {owner : Entity} → {parent name : String} →
    {path : List String} → {outerJoined : Bool} → {s s' : JoinState} → Laid scope s.nodes →
    StandsAt scope s.nodes path parent → scope.schema.reach scope.root path = some owner →
    scope.schema.Leads owner hops → (∀ hop ∈ hops, hop.cardinality = .toOne) →
    scope.joinHops role hops owner parent path outerJoined s = .ok (name, s') → Laid scope s'.nodes
  | [], _, _, _, _, _, s, s', hlaid, _, _, _, _, h => by
    obtain ⟨-, rfl⟩ := Lowering.pure_ok.1 h
    exact hlaid
  | relation :: rest, owner, parent, name, path, outerJoined, s, s', hlaid, hparent, howner, hleads, hone, h => by
    obtain ⟨target, kind, htarget, -, hrest⟩ := Scope.joinHops_cons_ok h
    cases hleads with
    | @cons _ reached _ _ hrelation hreached hleads =>
      obtain rfl : target = reached := Option.some.inj ((Schema.entity_eq_ok.1 htarget).symm.trans hreached)
      have htouched := touch_laid hlaid kind hparent howner hrelation hreached (hone relation (by simp))
      exact joinHops_laid htouched (.inr (s.touch_node _ kind parent relation target.table))
        (Schema.reach_snoc howner hrelation hreached) hleads (fun hop hhop => hone hop (by simp [hhop])) hrest

/-- a reference along to-one relations of the schema -/
structure ColumnReference.Sound (scope : Scope) (r : ColumnReference) : Prop where
  leads : scope.schema.Leads scope.root r.ref.hops
  toOne : ∀ hop ∈ r.ref.hops, hop.cardinality = .toOne

theorem column_laid (hscope : scope.Numbered first) {r : ColumnReference} (hsound : r.Sound scope) {s s' : JoinState}
    (hlaid : Laid scope s.nodes) (h : r.answer scope s = .ok ((), s')) :
    Laid scope s'.nodes ∧ ∀ path, s'.IsInner path ↔ s.IsInner path ∨ path ∈ r.innerPaths scope := by
  obtain ⟨x, hx⟩ := Lowering.effect_ok.1 h
  obtain ⟨-, ⟨hlocal, -, rfl⟩ | ⟨-, name, hjoin, -⟩⟩ := Scope.column_cases hx
  · exact ⟨hlaid, fun path => by simp [ColumnReference.innerPaths, hlocal, innerHops]⟩
  · simp only [Scope.joinPath, hscope.qualifier] at hjoin
    exact ⟨joinHops_laid hlaid (.inl ⟨rfl, hscope.qualifier⟩) rfl hsound.leads hsound.toOne hjoin,
      fun path => joinHops_isInner hjoin⟩

/-- The joins of a list of references are laid out along their paths, and inner where one of them asks for it. -/
theorem columns_laid (hscope : scope.Numbered first) : {rs : List ColumnReference} → (∀ r ∈ rs, r.Sound scope) →
    ∀ {s s' : JoinState}, Laid scope s.nodes →
    (forM rs (ColumnReference.answer scope) : Lowering Unit) s = .ok ((), s') →
    Laid scope s'.nodes ∧
      ∀ path, s'.IsInner path ↔ s.IsInner path ∨ path ∈ rs.flatMap (ColumnReference.innerPaths scope)
  | [], _, s, s', hlaid, h => by
    obtain ⟨-, rfl⟩ := Lowering.pure_ok.1 h
    exact ⟨hlaid, by simp⟩
  | r :: rest, hsound, s, s', hlaid, h => by
    rw [List.forM_cons] at h
    obtain ⟨_, s₁, hr, hrest⟩ := Lowering.bind_ok h
    obtain ⟨hfirst, hinner⟩ := column_laid hscope (hsound r (by simp)) hlaid hr
    obtain ⟨hlast, hinnerLast⟩ := columns_laid hscope (fun r hr => hsound r (by simp [hr])) hfirst hrest
    refine ⟨hlast, fun path => ?_⟩
    rw [hinnerLast path, hinner path, List.flatMap_cons, List.mem_append, or_assoc]

end Columns

end RelQuery
