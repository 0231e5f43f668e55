/-
The joins of a statement, read off its references.

Which paths a statement joins, in which order and by which kind of join, follows from the columns that it refers to, and
the names of its tables have no part in it (`lowerAll_layout`). So joins are laid out here as a function of the columns
alone (`layout`), and their rows are the choices of rows for the paths laid out (`joinFrames_joinedRows`).
- `layout_laidOut`, `mem_paths_layout`, `isInner_layout`, `layout_sound`: what is laid out.
-/
import RelQuery.Proofs.Statement.PathRows
import RelQuery.Proofs.Statement.WellScoped

namespace RelQuery

def JoinNode.pathJoin (node : JoinNode) : PathJoin := ⟨node.path, node.kind, node.relation, node.table⟩

def JoinState.pathJoins (s : JoinState) : List PathJoin := s.nodes.map JoinNode.pathJoin

/-! ## Laying out -/

/-- a join after a path has been asked for once more -/
def PathJoin.strengthen (path : List String) (kind : Sql.JoinKind) (join : PathJoin) : PathJoin :=
  if join.path = path ∧ kind = .inner then { join with kind := .inner } else join

/-- a path asked for, which is joined unless it is joined already -/
def askPath (path : List String) (kind : Sql.JoinKind) (relation : Relation) (table : String) (joins : List PathJoin) :
    List PathJoin :=
  if joins.any fun join => join.path = path then joins.map (PathJoin.strengthen path kind)
  else joins ++ [⟨path, kind, relation, table⟩]

/-- the hops of a path asked for, one after another -/
def askHops (schema : Schema) (role : Role) :
    List Relation → Entity → List String → Bool → List PathJoin → List PathJoin
  | [], _, _, _, joins => joins
  | relation :: rest, owner, path, outerJoined, joins =>
    match schema.entity? relation.target with
    | none => joins
    | some target =>
      let kind := if outerJoined then .left else joinKind role relation owner
      let path := path ++ [relation.name]
      askHops schema role rest target path (outerJoined || kind = .left) (askPath path kind relation target.table joins)

/-- the joins that a column asks for -/
def ColumnReference.ask (schema : Schema) (root : Entity) (joins : List PathJoin) (r : ColumnReference) :
    List PathJoin :=
  askHops schema r.role r.ref.hops root [] false joins

/-- the joins of a list of columns -/
def layout (schema : Schema) (root : Entity) (rs : List ColumnReference) : List PathJoin :=
  rs.foldl (ColumnReference.ask schema root) []

/-- the rows that these joins make of all rows of the root -/
def joinedPaths (db : Sql.Database) (schema : Schema) (root : Entity) (rs : List ColumnReference) : List PathRows :=
  (db.rows root.table).flatMap fun row => joinedRows db (layout schema root rs) (PathRows.ofRoot row)

/-- the column that a reference is, if it is one -/
def Reference.column? : Reference → Option ColumnReference
  | .column ref role => some ⟨ref, role⟩
  | _ => none

namespace PathJoin

variable (path : List String) (kind : Sql.JoinKind) (join : PathJoin)

@[simp] theorem strengthen_path : (join.strengthen path kind).path = join.path := by
  unfold strengthen
  split <;> rfl

@[simp] theorem strengthen_relation : (join.strengthen path kind).relation = join.relation := by
  unfold strengthen
  split <;> rfl

@[simp] theorem strengthen_table : (join.strengthen path kind).table = join.table := by
  unfold strengthen
  split <;> rfl

theorem strengthen_kind : (join.strengthen path kind).kind = .inner ↔
    join.kind = .inner ∨ join.path = path ∧ kind = .inner := by
  unfold strengthen
  split
  · next hhit => exact ⟨fun _ => .inr hhit, fun _ => rfl⟩
  · next hmiss => exact ⟨.inl, fun h => h.resolve_right hmiss⟩

end PathJoin

theorem JoinState.touch_pathJoins (s : JoinState) (path : List String) (kind : Sql.JoinKind) (parent : String)
    (relation : Relation) (table : String) :
    (s.touch path kind parent relation table).2.pathJoins = askPath path kind relation table s.pathJoins := by
  have hany : (s.pathJoins.any fun join => join.path = path) = s.nodes.any fun node => node.path = path := by
    rw [pathJoins, List.any_map]
    rfl
  rcases touch_cases s path kind parent relation table with ⟨found, hfind, heq⟩ | ⟨hfind, heq⟩
  · have hfound : (s.nodes.any fun node => node.path = path) = true := by
      have hpath := List.find?_some hfind
      exact List.any_eq_true.2 ⟨found, List.mem_of_find?_eq_some hfind, hpath⟩
    rw [heq, askPath, hany, if_pos hfound, pathJoins, strengthen, pathJoins, List.map_map, List.map_map]
    refine List.map_congr_left fun node _ => ?_
    by_cases hhit : node.path = path ∧ kind = .inner <;>
      simp [JoinNode.pathJoin, PathJoin.strengthen, hhit]
  · have hnone : ¬(s.nodes.any fun node => node.path = path) = true := by
      rw [List.any_eq_true]
      rintro ⟨node, hnode, hpath⟩
      exact List.find?_eq_none.1 hfind node hnode hpath
    rw [heq, askPath, hany, if_neg hnone]
    exact List.map_append

section Asking

variable {scope : Scope} {expand : Expansion}

theorem joinHops_pathJoins {role : Role} : {hops : List Relation} → {owner : Entity} → {parent name : String} →
    {path : List String} → {outerJoined : Bool} → {s s' : JoinState} →
    scope.joinHops role hops owner parent path outerJoined s = .ok (name, s') →
    s'.pathJoins = askHops scope.schema role hops owner path outerJoined s.pathJoins
  | [], _, _, _, _, _, s, s', h => by
    obtain ⟨-, rfl⟩ := Lowering.pure_ok.1 h
    rfl
  | relation :: rest, owner, parent, name, path, outerJoined, s, s', h => by
    obtain ⟨target, kind, htarget, hkind, hrest⟩ := Scope.joinHops_cons_ok h
    rw [joinHops_pathJoins hrest, JoinState.touch_pathJoins]
    simp only [askHops, Schema.entity_eq_ok.1 htarget, hkind]

/-- A resolved reference joins the hops of its column, or nothing. -/
theorem Reference.resolve_cases {r : Reference} (hplain : ∀ name role, r ≠ .aliased name role) {s s' : JoinState}
    {x : Sql.Expr} (h : r.resolve scope expand s = .ok (x, s')) :
    (∃ ref role aliasName name, r = .column ref role ∧ scope.qualifier = some aliasName ∧
      scope.joinHops role ref.hops scope.root aliasName [] false s = .ok (name, s')) ∨
    (s'.nodes = s.nodes ∧ ∀ c, r.column? = some c → c.ref.hops = []) := by
  cases r with
  | column ref role =>
    obtain ⟨-, ⟨hlocal, -, rfl⟩ | ⟨-, name, hjoin, -⟩⟩ := Scope.column_cases h
    · refine .inr ⟨rfl, fun c hc => ?_⟩
      obtain rfl := Option.some.inj hc
      exact hlocal
    · cases hqualifier : scope.qualifier with
      | none =>
        simp only [Scope.joinPath, hqualifier] at hjoin
        cases hjoin
      | some aliasName =>
        simp only [Scope.joinPath, hqualifier] at hjoin
        exact .inl ⟨ref, role, aliasName, name, rfl, rfl, hjoin⟩
  | aliased name role => exact absurd rfl (hplain name role)
  | outer name =>
    obtain ⟨rfl, -⟩ := Scope.outerColumn_ok h
    exact .inr ⟨rfl, fun c hc => by cases hc⟩
  | scalar plan | existence plan negated =>
    obtain ⟨q, s₁, hq, hpure⟩ := Lowering.bind_ok h
    obtain ⟨-, rfl⟩ := Lowering.pure_ok.1 hpure
    obtain ⟨-, _, _, -, -, rfl⟩ := nested_ok hq
    exact .inr ⟨rfl, fun c hc => by cases hc⟩

theorem Reference.resolve_pathJoins {r : Reference} (hplain : ∀ name role, r ≠ .aliased name role) {s s' : JoinState}
    {x : Sql.Expr} (h : r.resolve scope expand s = .ok (x, s')) :
    s'.pathJoins = r.column?.toList.foldl (ColumnReference.ask scope.schema scope.root) s.pathJoins := by
  rcases resolve_cases hplain h with ⟨ref, role, aliasName, name, rfl, -, hjoin⟩ | ⟨hsame, hlocal⟩
  · exact joinHops_pathJoins hjoin
  · rw [JoinState.pathJoins, hsame]
    cases hcolumn : r.column? with
    | none => rfl
    | some c =>
      simp only [Option.toList_some, List.foldl_cons, List.foldl_nil, ColumnReference.ask, hlocal c hcolumn]
      rfl

theorem Resolves.pathJoins {rs : List Reference} (hplain : ∀ r ∈ rs, ∀ name role, r ≠ .aliased name role)
    {s s' : JoinState} {leaves : List Sql.Leaf} (h : Resolves scope expand rs s s' leaves) :
    s'.pathJoins = (rs.filterMap Reference.column?).foldl (ColumnReference.ask scope.schema scope.root) s.pathJoins := by
  induction h with
  | nil => rfl
  | @cons r rest s s₁ s' x leaves hr _ ih =>
    have hfirst := Reference.resolve_pathJoins (hplain r (by simp)) hr
    rw [ih fun r hr => hplain r (by simp [hr]), hfirst, ← List.foldl_append]
    congr 1
    cases hcolumn : r.column? <;> simp [hcolumn]

/-- The columns of resolved references are reached from the root entity in scope. -/
theorem Resolves.rooted {rs : List Reference} {s s' : JoinState} {leaves : List Sql.Leaf}
    (h : Resolves scope expand rs s s' leaves) : ∀ c ∈ rs.filterMap Reference.column?, c.ref.root = scope.root.name := by
  induction h with
  | nil => simp
  | @cons r rest s s₁ s' x leaves hr _ ih =>
    intro c hc
    obtain ⟨other, hother, hcolumn⟩ := List.mem_filterMap.1 hc
    rcases List.mem_cons.1 hother with rfl | hother
    · cases other with
      | column ref role =>
        obtain rfl := Option.some.inj hcolumn
        exact (Scope.column_cases hr).1
      | aliased | outer | scalar | existence => cases hcolumn
    · exact ih c (List.mem_filterMap.2 ⟨other, hother, hcolumn⟩)

end Asking

/-- The columns that a reference comes down to. -/
theorem Reference.filterMap_flatten (p : Plan) : (budget : Nat) → (r : Reference) →
    (r.flatten p budget).filterMap column? = r.columns p budget
  | 0, r => by cases r <;> rfl
  | budget + 1, r => by
    cases r with
    | aliased name role =>
      simp only [flatten, columns]
      cases p.annotationOf name with
      | none => rfl
      | some e =>
        rw [List.filterMap_flatMap]
        exact List.flatMap_congr fun r _ => filterMap_flatten p budget r
    | column | outer | scalar | existence => rfl

theorem Plan.filterMap_sources (p : Plan) (items : List (Expr × Role)) :
    (items.flatMap fun item => p.sources item.1 item.2).filterMap Reference.column? =
      items.flatMap fun item => p.columns item.1 item.2 := by
  rw [List.filterMap_flatMap]
  refine List.flatMap_congr fun item _ => ?_
  rw [sources, List.filterMap_flatMap]
  exact List.flatMap_congr fun r _ => Reference.filterMap_flatten p p.aliasBudget r

/-- The joins of compiled expressions are those of their columns. -/
theorem Plan.lowerAll_layout {p : Plan} {scope : Scope} {items : List (Expr × Role)} {s s' : JoinState}
    {xs : List Sql.Expr} (h : p.lowerAll scope items s = .ok (xs, s')) :
    s'.pathJoins = (items.flatMap fun item => p.columns item.1 item.2).foldl
      (ColumnReference.ask scope.schema scope.root) s.pathJoins := by
  have hresolves := lowerAll_resolves (fun _ name => throw (.unknownPath p.root.name name)) h
  have hplain : ∀ r ∈ items.flatMap fun item => p.sources item.1 item.2, ∀ name role, r ≠ .aliased name role := by
    intro r hr
    obtain ⟨item, -, hsource⟩ := List.mem_flatMap.1 hr
    obtain ⟨asked, -, hflat⟩ := List.mem_flatMap.1 hsource
    exact (Reference.of_mem_flatten p.aliasBudget hflat).2
  rw [hresolves.pathJoins hplain, p.filterMap_sources]

/-- The columns of compiled expressions are reached from the root entity in scope. -/
theorem Plan.lowerAll_rooted {p : Plan} {scope : Scope} {items : List (Expr × Role)} {s s' : JoinState}
    {xs : List Sql.Expr} (h : p.lowerAll scope items s = .ok (xs, s')) :
    ∀ c ∈ items.flatMap fun item => p.columns item.1 item.2, c.ref.root = scope.root.name := by
  have hresolves := lowerAll_resolves (fun _ name => throw (.unknownPath p.root.name name)) h
  rw [← p.filterMap_sources]
  exact hresolves.rooted

/-! ## What is laid out -/

/-- joins in order, each starting from the root or from another of them -/
structure LaidOut (joins : List PathJoin) : Prop extends Ordered joins where
  parents : ∀ join ∈ joins, join.parent = [] ∨ join.parent ∈ joins.map (·.path)

/-- whether a path is joined by an inner join -/
def IsInnerIn (joins : List PathJoin) (path : List String) : Prop := ∃ join ∈ joins, join.path = path ∧ join.kind = .inner

/-- the paths to the ends of hops -/
def hopPaths : List Relation → List String → List (List String)
  | [], _ => []
  | relation :: rest, path => (path ++ [relation.name]) :: hopPaths rest (path ++ [relation.name])

/-- whether the targets of hops are entities -/
def Schema.Finds (schema : Schema) (hops : List Relation) : Prop :=
  ∀ hop ∈ hops, ∃ target, schema.entity? hop.target = some target

theorem Schema.Leads.finds {schema : Schema} {e : Entity} {hops : List Relation} (h : schema.Leads e hops) :
    schema.Finds hops := by
  induction h with
  | nil => exact nofun
  | cons _ htarget _ ih =>
    intro hop hhop
    rcases List.mem_cons.1 hhop with rfl | hhop
    · exact ⟨_, htarget⟩
    · exact ih hop hhop

/-- the join follows a relation of the entity that its parent leads to -/
structure PathJoin.Sound (schema : Schema) (root : Entity) (join : PathJoin) : Prop where
  path : join.path = join.parent ++ [join.relation.name]
  leads : ∃ owner target, schema.reach root join.parent = some owner ∧
    owner.relation join.relation.name = some join.relation ∧
    schema.entity? join.relation.target = some target ∧ join.table = target.table

section Asked

variable {path : List String} {kind : Sql.JoinKind} {relation : Relation} {table : String} {joins : List PathJoin}

theorem askPath_cases (path : List String) (kind : Sql.JoinKind) (relation : Relation) (table : String)
    (joins : List PathJoin) :
    (path ∈ joins.map (·.path) ∧ askPath path kind relation table joins = joins.map (PathJoin.strengthen path kind)) ∨
    (path ∉ joins.map (·.path) ∧ askPath path kind relation table joins = joins ++ [⟨path, kind, relation, table⟩]) := by
  have hmem : (joins.any fun join => join.path = path) = true ↔ path ∈ joins.map (·.path) := by
    simp [List.mem_map]
  unfold askPath
  split
  · next hany => exact .inl ⟨hmem.1 hany, rfl⟩
  · next hany => exact .inr ⟨fun h => hany (hmem.2 h), rfl⟩

theorem map_path_askPath : (askPath path kind relation table joins).map (·.path) =
    if path ∈ joins.map (·.path) then joins.map (·.path) else joins.map (·.path) ++ [path] := by
  rcases askPath_cases path kind relation table joins with ⟨hmem, heq⟩ | ⟨hmem, heq⟩
  · rw [heq, if_pos hmem, List.map_map]
    exact List.map_congr_left fun join _ => join.strengthen_path path kind
  · rw [heq, if_neg hmem, List.map_append]
    rfl

theorem mem_map_path_askPath {other : List String} :
    other ∈ (askPath path kind relation table joins).map (·.path) ↔ other ∈ joins.map (·.path) ∨ other = path := by
  rw [map_path_askPath]
  split
  · next hmem => exact ⟨.inl, fun h => h.elim id fun heq => heq ▸ hmem⟩
  · rw [List.mem_append, List.mem_singleton]

theorem LaidOut.nil : LaidOut [] := { Ordered.nil with parents := nofun }

/-- Whether joins are laid out is told by their paths. -/
theorem laidOut_iff : LaidOut joins ↔ (∀ path ∈ joins.map (·.path), path ≠ []) ∧
    (joins.map (·.path)).Pairwise (fun a b => a ≠ b ∧ a.dropLast ≠ b) ∧
    ∀ path ∈ joins.map (·.path), path.dropLast = [] ∨ path.dropLast ∈ joins.map (·.path) := by
  rw [List.pairwise_map, List.forall_mem_map, List.forall_mem_map]
  exact ⟨fun h => ⟨h.paths, h.order, h.parents⟩, fun ⟨hpaths, horder, hparents⟩ => ⟨⟨hpaths, horder⟩, hparents⟩⟩

/-- A path is joined once, so by an inner join when its join is one. -/
theorem LaidOut.isInner_iff (h : LaidOut joins) {join : PathJoin} (hjoin : join ∈ joins) :
    IsInnerIn joins join.path ↔ join.kind = .inner := by
  refine ⟨fun ⟨other, hother, hpath, hinner⟩ => ?_, fun hinner => ⟨join, hjoin, rfl, hinner⟩⟩
  rwa [← List.inj_on_of_nodup_map h.nodup hother hjoin hpath]

theorem LaidOut.askPath (h : LaidOut joins) {name : String} (hparent : path = [] ∨ path ∈ joins.map (·.path)) :
    LaidOut (askPath (path ++ [name]) kind relation table joins) := by
  rw [laidOut_iff] at h ⊢
  obtain ⟨hpaths, horder, hparents⟩ := h
  rw [map_path_askPath]
  split
  · exact ⟨hpaths, horder, hparents⟩
  · next hnew =>
    refine ⟨?_, ?_, ?_⟩
    · intro other hother
      rcases List.mem_append.1 hother with hother | hother
      · exact hpaths other hother
      · obtain rfl := List.mem_singleton.1 hother
        exact List.concat_ne_nil _ _
    · rw [List.pairwise_append]
      refine ⟨horder, List.pairwise_singleton _ _, fun other hother last hlast => ?_⟩
      obtain rfl := List.mem_singleton.1 hlast
      refine ⟨fun heq => hnew (heq ▸ hother), fun heq => ?_⟩
      -- the new path would be the parent of a path that is joined, and so be joined itself
      rcases hparents other hother with hroot | hmem
      · exact List.concat_ne_nil _ _ (heq.symm.trans hroot)
      · exact hnew (heq ▸ hmem)
    · intro other hother
      rcases List.mem_append.1 hother with hother | hother
      · exact (hparents other hother).imp_right fun hmem => List.mem_append_left _ hmem
      · obtain rfl := List.mem_singleton.1 hother
        rw [List.dropLast_concat]
        exact hparent.imp_right fun hmem => List.mem_append_left _ hmem

theorem isInnerIn_askPath {other : List String} : IsInnerIn (askPath path kind relation table joins) other ↔
    IsInnerIn joins other ∨ other = path ∧ kind = .inner := by
  rcases askPath_cases path kind relation table joins with ⟨hmem, heq⟩ | ⟨hmem, heq⟩
  · rw [heq]
    simp only [IsInnerIn, List.mem_map, exists_exists_and_eq_and, PathJoin.strengthen_path, PathJoin.strengthen_kind]
    constructor
    · rintro ⟨join, hjoin, hpath, hkind | hhit⟩
      · exact .inl ⟨join, hjoin, hpath, hkind⟩
      · exact .inr ⟨hpath.symm.trans hhit.1, hhit.2⟩
    · rintro (⟨join, hjoin, hpath, hkind⟩ | ⟨rfl, rfl⟩)
      · exact ⟨join, hjoin, hpath, .inl hkind⟩
      · obtain ⟨join, hjoin, hpath⟩ := List.mem_map.1 hmem
        exact ⟨join, hjoin, hpath, .inr ⟨hpath, rfl⟩⟩
  · rw [heq]
    constructor
    · rintro ⟨join, hjoin, hpath, hkind⟩
      rcases List.mem_append.1 hjoin with hjoin | hjoin
      · exact .inl ⟨join, hjoin, hpath, hkind⟩
      · obtain rfl := List.mem_singleton.1 hjoin
        exact .inr ⟨hpath.symm, hkind⟩
    · rintro (⟨join, hjoin, hpath, hkind⟩ | ⟨rfl, rfl⟩)
      · exact ⟨join, List.mem_append_left _ hjoin, hpath, hkind⟩
      · exact ⟨_, List.mem_append_right _ (List.mem_singleton.2 rfl), rfl, rfl⟩

/-- What holds of the joins whatever their kinds and of a new one, holds after a path has been asked for. -/
theorem forall_askPath {P : PathJoin → Prop} (hkinds : ∀ join, P join → P (join.strengthen path kind))
    (h : ∀ join ∈ joins, P join) (hnew : P ⟨path, kind, relation, table⟩) :
    ∀ join ∈ askPath path kind relation table joins, P join := by
  intro join hjoin
  rcases askPath_cases path kind relation table joins with ⟨-, heq⟩ | ⟨-, heq⟩
  · rw [heq] at hjoin
    obtain ⟨earlier, hearlier, rfl⟩ := List.mem_map.1 hjoin
    exact hkinds earlier (h earlier hearlier)
  · rw [heq] at hjoin
    rcases List.mem_append.1 hjoin with hjoin | hjoin
    · exact h join hjoin
    · exact List.mem_singleton.1 hjoin ▸ hnew

theorem PathJoin.Sound.strengthen {schema : Schema} {root : Entity} {join : PathJoin} (h : join.Sound schema root) :
    (join.strengthen path kind).Sound schema root :=
  ⟨by simpa [PathJoin.parent] using h.path, by simpa [PathJoin.parent] using h.leads⟩

end Asked

section Hops

variable {schema : Schema} {root : Entity} {role : Role}

theorem LaidOut.askHops : {hops : List Relation} → {owner : Entity} → {path : List String} → {outerJoined : Bool} →
    {joins : List PathJoin} → LaidOut joins → path = [] ∨ path ∈ joins.map (·.path) →
    LaidOut (askHops schema role hops owner path outerJoined joins)
  | [], _, _, _, _, h, _ => h
  | relation :: rest, owner, path, outerJoined, joins, h, hparent => by
    unfold RelQuery.askHops
    split
    · exact h
    · exact (h.askPath hparent).askHops (.inr (mem_map_path_askPath.2 (.inr rfl)))

theorem mem_map_path_askHops {other : List String} : {hops : List Relation} → {owner : Entity} →
    {path : List String} → {outerJoined : Bool} → {joins : List PathJoin} → schema.Finds hops →
    (other ∈ (askHops schema role hops owner path outerJoined joins).map (·.path) ↔
      other ∈ joins.map (·.path) ∨ other ∈ hopPaths hops path)
  | [], _, _, _, _, _ => by simp [askHops, hopPaths]
  | relation :: rest, owner, path, outerJoined, joins, hfound => by
    obtain ⟨target, htarget⟩ := hfound relation (by simp)
    simp only [askHops, htarget]
    rw [mem_map_path_askHops fun hop hhop => hfound hop (by simp [hhop]), mem_map_path_askPath, hopPaths,
      List.mem_cons, or_assoc]

theorem isInnerIn_askHops {other : List String} : {hops : List Relation} → {owner : Entity} → {path : List String} →
    {outerJoined : Bool} → {joins : List PathJoin} →
    (IsInnerIn (askHops schema role hops owner path outerJoined joins) other ↔
      IsInnerIn joins other ∨ other ∈ innerHops schema role hops owner path outerJoined)
  | [], _, _, _, _ => by simp [askHops, innerHops]
  | relation :: rest, owner, path, outerJoined, joins => by
    cases htarget : schema.entity? relation.target with
    | none => simp [askHops, innerHops, htarget]
    | some target =>
      simp only [askHops, innerHops, htarget]
      rw [isInnerIn_askHops, isInnerIn_askPath, List.mem_append, or_assoc]
      by_cases hkind : (if outerJoined then .left else joinKind role relation owner) = .inner <;> simp [hkind]

theorem askHops_sound : {hops : List Relation} → {owner : Entity} → {path : List String} → {outerJoined : Bool} →
    {joins : List PathJoin} → (∀ join ∈ joins, join.Sound schema root) → schema.reach root path = some owner →
    schema.Leads owner hops → ∀ join ∈ askHops schema role hops owner path outerJoined joins, join.Sound schema root
  | [], _, _, _, _, h, _, _ => h
  | relation :: rest, owner, path, outerJoined, joins, h, howner, hleads => by
    cases hleads with
    | cons hrelation htarget hrest =>
      simp only [askHops, htarget]
      refine askHops_sound (forall_askPath (fun _ hsound => hsound.strengthen) h ?_)
        (Schema.reach_snoc howner hrelation htarget) hrest
      have hparent : (path ++ [relation.name]).dropLast = path := List.dropLast_concat
      refine ⟨?_, owner, _, ?_, hrelation, htarget, rfl⟩
      · rw [PathJoin.parent, hparent]
      · rw [PathJoin.parent, hparent]
        exact howner

end Hops

section Layout

variable {schema : Schema} {root : Entity} {rs : List ColumnReference}

theorem layout_laidOut : LaidOut (layout schema root rs) := by
  have hfold : ∀ {joins : List PathJoin}, LaidOut joins → LaidOut (rs.foldl (ColumnReference.ask schema root) joins) := by
    induction rs with
    | nil => exact id
    | cons r rest ih => exact fun h => ih (h.askHops (.inl rfl))
  exact hfold .nil

/-- The paths joined are those of the columns. -/
theorem mem_paths_layout (hfound : ∀ r ∈ rs, schema.Finds r.ref.hops) {path : List String} :
    path ∈ (layout schema root rs).map (·.path) ↔ path ∈ rs.flatMap fun r => hopPaths r.ref.hops [] := by
  have hfold : ∀ {joins : List PathJoin}, path ∈ (rs.foldl (ColumnReference.ask schema root) joins).map (·.path) ↔
      path ∈ joins.map (·.path) ∨ path ∈ rs.flatMap fun r => hopPaths r.ref.hops [] := by
    induction rs with
    | nil => simp
    | cons r rest ih =>
      intro joins
      rw [List.foldl_cons, ih fun r hr => hfound r (by simp [hr]), List.flatMap_cons, List.mem_append, ← or_assoc]
      exact or_congr_left (mem_map_path_askHops (hfound r (by simp)))
  rw [layout, hfold]
  simp

/-- A join is inner when a column asks for that. -/
theorem isInner_layout {path : List String} : IsInnerIn (layout schema root rs) path ↔
    path ∈ rs.flatMap fun r => innerHops schema r.role r.ref.hops root [] false := by
  have hfold : ∀ {joins : List PathJoin}, IsInnerIn (rs.foldl (ColumnReference.ask schema root) joins) path ↔
      IsInnerIn joins path ∨ path ∈ rs.flatMap fun r => innerHops schema r.role r.ref.hops root [] false := by
    induction rs with
    | nil => simp
    | cons r rest ih =>
      intro joins
      rw [List.foldl_cons, ih, List.flatMap_cons, List.mem_append, ← or_assoc]
      exact or_congr_left isInnerIn_askHops
  rw [layout, hfold]
  simp [IsInnerIn]

theorem layout_sound (hleads : ∀ r ∈ rs, schema.Leads root r.ref.hops) :
    ∀ join ∈ layout schema root rs, join.Sound schema root := by
  have hfold : ∀ {joins : List PathJoin}, (∀ join ∈ joins, join.Sound schema root) →
      ∀ join ∈ rs.foldl (ColumnReference.ask schema root) joins, join.Sound schema root := by
    induction rs with
    | nil => exact id
    | cons r rest ih =>
      exact fun h => ih (fun r hr => hleads r (by simp [hr])) (askHops_sound h rfl (hleads r (by simp)))
  exact hfold nofun

end Layout

/-! ## Rows -/

section Parents

variable {scope : Scope} {expand : Expansion}

theorem StandsAt.later {s t : JoinState} {path : List String} {name : String} (hgrow : s.Extends t)
    (h : StandsAt scope s.nodes path name) : StandsAt scope t.nodes path name := by
  refine h.imp_right fun ⟨node, hnode, hpath, hname⟩ => ?_
  obtain ⟨later, hlater, hplace⟩ := hgrow.node hnode
  obtain ⟨hsame, halias, -⟩ := JoinNode.place_eq.1 hplace
  exact ⟨later, hlater, hsame.trans hpath, halias.trans hname⟩

/-- the parent of each join stands at the path that the join starts from -/
def JoinState.Parented (scope : Scope) (s : JoinState) : Prop :=
  ∀ node ∈ s.nodes, StandsAt scope s.nodes node.path.dropLast node.parent

theorem JoinState.Parented.touch {s : JoinState} (h : s.Parented scope) {path : List String} {name parent : String}
    (kind : Sql.JoinKind) (relation : Relation) (table : String) (hparent : StandsAt scope s.nodes path parent) :
    (s.touch (path ++ [name]) kind parent relation table).2.Parented scope := by
  have hgrow := s.touch_extends (path ++ [name]) kind parent relation table
  intro node hnode
  rcases touch_cases s (path ++ [name]) kind parent relation table with ⟨found, -, heq⟩ | ⟨-, heq⟩
  · have hplaces : node.place ∈ s.nodes.map JoinNode.place := by
      rw [← map_place_strengthen (path ++ [name]) kind s.nodes]
      rw [heq] at hnode
      exact List.mem_map_of_mem hnode
    obtain ⟨earlier, hearlier, hplace⟩ := List.mem_map.1 hplaces
    obtain ⟨hpath, -, hname, -⟩ := JoinNode.place_eq.1 hplace
    rw [← hpath, ← hname]
    exact (h earlier hearlier).later hgrow
  · have hcases : node ∈ s.nodes ∨ node.path = path ++ [name] ∧ node.parent = parent := by
      rw [heq] at hnode
      refine (List.mem_append.1 hnode).imp_right fun hlast => ?_
      rw [List.mem_singleton.1 hlast]
      exact ⟨rfl, rfl⟩
    rcases hcases with hnode | ⟨hpath, hname⟩
    · exact (h node hnode).later hgrow
    · rw [hpath, hname, List.dropLast_concat]
      exact hparent.later hgrow

theorem joinHops_parented {role : Role} : {hops : List Relation} → {owner : Entity} → {parent name : String} →
    {path : List String} → {outerJoined : Bool} → {s s' : JoinState} → s.Parented scope →
    StandsAt scope s.nodes path parent → scope.joinHops role hops owner parent path outerJoined s = .ok (name, s') →
    s'.Parented scope
  | [], _, _, _, _, _, s, s', hparented, _, h => by
    obtain ⟨-, rfl⟩ := Lowering.pure_ok.1 h
    exact hparented
  | relation :: rest, owner, parent, name, path, outerJoined, s, s', hparented, hparent, h => by
    obtain ⟨target, kind, -, -, hrest⟩ := Scope.joinHops_cons_ok h
    exact joinHops_parented (hparented.touch kind relation target.table hparent)
      (.inr (s.touch_node _ kind parent relation target.table)) hrest

theorem Resolves.parented {rs : List Reference} (hplain : ∀ r ∈ rs, ∀ name role, r ≠ .aliased name role)
    {s s' : JoinState} {leaves : List Sql.Leaf} (hparented : s.Parented scope)
    (h : Resolves scope expand rs s s' leaves) : s'.Parented scope := by
  induction h with
  | nil => exact hparented
  | @cons r rest s s₁ s' x leaves hr _ ih =>
    refine ih (fun r hr => hplain r (by simp [hr])) ?_
    rcases r.resolve_cases (hplain r (by simp)) hr with ⟨ref, role, aliasName, name, -, hqualifier, hjoin⟩ | ⟨hsame, -⟩
    · exact joinHops_parented hparented (.inl ⟨rfl, hqualifier⟩) hjoin
    · unfold JoinState.Parented
      rw [hsame]
      exact hparented

end Parents

section Frames

variable {db : Sql.Database} {scope : Scope} {first next : Nat} {rows : PathRows} {enclosing : Sql.Frame}

/-- A row at a path that is not joined is not in scope. -/
theorem frame_update {nodes : List JoinNode} {path : List String} (hpath : path ≠ [])
    (hnew : ∀ node ∈ nodes, node.path ≠ path) (row : Option Tuple) :
    scope.frame nodes (Function.update rows path row) enclosing = scope.frame nodes rows enclosing := by
  have hroot : Function.update rows path row [] = rows [] := Function.update_of_ne hpath.symm _ _
  funext name
  cases name with
  | none => exact hroot
  | some name =>
    simp only [Scope.frame, hroot]
    cases hfind : nodes.find? (·.aliasName = name) with
    | none => rfl
    | some node => simp only [Function.update_of_ne (hnew node (List.mem_of_find?_eq_some hfind))]

/-- A join puts each of its choices in scope. -/
theorem extend_frame (hscope : scope.Numbered first) {nodes : List JoinNode} {node : JoinNode}
    (hnamed : JoinState.Named first ⟨nodes ++ [node], next⟩) (hpath : node.path ≠ [])
    (hnew : ∀ other ∈ nodes, other.path ≠ node.path) (hparent : StandsAt scope nodes node.path.dropLast node.parent) :
    node.join.extend db (scope.frame nodes rows enclosing) =
      (node.pathJoin.extend db rows).map fun rows => scope.frame (nodes ++ [node]) rows enclosing := by
  obtain ⟨hframe, hne⟩ := hparent.frame_parent hscope hnamed rows enclosing
  have hbind : ∀ row, (scope.frame nodes rows enclosing).bind node.aliasName row =
      scope.frame (nodes ++ [node]) (Function.update rows node.path row) enclosing := by
    intro row
    rw [← frame_snoc hscope hnamed, frame_update hpath hnew, Function.update_self]
  have hfound : (db.rows node.table).filter (fun other => db.equals
      (cell (rows node.path.dropLast) node.relation.localColumn) (other node.relation.remoteColumn) = .yes) =
      node.pathJoin.found db (rows node.path.dropLast) := rfl
  have hparentPath : node.pathJoin.parent = node.path.dropLast := rfl
  rw [JoinNode.join_extend hframe hne, hfound, PathJoin.extend, List.map_map, hparentPath, PathJoin.choices]
  simp only [hbind]
  cases hrows : node.pathJoin.found db (rows node.path.dropLast) with
  | nil => cases hkind : node.kind <;> simp [JoinNode.join, JoinNode.pathJoin, hkind, Sql.JoinKind.keep]
  | cons => cases hkind : node.kind <;> simp [JoinNode.join, JoinNode.pathJoin, hkind, Sql.JoinKind.keep]

/-- The joined rows in scope are the choices of rows that the joins make. -/
theorem joinFrames_nodes (hscope : scope.Numbered first) {nodes : List JoinNode}
    (hnamed : JoinState.Named first ⟨nodes, next⟩) (hordered : Ordered (nodes.map JoinNode.pathJoin))
    (hparents : ∀ node ∈ nodes, StandsAt scope nodes node.path.dropLast node.parent) :
    Sql.joinFrames db (nodes.map JoinNode.join) [scope.frame [] rows enclosing] =
      (joinedRows db (nodes.map JoinNode.pathJoin) rows).map fun rows => scope.frame nodes rows enclosing := by
  induction nodes using List.reverseRecOn with
  | nil => rfl
  | append_singleton nodes node ih =>
    rw [List.map_append, List.map_singleton] at hordered
    obtain ⟨hbefore, -, hlast⟩ := List.pairwise_append.1 hordered.order
    have hapart : ∀ other ∈ nodes, other.path ≠ node.path ∧ other.path.dropLast ≠ node.path := fun other hother =>
      hlast other.pathJoin (List.mem_map_of_mem hother) node.pathJoin (by simp)
    have hstands : ∀ {path name}, path ≠ node.path → StandsAt scope (nodes ++ [node]) path name →
        StandsAt scope nodes path name := by
      intro path name hne h
      refine h.imp_right fun ⟨other, hother, hpath, hname⟩ => ?_
      rcases List.mem_append.1 hother with hother | hother
      · exact ⟨other, hother, hpath, hname⟩
      · exact absurd (List.mem_singleton.1 hother ▸ hpath).symm hne
    have hpath : node.path ≠ [] := hordered.paths node.pathJoin (by simp)
    have hself : node.pathJoin.parent ≠ node.pathJoin.path := hordered.parent_ne (by simp)
    have hinit := ih hnamed.of_append
      ⟨fun join hjoin => hordered.paths join (List.mem_append_left _ hjoin), hbefore⟩
      fun other hother => hstands (hapart other hother).2 (hparents other (List.mem_append_left _ hother))
    have hstep : ∀ rows : PathRows, node.join.extend db (scope.frame nodes rows enclosing) =
        (node.pathJoin.extend db rows).map fun rows => scope.frame (nodes ++ [node]) rows enclosing := fun rows =>
      extend_frame hscope hnamed hpath (fun other hother => (hapart other hother).1)
        (hstands hself (hparents node (by simp)))
    rw [List.map_append, List.map_append, Sql.joinFrames_append, hinit, List.map_singleton, List.map_singleton,
      Sql.joinFrames_cons, joinedRows_snoc, List.flatMap_map, List.map_flatMap]
    simp only [Sql.joinFrames]
    exact List.flatMap_congr fun rows _ => hstep rows

/-- The joined rows of a SELECT, its tables being final. -/
theorem sourceFrames_joinedRows {schema : Schema} {root : Entity} {n : Nat} {outer : Option Outer}
    (hscope : (Scope.ofSelect schema root (tableAlias n) outer).Numbered n) {s : JoinState} (hnamed : s.Named n)
    (hlaid : LaidOut s.pathJoins) (hparents : s.Parented (.ofSelect schema root (tableAlias n) outer)) :
    let scope := Scope.ofSelect schema root (tableAlias n) outer
    Sql.joinFrames db s.joins (Sql.sourceFrames db (some (.table scope.rootTable)) enclosing) =
      ((db.rows root.table).flatMap fun row => joinedRows db s.pathJoins (PathRows.ofRoot row)).map fun rows =>
        scope.frame s.nodes rows enclosing := by
  intro scope
  have henter : ∀ row, enclosing.enter (tableAlias n) row = scope.frame [] (PathRows.ofRoot row) enclosing := by
    intro row
    funext name
    cases name with
    | none => simp [Sql.Frame.enter, Scope.frame, PathRows.ofRoot]
    | some name =>
      by_cases hname : name = tableAlias n
      · simp [Sql.Frame.enter, Scope.frame, scope, Scope.ofSelect, PathRows.ofRoot, hname]
      · simp [Sql.Frame.enter, Scope.frame, scope, Scope.ofSelect, hname, Ne.symm hname]
  have hsource : Sql.sourceFrames db (some (.table scope.rootTable)) enclosing =
      (db.rows root.table).map (enclosing.enter (tableAlias n)) := rfl
  rw [hsource, Sql.joinFrames_flatMap, List.flatMap_map, List.map_flatMap]
  refine List.flatMap_congr fun row _ => ?_
  rw [henter]
  exact joinFrames_nodes hscope hnamed hlaid.toOrdered hparents

end Frames

end RelQuery
