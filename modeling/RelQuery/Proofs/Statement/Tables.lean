/-
The tables of a statement while it is compiled.

Answering a reference adds joins at the end and otherwise changes only the kinds of the joins that are there
(`JoinState.Extends`); their names are different numbers of the statement's supply (`JoinState.Named`). So a name, once
it stands in a compiled expression, means the row at the same relation path in every later state, and `Scope.frame`
turns a choice of rows for the paths into rows for the names.
- `touch_extends`, `joinHops_ok`: what a hop and a path do to the tables.
- `column_compiles`: a compiled column has the value of its field, however the tables grow.
-/
import RelQuery.Proofs.Sql.Meaning
import RelQuery.Proofs.Statement.References

namespace RelQuery

theorem tableAlias_inj {m n : Nat} : tableAlias m = tableAlias n ↔ m = n := by
  refine ⟨fun h => ?_, congrArg tableAlias⟩
  have hdigits : Nat.toDigits 10 m = Nat.toDigits 10 n := by
    have := congrArg String.toList h
    simpa [tableAlias, Nat.toString_eq_repr, String.toList_append, Nat.toList_repr] using this
  have := congrArg (fun cs => Nat.ofDigitChars 10 cs 0) hdigits
  simpa only [Nat.ofDigitChars_ten_toDigits] using this

/-! ## Growth -/

/-- a join apart from its kind -/
def JoinNode.place (node : JoinNode) : JoinNode := { node with kind := .inner }

theorem JoinNode.place_eq {a b : JoinNode} : a.place = b.place ↔
    a.path = b.path ∧ a.aliasName = b.aliasName ∧ a.parent = b.parent ∧ a.relation = b.relation ∧
      a.table = b.table := by
  cases a; cases b; simp [place]

namespace JoinState

/-- later tables: more joins at the end, more names used -/
structure Extends (s t : JoinState) : Prop where
  places : s.nodes.map JoinNode.place <+: t.nodes.map JoinNode.place
  next : s.next ≤ t.next
  /-- a join that is added has a name that was not used before -/
  fresh : ∀ node ∈ t.nodes, (∃ earlier ∈ s.nodes, earlier.aliasName = node.aliasName) ∨
    ∃ m, s.next ≤ m ∧ node.aliasName = tableAlias m

theorem Extends.refl (s : JoinState) : s.Extends s :=
  ⟨List.prefix_rfl, Nat.le_refl _, fun node hnode => .inl ⟨node, hnode, rfl⟩⟩

theorem Extends.trans {s t u : JoinState} (h : s.Extends t) (h' : t.Extends u) : s.Extends u where
  places := h.places.trans h'.places
  next := Nat.le_trans h.next h'.next
  fresh node hnode := by
    rcases h'.fresh node hnode with ⟨earlier, hearlier, hname⟩ | ⟨m, hm, hname⟩
    · rw [← hname]
      exact h.fresh earlier hearlier
    · exact .inr ⟨m, Nat.le_trans h.next hm, hname⟩

/-- a join is found again in later tables, at the same path and under the same name -/
theorem Extends.node {s t : JoinState} (h : s.Extends t) {node : JoinNode} (hnode : node ∈ s.nodes) :
    ∃ later ∈ t.nodes, later.place = node.place := by
  have hmem : node.place ∈ t.nodes.map JoinNode.place := h.places.subset (List.mem_map_of_mem hnode)
  obtain ⟨later, hlater, heq⟩ := List.mem_map.1 hmem
  exact ⟨later, hlater, heq⟩

/-- the joins have different names, numbered after the root table -/
structure Named (first : Nat) (s : JoinState) : Prop where
  beyond : first < s.next
  numbered : ∀ node ∈ s.nodes, ∃ m, first < m ∧ m < s.next ∧ node.aliasName = tableAlias m
  distinct : (s.nodes.map (·.aliasName)).Nodup

theorem Named.init (first : Nat) : Named first { next := first + 1 } :=
  ⟨Nat.lt_succ_self first, by simp, by simp⟩

theorem Named.root_ne {first : Nat} {s : JoinState} (h : s.Named first) {node : JoinNode} (hnode : node ∈ s.nodes) :
    tableAlias first ≠ node.aliasName := by
  obtain ⟨m, hlt, -, hname⟩ := h.numbered node hnode
  rw [hname]
  exact fun heq => Nat.ne_of_lt hlt (tableAlias_inj.1 heq)

/-- The root table has a name of its own too. -/
theorem Named.nodup_names {first : Nat} {s : JoinState} (h : s.Named first) :
    (tableAlias first :: s.nodes.map (·.aliasName)).Nodup := by
  refine List.nodup_cons.2 ⟨fun hroot => ?_, h.distinct⟩
  obtain ⟨node, hnode, hname⟩ := List.mem_map.1 hroot
  exact h.root_ne hnode hname.symm

theorem map_place_strengthen (path : List String) (kind : Sql.JoinKind) (nodes : List JoinNode) :
    (strengthen path kind nodes).map JoinNode.place = nodes.map JoinNode.place := by
  simp only [strengthen, List.map_map]
  refine List.map_congr_left fun node _ => ?_
  simp only [Function.comp_apply]
  split <;> rfl

theorem map_aliasName_eq {nodes others : List JoinNode} (h : nodes.map JoinNode.place = others.map JoinNode.place) :
    nodes.map (·.aliasName) = others.map (·.aliasName) := by
  have hcomp : (fun node : JoinNode => node.aliasName) = (fun node => node.aliasName) ∘ JoinNode.place := rfl
  rw [hcomp, ← List.map_map, ← List.map_map, h]

section Touch

variable (s : JoinState) (path : List String) (kind : Sql.JoinKind) (parent : String) (relation : Relation)
  (table : String)

/-- A path is joined already, or it is joined now under the next name. -/
theorem touch_cases :
    (∃ node, s.nodes.find? (·.path = path) = some node ∧
      s.touch path kind parent relation table =
        (node.aliasName, { s with nodes := strengthen path kind s.nodes })) ∨
    (s.nodes.find? (·.path = path) = none ∧
      s.touch path kind parent relation table =
        (tableAlias s.next,
          ⟨s.nodes ++ [⟨path, tableAlias s.next, parent, kind, relation, table⟩], s.next + 1⟩)) := by
  unfold touch
  cases hfind : s.nodes.find? (·.path = path) with
  | some node => exact .inl ⟨node, rfl, rfl⟩
  | none => exact .inr ⟨rfl, rfl⟩

theorem touch_extends : s.Extends (s.touch path kind parent relation table).2 := by
  rcases touch_cases s path kind parent relation table with ⟨node, -, heq⟩ | ⟨-, heq⟩
  · rw [heq]
    refine ⟨by simp [map_place_strengthen], Nat.le_refl _, fun node hnode => .inl ?_⟩
    have hplace : node.place ∈ (strengthen path kind s.nodes).map JoinNode.place := List.mem_map_of_mem hnode
    rw [map_place_strengthen] at hplace
    obtain ⟨earlier, hearlier, hsame⟩ := List.mem_map.1 hplace
    exact ⟨earlier, hearlier, (JoinNode.place_eq.1 hsame).2.1⟩
  · rw [heq]
    refine ⟨by simp, Nat.le_succ _, fun node hnode => ?_⟩
    rcases List.mem_append.1 hnode with hnode | hnode
    · exact .inl ⟨node, hnode, rfl⟩
    · obtain rfl := List.mem_singleton.1 hnode
      exact .inr ⟨s.next, Nat.le_refl _, rfl⟩

/-- The name that a path is joined under stands for that path. -/
theorem touch_node :
    ∃ node ∈ (s.touch path kind parent relation table).2.nodes,
      node.path = path ∧ node.aliasName = (s.touch path kind parent relation table).1 := by
  rcases touch_cases s path kind parent relation table with ⟨node, hfind, heq⟩ | ⟨-, heq⟩
  · have hpath : node.path = path := by simpa using List.find?_some hfind
    have hmem : node.place ∈ (strengthen path kind s.nodes).map JoinNode.place := by
      rw [map_place_strengthen]
      exact List.mem_map_of_mem (List.mem_of_find?_eq_some hfind)
    obtain ⟨later, hlater, hplace⟩ := List.mem_map.1 hmem
    obtain ⟨hsame, halias, -⟩ := JoinNode.place_eq.1 hplace
    rw [heq]
    exact ⟨later, hlater, hsame.trans hpath, halias⟩
  · rw [heq]
    exact ⟨_, List.mem_append_right _ (List.mem_singleton.2 rfl), rfl, rfl⟩

variable {s}

theorem Named.touch {first : Nat} (h : s.Named first) : (s.touch path kind parent relation table).2.Named first := by
  rcases touch_cases s path kind parent relation table with ⟨node, hfind, heq⟩ | ⟨-, heq⟩
  · have hplaces := map_place_strengthen path kind s.nodes
    rw [heq]
    refine ⟨h.beyond, fun node hnode => ?_, by rw [map_aliasName_eq hplaces]; exact h.distinct⟩
    obtain ⟨earlier, hearlier, hplace⟩ :=
      List.mem_map.1 (hplaces ▸ List.mem_map_of_mem hnode : node.place ∈ s.nodes.map JoinNode.place)
    obtain ⟨m, hfirst, hnext, hname⟩ := h.numbered earlier hearlier
    exact ⟨m, hfirst, hnext, (JoinNode.place_eq.1 hplace).2.1.symm.trans hname⟩
  · rw [heq]
    refine ⟨Nat.lt_succ_of_lt h.beyond, fun node hnode => ?_, ?_⟩
    · rcases List.mem_append.1 hnode with hnode | hnode
      · obtain ⟨m, hfirst, hnext, hname⟩ := h.numbered node hnode
        exact ⟨m, hfirst, Nat.lt_succ_of_lt hnext, hname⟩
      · obtain rfl := List.mem_singleton.1 hnode
        exact ⟨s.next, h.beyond, Nat.lt_succ_self _, rfl⟩
    · rw [List.map_append, List.nodup_append]
      refine ⟨h.distinct, by simp, fun name hname other hother => ?_⟩
      obtain ⟨node, hnode, rfl⟩ := List.mem_map.1 hname
      obtain ⟨m, -, hnext, hname⟩ := h.numbered node hnode
      obtain rfl : other = tableAlias s.next := by simpa using hother
      rw [hname]
      exact fun heq => Nat.ne_of_lt hnext (tableAlias_inj.1 heq)

end Touch

end JoinState

/-! ## Paths -/

namespace Scope

variable {scope : Scope}

/-- One hop: the target is looked up, the path touched, and the rest joined to it. -/
theorem joinHops_cons_ok {role : Role} {relation : Relation} {rest : List Relation} {owner : Entity}
    {parent name : String}
    {path : List String} {outerJoined : Bool} {s s' : JoinState}
    (h : scope.joinHops role (relation :: rest) owner parent path outerJoined s = .ok (name, s')) :
    ∃ target kind, scope.schema.entity relation.target = .ok target ∧
      kind = (if outerJoined then .left else joinKind role relation owner) ∧
      scope.joinHops role rest target
        (s.touch (path ++ [relation.name]) kind parent relation target.table).1 (path ++ [relation.name])
        (outerJoined || kind = .left)
        (s.touch (path ++ [relation.name]) kind parent relation target.table).2 = .ok (name, s') := by
  obtain ⟨target, s₁, htarget, hhop⟩ := Lowering.bind_ok h
  obtain ⟨hentity, rfl⟩ := Lowering.liftM_ok htarget
  dsimp only at hhop
  obtain ⟨aliasName, s₂, htouch, hrest⟩ := Lowering.bind_ok hhop
  have htouched : s₁.touch (path ++ [relation.name]) _ parent relation target.table = (aliasName, s₂) :=
    Except.ok.inj htouch
  exact ⟨target, _, hentity, rfl, by rw [htouched]; exact hrest⟩

/-- Joining along hops keeps what each joined table keeps, and ends at the table of the last hop. -/
theorem joinHops_keeps {P : JoinState → Prop}
    (htouch : ∀ {s : JoinState} path kind parent relation table, P s → P (s.touch path kind parent relation table).2)
    {role : Role} : {hops : List Relation} → {owner : Entity} → {parent name : String} →
    {path : List String} → {outerJoined : Bool} → {s s' : JoinState} → P s →
    scope.joinHops role hops owner parent path outerJoined s = .ok (name, s') →
    s.Extends s' ∧ P s' ∧
      (hops ≠ [] → ∃ node ∈ s'.nodes, node.path = path ++ hops.map (·.name) ∧ node.aliasName = name)
  | [], _, _, _, _, _, s, s', hs, h => by
    obtain ⟨-, rfl⟩ := Lowering.pure_ok.1 h
    exact ⟨.refl s, hs, fun hne => absurd rfl hne⟩
  | relation :: rest, owner, parent, name, path, outerJoined, s, s', hs, h => by
    obtain ⟨target, kind, -, -, hrest⟩ := joinHops_cons_ok h
    have hgrow := s.touch_extends (path ++ [relation.name]) kind parent relation target.table
    obtain ⟨hextends, hs', hnode⟩ :=
      joinHops_keeps htouch (htouch (path ++ [relation.name]) kind parent relation target.table hs) hrest
    refine ⟨hgrow.trans hextends, hs', fun _ => ?_⟩
    cases rest with
    | nil =>
      obtain ⟨rfl, rfl⟩ := Lowering.pure_ok.1 hrest
      exact s.touch_node (path ++ [relation.name]) kind parent relation target.table
    | cons next more =>
      obtain ⟨node, hmem, hpath, halias⟩ := hnode (by simp)
      exact ⟨node, hmem, by simpa using hpath, halias⟩

theorem joinHops_ok {first : Nat} {role : Role} {hops : List Relation} {owner : Entity} {parent name : String}
    {path : List String} {outerJoined : Bool} {s s' : JoinState} (hnamed : s.Named first)
    (h : scope.joinHops role hops owner parent path outerJoined s = .ok (name, s')) :
    s.Extends s' ∧ s'.Named first ∧
      (hops ≠ [] → ∃ node ∈ s'.nodes, node.path = path ++ hops.map (·.name) ∧ node.aliasName = name) :=
  joinHops_keeps (fun path kind parent relation table hs => hs.touch path kind parent relation table) hnamed h

/-- A column of the root table, or of the table at the end of its path. -/
theorem column_cases {ref : FieldRef} {role : Role} {x : Sql.Expr} {s s' : JoinState}
    (h : scope.column ref role s = .ok (x, s')) :
    ref.root = scope.root.name ∧
    ((ref.hops = [] ∧ x = scope.rootColumn ref.column ∧ s' = s) ∨
      (ref.hops ≠ [] ∧ ∃ name, scope.joinPath ref.hops role s = .ok (name, s') ∧ x = .columnOf name ref.column)) := by
  unfold column at h
  split at h
  · cases h
  · next hroot =>
    refine ⟨not_not.1 hroot, ?_⟩
    split at h
    · next hlocal =>
      obtain ⟨rfl, rfl⟩ := Lowering.pure_ok.1 h
      exact .inl ⟨by simpa [FieldRef.isLocal] using hlocal, rfl, rfl⟩
    · next hlocal =>
      obtain ⟨name, hjoin, rfl⟩ := Lowering.bind_pure_ok h
      exact .inr ⟨by simpa [FieldRef.isLocal] using hlocal, name, hjoin, rfl⟩

end Scope

/-! ## What names stand for -/

namespace Scope

/-- The rows of the tables when each relation path has a row or none; names of no table here are those of the
statements around. -/
def frame (scope : Scope) (nodes : List JoinNode) (rows : List String → Option Tuple) (enclosing : Sql.Frame) :
    Sql.Frame
  | none => rows []
  | some name =>
    if scope.qualifier = some name then rows []
    else
      match nodes.find? (·.aliasName = name) with
      | some node => rows node.path
      | none => enclosing (some name)

/-- the same rows as a plan's expressions see them -/
def view (scope : Scope) (rows : List String → Option Tuple) (enclosing : Sql.Frame) : RowView where
  row := rows
  outer name :=
    match scope.outer with
    | none => .null
    | some o => ((o.entity.field name).map fun f => cell (enclosing (some o.name)) f.name).getD .null

/-- the scope of a statement whose root table has the given number and whose enclosing table is none of its own -/
structure Numbered (scope : Scope) (first : Nat) : Prop where
  qualifier : scope.qualifier = some (tableAlias first)
  apart : ∀ o, scope.outer = some o → ∀ m, first ≤ m → o.name ≠ tableAlias m

variable {scope : Scope} {first : Nat} {tables : JoinState} (rows : List String → Option Tuple) (enclosing : Sql.Frame)

theorem frame_root (h : scope.Numbered first) (nodes : List JoinNode) :
    scope.frame nodes rows enclosing scope.qualifier = rows [] := by
  simp [h.qualifier, frame]

theorem frame_node (h : scope.Numbered first) (hnamed : tables.Named first) {node : JoinNode}
    (hnode : node ∈ tables.nodes) :
    scope.frame tables.nodes rows enclosing (some node.aliasName) = rows node.path := by
  obtain ⟨m, hfirst, -, hname⟩ := hnamed.numbered node hnode
  have hroot : scope.qualifier ≠ some node.aliasName := by
    rw [h.qualifier, hname]
    exact fun heq => Nat.ne_of_lt hfirst (tableAlias_inj.1 (Option.some.inj heq))
  simp [frame, hroot, find?_of_nodup_map hnamed.distinct hnode]

/-- Under a name of none of its tables a statement has the row around it. -/
theorem frame_unnamed {nodes : List JoinNode} {name : String} (hroot : scope.qualifier ≠ some name)
    (hnodes : ∀ node ∈ nodes, node.aliasName ≠ name) :
    scope.frame nodes rows enclosing (some name) = enclosing (some name) := by
  have hfind : nodes.find? (·.aliasName = name) = none :=
    List.find?_eq_none.2 fun node hnode => by simpa using hnodes node hnode
  simp only [frame, hroot, if_false, hfind]

theorem frame_enclosing (h : scope.Numbered first) (hnamed : tables.Named first) {o : Outer}
    (ho : scope.outer = some o) :
    scope.frame tables.nodes rows enclosing (some o.name) = enclosing (some o.name) := by
  refine frame_unnamed _ _ (fun heq => ?_) fun node hnode heq => ?_
  · exact h.apart o ho first (Nat.le_refl _) (Option.some.inj (h.qualifier.symm.trans heq)).symm
  · obtain ⟨m, hfirst, -, hname⟩ := hnamed.numbered node hnode
    exact h.apart o ho m (Nat.le_of_lt hfirst) (heq.symm.trans hname)

end Scope

/-! ## Readings -/

/-- what an expression is read from once the tables are final -/
def Scope.context (scope : Scope) (rows : List String → Option Tuple) (enclosing : Sql.Frame) (tables : JoinState)
    (group : List Sql.Frame) : Sql.Context :=
  ⟨scope.frame tables.nodes rows enclosing, group⟩

/-- Compiled between two states of the tables, something reads this value however the tables grow afterwards. -/
structure Compiles {α : Type} (scope : Scope) (first : Nat) (rows : List String → Option Tuple) (enclosing : Sql.Frame)
    (s s' : JoinState) (read : Sql.Context → α) (value : α) : Prop where
  grows : s.Extends s'
  named : s'.Named first
  reads : ∀ tables, s'.Extends tables → tables.Named first → ∀ group,
    read (scope.context rows enclosing tables group) = value

section Readings

variable {db : Sql.Database} {scope : Scope} {first : Nat} {rows : List String → Option Tuple} {enclosing : Sql.Frame}

namespace Compiles

variable {α β : Type} {s s₁ s' : JoinState} {read : Sql.Context → α} {value : α}

theorem const (hnamed : s.Named first) (value : α) : Compiles scope first rows enclosing s s (fun _ => value) value :=
  ⟨.refl s, hnamed, fun _ _ _ _ => rfl⟩

/-- what is computed from a reading -/
theorem map (f : α → β) (h : Compiles scope first rows enclosing s s' read value) :
    Compiles scope first rows enclosing s s' (fun context => f (read context)) (f value) :=
  ⟨h.grows, h.named, fun tables htables hnamed group => congrArg f (h.reads tables htables hnamed group)⟩

/-- A reading is not disturbed by what is compiled after it. -/
theorem both {other : Sql.Context → β} {another : β} (h : Compiles scope first rows enclosing s s₁ read value)
    (h' : Compiles scope first rows enclosing s₁ s' other another) :
    Compiles scope first rows enclosing s s' (fun context => (read context, other context)) (value, another) where
  grows := h.grows.trans h'.grows
  named := h'.named
  reads tables htables hnamed group := by
    rw [h.reads tables (h'.grows.trans htables) hnamed group, h'.reads tables htables hnamed group]

end Compiles

/-- A compiled column reads its field through its relation path. -/
theorem Scope.column_compiles (hscope : scope.Numbered first) {ref : FieldRef} {role : Role} {x : Sql.Expr}
    {s s' : JoinState} (hnamed : s.Named first) (h : scope.column ref role s = .ok (x, s')) :
    Compiles scope first rows enclosing s s' (x.eval db) (cell (rows (ref.hops.map (·.name))) ref.column) := by
  obtain ⟨-, ⟨hlocal, rfl, rfl⟩ | ⟨hfar, name, hjoin, rfl⟩⟩ := column_cases h
  · refine ⟨.refl s', hnamed, fun tables _ _ group => ?_⟩
    simp [rootColumn, Sql.Expr.eval, context, frame_root rows enclosing hscope, hlocal]
  · simp only [joinPath, hscope.qualifier] at hjoin
    obtain ⟨hextends, hnamed', hnode⟩ := joinHops_ok hnamed hjoin
    obtain ⟨node, hmem, hpath, rfl⟩ := hnode hfar
    refine ⟨hextends, hnamed', fun tables htables hfinal group => ?_⟩
    obtain ⟨later, hlater, hplace⟩ := htables.node hmem
    obtain ⟨hsame, halias, -⟩ := JoinNode.place_eq.1 hplace
    simp only [Sql.Expr.columnOf, Sql.Expr.eval, context]
    rw [← halias, frame_node rows enclosing hscope hfinal hlater, hsame, hpath, List.nil_append]

theorem Scope.outerColumn_compiles (hscope : scope.Numbered first) {name : String} {x : Sql.Expr} {s s' : JoinState}
    (hnamed : s.Named first) (h : scope.outerColumn name s = .ok (x, s')) :
    Compiles scope first rows enclosing s s' (x.eval db) ((scope.view rows enclosing).outer name) := by
  obtain ⟨rfl, o, f, ho, hf, rfl⟩ := outerColumn_ok h
  refine ⟨.refl s', hnamed, fun tables _ hfinal group => ?_⟩
  simp only [Sql.Expr.columnOf, Sql.Expr.eval, context, frame_enclosing rows enclosing hscope hfinal ho]
  simp [view, ho, hf]

end Readings

end RelQuery
