/-
The joins of more columns.

A statement that refers to more columns than another joins more tables. Columns that are no conditions join them so that
no row is lost: by left joins, or by inner joins where a row is certain to be found (`Schema.Certain`). So its joined
rows go on from those of the other (`joinedPaths_perm`), each of them at least once, and exactly once unless a relation
to many rows is among the new ones.
-/
import RelQuery.Proofs.Statement.Layout

namespace RelQuery

/-- A key that is declared never to be null is never null. -/
def Sql.Database.KeysPresent (db : Sql.Database) (schema : Schema) : Prop :=
  ∀ e ∈ schema.entities, ∀ name relation f, e.relation name = some relation → relation.cardinality = .toOne →
    e.field relation.localColumn = some f → f.nullable = false → ∀ row ∈ db.rows e.table,
    row relation.localColumn ≠ .null

/-- Every relation of the path leads to one row, by a key that is never null. -/
def Schema.Certain (schema : Schema) (root : Entity) (path : List String) : Prop :=
  ∀ before name rest, path = before ++ name :: rest → ∃ owner relation f, schema.reach root before = some owner ∧
    owner.relation name = some relation ∧ relation.cardinality = .toOne ∧
    owner.field relation.localColumn = some f ∧ f.nullable = false

/-! ## Certain paths -/

section Certain

variable {schema : Schema} {root : Entity}

theorem Schema.Certain.nil : schema.Certain root [] := fun before name rest h => by simp at h

theorem Schema.Certain.snoc {path : List String} {name : String} (h : schema.Certain root path)
    {owner : Entity} {relation : Relation} {f : Field} (howner : schema.reach root path = some owner)
    (hrelation : owner.relation name = some relation) (hone : relation.cardinality = .toOne)
    (hfield : owner.field relation.localColumn = some f) (hpresent : f.nullable = false) :
    schema.Certain root (path ++ [name]) := by
  intro before other rest heq
  rcases List.eq_nil_or_concat rest with rfl | ⟨rest, last, rfl⟩
  · obtain ⟨rfl, hname⟩ := List.append_inj' heq rfl
    obtain rfl := List.cons.inj hname |>.1
    exact ⟨owner, relation, f, howner, hrelation, hone, hfield, hpresent⟩
  · rw [List.concat_eq_append, ← List.cons_append, ← List.append_assoc] at heq
    exact h before other rest (List.append_inj' heq rfl).1

theorem Schema.Certain.init {path : List String} {name : String} (h : schema.Certain root (path ++ [name])) :
    schema.Certain root path := fun before other rest heq => h before other (rest ++ [name]) (by simp [heq])

theorem innerHops_outerJoined {role : Role} : {hops : List Relation} → {owner : Entity} → {path : List String} →
    innerHops schema role hops owner path true = []
  | [], _, _ => rfl
  | relation :: rest, owner, path => by
    unfold innerHops
    split
    · rfl
    · simp [innerHops_outerJoined]

/-- Only a condition makes a join inner where nothing may be found. -/
theorem certain_of_innerHops (hkeys : ∀ e ∈ schema.entities, ∀ r ∈ e.relations, (e.field r.localColumn).isSome)
    {role : Role} (hrole : role ≠ .filter) {other : List String} : {hops : List Relation} → {owner : Entity} →
    {path : List String} → owner ∈ schema.entities → schema.reach root path = some owner → schema.Certain root path →
    schema.Leads owner hops → other ∈ innerHops schema role hops owner path false → schema.Certain root other
  | [], _, _, _, _, _, _, h => by cases h
  | relation :: rest, owner, path, howner, hreach, hcertain, hleads, h => by
    cases hleads with
    | cons hrelation htarget hrest =>
      simp only [innerHops, htarget, Bool.false_eq_true, if_false, Bool.false_or] at h
      cases hkind : joinKind role relation owner with
      | left => simp [hkind, innerHops_outerJoined] at h
      | inner =>
        have hmem : relation ∈ owner.relations := List.mem_of_find?_eq_some hrelation
        obtain ⟨f, hf⟩ := Option.isSome_iff_exists.1 (hkeys owner howner relation hmem)
        obtain ⟨hone, hpresent⟩ : relation.cardinality = .toOne ∧ f.nullable = false := by
          unfold joinKind at hkind
          cases hcardinality : relation.cardinality <;> cases role <;> simp_all
        have hnext := hcertain.snoc hreach hrelation hone hf hpresent
        simp only [hkind, if_true, List.mem_append, List.mem_singleton] at h
        rcases h with rfl | h
        · exact hnext
        · exact certain_of_innerHops hkeys hrole (Schema.mem_of_entity? htarget)
            (Schema.reach_snoc hreach hrelation htarget) hnext hrest h

end Certain

/-! ## Rows found -/

section Found

variable {db : Sql.Database} {schema : Schema} {root : Entity} {joins : List PathJoin} {row : Tuple} {rows : PathRows}

/-- Joins with the same path join the same table by the same relation. -/
theorem PathJoin.Sound.unique {a b : PathJoin} (ha : a.Sound schema root) (hb : b.Sound schema root)
    (hpath : a.path = b.path) : a.relation = b.relation ∧ a.table = b.table := by
  obtain ⟨hpathA, owner, target, howner, hrelation, htarget, htable⟩ := ha
  obtain ⟨hpathB, owner', target', howner', hrelation', htarget', htable'⟩ := hb
  have hparent : a.parent = b.parent := congrArg List.dropLast hpath
  rw [hpathA, hpathB, hparent] at hpath
  have hname : a.relation.name = b.relation.name := List.cons.inj (List.append_cancel_left hpath) |>.1
  rw [hparent, howner'] at howner
  obtain rfl := Option.some.inj howner
  rw [hname, hrelation'] at hrelation
  have hsame := Option.some.inj hrelation
  rw [← hsame, htarget'] at htarget
  obtain rfl := Option.some.inj htarget
  exact ⟨hsame.symm, htable.trans htable'.symm⟩

theorem PathJoin.Sound.reach {join : PathJoin} (h : join.Sound schema root) :
    ∃ target, schema.reach root join.path = some target ∧ join.table = target.table := by
  obtain ⟨hpath, owner, target, howner, hrelation, htarget, htable⟩ := h
  exact ⟨target, hpath ▸ Schema.reach_snoc howner hrelation htarget, htable⟩

/-- What stands at a path is a row of the entity that the path leads to. -/
theorem joinedRows_owned (h : Ordered joins) (hsound : ∀ join ∈ joins, join.Sound schema root)
    (hrow : row ∈ db.rows root.table) (hrows : rows ∈ joinedRows db joins (PathRows.ofRoot row)) {path : List String}
    {owner : Entity} (howner : schema.reach root path = some owner) {tuple : Tuple} (htuple : rows path = some tuple) :
    tuple ∈ db.rows owner.table := by
  obtain ⟨hchoices, hapart⟩ := (mem_joinedRows h).1 hrows
  by_cases hjoined : ∃ join ∈ joins, join.path = path
  · obtain ⟨join, hjoin, rfl⟩ := hjoined
    obtain ⟨target, htarget, htable⟩ := (hsound join hjoin).reach
    obtain rfl : target = owner := Option.some.inj (htarget.symm.trans howner)
    have hchoice := hchoices join hjoin
    rw [htuple, PathJoin.choices] at hchoice
    split at hchoice
    · simp at hchoice
    · obtain ⟨found, hfound, heq⟩ := List.mem_map.1 hchoice
      rw [← Option.some.inj heq, ← htable]
      exact (List.mem_filter.1 hfound).1
  · rw [hapart path fun join hjoin heq => hjoined ⟨join, hjoin, heq⟩, PathRows.ofRoot] at htuple
    split at htuple
    · next hroot =>
      obtain rfl := Option.some.inj htuple
      obtain rfl : root = owner := by
        rw [hroot] at howner
        exact Option.some.inj howner
      exact hrow
    · cases htuple

variable (href : db.Referential schema) (hroot : root ∈ schema.entities)

include href hroot

/-- A relation to one row finds its related row, if there is one. -/
theorem found_toOne {join : PathJoin} (hsound : join.Sound schema root) (hone : join.relation.cardinality = .toOne)
    {parent : Option Tuple}
    (hparent : ∀ owner, schema.reach root join.parent = some owner → ∀ tuple, parent = some tuple →
      tuple ∈ db.rows owner.table) : (join.found db parent).length ≤ 1 := by
  obtain ⟨-, owner, target, howner, hrelation, htarget, htable⟩ := hsound
  have hfilter := filter_matching href (Schema.reach_mem hroot howner) hrelation hone htarget (hparent owner howner)
  rw [PathJoin.found, htable, hfilter]
  cases db.related join.relation target parent <;> simp

variable (hpresent : db.KeysPresent schema)

include hpresent

theorem found_certain {join : PathJoin} (hsound : join.Sound schema root) (hcertain : schema.Certain root join.path)
    {tuple : Tuple} (htuple : ∀ owner, schema.reach root join.parent = some owner → tuple ∈ db.rows owner.table) :
    join.found db (some tuple) ≠ [] := by
  obtain ⟨hpath, owner, target, howner, hrelation, htarget, htable⟩ := hsound
  obtain ⟨owner', relation, f, howner', hrelation', hone, hfield, hnever⟩ := hcertain _ _ [] hpath
  obtain rfl : owner = owner' := Option.some.inj (howner.symm.trans howner')
  obtain rfl : join.relation = relation := Option.some.inj (hrelation.symm.trans hrelation')
  have hmem := Schema.reach_mem hroot howner
  have hkey := hpresent owner hmem _ _ f hrelation hone hfield hnever tuple (htuple owner howner)
  have hlength := href owner hmem _ _ target hrelation hone htarget tuple (htuple owner howner) hkey
  rw [PathJoin.found, htable]
  exact List.ne_nil_of_length_pos (hlength ▸ Nat.one_pos)

/-- On a certain path there is a row. -/
theorem joinedRows_certain (h : LaidOut joins) (hsound : ∀ join ∈ joins, join.Sound schema root)
    (hrow : row ∈ db.rows root.table) (hrows : rows ∈ joinedRows db joins (PathRows.ofRoot row)) {path : List String}
    (hpath : path = [] ∨ path ∈ joins.map (·.path)) (hcertain : schema.Certain root path) :
    ∃ tuple, rows path = some tuple := by
  obtain ⟨hchoices, hapart⟩ := (mem_joinedRows h.toOrdered).1 hrows
  induction path using List.reverseRecOn with
  | nil => exact ⟨row, hapart [] h.paths⟩
  | append_singleton path name ih =>
    obtain ⟨join, hjoin, hname⟩ := List.mem_map.1 (hpath.resolve_left (by simp))
    have hparent : join.parent = path := by rw [PathJoin.parent, hname, List.dropLast_concat]
    obtain ⟨tuple, htuple⟩ := ih (hparent ▸ h.parents join hjoin) hcertain.init
    have hfound : join.found db (some tuple) ≠ [] :=
      found_certain href hroot hpresent (hsound join hjoin) (hname ▸ hcertain) fun owner howner =>
        joinedRows_owned h.toOrdered hsound hrow hrows howner (hparent ▸ htuple)
    have hchoice := hchoices join hjoin
    rw [hname, hparent, htuple, PathJoin.choices, if_neg fun hnone => hfound hnone.2] at hchoice
    obtain ⟨found, -, heq⟩ := List.mem_map.1 hchoice
    exact ⟨found, heq.symm⟩

end Found

/-! ## Loosened joins -/

open Classical in
/-- a join that is left wherever a row is certain to be found -/
noncomputable def PathJoin.loosened (schema : Schema) (root : Entity) (join : PathJoin) : PathJoin :=
  if schema.Certain root join.path then { join with kind := .left } else join

section Loosened

variable {schema : Schema} {root : Entity} {joins : List PathJoin} (join : PathJoin)

@[simp] theorem loosened_path : (join.loosened schema root).path = join.path := by
  unfold PathJoin.loosened
  split <;> rfl

@[simp] theorem loosened_relation : (join.loosened schema root).relation = join.relation := by
  unfold PathJoin.loosened
  split <;> rfl

@[simp] theorem loosened_table : (join.loosened schema root).table = join.table := by
  unfold PathJoin.loosened
  split <;> rfl

theorem loosened_kind : (join.loosened schema root).kind = .inner ↔
    join.kind = .inner ∧ ¬schema.Certain root join.path := by
  unfold PathJoin.loosened
  split
  · next hcertain => simp [hcertain]
  · next hcertain => simp [hcertain]

theorem map_path_loosened : (joins.map (PathJoin.loosened schema root)).map (·.path) = joins.map (·.path) := by
  rw [List.map_map]
  exact List.map_congr_left fun join _ => loosened_path join

theorem loosened_laidOut (h : LaidOut joins) : LaidOut (joins.map (PathJoin.loosened schema root)) := by
  rw [laidOut_iff] at h ⊢
  rwa [map_path_loosened]

theorem loosened_sound (h : ∀ join ∈ joins, join.Sound schema root) :
    ∀ join ∈ joins.map (PathJoin.loosened schema root), join.Sound schema root := by
  intro join hjoin
  obtain ⟨earlier, hearlier, rfl⟩ := List.mem_map.1 hjoin
  obtain ⟨hpath, hleads⟩ := h earlier hearlier
  exact ⟨by simpa [PathJoin.parent] using hpath, by simpa [PathJoin.parent] using hleads⟩

/-- Loosened, joins make the same rows. -/
theorem joinedRows_loosened {db : Sql.Database} (href : db.Referential schema) (hroot : root ∈ schema.entities)
    (hpresent : db.KeysPresent schema) (h : LaidOut joins) (hsound : ∀ join ∈ joins, join.Sound schema root)
    {row : Tuple} (hrow : row ∈ db.rows root.table) :
    (joinedRows db joins (PathRows.ofRoot row)).Perm
      (joinedRows db (joins.map (PathJoin.loosened schema root)) (PathRows.ofRoot row)) := by
  refine joinedRows_perm_of_choices h.toOrdered (loosened_laidOut h).toOrdered loosened_path ?_
  intro rows hrows join hjoin
  by_cases hcertain : schema.Certain root join.path
  · -- the parent of a certain path is certain, so its row is there and finds another
    have hpath := (hsound join hjoin).path
    have hparent : join.parent = [] ∨ join.parent ∈ joins.map (·.path) := h.parents join hjoin
    obtain ⟨tuple, htuple, howned⟩ : ∃ tuple, rows join.parent = some tuple ∧
        ∀ owner, schema.reach root join.parent = some owner → tuple ∈ db.rows owner.table := by
      rcases hrows with hrows | hrows
      · obtain ⟨tuple, htuple⟩ := joinedRows_certain href hroot hpresent h hsound hrow hrows hparent
          (hpath ▸ hcertain).init
        exact ⟨tuple, htuple, fun owner howner => joinedRows_owned h.toOrdered hsound hrow hrows howner htuple⟩
      · have hloose : LaidOut (joins.map (PathJoin.loosened schema root)) := loosened_laidOut h
        obtain ⟨tuple, htuple⟩ := joinedRows_certain href hroot hpresent hloose (loosened_sound hsound) hrow hrows
          (by rwa [map_path_loosened]) (hpath ▸ hcertain).init
        exact ⟨tuple, htuple, fun owner howner =>
          joinedRows_owned hloose.toOrdered (loosened_sound hsound) hrow hrows howner htuple⟩
    have hfound := found_certain href hroot hpresent (hsound join hjoin) hcertain howned
    have hsame : (join.loosened schema root).found db (some tuple) = join.found db (some tuple) := by
      rw [PathJoin.found, PathJoin.found, loosened_table, loosened_relation]
    rw [htuple, PathJoin.choices, PathJoin.choices, hsame, if_neg fun hnone => hfound hnone.2,
      if_neg fun hnone => hfound hnone.2]
  · rw [PathJoin.loosened, if_neg hcertain]

end Loosened

/-! ## More columns -/

/-- The columns of `many` that are not among `few` are neither conditions nor the other way round, as far as anything is
joined for them. -/
structure Widens (few many : List ColumnReference) : Prop where
  kept : ∀ r ∈ few, r.ref.hops = [] ∨ r ∈ many
  conditions : ∀ r ∈ many, r.role = .filter → r.ref.hops = [] ∨ r ∈ few

/-- the joins of a list of columns, loosened -/
noncomputable def looseLayout (schema : Schema) (root : Entity) (rs : List ColumnReference) : List PathJoin :=
  (layout schema root rs).map (PathJoin.loosened schema root)

section Widens

variable {schema : Schema} {root : Entity} {few many : List ColumnReference}

theorem looseLayout_laidOut (schema : Schema) (root : Entity) (rs : List ColumnReference) :
    LaidOut (looseLayout schema root rs) :=
  loosened_laidOut layout_laidOut

theorem map_path_looseLayout {rs : List ColumnReference} :
    (looseLayout schema root rs).map (·.path) = (layout schema root rs).map (·.path) :=
  map_path_loosened

/-- the loosened joins of a list of columns, by what is asked for -/
theorem mem_loosened {rs : List ColumnReference} (hleads : ∀ r ∈ rs, schema.Leads root r.ref.hops) {join : PathJoin} :
    join ∈ looseLayout schema root rs ↔
      join.Sound schema root ∧ join.path ∈ (layout schema root rs).map (·.path) ∧
        (join.kind = .inner ↔ IsInnerIn (layout schema root rs) join.path ∧ ¬schema.Certain root join.path) := by
  have hsound := layout_sound hleads
  have hkind : ∀ join ∈ layout schema root rs,
      (join.kind = .inner ↔ IsInnerIn (layout schema root rs) join.path) := by
    intro join hjoin
    refine ⟨fun hinner => ⟨join, hjoin, rfl, hinner⟩, fun ⟨other, hother, hpath, hinner⟩ => ?_⟩
    rwa [← layout_laidOut.eq_of_path hother hjoin hpath]
  constructor
  · intro hmem
    refine ⟨loosened_sound hsound join hmem, ?_, ?_⟩
    · rw [← map_path_looseLayout]
      exact List.mem_map_of_mem hmem
    · obtain ⟨earlier, hearlier, rfl⟩ := List.mem_map.1 hmem
      rw [loosened_kind, hkind earlier hearlier, loosened_path]
  · rintro ⟨hjoin, hpath, hinner⟩
    obtain ⟨earlier, hearlier, hsame⟩ := List.mem_map.1 hpath
    refine List.mem_map.2 ⟨earlier, hearlier, ?_⟩
    obtain ⟨hrelation, htable⟩ := (hsound earlier hearlier).unique hjoin hsame
    have hkinds : (earlier.loosened schema root).kind = .inner ↔ join.kind = .inner := by
      rw [hinner, loosened_kind, hkind earlier hearlier, hsame]
    cases join with
    | mk path kind relation table =>
      have heta : earlier.loosened schema root = ⟨(earlier.loosened schema root).path,
        (earlier.loosened schema root).kind, (earlier.loosened schema root).relation,
        (earlier.loosened schema root).table⟩ := rfl
      rw [heta, loosened_path, loosened_relation, loosened_table, hsame, hrelation, htable]
      congr 1
      cases hk : (earlier.loosened schema root).kind <;> cases kind <;> simp_all

/-- joins that `many` has and `few` has not -/
noncomputable def extraJoins (schema : Schema) (root : Entity) (few many : List ColumnReference) : List PathJoin :=
  (looseLayout schema root many).filter fun join => join.path ∉ (layout schema root few).map (·.path)

variable (hkeys : ∀ e ∈ schema.entities, ∀ r ∈ e.relations, (e.field r.localColumn).isSome)
  (hroot : root ∈ schema.entities) (hfew : ∀ r ∈ few, schema.Leads root r.ref.hops)
  (hmany : ∀ r ∈ many, schema.Leads root r.ref.hops) (h : Widens few many)

include hfew hmany h in
theorem paths_subset {path : List String} (hpath : path ∈ (layout schema root few).map (·.path)) :
    path ∈ (layout schema root many).map (·.path) := by
  rw [mem_paths_layout fun r hr => (hfew r hr).finds, List.mem_flatMap] at hpath
  rw [mem_paths_layout fun r hr => (hmany r hr).finds, List.mem_flatMap]
  obtain ⟨r, hr, hhop⟩ := hpath
  rcases h.kept r hr with hlocal | hr
  · rw [hlocal] at hhop
    cases hhop
  · exact ⟨r, hr, hhop⟩

include hkeys hroot hmany h in
/-- Where nothing may be found, both ask for the same inner joins. -/
theorem isInner_iff {path : List String} (huncertain : ¬schema.Certain root path) :
    IsInnerIn (layout schema root many) path ↔ IsInnerIn (layout schema root few) path := by
  rw [isInner_layout, isInner_layout, List.mem_flatMap, List.mem_flatMap]
  constructor
  · rintro ⟨r, hr, hinner⟩
    by_cases hrole : r.role = .filter
    · rcases h.conditions r hr hrole with hlocal | hr
      · rw [hlocal] at hinner
        cases hinner
      · exact ⟨r, hr, hinner⟩
    · exact absurd (certain_of_innerHops hkeys hrole hroot rfl .nil (hmany r hr) hinner) huncertain
  · rintro ⟨r, hr, hinner⟩
    rcases h.kept r hr with hlocal | hr
    · rw [hlocal] at hinner
      cases hinner
    · exact ⟨r, hr, hinner⟩

include hkeys hroot hfew hmany h in
theorem loosened_perm : (looseLayout schema root many).Perm
    (looseLayout schema root few ++ extraJoins schema root few many) := by
  have hnodup : ∀ rs : List ColumnReference, (looseLayout schema root rs).Nodup := fun rs =>
    (looseLayout_laidOut schema root rs).nodup.of_map _
  have hsplit := List.filter_append_perm (fun join => join.path ∈ (layout schema root few).map (·.path))
    (looseLayout schema root many)
  refine hsplit.symm.trans (List.Perm.append ?_ (List.Perm.of_eq (List.filter_congr fun join _ => decide_not.symm)))
  refine (List.perm_ext_iff_of_nodup ((hnodup many).filter _) (hnodup few)).2 fun join => ?_
  rw [List.mem_filter, mem_loosened hmany, mem_loosened hfew, decide_eq_true_iff]
  have hinner : IsInnerIn (layout schema root many) join.path ∧ ¬schema.Certain root join.path ↔
      IsInnerIn (layout schema root few) join.path ∧ ¬schema.Certain root join.path :=
    and_congr_left fun huncertain => isInner_iff hkeys hroot hmany h huncertain
  rw [hinner]
  constructor
  · rintro ⟨⟨hjoin, -, hkind⟩, hpath⟩
    exact ⟨hjoin, hpath, hkind⟩
  · rintro ⟨hjoin, hpath, hkind⟩
    exact ⟨⟨hjoin, paths_subset hfew hmany h hpath, hkind⟩, hpath⟩

include hkeys hroot hmany h in
/-- The joins that are new are left joins. -/
theorem extraJoins_left : ∀ join ∈ extraJoins schema root few many, join.kind = .left := by
  intro join hjoin
  obtain ⟨hmem, hnew⟩ := List.mem_filter.1 hjoin
  obtain ⟨-, -, hkind⟩ := (mem_loosened hmany).1 hmem
  cases hleft : join.kind with
  | left => rfl
  | inner =>
    obtain ⟨hinner, huncertain⟩ := hkind.1 hleft
    obtain ⟨other, hother, hpath, -⟩ := (isInner_iff hkeys hroot hmany h huncertain).1 hinner
    exact absurd (List.mem_map.2 ⟨other, hother, hpath⟩) (by simpa using hnew)

/-- They come after those that are not. -/
theorem extra_ordered : Ordered (looseLayout schema root few ++ extraJoins schema root few many) := by
  have hbase := looseLayout_laidOut schema root few
  have hwide := looseLayout_laidOut schema root many
  refine ⟨fun join hjoin => ?_, List.pairwise_append.2 ⟨hbase.order, hwide.order.filter _, fun a ha b hb => ?_⟩⟩
  · rcases List.mem_append.1 hjoin with hjoin | hjoin
    · exact hbase.paths join hjoin
    · exact hwide.paths join (List.mem_filter.1 hjoin).1
  · have hnew : b.path ∉ (looseLayout schema root few).map (·.path) := by
      rw [map_path_looseLayout]
      simpa using (List.mem_filter.1 hb).2
    refine ⟨fun heq => hnew (heq ▸ List.mem_map_of_mem ha), fun heq => ?_⟩
    rcases hbase.parents a ha with hstart | hparent
    · exact hwide.paths b (List.mem_filter.1 hb).1 (heq.symm.trans hstart)
    · exact hnew (heq ▸ hparent)

end Widens

/-! ## Relations to many rows -/

/-- the paths that end with a relation to many rows -/
def fanPaths : List Relation → List String → List (List String)
  | [], _ => []
  | relation :: rest, path =>
    let path := path ++ [relation.name]
    (if relation.cardinality = .toMany then [path] else []) ++ fanPaths rest path

section Fans

variable {schema : Schema} {root : Entity} {fans : List (List String)} {joins : List PathJoin}

theorem askPath_fans {path : List String} {kind : Sql.JoinKind} {relation : Relation} {table : String}
    (h : ∀ join ∈ joins, join.relation.cardinality = .toMany → join.path ∈ fans)
    (hnew : relation.cardinality = .toMany → path ∈ fans) :
    ∀ join ∈ askPath path kind relation table joins, join.relation.cardinality = .toMany → join.path ∈ fans := by
  intro join hjoin hmany
  rcases askPath_cases path kind relation table joins with ⟨-, heq⟩ | ⟨-, heq⟩
  · rw [heq] at hjoin
    obtain ⟨earlier, hearlier, rfl⟩ := List.mem_map.1 hjoin
    rw [PathJoin.strengthen_relation] at hmany
    rw [PathJoin.strengthen_path]
    exact h earlier hearlier hmany
  · rw [heq] at hjoin
    rcases List.mem_append.1 hjoin with hjoin | hjoin
    · exact h join hjoin hmany
    · obtain rfl := List.mem_singleton.1 hjoin
      exact hnew hmany

theorem askHops_fans {role : Role} : {hops : List Relation} → {owner : Entity} → {path : List String} →
    {outerJoined : Bool} → {joins : List PathJoin} →
    (∀ join ∈ joins, join.relation.cardinality = .toMany → join.path ∈ fans) →
    (∀ fan ∈ fanPaths hops path, fan ∈ fans) →
    ∀ join ∈ askHops schema role hops owner path outerJoined joins, join.relation.cardinality = .toMany →
      join.path ∈ fans
  | [], _, _, _, _, h, _ => h
  | relation :: rest, owner, path, outerJoined, joins, h, hfans => by
    unfold askHops
    split
    · exact h
    · refine askHops_fans (askPath_fans h fun hmany => ?_) fun fan hfan => ?_
      · exact hfans _ (by simp [fanPaths, hmany])
      · exact hfans fan (by simp [fanPaths, hfan])

theorem layout_fans {rs : List ColumnReference} {join : PathJoin} (hjoin : join ∈ layout schema root rs)
    (hmany : join.relation.cardinality = .toMany) : join.path ∈ rs.flatMap fun r => fanPaths r.ref.hops [] := by
  obtain ⟨fans, hfans⟩ : ∃ fans, fans = rs.flatMap fun r => fanPaths r.ref.hops [] := ⟨_, rfl⟩
  have hfold : ∀ {more : List ColumnReference} {joins : List PathJoin}, (∀ r ∈ more, r ∈ rs) →
      (∀ join ∈ joins, join.relation.cardinality = .toMany → join.path ∈ fans) →
      ∀ join ∈ more.foldl (ColumnReference.ask schema root) joins, join.relation.cardinality = .toMany →
        join.path ∈ fans := by
    intro more
    induction more with
    | nil => exact fun _ h => h
    | cons r more ih =>
      intro joins hmore h
      refine ih (fun r hr => hmore r (by simp [hr])) (askHops_fans h fun fan hfan => ?_)
      exact hfans ▸ List.mem_flatMap.2 ⟨r, hmore r (by simp), hfan⟩
  exact hfans ▸ hfold (fun r hr => hr) (fun _ hnone => absurd hnone List.not_mem_nil) join hjoin hmany

end Fans

/-! ## Joined rows of more columns -/

/-- the same rows at the root and on some paths -/
def PathRows.SameOn (paths : List (List String)) (a b : PathRows) : Prop :=
  ∀ path, path = [] ∨ path ∈ paths → a path = b path

section Rows

variable {db : Sql.Database} {schema : Schema} {root : Entity} {few many : List ColumnReference}

/-- New joins leave the rows as they are. -/
theorem sameOn_of_extra {rows base : PathRows}
    (h : rows ∈ joinedRows db (extraJoins schema root few many) base) :
    PathRows.SameOn ((layout schema root few).map (·.path)) rows base := by
  intro path hpath
  refine joinedRows_apart (fun join hjoin heq => ?_) h
  obtain ⟨hmem, hnew⟩ := List.mem_filter.1 hjoin
  rcases hpath with hroot | hold
  · exact (looseLayout_laidOut schema root many).paths join hmem (heq.trans hroot)
  · exact absurd (heq ▸ hold) (by simpa using hnew)

/-- Left joins of relations to one row make one row of a row. -/
theorem joinedRows_single (href : db.Referential schema) (hroot : root ∈ schema.entities) {joins : List PathJoin}
    {row : Tuple} (hrow : row ∈ db.rows root.table) {base : PathRows}
    (hbase : base ∈ joinedRows db joins (PathRows.ofRoot row)) {extra : List PathJoin}
    (hordered : Ordered (joins ++ extra)) (hsound : ∀ join ∈ joins ++ extra, join.Sound schema root)
    (hextra : ∀ join ∈ extra, join.kind = .left ∧ join.relation.cardinality = .toOne) :
    ∃ rows, joinedRows db extra base = [rows] := by
  induction extra using List.reverseRecOn with
  | nil => exact ⟨base, rfl⟩
  | append_singleton extra join ih =>
    rw [← List.append_assoc] at hordered hsound
    obtain ⟨hbefore, -, -⟩ := List.pairwise_append.1 hordered.order
    have hfirst : Ordered (joins ++ extra) :=
      ⟨fun other hother => hordered.paths other (List.mem_append_left _ hother), hbefore⟩
    have hsounds : ∀ other ∈ joins ++ extra, other.Sound schema root := fun other hother =>
      hsound other (List.mem_append_left _ hother)
    obtain ⟨rows, hrows⟩ := ih hfirst hsounds fun other hother => hextra other (List.mem_append_left _ hother)
    obtain ⟨hleft, hone⟩ := hextra join (by simp)
    have hmem : rows ∈ joinedRows db (joins ++ extra) (PathRows.ofRoot row) := by
      rw [joinedRows_append]
      exact List.mem_flatMap.2 ⟨base, hbase, by simp [hrows]⟩
    have hfound := found_toOne href hroot (hsound join (by simp)) hone fun owner howner tuple htuple =>
      joinedRows_owned hfirst hsounds hrow hmem howner htuple
    obtain ⟨choice, hchoice⟩ : ∃ choice, join.choices db (rows join.parent) = [choice] := by
      unfold PathJoin.choices
      split
      · exact ⟨none, rfl⟩
      · next hnone =>
        obtain ⟨found, more, heq⟩ := List.exists_cons_of_ne_nil fun hempty => hnone ⟨hleft, hempty⟩
        rw [heq] at hfound ⊢
        obtain rfl : more = [] := by simpa using hfound
        exact ⟨some found, rfl⟩
    exact ⟨Function.update rows join.path choice, by simp [joinedRows_snoc, hrows, PathJoin.extend, hchoice]⟩

variable (hkeys : ∀ e ∈ schema.entities, ∀ r ∈ e.relations, (e.field r.localColumn).isSome)
  (href : db.Referential schema) (hpresent : db.KeysPresent schema) (hroot : root ∈ schema.entities)
  (hfew : ∀ r ∈ few, schema.Leads root r.ref.hops) (hmany : ∀ r ∈ many, schema.Leads root r.ref.hops)
  (h : Widens few many)

include href hpresent hroot in
theorem joinedRows_loose {rs : List ColumnReference} (hleads : ∀ r ∈ rs, schema.Leads root r.ref.hops) {row : Tuple}
    (hrow : row ∈ db.rows root.table) : (joinedRows db (layout schema root rs) (PathRows.ofRoot row)).Perm
      (joinedRows db (looseLayout schema root rs) (PathRows.ofRoot row)) :=
  joinedRows_loosened href hroot hpresent layout_laidOut (layout_sound hleads) hrow

include hkeys href hpresent hroot hfew hmany h

/-- The joined rows of more columns go on from those of fewer. -/
theorem joinedPaths_perm : (joinedPaths db schema root many).Perm
    ((joinedPaths db schema root few).flatMap (joinedRows db (extraJoins schema root few many))) := by
  rw [joinedPaths, joinedPaths, List.flatMap_assoc]
  refine List.Perm.flatMap_left _ fun row hrow => ?_
  have hloose : ∀ {rs : List ColumnReference}, (∀ r ∈ rs, schema.Leads root r.ref.hops) →
      (joinedRows db (layout schema root rs) (PathRows.ofRoot row)).Perm
        (joinedRows db (looseLayout schema root rs) (PathRows.ofRoot row)) := fun hleads =>
    joinedRows_loose href hpresent hroot hleads hrow
  calc joinedRows db (layout schema root many) (PathRows.ofRoot row)
      _ |>.Perm (joinedRows db (looseLayout schema root many) (PathRows.ofRoot row)) := hloose hmany
      _ |>.Perm (joinedRows db (looseLayout schema root few ++ extraJoins schema root few many)
          (PathRows.ofRoot row)) :=
        joinedRows_perm (looseLayout_laidOut schema root many).toOrdered extra_ordered
          (loosened_perm hkeys hroot hfew hmany h) _
      _ |>.Perm ((joinedRows db (looseLayout schema root few) (PathRows.ofRoot row)).flatMap
          (joinedRows db (extraJoins schema root few many))) := List.Perm.of_eq (joinedRows_append _ _ _)
      _ |>.Perm ((joinedRows db (layout schema root few) (PathRows.ofRoot row)).flatMap
          (joinedRows db (extraJoins schema root few many))) := (hloose hfew).symm.flatMap_right _

/-- More columns make rows of the same rows, as far as the fewer columns see. -/
theorem joinedPaths_widened :
    (∀ rows ∈ joinedPaths db schema root many, ∃ base ∈ joinedPaths db schema root few,
      PathRows.SameOn ((layout schema root few).map (·.path)) rows base) ∧
    ∀ base ∈ joinedPaths db schema root few, ∃ rows ∈ joinedPaths db schema root many,
      PathRows.SameOn ((layout schema root few).map (·.path)) rows base := by
  have hperm := joinedPaths_perm hkeys href hpresent hroot hfew hmany h
  constructor
  · intro rows hrows
    obtain ⟨base, hbase, hextra⟩ := List.mem_flatMap.1 (hperm.mem_iff.1 hrows)
    exact ⟨base, hbase, sameOn_of_extra hextra⟩
  · intro base hbase
    have hnonempty : joinedRows db (extraJoins schema root few many) base ≠ [] :=
      joinedRows_ne_nil (extraJoins_left hkeys hroot hmany h) base
    obtain ⟨rows, hextra⟩ := List.exists_mem_of_ne_nil _ hnonempty
    exact ⟨rows, hperm.mem_iff.2 (List.mem_flatMap.2 ⟨base, hbase, hextra⟩), sameOn_of_extra hextra⟩

/-- Each row is made once when no relation to many rows is new. -/
theorem joinedPaths_widened_once
    (hfans : ∀ path ∈ many.flatMap (fun r => fanPaths r.ref.hops []), path ∈ (layout schema root few).map (·.path)) :
    ∃ extended : PathRows → PathRows,
      (joinedPaths db schema root many).Perm ((joinedPaths db schema root few).map extended) ∧
      ∀ base ∈ joinedPaths db schema root few,
        PathRows.SameOn ((layout schema root few).map (·.path)) (extended base) base := by
  have hone : ∀ join ∈ extraJoins schema root few many, join.relation.cardinality = .toOne := by
    intro join hjoin
    obtain ⟨hmem, hnew⟩ := List.mem_filter.1 hjoin
    obtain ⟨earlier, hearlier, rfl⟩ := List.mem_map.1 hmem
    cases hcardinality : (earlier.loosened schema root).relation.cardinality with
    | toOne => rfl
    | toMany =>
      rw [loosened_relation] at hcardinality
      rw [loosened_path] at hnew
      exact absurd (hfans _ (layout_fans hearlier hcardinality)) (by simpa using hnew)
  have hsound : ∀ join ∈ looseLayout schema root few ++ extraJoins schema root few many, join.Sound schema root := by
    intro join hjoin
    rcases List.mem_append.1 hjoin with hjoin | hjoin
    · exact loosened_sound (layout_sound hfew) join hjoin
    · exact loosened_sound (layout_sound hmany) join (List.mem_filter.1 hjoin).1
  have hsingle : ∀ base ∈ joinedPaths db schema root few,
      ∃ rows, joinedRows db (extraJoins schema root few many) base = [rows] := by
    intro base hbase
    obtain ⟨row, hrow, hjoined⟩ := List.mem_flatMap.1 hbase
    exact joinedRows_single href hroot hrow ((joinedRows_loose href hpresent hroot hfew hrow).mem_iff.1 hjoined)
      extra_ordered hsound fun join hjoin => ⟨extraJoins_left hkeys hroot hmany h join hjoin, hone join hjoin⟩
  choose! extended hextended using hsingle
  refine ⟨extended, ?_, fun base hbase => ?_⟩
  · refine (joinedPaths_perm hkeys href hpresent hroot hfew hmany h).trans (List.Perm.of_eq ?_)
    rw [List.flatMap_congr hextended, List.map_eq_flatMap]
  · have hmem : extended base ∈ joinedRows db (extraJoins schema root few many) base := by
      rw [hextended base hbase]
      exact List.mem_singleton_self _
    exact sameOn_of_extra hmem

end Rows

end RelQuery
