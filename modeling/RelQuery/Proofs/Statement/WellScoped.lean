/-
Statements of plans are well scoped.

All names of a statement, those of nested statements included, are numbers of one supply. A statement and everything
nested in it take the numbers from one count of the supply to a later one (`Scoped`), so they cannot meet the names of
joins that are made before or after. While an expression is compiled every leaf is accounted for by the tables there
are (`Accounted`), and later tables only add to them.
- `StandsOn.isScoped`: a query that starts from a table is scoped when its tables account for its leaves.
- `resolve_advances`, `resolves_advance`: one reference resolved, and a list of them.
- `Plan.isScoped`: by induction on the plans nested in a plan.
- `statements_wellScoped`: the statements for rows, count and existence.
-/
import RelQuery.Proofs.Sql.Reducing
import RelQuery.Proofs.Statement.Leaves

namespace RelQuery

open Sql (Leaf Query)

/-! ## The tables of a statement -/

namespace JoinState

/-- the name of the root table or of a join -/
def Stands (base : Nat) (s : JoinState) (name : String) : Prop :=
  name = tableAlias base ∨ ∃ node ∈ s.nodes, node.aliasName = name

/-- every join is onto the root table or a join -/
def Rooted (base : Nat) (s : JoinState) : Prop := ∀ node ∈ s.nodes, s.Stands base node.parent

variable {base : Nat} {s t : JoinState} {name : String}

theorem Stands.later (hgrow : s.Extends t) (h : s.Stands base name) : t.Stands base name := by
  rcases h with rfl | ⟨node, hnode, rfl⟩
  · exact .inl rfl
  · obtain ⟨later, hlater, hplace⟩ := hgrow.node hnode
    exact .inr ⟨later, hlater, (JoinNode.place_eq.1 hplace).2.1⟩

/-- A name stood before or is a number that was not used. -/
theorem Stands.earlier (hgrow : s.Extends t) (h : t.Stands base name) :
    s.Stands base name ∨ ∃ m, s.next ≤ m ∧ name = tableAlias m := by
  rcases h with rfl | ⟨node, hnode, rfl⟩
  · exact .inl (.inl rfl)
  · rcases hgrow.fresh node hnode with hold | hnew
    · exact .inl (.inr hold)
    · exact .inr hnew

theorem Stands.number (hnamed : s.Named base) (h : s.Stands base name) :
    ∃ m, base ≤ m ∧ m < s.next ∧ name = tableAlias m := by
  rcases h with rfl | ⟨node, hnode, rfl⟩
  · exact ⟨base, Nat.le_refl _, hnamed.beyond, rfl⟩
  · obtain ⟨m, hbase, hnext, hname⟩ := hnamed.numbered node hnode
    exact ⟨m, Nat.le_of_lt hbase, hnext, hname⟩

theorem Rooted.touch (h : s.Rooted base) {path : List String} {kind : Sql.JoinKind} {parent : String}
    {relation : Relation} {table : String} (hparent : s.Stands base parent) :
    (s.touch path kind parent relation table).2.Rooted base ∧
      (s.touch path kind parent relation table).2.Stands base (s.touch path kind parent relation table).1 := by
  have hgrow := s.touch_extends path kind parent relation table
  obtain ⟨joined, hjoined, -, hname⟩ := s.touch_node path kind parent relation table
  refine ⟨fun node hnode => ?_, .inr ⟨joined, hjoined, hname⟩⟩
  rcases touch_cases s path kind parent relation table with ⟨found, -, heq⟩ | ⟨-, heq⟩
  · have hplaces : node.place ∈ s.nodes.map JoinNode.place := by
      rw [← map_place_strengthen path kind s.nodes]
      rw [heq] at hnode
      exact List.mem_map_of_mem hnode
    obtain ⟨earlier, hearlier, hplace⟩ := List.mem_map.1 hplaces
    rw [← (JoinNode.place_eq.1 hplace).2.2.1]
    exact (h earlier hearlier).later hgrow
  · have hcases : node ∈ s.nodes ∨ node.parent = parent := by
      rw [heq] at hnode
      rcases List.mem_append.1 hnode with hnode | hnode
      · exact .inl hnode
      · exact .inr (List.mem_singleton.1 hnode ▸ rfl)
    rcases hcases with hnode | rfl
    · exact (h node hnode).later hgrow
    · exact hparent.later hgrow

end JoinState

theorem Scope.joinHops_rooted {scope : Scope} {base : Nat} {role : Role} : {hops : List Relation} → {owner : Entity} →
    {parent name : String} → {path : List String} → {outerJoined : Bool} → {s s' : JoinState} →
    s.Rooted base → s.Stands base parent → scope.joinHops role hops owner parent path outerJoined s = .ok (name, s') →
    s'.Rooted base ∧ s'.Stands base name
  | [], _, _, _, _, _, s, s', hrooted, hparent, h => by
    obtain ⟨rfl, rfl⟩ := Lowering.pure_ok.1 h
    exact ⟨hrooted, hparent⟩
  | relation :: rest, owner, parent, name, path, outerJoined, s, s', hrooted, hparent, h => by
    obtain ⟨target, kind, -, -, hrest⟩ := joinHops_cons_ok h
    obtain ⟨htouched, hstands⟩ := hrooted.touch hparent
    exact joinHops_rooted htouched hstands hrest

/-! ## Scoped statements -/

/-- the column of one of some fields of the enclosing row -/
def Outer.Gives (o : Outer) (fields : List String) (column : String) : Prop :=
  ∃ name ∈ fields, ∃ f, o.entity.field name = some f ∧ f.name = column

/-- One field has one column. -/
theorem Outer.Gives.eq_of_one {o : Outer} {fields : List String} (hone : fields.length ≤ 1) {a b : String}
    (ha : o.Gives fields a) (hb : o.Gives fields b) : a = b := by
  obtain ⟨name, hname, f, hf, rfl⟩ := ha
  obtain ⟨other, hother, g, hg, rfl⟩ := hb
  match fields, hone with
  | [field], _ =>
    obtain rfl := List.mem_singleton.1 hname
    obtain rfl := List.mem_singleton.1 hother
    rw [Option.some.inj (hf.symm.trans hg)]

/-- A statement with the enclosing row `outer`, of which it reads some fields. It and everything nested in it are named
with the numbers from `first` on, up to `last`. -/
structure Scoped (fields : List String) (outer : Option Outer) (first last : Nat) (q : Query) : Prop where
  advances : first < last
  introduced : ∀ name, q.Introduces name → ∃ m, first ≤ m ∧ m < last ∧ name = tableAlias m
  wellScoped : ∀ enclosing, (∀ m, first ≤ m → m < last → tableAlias m ∉ enclosing) →
    q.WellScoped enclosing (outer.map (·.name))
  reads : ∀ c, q.Reads c →
    (∃ m, first ≤ m ∧ m < last ∧ c.1 = some (tableAlias m)) ∨
      ∃ o, outer = some o ∧ c.1 = some o.name ∧ o.Gives fields c.2

namespace Scoped

variable {fields : List String} {outer : Option Outer} {first last : Nat} {q q' : Query}

theorem of_part (hpart : q'.Part q) (h : Scoped fields outer first last q) : Scoped fields outer first last q' where
  advances := h.advances
  introduced name hname := h.introduced name (hname.of_part hpart)
  wellScoped enclosing hapart := (h.wellScoped enclosing hapart).of_part hpart
  reads c hc := h.reads c (hc.of_part hpart)

/-- a statement as the derived table of another, under the next name -/
theorem around {column : Sql.Expr} (hcolumn : column.leaves = []) (h : Scoped fields outer first last q) :
    Scoped fields outer first (last + 1) (.around column q (tableAlias last)) := by
  have hleaves : (Query.around column q (tableAlias last)).leaves = [] := by
    simp [Query.leaves, Query.expressions, Query.around, Query.selecting, hcolumn]
  have hnames : (Query.around column q (tableAlias last)).names = [tableAlias last] := rfl
  have hsource : ∀ {inner name}, (Query.around column q (tableAlias last)).source = some (.derived inner name) →
      inner = q := by
    intro inner name hinner
    injection hinner with hinner
    injection hinner with hinner
    exact hinner.symm
  have hfirst := h.advances
  constructor
  · exact Nat.lt_succ_of_lt h.advances
  · intro name hname
    rcases hname.cases with hown | ⟨inner, hinner, -⟩ | ⟨inner, _, hinner, hname⟩
    · rw [hnames] at hown
      exact ⟨last, Nat.le_of_lt h.advances, Nat.lt_succ_self _, List.mem_singleton.1 hown⟩
    · rw [hleaves] at hinner
      cases hinner
    · obtain ⟨m, hle, hlt, heq⟩ := h.introduced name (hsource hinner ▸ hname)
      exact ⟨m, hle, Nat.lt_succ_of_lt hlt, heq⟩
  · intro enclosing hapart
    refine ⟨by simp [hnames], ?_, ?_, ?_, ?_, ?_⟩
    · intro name hname
      rw [hnames] at hname
      rw [List.mem_singleton.1 hname]
      exact hapart last (Nat.le_of_lt h.advances) (Nat.lt_succ_self _)
    · intro c hc
      rw [hleaves] at hc
      cases hc
    · intro inner hinner
      rw [hleaves] at hinner
      cases hinner
    · intro inner hinner
      rw [hleaves] at hinner
      cases hinner
    · intro inner name hinner
      rw [hsource hinner, hnames]
      refine h.wellScoped _ fun m hle hlt hmem => ?_
      rcases List.mem_cons.1 hmem with heq | hmem
      · exact Nat.ne_of_lt hlt (tableAlias_inj.1 heq)
      · exact hapart m hle (Nat.lt_succ_of_lt hlt) hmem
  · intro c hc
    cases hc with
    | own hc =>
      rw [hleaves] at hc
      cases hc
    | derived hinner hc =>
      rcases h.reads c (hsource hinner ▸ hc) with ⟨m, hle, hlt, hown⟩ | houter
      · exact .inl ⟨m, hle, Nat.lt_succ_of_lt hlt, hown⟩
      · exact .inr houter

end Scoped

/-- a statement nested in one whose root table has the number `base` -/
structure Nested (base first last : Nat) (q : Query) : Prop where
  introduced : ∀ name, q.Introduces name → ∃ m, first ≤ m ∧ m < last ∧ name = tableAlias m
  wellScoped : ∀ enclosing, (∀ m, first ≤ m → m < last → tableAlias m ∉ enclosing) →
    q.WellScoped enclosing (some (tableAlias base))
  oneOuter : q.ReadsOneOuter

/-- A statement that reads at most one field of the enclosing row may be nested. -/
theorem Scoped.nested {fields : List String} {o : Outer} {base first last : Nat} {q : Query}
    (h : Scoped fields (some o) first last q) (hname : o.name = tableAlias base) (hbase : base < first)
    (hone : fields.length ≤ 1) : Nested base first last q := by
  refine ⟨h.introduced, fun enclosing hapart => hname ▸ h.wellScoped enclosing hapart, ?_⟩
  have hfree : ∀ c, q.Free c → c.1 = some o.name ∧ o.Gives fields c.2 := by
    rintro c ⟨hmentions, hfree⟩
    have hscoped := h.wellScoped [] fun _ _ _ => List.not_mem_nil
    rcases hscoped.mentions hmentions with hintro | ⟨hreads, name, hopen, hc⟩
    · exact absurd hintro hfree
    · rcases h.reads c hreads with ⟨m, hm, -, hown⟩ | ⟨o', ho, -, hgives⟩
      · have hsame : tableAlias base = tableAlias m := by
          rw [← hname]
          exact Option.some.inj (hc.symm.trans hown)
        exact absurd (tableAlias_inj.1 hsame) (by omega)
      · obtain rfl := Option.some.inj ho
        exact ⟨hc, hgives⟩
  intro c d hc hd
  obtain ⟨hc₁, hc₂⟩ := hfree c hc
  obtain ⟨hd₁, hd₂⟩ := hfree d hd
  exact Prod.ext (hc₁.trans hd₁.symm) (hc₂.eq_of_one hone hd₂)

/-! ## Leaves accounted for -/

/-- A leaf that the tables of a statement account for: a column of one of them, a field of the enclosing row, or a
nested statement whose names are none of theirs. -/
inductive Accounted (scope : Scope) (base : Nat) (fields : List String) (s : JoinState) : Leaf → Prop
  | own {name column : String} : s.Stands base name → Accounted scope base fields s (.column (some name, column))
  | outer {o : Outer} {column : String} : scope.outer = some o → o.Gives fields column →
    Accounted scope base fields s (.column (some o.name, column))
  | statement {first last : Nat} {q : Query} : base < first → last ≤ s.next → Nested base first last q →
    (∀ name, s.Stands base name → ∀ m, first ≤ m → m < last → name ≠ tableAlias m) →
    Accounted scope base fields s (.statement q)

theorem Accounted.later {scope : Scope} {base : Nat} {fields : List String} {s t : JoinState} {leaf : Leaf}
    (hgrow : s.Extends t) (h : Accounted scope base fields s leaf) : Accounted scope base fields t leaf := by
  cases h with
  | own hstands => exact .own (hstands.later hgrow)
  | outer ho hgives => exact .outer ho hgives
  | statement hbase hlast hnested hapart =>
    refine .statement hbase (Nat.le_trans hlast hgrow.next) hnested fun name hname m hle hlt => ?_
    rcases hname.earlier hgrow with hold | ⟨n, hn, rfl⟩
    · exact hapart name hold m hle hlt
    · exact fun heq => absurd (tableAlias_inj.1 heq) (by omega)

/-- References resolved between two states of the tables, with every leaf accounted for. -/
structure Advances (scope : Scope) (base : Nat) (fields : List String) (s s' : JoinState) (leaves : List Leaf) :
    Prop where
  grows : s.Extends s'
  named : s'.Named base
  rooted : s'.Rooted base
  accounted : ∀ leaf ∈ leaves, Accounted scope base fields s' leaf

theorem Advances.append {scope : Scope} {base : Nat} {fields : List String} {s s₁ s' : JoinState}
    {leaves more : List Leaf} (h : Advances scope base fields s s₁ leaves)
    (h' : Advances scope base fields s₁ s' more) : Advances scope base fields s s' (leaves ++ more) where
  grows := h.grows.trans h'.grows
  named := h'.named
  rooted := h'.rooted
  accounted leaf hleaf := by
    rcases List.mem_append.1 hleaf with hleaf | hleaf
    · exact (h.accounted leaf hleaf).later h'.grows
    · exact h'.accounted leaf hleaf

/-- A query that starts from a table and joins those of `s`, which account for its leaves. -/
structure StandsOn (scope : Scope) (base : Nat) (fields : List String) (s : JoinState) (q : Query) : Prop where
  root : q.rootName = some (tableAlias base)
  names : q.names = tableAlias base :: s.nodes.map (·.aliasName)
  plain : ∀ inner name, q.source ≠ some (.derived inner name)
  accounted : ∀ leaf ∈ q.leaves, Accounted scope base fields s leaf

namespace StandsOn

variable {scope : Scope} {base : Nat} {fields : List String} {s : JoinState} {q : Query}

theorem mem_names (h : StandsOn scope base fields s q) {name : String} : name ∈ q.names ↔ s.Stands base name := by
  simp [h.names, JoinState.Stands, eq_comm]

theorem distinct (h : StandsOn scope base fields s q) (hnamed : s.Named base) : q.names.Nodup := by
  rw [h.names, List.nodup_cons]
  refine ⟨fun hmem => ?_, hnamed.distinct⟩
  obtain ⟨node, hnode, hname⟩ := List.mem_map.1 hmem
  obtain ⟨m, hbase, -, heq⟩ := hnamed.numbered node hnode
  exact absurd (tableAlias_inj.1 (hname.symm.trans heq)) (Nat.ne_of_lt hbase)

theorem introduced (h : StandsOn scope base fields s q) (hnamed : s.Named base) {name : String}
    (hname : q.Introduces name) : ∃ m, base ≤ m ∧ m < s.next ∧ name = tableAlias m := by
  rcases hname.cases with hown | ⟨inner, hinner, hname⟩ | ⟨_, _, hinner, -⟩
  · exact (h.mem_names.1 hown).number hnamed
  · cases h.accounted _ hinner with
    | statement hbase hlast hnested _ =>
      obtain ⟨m, hle, hlt, heq⟩ := hnested.introduced name hname
      exact ⟨m, by omega, Nat.lt_of_lt_of_le hlt hlast, heq⟩
  · exact absurd hinner (h.plain _ _)

theorem wellScoped (h : StandsOn scope base fields s q) (hnamed : s.Named base) {enclosing : List String}
    (hapart : ∀ m, base ≤ m → m < s.next → tableAlias m ∉ enclosing) :
    q.WellScoped enclosing (scope.outer.map (·.name)) := by
  refine ⟨h.distinct hnamed, ?_, ?_, ?_, ?_, fun inner name hinner => absurd hinner (h.plain _ _)⟩
  · intro name hname
    obtain ⟨m, hle, hlt, rfl⟩ := (h.mem_names.1 hname).number hnamed
    exact hapart m hle hlt
  · intro c hc
    cases h.accounted _ hc with
    | own hname => exact .inl ⟨_, h.mem_names.2 hname, rfl⟩
    | outer houter _ => exact .inr ⟨_, by rw [houter]; rfl, by rw [houter]; rfl⟩
  · intro inner hinner
    cases h.accounted _ hinner with
    | statement hbase hlast hnested hother =>
      rw [h.root]
      refine hnested.wellScoped _ fun m hle hlt hmem => ?_
      rcases List.mem_append.1 hmem with hmem | hmem
      · exact hother _ (h.mem_names.1 hmem) m hle hlt rfl
      · exact hapart m (by omega) (Nat.lt_of_lt_of_le hlt hlast) hmem
  · intro inner hinner
    cases h.accounted _ hinner with
    | statement _ _ hnested _ => exact hnested.oneOuter

theorem reads (h : StandsOn scope base fields s q) (hnamed : s.Named base) {c : Sql.ColumnName} (hc : q.Reads c) :
    (∃ m, base ≤ m ∧ m < s.next ∧ c.1 = some (tableAlias m)) ∨
      ∃ o, scope.outer = some o ∧ c.1 = some o.name ∧ o.Gives fields c.2 := by
  cases hc with
  | derived hinner _ => exact absurd hinner (h.plain _ _)
  | own hc =>
    cases h.accounted _ hc with
    | own hname =>
      obtain ⟨m, hle, hlt, rfl⟩ := hname.number hnamed
      exact .inl ⟨m, hle, hlt, rfl⟩
    | outer houter hgives => exact .inr ⟨_, houter, rfl, hgives⟩

theorem isScoped (h : StandsOn scope base fields s q) (hnamed : s.Named base) :
    Scoped fields scope.outer base s.next q where
  advances := hnamed.beyond
  introduced _ hname := h.introduced hnamed hname
  wellScoped _ hapart := h.wellScoped hnamed hapart
  reads _ hc := h.reads hnamed hc

end StandsOn

/-- whether the statements of a plan are well scoped wherever they are compiled -/
def Plan.IsScoped (p : Plan) : Prop :=
  ∀ schema purpose outer next selection n, (∀ o, outer = some o → ∀ m, next ≤ m → o.name ≠ tableAlias m) →
    p.select schema purpose outer next = .ok (selection, n) → Scoped p.outerRefs outer next n selection.query

/-- a reference without aliases, to known fields of the enclosing row and to plans whose statements are well scoped -/
structure Reference.Suitable (fields : List String) (r : Reference) : Prop where
  plain : ∀ name role, r ≠ .aliased name role
  outer : ∀ name, r = .outer name → name ∈ fields
  nested : ∀ plan ∈ r.node.subplans, plan.IsScoped

/-- A nested plan reads at most one field of the row around it, and takes its names from the supply. -/
theorem nested_ok {plan : Plan} {scope : Scope}
    {select : Schema → Option Outer → Nat → Except QueryError (Selection × Nat)} {s s' : JoinState} {q : Query}
    (h : Lowering.nested plan scope select s = .ok (q, s')) :
    plan.outerRefs.length ≤ 1 ∧ ∃ selection n, select scope.schema (some scope.asOuter) s.next = .ok (selection, n) ∧
      q = selection.query ∧ s' = { s with next := n } := by
  obtain ⟨_, s₁, hcheck, hmore⟩ := Lowering.bind_ok h
  obtain ⟨hcorrelation, rfl⟩ := Lowering.liftM_ok hcheck
  obtain ⟨state, s₂, hget, hlast⟩ := Lowering.bind_ok hmore
  cases hget
  obtain ⟨⟨selection, n⟩, s₃, hselect, hset⟩ := Lowering.bind_ok hlast
  obtain ⟨hselected, rfl⟩ := Lowering.liftM_ok hselect
  cases hset
  refine ⟨?_, selection, n, hselected, rfl, rfl⟩
  by_contra hmany
  rw [Plan.checkCorrelation, if_pos (Nat.lt_of_not_le hmany)] at hcorrelation
  cases hcorrelation

theorem nested_eq {plan : Plan} {scope : Scope}
    {select : Schema → Option Outer → Nat → Except QueryError (Selection × Nat)} {s : JoinState} {selection : Selection}
    {n : Nat} (hone : plan.outerRefs.length ≤ 1)
    (h : select scope.schema (some scope.asOuter) s.next = .ok (selection, n)) :
    Lowering.nested plan scope select s = .ok (selection.query, { s with next := n }) := by
  have hcheck : (liftM plan.checkCorrelation : Lowering Unit) s = .ok ((), s) := by
    rw [Plan.checkCorrelation, if_neg (Nat.not_lt.2 hone)]
    rfl
  have hget : (get : Lowering JoinState) s = .ok (s, s) := rfl
  have hselect : (liftM (select scope.schema (some scope.asOuter) s.next) : Lowering (Selection × Nat)) s =
      .ok ((selection, n), s) := by
    rw [h]
    rfl
  rw [Lowering.nested, Lowering.bind_eq hcheck, Lowering.bind_eq hget, Lowering.bind_eq hselect]
  rfl

section Steps

variable {scope : Scope} {base : Nat} {fields : List String} {expand : Expansion}

theorem nested_advances (hqualifier : scope.qualifier = some (tableAlias base)) {plan : Plan} {purpose : Purpose}
    (hplan : plan.IsScoped) {s s' : JoinState} {q : Query} (hnamed : s.Named base) (hrooted : s.Rooted base)
    (h : Lowering.nested plan scope (fun schema outer next => plan.select schema purpose outer next) s = .ok (q, s')) :
    Advances scope base fields s s' [.statement q] := by
  obtain ⟨hone, selection, n, hselect, rfl, rfl⟩ := nested_ok h
  have hname : scope.asOuter.name = tableAlias base := by simp [Scope.asOuter, hqualifier]
  have hbeyond := hnamed.beyond
  have hscoped : Scoped plan.outerRefs (some scope.asOuter) s.next n selection.query := by
    refine hplan _ _ _ _ _ _ (fun o ho m hm => ?_) hselect
    obtain rfl := Option.some.inj ho
    rw [hname]
    exact fun heq => absurd (tableAlias_inj.1 heq) (by omega)
  have hnext := hscoped.advances
  constructor
  · exact ⟨List.prefix_rfl, Nat.le_of_lt hnext, fun node hnode => .inl ⟨node, hnode, rfl⟩⟩
  · refine ⟨Nat.lt_trans hbeyond hnext, fun node hnode => ?_, hnamed.distinct⟩
    obtain ⟨m, hfirst, hlast, hnode⟩ := hnamed.numbered node hnode
    exact ⟨m, hfirst, Nat.lt_trans hlast hnext, hnode⟩
  · exact hrooted
  · intro leaf hleaf
    obtain rfl := List.mem_singleton.1 hleaf
    refine .statement hbeyond (Nat.le_refl _) (hscoped.nested hname hbeyond hone) fun name hstands m hle hlt => ?_
    have hstood : s.Stands base name := hstands
    obtain ⟨k, -, hk, rfl⟩ := hstood.number hnamed
    exact fun heq => absurd (tableAlias_inj.1 heq) (by omega)

theorem column_advances (hqualifier : scope.qualifier = some (tableAlias base)) {ref : FieldRef} {role : Role}
    {s s' : JoinState} {x : Sql.Expr} (hnamed : s.Named base) (hrooted : s.Rooted base)
    (h : scope.column ref role s = .ok (x, s')) :
    Advances scope base fields s s' x.leaves := by
  obtain ⟨-, ⟨-, rfl, rfl⟩ | ⟨-, name, hjoin, rfl⟩⟩ := Scope.column_cases h
  · refine ⟨.refl _, hnamed, hrooted, fun leaf hleaf => ?_⟩
    rw [Scope.rootColumn, hqualifier] at hleaf
    obtain rfl := List.mem_singleton.1 hleaf
    exact .own (.inl rfl)
  · simp only [Scope.joinPath, hqualifier] at hjoin
    obtain ⟨hgrow, hnamed', -⟩ := Scope.joinHops_ok hnamed hjoin
    obtain ⟨hrooted', hstands⟩ := Scope.joinHops_rooted hrooted (.inl rfl) hjoin
    refine ⟨hgrow, hnamed', hrooted', fun leaf hleaf => ?_⟩
    obtain rfl := List.mem_singleton.1 hleaf
    exact .own hstands

/-- What resolving one reference does. -/
theorem resolve_advances (hqualifier : scope.qualifier = some (tableAlias base)) {r : Reference}
    (hr : r.Suitable fields) {s s' : JoinState} {x : Sql.Expr} (hnamed : s.Named base) (hrooted : s.Rooted base)
    (h : r.resolve scope expand s = .ok (x, s')) :
    Advances scope base fields s s' x.leaves := by
  cases r with
  | column ref role => exact column_advances hqualifier hnamed hrooted h
  | aliased name role => exact absurd rfl (hr.plain name role)
  | outer name =>
    obtain ⟨rfl, o, f, ho, hf, rfl⟩ := Scope.outerColumn_ok h
    refine ⟨.refl _, hnamed, hrooted, fun leaf hleaf => ?_⟩
    obtain rfl := List.mem_singleton.1 hleaf
    exact .outer ho ⟨name, hr.outer name rfl, f, hf, rfl⟩
  | scalar plan =>
    obtain ⟨q, hq, rfl⟩ := Lowering.bind_pure_ok h
    have hplan : plan.IsScoped := hr.nested plan (by simp [Reference.node, Expr.subplans, Expr.nodes])
    exact nested_advances hqualifier hplan hnamed hrooted hq
  | existence plan negated =>
    obtain ⟨q, hq, rfl⟩ := Lowering.bind_pure_ok h
    have hplan : plan.IsScoped := hr.nested plan (by simp [Reference.node, Expr.subplans, Expr.nodes])
    exact nested_advances hqualifier hplan hnamed hrooted hq

theorem resolves_advance (hqualifier : scope.qualifier = some (tableAlias base)) {rs : List Reference}
    (hrs : ∀ r ∈ rs, r.Suitable fields) {s s' : JoinState} {leaves : List Leaf} (hnamed : s.Named base)
    (hrooted : s.Rooted base)
    (h : Resolves scope expand rs s s' leaves) : Advances scope base fields s s' leaves := by
  induction h with
  | nil => exact ⟨.refl _, hnamed, hrooted, by simp⟩
  | cons hr _ ih =>
    have hfirst := resolve_advances hqualifier (hrs _ (by simp)) hnamed hrooted hr
    exact hfirst.append (ih (fun r hr => hrs r (by simp [hr])) hfirst.named hfirst.rooted)

end Steps

/-! ## Statements -/

namespace Plan

variable {p : Plan}

/-- What a plan takes from its statement suits it when the plans nested in it are well scoped. -/
theorem suitable_sources (hnested : ∀ inner ∈ p.subplans, inner.IsScoped) {outputs : List Output} {r : Reference}
    (h : r ∈ (p.items outputs).flatMap fun item => p.sources item.1 item.2) : r.Suitable p.outerRefs := by
  obtain ⟨hplain, hnode⟩ := of_mem_sources h
  refine ⟨hplain, ?_, ?_⟩
  · rintro name rfl
    rcases hnode with ⟨ref, role, hcolumn⟩ | ⟨e, he, hnode⟩
    · cases hcolumn
    · rw [outerRefs, List.mem_eraseDups]
      exact List.mem_flatMap.2 ⟨e, he, List.mem_filterMap.2 ⟨_, hnode, rfl⟩⟩
  · intro plan hplan
    rcases hnode with ⟨ref, role, rfl⟩ | ⟨e, he, hnode⟩
    · simp [Reference.node, Expr.subplans, Expr.nodes] at hplan
    · refine hnested plan (List.mem_flatMap.2 ⟨e, he, List.mem_filterMap.2 ⟨r.node, hnode, ?_⟩⟩)
      cases r with
      | scalar other | existence other negated =>
        obtain rfl : plan = other := by simpa [Reference.node, Expr.subplans, Expr.nodes] using hplan
        rfl
      | column | aliased | outer => simp [Reference.node, Expr.subplans, Expr.nodes] at hplan

/-- The query of a plan whose leaves the final tables account for is scoped. -/
theorem query_scoped {schema : Schema} {outer : Option Outer} {outputs : List Output} {next : Nat} {final : JoinState}
    {results conditions keys : List Sql.Expr}
    (h : Advances (.ofSelect schema p.root (tableAlias next) outer) next p.outerRefs { next := next + 1 } final
      ((results ++ conditions ++ keys).flatMap Sql.Expr.leaves)) :
    Scoped p.outerRefs outer next final.next
      (p.query (.ofSelect schema p.root (tableAlias next) outer) outputs final.joins results conditions keys) := by
  have hstands : StandsOn (.ofSelect schema p.root (tableAlias next) outer) next p.outerRefs final
      (p.query (.ofSelect schema p.root (tableAlias next) outer) outputs final.joins results conditions keys) := by
    refine ⟨rfl, ?_, fun _ _ => by simp [query], fun leaf hleaf => ?_⟩
    · simp [Query.names, Query.rootName, query, Sql.Source.name, Scope.rootTable, Scope.ofSelect, Sql.TableRef.name,
        JoinState.joins]
    · rcases mem_query_leaves hleaf with ⟨join, hjoin, hon⟩ | hcompiled
      · -- the condition of a join compares a column of its parent with one of its own
        obtain ⟨node, hnode, rfl⟩ := List.mem_map.1 hjoin
        rcases List.mem_append.1 hon with hparent | hself
        · obtain rfl := List.mem_singleton.1 hparent
          exact .own (h.rooted node hnode)
        · obtain rfl := List.mem_singleton.1 hself
          exact .own (.inr ⟨node, hnode, rfl⟩)
      · exact h.accounted leaf hcompiled
  exact hstands.isScoped h.named

/-- The statement of a plan's rows is scoped when the plans nested in it are. -/
theorem rows_scoped (hnested : ∀ inner ∈ p.subplans, inner.IsScoped) {schema : Schema} {purpose : Purpose}
    (hpurpose : purpose = .rows ∨ purpose = .scalar) {outer : Option Outer} {next n : Nat} {selection : Selection}
    (h : p.select schema purpose outer next = .ok (selection, n)) :
    Scoped p.outerRefs outer next n selection.query := by
  obtain ⟨outputs, final, -, hclauses, -, rfl⟩ := select_ok hpurpose h
  obtain ⟨results, conditions, keys, -, -, -, hlower, hquery⟩ := lowerClauses_ok hclauses
  have hresolves := lowerAll_resolves (fun _ name => throw (.unknownPath p.root.name name)) hlower
  rw [hquery]
  refine query_scoped (resolves_advance rfl (fun r hr => suitable_sources hnested hr) (.init next) ?_ hresolves)
  intro node hnode
  cases hnode

theorem leaves_of_reduced {purpose : Purpose} {column : Sql.Expr} (h : purpose.reduced = some column) :
    column.leaves = [] := by
  cases purpose with
  | rows | scalar => cases h
  | existence | count =>
    obtain rfl := Option.some.inj h
    rfl

/-- Reduced to one column that reads nothing, a statement is part of what it was, or stands around such a part. -/
theorem reduceTo_parts {column : Sql.Expr} (hcolumn : column.leaves = []) (wrap paged : Bool) (q : Query) (n : Nat) :
    ∃ inner : Query, inner.Part q ∧
      ((wrap = true ∧ reduceTo column wrap paged q n = .around column inner (tableAlias n)) ∨
        (wrap = false ∧ (reduceTo column wrap paged q n).Part inner)) := by
  obtain ⟨inner, hinner⟩ : ∃ inner, inner = if paged then q else q.unordered := ⟨_, rfl⟩
  refine ⟨inner, ?_, ?_⟩
  · rw [hinner]
    split
    · exact .of_expressions rfl rfl fun e he => .inr he
    · refine .of_expressions rfl rfl fun e he => .inr ?_
      rw [Query.expressions, Query.unordered, List.map_nil, List.append_nil] at he
      exact List.mem_append_left _ he
  · cases wrap with
    | true =>
      refine .inl ⟨rfl, ?_⟩
      rw [hinner]
      rfl
    | false =>
      have hr : reduceTo column false paged q n = { inner with select := [⟨column, none⟩] } := by
        rw [hinner]
        rfl
      refine .inr ⟨rfl, hr ▸ .of_expressions rfl rfl fun e he => ?_⟩
      simp only [Query.expressions, List.mem_append, List.map_cons, List.map_nil, List.mem_singleton] at he ⊢
      rcases he with ((((rfl | he) | he) | he) | he) | he
      · exact .inl hcolumn
      all_goals simp [he]

/-- Reduced to one column that reads nothing, a statement stays scoped. -/
theorem reduceTo_scoped {outer : Option Outer} {next n : Nat} {q : Query} {column : Sql.Expr}
    (hcolumn : column.leaves = []) (h : Scoped p.outerRefs outer next n q) :
    Scoped p.outerRefs outer next (n + p.isWrapped.toNat) (reduceTo column p.isWrapped p.isPaged q n) := by
  obtain ⟨inner, hpart, ⟨hwrap, hr⟩ | ⟨hwrap, hkept⟩⟩ := reduceTo_parts hcolumn p.isWrapped p.isPaged q n
  · rw [hr, hwrap]
    exact (h.of_part hpart).around hcolumn
  · have hscoped := h.of_part (hkept.trans hpart)
    simpa [hwrap] using hscoped

/-- Whatever a plan is compiled to is scoped when the plans nested in it are. -/
theorem select_scoped (hnested : ∀ inner ∈ p.subplans, inner.IsScoped) {schema : Schema} {purpose : Purpose}
    {outer : Option Outer} {next n : Nat} {selection : Selection}
    (h : p.select schema purpose outer next = .ok (selection, n)) :
    Scoped p.outerRefs outer next n selection.query := by
  cases hcolumn : purpose.reduced with
  | none =>
    have hpurpose : purpose = .rows ∨ purpose = .scalar := by cases purpose <;> simp_all [Purpose.reduced]
    exact rows_scoped hnested hpurpose h
  | some column =>
    rw [select_reduced schema hcolumn] at h
    cases hrows : p.select schema .rows outer next with
    | error failure => rw [hrows] at h; cases h
    | ok selected =>
      rw [hrows] at h
      obtain ⟨rfl, rfl⟩ := Prod.mk.inj (Except.ok.inj h)
      exact reduceTo_scoped (leaves_of_reduced hcolumn) (rows_scoped hnested (.inl rfl) hrows)

/-- Every statement of every plan is scoped, by induction on the plans nested in it. -/
theorem isScoped (p : Plan) : p.IsScoped := by
  induction p using induction_subplans with
  | step p hnested => exact fun _ _ _ _ _ _ _ h => select_scoped hnested h

/-- A statement is scoped inside every row, also one whose table is named like a table of its own. -/
theorem scoped_anywhere {schema : Schema} {purpose : Purpose} {outer : Option Outer} {next n : Nat}
    {selection : Selection} (h : p.select schema purpose outer next = .ok (selection, n)) :
    Scoped p.outerRefs outer next n selection.query :=
  select_scoped (fun inner _ => inner.isScoped) h

/-- The statement of a batch reads columns of its one table only. -/
theorem batch_wellScoped {schema : Schema} {root : Entity} {primary : List OutputColumn} {name : String}
    {fetch : BatchFetch} (h : BatchFetch.ofRelation schema root primary name = .ok fetch) (keys : List Value) :
    (fetch.queryFor keys).WellScoped [] none := by
  obtain ⟨target, column, hquery, hkey⟩ : ∃ target column, fetch.query = BatchFetch.allRows target ∧
      fetch.keyColumn = .columnOf BatchFetch.rowAlias column := by
    obtain ⟨relation, -, h⟩ := ok_of_bind h
    obtain ⟨target, -, h⟩ := ok_of_bind h
    obtain ⟨localIndex, -, h⟩ := ok_of_bind h
    obtain ⟨keyIndex, -, h⟩ := ok_of_bind h
    obtain rfl := Except.ok.inj h
    exact ⟨target, relation.remoteColumn, rfl, rfl⟩
  have hkeys : Sql.listLeaves (keys.map .param) = [] := by
    induction keys with
    | nil => rfl
    | cons key rest ih =>
      rw [List.map_cons, Sql.listLeaves, ih]
      rfl
  have hleaf : ∀ leaf ∈ (fetch.queryFor keys).leaves, ∃ column, leaf = .column (some BatchFetch.rowAlias, column) := by
    intro leaf hleaf
    rw [BatchFetch.queryFor, hquery, hkey] at hleaf
    obtain ⟨e, he, hmem⟩ := List.mem_flatMap.1 hleaf
    simp only [Query.expressions, BatchFetch.allRows, Query.selecting, List.map_map, List.map_nil, List.append_nil,
      Option.toList_some, Option.toList_none, List.map_cons, List.mem_append, List.mem_map, List.mem_singleton] at he
    rcases he with (⟨f, -, rfl⟩ | rfl) | rfl
    · exact ⟨f.name, List.mem_singleton.1 hmem⟩
    · rcases List.mem_append.1 hmem with hmem | hmem
      · exact ⟨column, List.mem_singleton.1 hmem⟩
      · rw [hkeys] at hmem
        cases hmem
    · exact ⟨target.primaryKey, List.mem_singleton.1 hmem⟩
  have hnames : (fetch.queryFor keys).names = [BatchFetch.rowAlias] := by
    rw [BatchFetch.queryFor, hquery]
    rfl
  have hsource : ∀ inner name, (fetch.queryFor keys).source ≠ some (.derived inner name) := by
    rw [BatchFetch.queryFor, hquery]
    simp [BatchFetch.allRows]
  refine ⟨by simp [hnames], by simp, fun c hc => ?_, fun inner hinner => ?_, fun inner hinner => ?_,
    fun inner name hinner => absurd hinner (hsource inner name)⟩
  · obtain ⟨column, heq⟩ := hleaf _ hc
    injection heq with heq
    exact .inl ⟨BatchFetch.rowAlias, by simp [hnames], by rw [heq]⟩
  · obtain ⟨column, heq⟩ := hleaf _ hinner
    cases heq
  · obtain ⟨column, heq⟩ := hleaf _ hinner
    cases heq

/-- the blog of the entry around it -/
def sampleInnerPlan : Plan :=
  { ofEntity sampleBlog with
    filters := [.binary .eq (.field ⟨"blog", "id", [], ⟨"id", .int, false⟩⟩) (.outer "blog_id")] }

/-- the different entries that have a blog, the more highly rated first -/
def sampleNestedPlan : Plan :=
  { ofEntity sampleEntry with
    filters := [.existsRow sampleInnerPlan false]
    ordering := [⟨.field sampleRating, .desc⟩]
    distinct := true }

end Plan

end RelQuery
