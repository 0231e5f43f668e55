/-
One plan compiled twice.

What a plan nested in a statement means does not depend on the statement: compiled for two statements whose rows are of
one entity, it gives the same rows wherever both hold the same row open to it (`Plan.isSteady`), although its tables are
numbered otherwise. The expressions of a plan, too, read the same in two statements that see the same rows on the paths
which both of them join (`lowerAll_agrees`); one of the two may be an UPDATE or DELETE, which joins nothing.
-/
import RelQuery.Proofs.Sql.Alike
import RelQuery.Proofs.Statement.Counting
import RelQuery.Proofs.Statement.Layout

namespace RelQuery

open Sql (Query Frame Context)

/-! ## Two statements -/

/-- where expressions are compiled: the tables of a statement, and the first number of the supply that they or the
statements nested in it may be named by -/
structure Site where
  scope : Scope
  base : Nat

namespace Site

/-- Table names are given out in order, and none of those to come is that of the root table. -/
structure Tidy (site : Site) (s : JoinState) : Prop where
  begun : site.base ≤ s.next
  numbered : ∀ node ∈ s.nodes, ∃ m, m < s.next ∧ node.aliasName = tableAlias m
  apart : ∀ m, s.next ≤ m → site.scope.asOuter.name ≠ tableAlias m

/-- The numbers given to nested statements name no table in scope. -/
def Clear (site : Site) (s : JoinState) (f : Frame) : Prop :=
  ∀ m, site.base ≤ m → m < s.next → site.scope.asOuter.name ≠ tableAlias m →
    (∀ node ∈ s.nodes, node.aliasName ≠ tableAlias m) → f (some (tableAlias m)) = none

/-- statements over rows of one entity, within rows of one entity -/
structure Twins (a b : Site) : Prop where
  schema : a.scope.schema = b.scope.schema
  root : a.scope.root = b.scope.root
  outer : ∀ o o', a.scope.outer = some o → b.scope.outer = some o' → o.entity = o'.entity

variable {a : Site} {s s' : JoinState}

theorem Tidy.touch (h : a.Tidy s) (path : List String) (kind : Sql.JoinKind) (parent : String) (relation : Relation)
    (table : String) : a.Tidy (s.touch path kind parent relation table).2 := by
  rcases JoinState.touch_cases s path kind parent relation table with ⟨found, -, heq⟩ | ⟨-, heq⟩
  · rw [heq]
    refine ⟨h.begun, fun node hnode => ?_, h.apart⟩
    have hplace : node.place ∈ s.nodes.map JoinNode.place := by
      rw [← JoinState.map_place_strengthen path kind s.nodes]
      exact List.mem_map_of_mem hnode
    obtain ⟨earlier, hearlier, hsame⟩ := List.mem_map.1 hplace
    obtain ⟨m, hm, hname⟩ := h.numbered earlier hearlier
    exact ⟨m, hm, (JoinNode.place_eq.1 hsame).2.1.symm.trans hname⟩
  · rw [heq]
    refine ⟨Nat.le_succ_of_le h.begun, fun node hnode => ?_, fun m hm => h.apart m (Nat.le_of_succ_le hm)⟩
    rcases List.mem_append.1 hnode with hnode | hnode
    · obtain ⟨m, hm, hname⟩ := h.numbered node hnode
      exact ⟨m, Nat.lt_succ_of_lt hm, hname⟩
    · obtain rfl := List.mem_singleton.1 hnode
      exact ⟨s.next, Nat.lt_succ_self _, rfl⟩

theorem Tidy.joinHops {role : Role} {hops : List Relation} {owner : Entity} {parent name : String}
    {path : List String} {outerJoined : Bool} (htidy : a.Tidy s)
    (h : a.scope.joinHops role hops owner parent path outerJoined s = .ok (name, s')) :
    s.Extends s' ∧ a.Tidy s' ∧
      (hops ≠ [] → ∃ node ∈ s'.nodes, node.path = path ++ hops.map (·.name) ∧ node.aliasName = name) :=
  Scope.joinHops_keeps (fun path kind parent relation table hs => hs.touch path kind parent relation table) htidy h

end Site

/-- Rows in scope of two statements: the same at the root and in the enclosing row, and at the paths that both join. -/
structure Meets (a b : Site) (s t : JoinState) (f g : Frame) : Prop where
  root : f a.scope.qualifier = g b.scope.qualifier
  opened : f (some a.scope.asOuter.name) = g (some b.scope.asOuter.name)
  joined : ∀ node ∈ s.nodes, ∀ other ∈ t.nodes, node.path = other.path →
    f (some node.aliasName) = g (some other.aliasName)
  outer : ∀ o o', a.scope.outer = some o → b.scope.outer = some o' → f (some o.name) = g (some o'.name)
  clear : a.Clear s f
  clear' : b.Clear t g

/-- contexts of two statements that hold the same rows, those of the group one by one -/
structure MeetsIn (a b : Site) (s t : JoinState) (c c' : Context) : Prop where
  frame : Meets a b s t c.frame c'.frame
  group : List.Forall₂ (Meets a b s t) c.group c'.group

/-- Compiled in two statements, something reads the same from contexts that hold the same rows, however the tables
grow afterwards. -/
structure Agrees {α : Type} (a b : Site) (s s' t t' : JoinState) (read read' : Context → α) : Prop where
  grows : s.Extends s'
  tidy : a.Tidy s'
  grows' : t.Extends t'
  tidy' : b.Tidy t'
  same : ∀ u v, s'.Extends u → t'.Extends v → ∀ c c', MeetsIn a b u v c c' → read c = read' c'

namespace Agrees

variable {α β : Type} {a b : Site} {s s₁ s' t t₁ t' : JoinState} {read read' : Context → α}

theorem const (hs : a.Tidy s) (ht : b.Tidy t) (value : α) : Agrees a b s s t t (fun _ => value) fun _ => value :=
  ⟨.refl s, hs, .refl t, ht, fun _ _ _ _ _ _ _ => rfl⟩

theorem map (f : α → β) (h : Agrees a b s s' t t' read read') :
    Agrees a b s s' t t' (fun c => f (read c)) fun c => f (read' c) :=
  ⟨h.grows, h.tidy, h.grows', h.tidy', fun u v hu hv c c' hc => congrArg f (h.same u v hu hv c c' hc)⟩

theorem both {other other' : Context → β} (h : Agrees a b s s₁ t t₁ read read')
    (h' : Agrees a b s₁ s' t₁ t' other other') :
    Agrees a b s s' t t' (fun c => (read c, other c)) fun c => (read' c, other' c) where
  grows := h.grows.trans h'.grows
  tidy := h'.tidy
  grows' := h.grows'.trans h'.grows'
  tidy' := h'.tidy'
  same u v hu hv c c' hc := by
    rw [h.same u v (h'.grows.trans hu) (h'.grows'.trans hv) c c' hc, h'.same u v hu hv c c' hc]

/-- what is read from each row of the group -/
theorem overGroup (h : Agrees a b s s' t t' read read') :
    Agrees a b s s' t t' (fun c => c.group.map fun f => read (.ofFrame f))
      fun c => c.group.map fun f => read' (.ofFrame f) := by
  refine ⟨h.grows, h.tidy, h.grows', h.tidy', fun u v hu hv c c' hc => ?_⟩
  obtain ⟨f, group⟩ := c
  obtain ⟨g, group'⟩ := c'
  have hgroup : List.Forall₂ (Meets a b u v) group group' := hc.group
  clear hc
  induction hgroup with
  | nil => rfl
  | cons hfirst _ ih => exact congrArg₂ List.cons (h.same u v hu hv _ _ ⟨hfirst, .nil⟩) ih

end Agrees

/-! ## References -/

/-- Nested in two statements over rows of one entity, a plan gives the same rows where both hold the same row open. -/
def Plan.Steady (db : Sql.Database) (p : Plan) : Prop :=
  ∀ schema purpose (o o' : Outer) n n' selection selection' m m', purpose = .scalar ∨ purpose = .existence →
    o.entity = o'.entity → (∀ k, n ≤ k → o.name ≠ tableAlias k) → (∀ k, n' ≤ k → o'.name ≠ tableAlias k) →
    p.select schema purpose (some o) n = .ok (selection, m) →
    p.select schema purpose (some o') n' = .ok (selection', m') →
    ∀ f g : Frame, f (some o.name) = g (some o'.name) → (∀ k, n ≤ k → k < m → f (some (tableAlias k)) = none) →
      (∀ k, n' ≤ k → k < m' → g (some (tableAlias k)) = none) →
      selection.query.eval db f = selection'.query.eval db g

section References

variable {db : Sql.Database} {a b : Site} {s s' t t' : JoinState} {x y : Sql.Expr}

theorem column_agrees {ref : FieldRef} {role role' : Role} (hs : a.Tidy s) (ht : b.Tidy t)
    (h : a.scope.column ref role s = .ok (x, s')) (h' : b.scope.column ref role' t = .ok (y, t')) :
    Agrees a b s s' t t' (x.eval db) (y.eval db) := by
  have hjoined : ∀ {site : Site} {role name s s'}, site.Tidy s → site.scope.joinPath ref.hops role s = .ok (name, s') →
      ref.hops ≠ [] → s.Extends s' ∧ site.Tidy s' ∧
        ∃ node ∈ s'.nodes, node.path = ref.hops.map (·.name) ∧ node.aliasName = name := by
    intro site role name s s' htidy hjoin hfar
    cases hqualifier : site.scope.qualifier with
    | none =>
      simp only [Scope.joinPath, hqualifier] at hjoin
      cases hjoin
    | some aliasName =>
      simp only [Scope.joinPath, hqualifier] at hjoin
      obtain ⟨hgrow, htidy', hnode⟩ := htidy.joinHops hjoin
      exact ⟨hgrow, htidy', by simpa using hnode hfar⟩
  obtain ⟨-, ⟨hlocal, rfl, rfl⟩ | ⟨hfar, name, hjoin, rfl⟩⟩ := Scope.column_cases h
  · obtain ⟨-, ⟨-, rfl, rfl⟩ | ⟨hfar, -⟩⟩ := Scope.column_cases h'
    · refine ⟨.refl _, hs, .refl _, ht, fun u v _ _ c c' hc => ?_⟩
      simp only [Scope.rootColumn, Sql.Expr.eval, hc.frame.root]
    · exact absurd hlocal hfar
  · obtain ⟨-, ⟨hlocal, -⟩ | ⟨-, name', hjoin', rfl⟩⟩ := Scope.column_cases h'
    · exact absurd hlocal hfar
    · obtain ⟨hgrow, htidy, node, hnode, hpath, rfl⟩ := hjoined hs hjoin hfar
      obtain ⟨hgrow', htidy', other, hother, hpath', rfl⟩ := hjoined ht hjoin' hfar
      refine ⟨hgrow, htidy, hgrow', htidy', fun u v hu hv c c' hc => ?_⟩
      obtain ⟨later, hlater, hplace⟩ := hu.node hnode
      obtain ⟨later', hlater', hplace'⟩ := hv.node hother
      obtain ⟨hsame, halias, -⟩ := JoinNode.place_eq.1 hplace
      obtain ⟨hsame', halias', -⟩ := JoinNode.place_eq.1 hplace'
      have hpaths : later.path = later'.path := by rw [hsame, hsame', hpath, hpath']
      simp only [Sql.Expr.columnOf, Sql.Expr.eval, ← halias, ← halias', hc.frame.joined _ hlater _ hlater' hpaths]

theorem outerColumn_agrees (htwins : a.Twins b) {name : String} (hs : a.Tidy s) (ht : b.Tidy t)
    (h : a.scope.outerColumn name s = .ok (x, s')) (h' : b.scope.outerColumn name t = .ok (y, t')) :
    Agrees a b s s' t t' (x.eval db) (y.eval db) := by
  obtain ⟨rfl, o, f, ho, hf, rfl⟩ := Scope.outerColumn_ok h
  obtain ⟨rfl, o', f', ho', hf', rfl⟩ := Scope.outerColumn_ok h'
  refine ⟨.refl _, hs, .refl _, ht, fun u v _ _ c c' hc => ?_⟩
  rw [htwins.outer o o' ho ho', hf'] at hf
  obtain rfl := Option.some.inj hf
  simp only [Sql.Expr.columnOf, Sql.Expr.eval, hc.frame.outer o o' ho ho']

/-- A nested statement takes names from the supply and joins nothing. -/
theorem Site.Tidy.nested (hs : a.Tidy s) {plan : Plan} {purpose : Purpose} {selection : Selection} {n : Nat}
    (h : plan.select a.scope.schema purpose (some a.scope.asOuter) s.next = .ok (selection, n)) :
    s.Extends { s with next := n } ∧ a.Tidy { s with next := n } := by
  have hscoped := plan.scoped_anywhere h
  have hnext := hscoped.advances
  refine ⟨⟨List.prefix_rfl, Nat.le_of_lt hnext, fun node hnode => .inl ⟨node, hnode, rfl⟩⟩,
    Nat.le_trans hs.begun (Nat.le_of_lt hnext), fun node hnode => ?_,
    fun m hm => hs.apart m (Nat.le_trans (Nat.le_of_lt hnext) hm)⟩
  obtain ⟨m, hm, hname⟩ := hs.numbered node hnode
  exact ⟨m, Nat.lt_trans hm hnext, hname⟩

theorem nested_agrees (htwins : a.Twins b) {plan : Plan} {purpose : Purpose} (hplan : plan.Steady db)
    (hpurpose : purpose = .scalar ∨ purpose = .existence) {q q' : Query} (hs : a.Tidy s) (ht : b.Tidy t)
    (h : Lowering.nested plan a.scope (fun schema outer next => plan.select schema purpose outer next) s = .ok (q, s'))
    (h' : Lowering.nested plan b.scope (fun schema outer next => plan.select schema purpose outer next) t =
      .ok (q', t')) :
    Agrees a b s s' t t' (fun c => q.eval db c.frame) fun c => q'.eval db c.frame := by
  have hclear : ∀ {site : Site} {s n u f}, site.Tidy s → JoinState.Extends { s with next := n } u → site.Clear u f →
      ∀ k, s.next ≤ k → k < n → f (some (tableAlias k)) = none := by
    intro site s n u f htidy hu hclear k hle hlt
    refine hclear k (Nat.le_trans htidy.begun hle) (Nat.lt_of_lt_of_le hlt hu.next) (htidy.apart k hle) ?_
    -- a join has its name from before the nested statement, or from after it
    intro node hnode hname
    rcases hu.fresh node hnode with ⟨earlier, hearlier, hsame⟩ | ⟨m, hm, hfresh⟩
    · obtain ⟨m, hm, hold⟩ := htidy.numbered earlier hearlier
      have hk := tableAlias_inj.1 (hold.symm.trans (hsame.trans hname))
      omega
    · have hn : n ≤ m := hm
      have hk := tableAlias_inj.1 (hfresh.symm.trans hname)
      omega
  obtain ⟨-, selection, n, hselect, rfl, rfl⟩ := nested_ok h
  obtain ⟨-, selection', n', hselect', rfl, rfl⟩ := nested_ok h'
  obtain ⟨hgrow, htidy⟩ := hs.nested hselect
  obtain ⟨hgrow', htidy'⟩ := ht.nested hselect'
  refine ⟨hgrow, htidy, hgrow', htidy', fun u v hu hv c c' hc => ?_⟩
  rw [← htwins.schema] at hselect'
  exact hplan _ _ _ _ _ _ _ _ _ _ hpurpose htwins.root hs.apart ht.apart hselect hselect' _ _ hc.frame.opened
    (hclear hs hu hc.frame.clear) (hclear ht hv hc.frame.clear')

end References

/-! ## Expressions -/

section Expressions

variable {db : Sql.Database} {a b : Site} {expand expand' : Expansion}

/-- What compiling a part of an expression twice relies on: plans nested in it are steady, and an alias is compiled to
things that agree. -/
structure Matched (db : Sql.Database) (a b : Site) (expand expand' : Expansion) (node : Expr) : Prop where
  nested : ∀ plan, node = .correlated plan ∨ (∃ negated, node = .existsRow plan negated) → plan.Steady db
  expands : ∀ {name}, node = .aliasRef name → ∀ {role role' s s' t t' x y}, a.Tidy s → b.Tidy t →
    expand role name s = .ok (x, s') → expand' role' name t = .ok (y, t') →
    Agrees a b s s' t t' (x.eval db) (y.eval db)

mutual

theorem Expr.lower_agrees (htwins : a.Twins b) : (e : Expr) →
    (∀ node ∈ e.nodes, Matched db a b expand expand' node) →
    ∀ {role role' s s' t t' x y}, a.Tidy s → b.Tidy t → e.lower a.scope expand role s = .ok (x, s') →
    e.lower b.scope expand' role' t = .ok (y, t') → Agrees a b s s' t t' (x.eval db) (y.eval db)
  | .field ref, _, _, _, s, s', t, t', x, y, hs, ht, h, h' => column_agrees hs ht h h'
  | .aliasRef name, hparts, _, _, s, s', t, t', x, y, hs, ht, h, h' =>
    (hparts _ (Expr.mem_nodes_self _)).expands rfl hs ht h h'
  | .literal v, _, _, _, s, s', t, t', x, y, hs, ht, h, h' => by
    obtain ⟨rfl, rfl⟩ := Lowering.pure_ok.1 h
    obtain ⟨rfl, rfl⟩ := Lowering.pure_ok.1 h'
    exact .const hs ht v
  | .binary op left right, hparts, _, _, s, s', t, t', x, y, hs, ht, h, h' => by
    obtain ⟨-, hleft, hright⟩ := forall_mem_cons_append.1 hparts
    obtain ⟨l, r, s₁, hl, hr, rfl⟩ := Lowering.bind₂_pure_ok h
    obtain ⟨l', r', t₁, hl', hr', rfl⟩ := Lowering.bind₂_pure_ok h'
    have hl := Expr.lower_agrees htwins left hleft hs ht hl hl'
    have hr := Expr.lower_agrees htwins right hright hl.tidy hl.tidy' hr hr'
    exact (hl.both hr).map fun values => op.toSql.apply db.toOperators values.1 values.2
  | .and operands, hparts, _, _, s, s', t, t', x, y, hs, ht, h, h' => by
    obtain ⟨-, hoperands⟩ := List.forall_mem_cons.1 hparts
    obtain ⟨es, hes, rfl⟩ := Lowering.bind_pure_ok h
    obtain ⟨es', hes', rfl⟩ := Lowering.bind_pure_ok h'
    have h := (lowerList_agrees htwins operands hoperands hs ht hes hes').map db.allOf
    simpa only [← connect_and_eval] using h
  | .or operands, hparts, _, _, s, s', t, t', x, y, hs, ht, h, h' => by
    obtain ⟨-, hoperands⟩ := List.forall_mem_cons.1 hparts
    obtain ⟨es, hes, rfl⟩ := Lowering.bind_pure_ok h
    obtain ⟨es', hes', rfl⟩ := Lowering.bind_pure_ok h'
    have h := (lowerList_agrees htwins operands hoperands hs ht hes hes').map db.anyOf
    simpa only [← connect_or_eval] using h
  | .not operand, hparts, _, _, s, s', t, t', x, y, hs, ht, h, h' => by
    obtain ⟨-, hoperand⟩ := List.forall_mem_cons.1 hparts
    obtain ⟨e, he, rfl⟩ := Lowering.bind_pure_ok h
    obtain ⟨e', he', rfl⟩ := Lowering.bind_pure_ok h'
    exact (Expr.lower_agrees htwins operand hoperand hs ht he he').map fun v => (db.truth v).not.toValue
  | .isNull operand negated, hparts, _, _, s, s', t, t', x, y, hs, ht, h, h' => by
    obtain ⟨-, hoperand⟩ := List.forall_mem_cons.1 hparts
    obtain ⟨e, he, rfl⟩ := Lowering.bind_pure_ok h
    obtain ⟨e', he', rfl⟩ := Lowering.bind_pure_ok h'
    exact (Expr.lower_agrees htwins operand hoperand hs ht he he').map fun v => Value.bool (v.isNull != negated)
  | .inList operand values negated, hparts, _, _, s, s', t, t', x, y, hs, ht, h, h' => by
    obtain ⟨-, hoperand, hvalues⟩ := forall_mem_cons_append.1 hparts
    obtain ⟨e, es, s₁, he, hes, rfl⟩ := Lowering.bind₂_pure_ok h
    obtain ⟨e', es', t₁, he', hes', rfl⟩ := Lowering.bind₂_pure_ok h'
    have he := Expr.lower_agrees htwins operand hoperand hs ht he he'
    have hes := lowerList_agrees htwins values hvalues he.tidy he.tidy' hes hes'
    exact (he.both hes).map fun pair => ((db.member pair.1 pair.2).negateIf negated).toValue
  | .case [] none, _, _, _, s, s', t, t', x, y, hs, ht, h, h' => by
    obtain ⟨rfl, rfl⟩ := Lowering.pure_ok.1 h
    obtain ⟨rfl, rfl⟩ := Lowering.pure_ok.1 h'
    exact .const hs ht Value.null
  | .case [] (some otherwise), hparts, _, _, s, s', t, t', x, y, hs, ht, h, h' => by
    obtain ⟨-, -, hotherwise⟩ := forall_mem_cons_append.1 hparts
    exact Expr.lower_agrees htwins otherwise hotherwise hs ht h h'
  | .case (arm :: arms) none, hparts, _, _, s, s', t, t', x, y, hs, ht, h, h' => by
    obtain ⟨-, harms, -⟩ := forall_mem_cons_append.1 hparts
    obtain ⟨ws, hws, rfl⟩ := Lowering.bind_pure_ok h
    obtain ⟨ws', hws', rfl⟩ := Lowering.bind_pure_ok h'
    exact (lowerArms_agrees htwins (arm :: arms) harms hs ht hws hws').map fun choice => choice Value.null
  | .case (arm :: arms) (some otherwise), hparts, _, _, s, s', t, t', x, y, hs, ht, h, h' => by
    obtain ⟨-, harms, hotherwise⟩ := forall_mem_cons_append.1 hparts
    obtain ⟨ws, e, s₁, hws, he, rfl⟩ := Lowering.bind₂_pure_ok h
    obtain ⟨ws', e', t₁, hws', he', rfl⟩ := Lowering.bind₂_pure_ok h'
    have hws := lowerArms_agrees htwins (arm :: arms) harms hs ht hws hws'
    have he := Expr.lower_agrees htwins otherwise hotherwise hws.tidy hws.tidy' he he'
    exact (hws.both he).map fun pair => pair.1 pair.2
  | .aggregate function none distinct, _, _, _, s, s', t, t', x, y, hs, ht, h, h' => by
    obtain ⟨rfl, rfl⟩ := Lowering.pure_ok.1 h
    obtain ⟨rfl, rfl⟩ := Lowering.pure_ok.1 h'
    exact (Agrees.const hs ht [Value.bool true]).overGroup.map (db.call function.sqlName distinct)
  | .aggregate function (some arg) distinct, hparts, _, _, s, s', t, t', x, y, hs, ht, h, h' => by
    obtain ⟨-, harg⟩ := List.forall_mem_cons.1 hparts
    obtain ⟨e, he, rfl⟩ := Lowering.bind_pure_ok h
    obtain ⟨e', he', rfl⟩ := Lowering.bind_pure_ok h'
    have he := (Expr.lower_agrees htwins arg harg hs ht he he').map fun v => [v]
    exact he.overGroup.map (db.call function.sqlName distinct)
  | .outer name, _, _, _, s, s', t, t', x, y, hs, ht, h, h' => outerColumn_agrees htwins hs ht h h'
  | .correlated plan, hparts, _, _, s, s', t, t', x, y, hs, ht, h, h' => by
    obtain ⟨q, hq, rfl⟩ := Lowering.bind_pure_ok h
    obtain ⟨q', hq', rfl⟩ := Lowering.bind_pure_ok h'
    have hplan := (hparts _ (Expr.mem_nodes_self _)).nested plan (.inl rfl)
    exact (nested_agrees htwins hplan (.inl rfl) hs ht hq hq').map fun rows =>
      (rows.head?.map Sql.firstValue).getD .null
  | .existsRow plan negated, hparts, _, _, s, s', t, t', x, y, hs, ht, h, h' => by
    obtain ⟨q, hq, rfl⟩ := Lowering.bind_pure_ok h
    obtain ⟨q', hq', rfl⟩ := Lowering.bind_pure_ok h'
    have hplan := (hparts _ (Expr.mem_nodes_self _)).nested plan (.inr ⟨negated, rfl⟩)
    exact (nested_agrees htwins hplan (.inr rfl) hs ht hq hq').map fun rows => Value.bool (rows.isEmpty == negated)
termination_by structural e => e

theorem lowerList_agrees (htwins : a.Twins b) : (es : List Expr) →
    (∀ node ∈ Expr.nodesOfList es, Matched db a b expand expand' node) →
    ∀ {role role' s s' t t' xs ys}, a.Tidy s → b.Tidy t → lowerList es a.scope expand role s = .ok (xs, s') →
    lowerList es b.scope expand' role' t = .ok (ys, t') →
    Agrees a b s s' t t' (Sql.evalList db xs) (Sql.evalList db ys)
  | [], _, _, _, s, s', t, t', xs, ys, hs, ht, h, h' => by
    obtain ⟨rfl, rfl⟩ := Lowering.pure_ok.1 h
    obtain ⟨rfl, rfl⟩ := Lowering.pure_ok.1 h'
    exact .const hs ht []
  | e :: rest, hparts, _, _, s, s', t, t', xs, ys, hs, ht, h, h' => by
    obtain ⟨hfirst, hrest⟩ := List.forall_mem_append.1 hparts
    obtain ⟨x, xs, s₁, hx, hxs, rfl⟩ := Lowering.bind₂_pure_ok h
    obtain ⟨y, ys, t₁, hy, hys, rfl⟩ := Lowering.bind₂_pure_ok h'
    have hx := Expr.lower_agrees htwins e hfirst hs ht hx hy
    have hxs := lowerList_agrees htwins rest hrest hx.tidy hx.tidy' hxs hys
    exact (hx.both hxs).map fun pair => pair.1 :: pair.2
termination_by structural es => es

theorem lowerArms_agrees (htwins : a.Twins b) : (arms : List (Expr × Expr)) →
    (∀ node ∈ Expr.nodesOfArms arms, Matched db a b expand expand' node) →
    ∀ {role role' s s' t t' ws vs}, a.Tidy s → b.Tidy t → lowerArms arms a.scope expand role s = .ok (ws, s') →
    lowerArms arms b.scope expand' role' t = .ok (vs, t') →
    Agrees a b s s' t t' (Sql.evalArms db ws) (Sql.evalArms db vs)
  | [], _, _, _, s, s', t, t', ws, vs, hs, ht, h, h' => by
    obtain ⟨rfl, rfl⟩ := Lowering.pure_ok.1 h
    obtain ⟨rfl, rfl⟩ := Lowering.pure_ok.1 h'
    exact .const hs ht fun otherwise => otherwise
  | (test, result) :: rest, hparts, _, _, s, s', t, t', ws, vs, hs, ht, h, h' => by
    obtain ⟨harm, hrest⟩ := List.forall_mem_append.1 hparts
    obtain ⟨htest, hresult⟩ := List.forall_mem_append.1 harm
    obtain ⟨x, r, more, s₁, s₂, hx, hr, hws, rfl⟩ := Lowering.bind₃_pure_ok h
    obtain ⟨y, r', more', t₁, t₂, hy, hr', hvs, rfl⟩ := Lowering.bind₃_pure_ok h'
    have hx := Expr.lower_agrees htwins test htest hs ht hx hy
    have hr := Expr.lower_agrees htwins result hresult hx.tidy hx.tidy' hr hr'
    have hws := lowerArms_agrees htwins rest hrest hr.tidy hr.tidy' hws hvs
    exact (hx.both (hr.both hws)).map fun parts otherwise =>
      (db.truth parts.1).choose parts.2.1 (parts.2.2 otherwise)
termination_by structural arms => arms

end

end Expressions

end RelQuery
