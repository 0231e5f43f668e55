/-
Expressions compiled in two statements, up to the names of tables.

What is compiled in one statement compiles in another over the same entity, and gives the same there once the tables are
renamed (`Mirrors`). A renaming has to take the tables of the one statement to those of the other (`Carries`); the names
given to the statements nested in an expression it has to take pair by pair, and these names are no others
(`Renamed.same`). So what is compiled in one order in one statement may be compiled in another order in the other.
- `column_mirrors`, `nested_mirrors`: a column, and a statement nested in an expression.
- `Expr.lower_mirrors`: one case for each kind of expression, by induction on it.
-/
import RelQuery.Proofs.Sql.Renaming
import RelQuery.Proofs.Statement.Twins

namespace RelQuery

open Sql (Query OneToOne Follows)

/-! ## Names given out -/

/-- a name that the supply gives out from one number to another -/
def GivenOut (m n : Nat) (name : String) : Prop := ∃ k, m ≤ k ∧ k < n ∧ name = tableAlias k

theorem GivenOut.next (n : Nat) : GivenOut n (n + 1) (tableAlias n) := ⟨n, Nat.le_refl n, Nat.lt_succ_self n, rfl⟩

theorem GivenOut.ne {m n m' n' : Nat} {name other : String} (h : GivenOut m n name) (h' : GivenOut m' n' other)
    (hle : n ≤ m') : name ≠ other := by
  rintro rfl
  obtain ⟨k, -, hlt, hname⟩ := h
  obtain ⟨k', hle', -, hname'⟩ := h'
  have := tableAlias_inj.1 (hname.symm.trans hname')
  omega

theorem GivenOut.widen {m n m' n' : Nat} {name : String} (h : GivenOut m n name) (hm : m' ≤ m) (hn : n ≤ n') :
    GivenOut m' n' name := by
  obtain ⟨k, hle, hlt, hname⟩ := h
  exact ⟨k, Nat.le_trans hm hle, Nat.lt_of_lt_of_le hlt hn, hname⟩

namespace JoinState

/-- a name given out between two states of the tables, but to no join -/
structure Spent (s s' : JoinState) (name : String) : Prop where
  given : GivenOut s.next s'.next name
  unjoined : ∀ node ∈ s'.nodes, node.aliasName ≠ name

/-- A name that no join was given when it was given out is given to no join later. -/
theorem Spent.widen {s s₁ s₂ s' : JoinState} {name : String} (h : s₁.Spent s₂ name) (hle : s.next ≤ s₁.next)
    (hgrow : s₂.Extends s') : s.Spent s' name := by
  refine ⟨h.given.widen hle hgrow.next, fun node hnode hname => ?_⟩
  obtain ⟨k, -, hlt, hgiven⟩ := h.given
  rcases hgrow.fresh node hnode with ⟨earlier, hearlier, hsame⟩ | ⟨m, hm, hfresh⟩
  · exact h.unjoined earlier hearlier (hsame.trans hname)
  · have := tableAlias_inj.1 (hfresh.symm.trans (hname.trans hgiven))
    omega

end JoinState

/-! ## Two statements -/

/-- statements over rows of one entity, within rows of one entity or by themselves -/
structure Site.Copies (a b : Site) : Prop where
  schema : a.scope.schema = b.scope.schema
  root : a.scope.root = b.scope.root
  outer : a.scope.outer.map (·.entity) = b.scope.outer.map (·.entity)
  qualified : a.scope.qualifier.isSome = b.scope.qualifier.isSome

/-- The renaming takes the tables of one statement to those of another: the root, the table open to it, and the join of
each path that both join. -/
structure Carries (ρ : String → String) (a b : Site) (s t : JoinState) : Prop where
  root : a.scope.qualifier.map ρ = b.scope.qualifier
  opened : ρ a.scope.asOuter.name = b.scope.asOuter.name
  outer : ∀ o o', a.scope.outer = some o → b.scope.outer = some o' → ρ o.name = o'.name
  joined : ∀ node ∈ s.nodes, ∀ other ∈ t.nodes, node.path = other.path → ρ node.aliasName = other.aliasName

theorem Carries.before {ρ : String → String} {a b : Site} {s s' t t' : JoinState} (h : Carries ρ a b s' t')
    (hs : s.Extends s') (ht : t.Extends t') : Carries ρ a b s t := by
  refine ⟨h.root, h.opened, h.outer, fun node hnode other hother hpath => ?_⟩
  obtain ⟨later, hlater, hplace⟩ := hs.node hnode
  obtain ⟨later', hlater', hplace'⟩ := ht.node hother
  obtain ⟨hsame, halias, -⟩ := JoinNode.place_eq.1 hplace
  obtain ⟨hsame', halias', -⟩ := JoinNode.place_eq.1 hplace'
  rw [← halias, ← halias']
  exact h.joined later hlater later' hlater' (by rw [hsame, hsame', hpath])

/-- Compiled between two states of the tables of one statement and between two of another, something is the same once
it is renamed: by every renaming that takes the tables to each other and follows pairs of names spent in between. -/
structure Renamed {α : Type} (a b : Site) (s s' t t' : JoinState) (read : (String → String) → α) (y : α) : Prop where
  grows : s.Extends s'
  tidy : a.Tidy s'
  grows' : t.Extends t'
  tidy' : b.Tidy t'
  same : ∃ pairs, OneToOne pairs ∧ (∀ pair ∈ pairs, s.Spent s' pair.1 ∧ t.Spent t' pair.2) ∧
    ∀ ρ, Carries ρ a b s' t' → Follows ρ pairs → read ρ = y

namespace Renamed

variable {α β : Type} {a b : Site} {s s₁ s' t t₁ t₂ t₃ t₄ t' : JoinState} {read : (String → String) → α}
  {y : α} {other : (String → String) → β} {z : β}

theorem of_carries (hs : s.Extends s') (ht : t.Extends t') (htidy : a.Tidy s') (htidy' : b.Tidy t')
    (h : ∀ ρ, Carries ρ a b s' t' → read ρ = y) : Renamed a b s s' t t' read y :=
  ⟨hs, htidy, ht, htidy', [], .nil, nofun, fun ρ hcarries _ => h ρ hcarries⟩

theorem map (f : α → β) (h : Renamed a b s s' t t' read y) : Renamed a b s s' t t' (fun ρ => f (read ρ)) (f y) := by
  obtain ⟨pairs, hpairs, hspent, hsame⟩ := h.same
  exact ⟨h.grows, h.tidy, h.grows', h.tidy', pairs, hpairs, hspent, fun ρ hcarries hfollows =>
    congrArg f (hsame ρ hcarries hfollows)⟩

theorem congr {read' : (String → String) → α} {y' : α} (h : Renamed a b s s' t t' read y)
    (hread : ∀ ρ, read ρ = read' ρ) (hy : y = y') : Renamed a b s s' t t' read' y' := by
  rwa [← hy, ← funext hread]

/-- Two parts compiled one after the other in one statement are renamed by one renaming when the other statement spends
no name on both. -/
theorem join (h : Renamed a b s s₁ t₁ t₂ read y) (h' : Renamed a b s₁ s' t₃ t₄ other z) (ht : t.Extends t')
    (htidy' : b.Tidy t') (hstart : t.next ≤ t₁.next) (hend : t₂.Extends t') (hstart' : t.next ≤ t₃.next)
    (hend' : t₄.Extends t') (hapart : t₂.next ≤ t₃.next ∨ t₄.next ≤ t₁.next) :
    Renamed a b s s' t t' (fun ρ => (read ρ, other ρ)) (y, z) := by
  obtain ⟨pairs, hpairs, hspent, hsame⟩ := h.same
  obtain ⟨more, hmore, hspent', hsame'⟩ := h'.same
  refine ⟨h.grows.trans h'.grows, h'.tidy, ht, htidy', pairs ++ more,
    hpairs.append hmore fun pair hpair pair' hpair' => ⟨?_, ?_⟩, fun pair hpair => ?_, fun ρ hcarries hfollows => ?_⟩
  · exact (hspent pair hpair).1.given.ne (hspent' pair' hpair').1.given (Nat.le_refl _)
  · rcases hapart with hle | hle
    · exact (hspent pair hpair).2.given.ne (hspent' pair' hpair').2.given hle
    · exact ((hspent' pair' hpair').2.given.ne (hspent pair hpair).2.given hle).symm
  · rcases List.mem_append.1 hpair with hpair | hpair
    · exact ⟨(hspent pair hpair).1.widen (Nat.le_refl _) h'.grows, (hspent pair hpair).2.widen hstart hend⟩
    · exact ⟨(hspent' pair hpair).1.widen h.grows.next (.refl s'), (hspent' pair hpair).2.widen hstart' hend'⟩
  · obtain ⟨hfollows, hfollows'⟩ := Sql.follows_append.1 hfollows
    rw [hsame ρ (hcarries.before h'.grows hend) hfollows, hsame' ρ (hcarries.before (.refl s') hend') hfollows']

/-- two parts compiled one after the other in both statements -/
theorem both (h : Renamed a b s s₁ t t₁ read y) (h' : Renamed a b s₁ s' t₁ t' other z) :
    Renamed a b s s' t t' (fun ρ => (read ρ, other ρ)) (y, z) :=
  h.join h' (h.grows'.trans h'.grows') h'.tidy' (Nat.le_refl _) h'.grows' h.grows'.next (.refl t') (.inl (Nat.le_refl _))

/-- two parts compiled in one order in one statement, and in the other order in the other -/
theorem crossed (h : Renamed a b s s₁ t₁ t' read y) (h' : Renamed a b s₁ s' t t₁ other z) :
    Renamed a b s s' t t' (fun ρ => (read ρ, other ρ)) (y, z) :=
  h.join h' (h'.grows'.trans h.grows') h.tidy' h'.grows'.next (.refl t') (Nat.le_refl _) h.grows' (.inr (Nat.le_refl _))

end Renamed

/-- Where a computation succeeds in one statement another succeeds in the other statement, whatever is joined there, and
gives the same once it is renamed. -/
def Mirrors {α : Type} (a b : Site) (rename : (String → String) → α → α) (act act' : Lowering α) : Prop :=
  ∀ (s t : JoinState) (x : α) (s' : JoinState), a.Tidy s → b.Tidy t → act s = .ok (x, s') →
    ∃ y t', act' t = .ok (y, t') ∧ Renamed a b s s' t t' (fun ρ => rename ρ x) y

namespace Mirrors

variable {α β γ : Type} {a b : Site} {renameA : (String → String) → α → α} {renameB : (String → String) → β → β}
  {renameC : (String → String) → γ → γ} {act act' : Lowering α} {next next' : Lowering β}

theorem const (x : α) (hx : ∀ ρ, renameA ρ x = x) : Mirrors a b renameA (pure x) (pure x) := by
  intro s t y s' hs ht h
  obtain ⟨rfl, rfl⟩ := Lowering.pure_ok.1 h
  exact ⟨x, t, rfl, .of_carries (.refl s) (.refl t) hs ht fun ρ _ => hx ρ⟩

theorem map (f : α → β) (hf : ∀ ρ x, renameB ρ (f x) = f (renameA ρ x)) (h : Mirrors a b renameA act act') :
    Mirrors a b renameB (do let x ← act; return f x) (do let x ← act'; return f x) := by
  intro s t z s' hs ht hz
  obtain ⟨x, hx, rfl⟩ := Lowering.bind_pure_ok hz
  obtain ⟨y, t', hy, hrenamed⟩ := h s t x s' hs ht hx
  refine ⟨f y, t', Lowering.bind_eq hy _, ?_⟩
  simp only [hf]
  exact hrenamed.map f

theorem map₂ (f : α → β → γ) (hf : ∀ ρ x y, renameC ρ (f x y) = f (renameA ρ x) (renameB ρ y))
    (h : Mirrors a b renameA act act') (h' : Mirrors a b renameB next next') :
    Mirrors a b renameC (do let x ← act; let y ← next; return f x y)
      (do let x ← act'; let y ← next'; return f x y) := by
  intro s t z s' hs ht hz
  obtain ⟨x, y, s₁, hx, hy, rfl⟩ := Lowering.bind₂_pure_ok hz
  obtain ⟨x', t₁, hx', hfirst⟩ := h s t x s₁ hs ht hx
  obtain ⟨y', t', hy', hsecond⟩ := h' s₁ t₁ y s' hfirst.tidy hfirst.tidy' hy
  refine ⟨f x' y', t', (Lowering.bind_eq hx' _).trans (Lowering.bind_eq hy' _), ?_⟩
  simp only [hf]
  exact (hfirst.both hsecond).map fun pair => f pair.1 pair.2

end Mirrors

/-! ## References -/

section References

variable {a b : Site}

/-- Whether the hops of a path can be joined does not depend on what is joined already. -/
theorem joinHops_again {scope scope' : Scope} (hschema : scope.schema = scope'.schema) {role : Role} :
    {hops : List Relation} → {owner : Entity} → {parent name : String} → {path : List String} → {outerJoined : Bool} →
    {s s' : JoinState} → scope.joinHops role hops owner parent path outerJoined s = .ok (name, s') →
    ∀ (parent' : String) (t : JoinState), ∃ name' t',
      scope'.joinHops role hops owner parent' path outerJoined t = .ok (name', t')
  | [], _, _, _, _, _, _, _, _, parent', t => ⟨parent', t, rfl⟩
  | relation :: rest, owner, parent, name, path, outerJoined, s, s', h, parent', t => by
    obtain ⟨target, kind, htarget, rfl, hrest⟩ := Scope.joinHops_cons_ok h
    rw [hschema] at htarget
    obtain ⟨name', t', hmore⟩ := joinHops_again hschema hrest
      (t.touch (path ++ [relation.name]) (if outerJoined then .left else joinKind role relation owner) parent' relation
        target.table).1
      (t.touch (path ++ [relation.name]) (if outerJoined then .left else joinKind role relation owner) parent' relation
        target.table).2
    refine ⟨name', t', ?_⟩
    rw [Scope.joinHops, htarget]
    exact hmore

theorem column_mirrors (hcopies : a.Copies b) (ref : FieldRef) (role : Role) :
    Mirrors a b Sql.Expr.rename (a.scope.column ref role) (b.scope.column ref role) := by
  intro s t x s' hs ht h
  obtain ⟨hroot, ⟨hlocal, rfl, rfl⟩ | ⟨hfar, name, hjoin, rfl⟩⟩ := Scope.column_cases h
  · refine ⟨b.scope.rootColumn ref.column, t, ?_, .of_carries (.refl _) (.refl t) hs ht fun ρ hcarries => ?_⟩
    · simp only [Scope.column, ← hcopies.root, hroot, ne_eq, not_true_eq_false, if_false, FieldRef.isLocal, hlocal]
      rfl
    · simp only [Scope.rootColumn, Sql.Expr.rename, hcarries.root]
  · obtain ⟨first, hfirst⟩ : ∃ first, a.scope.qualifier = some first := by
      cases hqualifier : a.scope.qualifier with
      | some first => exact ⟨first, rfl⟩
      | none =>
        simp only [Scope.joinPath, hqualifier] at hjoin
        cases hjoin
    obtain ⟨first', hfirst'⟩ : ∃ first', b.scope.qualifier = some first' :=
      Option.isSome_iff_exists.1 (by rw [← hcopies.qualified, hfirst]; rfl)
    simp only [Scope.joinPath, hfirst] at hjoin
    obtain ⟨name', t', hjoin'⟩ := joinHops_again hcopies.schema hjoin first' t
    obtain ⟨hgrow, htidy, hnode⟩ := hs.joinHops hjoin
    rw [hcopies.root] at hjoin'
    obtain ⟨hgrow', htidy', hnode'⟩ := ht.joinHops hjoin'
    refine ⟨.columnOf name' ref.column, t', ?_, .of_carries hgrow hgrow' htidy htidy' fun ρ hcarries => ?_⟩
    · have hfar' : ref.isLocal = false := by simpa [FieldRef.isLocal] using hfar
      simp only [Scope.column, ← hcopies.root, hroot, ne_eq, not_true_eq_false, if_false, hfar', Bool.false_eq_true,
        Scope.joinPath, hfirst']
      rw [hcopies.root]
      exact Lowering.bind_eq hjoin' _
    · obtain ⟨node, hmem, hpath, rfl⟩ := hnode hfar
      obtain ⟨other, hother, hpath', rfl⟩ := hnode' hfar
      have hname := hcarries.joined node hmem other hother (hpath.trans hpath'.symm)
      simp only [Sql.Expr.columnOf, Sql.Expr.rename, Option.map_some, hname]

theorem outerColumn_mirrors (hcopies : a.Copies b) (name : String) :
    Mirrors a b Sql.Expr.rename (a.scope.outerColumn name) (b.scope.outerColumn name) := by
  intro s t x s' hs ht h
  obtain ⟨rfl, o, f, ho, hf, rfl⟩ := Scope.outerColumn_ok h
  obtain ⟨o', ho', hentity⟩ : ∃ o', b.scope.outer = some o' ∧ o'.entity = o.entity := by
    have houter := hcopies.outer
    rw [ho, Option.map_some] at houter
    exact Option.map_eq_some_iff.1 houter.symm
  refine ⟨.columnOf o'.name f.name, t, ?_, .of_carries (.refl _) (.refl t) hs ht fun ρ hcarries => ?_⟩
  · simp only [Scope.outerColumn, ho', hentity, hf]
    rfl
  · simp only [Sql.Expr.columnOf, Sql.Expr.rename, Option.map_some, hcarries.outer o o' ho ho']

/-- Nested in two statements over rows of one entity, a plan that compiles in one compiles in the other, and its queries
are the same once the row open to the one is renamed, and each name given out for the one as its counterpart. -/
def Plan.Copied (p : Plan) : Prop :=
  ∀ schema purpose (o o' : Outer) n n' selection m, purpose = .scalar ∨ purpose = .existence → o.entity = o'.entity →
    (∀ k, n ≤ k → o.name ≠ tableAlias k) → (∀ k, n' ≤ k → o'.name ≠ tableAlias k) →
    p.select schema purpose (some o) n = .ok (selection, m) →
    ∃ selection' m', p.select schema purpose (some o') n' = .ok (selection', m') ∧
      ∃ pairs, OneToOne pairs ∧ (∀ pair ∈ pairs, GivenOut n m pair.1 ∧ GivenOut n' m' pair.2) ∧
        ∀ ρ, ρ o.name = o'.name → Follows ρ pairs → selection.query.rename ρ = selection'.query

theorem nested_mirrors (hcopies : a.Copies b) {plan : Plan} {purpose : Purpose} (hplan : plan.Copied)
    (hpurpose : purpose = .scalar ∨ purpose = .existence) :
    Mirrors a b Query.rename
      (Lowering.nested plan a.scope fun schema outer next => plan.select schema purpose outer next)
      (Lowering.nested plan b.scope fun schema outer next => plan.select schema purpose outer next) := by
  intro s t q s' hs ht h
  obtain ⟨hone, selection, n, hselect, rfl, rfl⟩ := nested_ok h
  obtain ⟨selection', n', hselect', pairs, hpairs, hgiven, hsame⟩ :=
    hplan _ _ _ _ _ _ _ _ hpurpose hcopies.root hs.apart ht.apart hselect
  rw [hcopies.schema] at hselect'
  obtain ⟨hgrow, htidy⟩ := hs.nested hselect
  obtain ⟨hgrow', htidy'⟩ := ht.nested hselect'
  have hspent : ∀ {site : Site} {s : JoinState} {n name}, site.Tidy s → GivenOut s.next n name →
      s.Spent { s with next := n } name := by
    intro site s n name htidy hgiven
    refine ⟨hgiven, fun node hnode hname => ?_⟩
    obtain ⟨k, hle, -, hk⟩ := hgiven
    obtain ⟨m, hm, hnumber⟩ := htidy.numbered node hnode
    have := tableAlias_inj.1 (hnumber.symm.trans (hname.trans hk))
    omega
  refine ⟨selection'.query, { t with next := n' }, nested_eq hone hselect', hgrow, htidy, hgrow', htidy', pairs, hpairs,
    fun pair hpair => ⟨hspent hs (hgiven pair hpair).1, hspent ht (hgiven pair hpair).2⟩, fun ρ hcarries hfollows => ?_⟩
  exact hsame ρ hcarries.opened hfollows

end References

/-! ## Expressions -/

section Expressions

variable {a b : Site} {expand expand' : Expansion}

theorem connect_rename (ρ : String → String) (op : Sql.BinaryOp) (neutral : Int64) (es : List Sql.Expr) :
    (connect op neutral es).rename ρ = connect op neutral (Sql.renameList ρ es) := by
  rw [Sql.renameList_eq]
  cases es with
  | nil => rfl
  | cons e rest => exact Sql.foldl_binary_rename op rest e

/-- What compiling a part of an expression in two statements relies on: plans nested in it are copied, and an alias is
compiled alike. -/
structure Copied (a b : Site) (expand expand' : Expansion) (node : Expr) : Prop where
  nested : ∀ plan, node = .correlated plan ∨ (∃ negated, node = .existsRow plan negated) → plan.Copied
  expands : ∀ name, node = .aliasRef name → ∀ role, Mirrors a b Sql.Expr.rename (expand role name) (expand' role name)

mutual

theorem Expr.lower_mirrors (hcopies : a.Copies b) : (e : Expr) →
    (∀ node ∈ e.nodes, Copied a b expand expand' node) → ∀ (role : Role),
    Mirrors a b Sql.Expr.rename (e.lower a.scope expand role) (e.lower b.scope expand' role)
  | .field ref, _, role => column_mirrors hcopies ref role
  | .aliasRef name, hparts, role => (hparts _ (Expr.mem_nodes_self _)).expands name rfl role
  | .literal v, _, role => .const (Sql.Expr.param v) fun _ => rfl
  | .binary op left right, hparts, role => by
    obtain ⟨-, hleft, hright⟩ := forall_mem_cons_append.1 hparts
    exact (left.lower_mirrors hcopies hleft role).map₂ (Sql.Expr.binary op.toSql) (fun _ _ _ => rfl)
      (right.lower_mirrors hcopies hright role)
  | .and operands, hparts, role => by
    obtain ⟨-, hoperands⟩ := List.forall_mem_cons.1 hparts
    exact (lowerList_mirrors hcopies operands hoperands role).map (connect .and 1) fun ρ => connect_rename ρ .and 1
  | .or operands, hparts, role => by
    obtain ⟨-, hoperands⟩ := List.forall_mem_cons.1 hparts
    exact (lowerList_mirrors hcopies operands hoperands role.weakened).map (connect .or 0) fun ρ => connect_rename ρ .or 0
  | .not operand, hparts, role => by
    obtain ⟨-, hoperand⟩ := List.forall_mem_cons.1 hparts
    exact (operand.lower_mirrors hcopies hoperand role.weakened).map Sql.Expr.not fun _ _ => rfl
  | .isNull operand negated, hparts, role => by
    obtain ⟨-, hoperand⟩ := List.forall_mem_cons.1 hparts
    exact (operand.lower_mirrors hcopies hoperand role.weakened).map (Sql.Expr.isNull · negated) fun _ _ => rfl
  | .inList operand values negated, hparts, role => by
    obtain ⟨-, hoperand, hvalues⟩ := forall_mem_cons_append.1 hparts
    exact (operand.lower_mirrors hcopies hoperand _).map₂ (Sql.Expr.inList · · negated) (fun _ _ _ => rfl)
      (lowerList_mirrors hcopies values hvalues _)
  | .case [] none, _, role => .const (Sql.Expr.param .null) fun _ => rfl
  | .case [] (some otherwise), hparts, role => by
    obtain ⟨-, -, hotherwise⟩ := forall_mem_cons_append.1 hparts
    exact otherwise.lower_mirrors hcopies hotherwise role.weakened
  | .case (arm :: arms) none, hparts, role => by
    obtain ⟨-, harms, -⟩ := forall_mem_cons_append.1 hparts
    exact (lowerArms_mirrors hcopies (arm :: arms) harms role.weakened).map (Sql.Expr.case · none) fun _ _ => rfl
  | .case (arm :: arms) (some otherwise), hparts, role => by
    obtain ⟨-, harms, hotherwise⟩ := forall_mem_cons_append.1 hparts
    exact (lowerArms_mirrors hcopies (arm :: arms) harms role.weakened).map₂ (fun ws e => Sql.Expr.case ws (some e))
      (fun _ _ _ => rfl) (otherwise.lower_mirrors hcopies hotherwise role.weakened)
  | .aggregate function none distinct, _, role => .const (Sql.Expr.call function.sqlName [.star none] distinct) fun _ => rfl
  | .aggregate function (some arg) distinct, hparts, role => by
    obtain ⟨-, harg⟩ := List.forall_mem_cons.1 hparts
    exact (arg.lower_mirrors hcopies harg role.aggregated).map (fun e => Sql.Expr.call function.sqlName [e] distinct)
      fun _ _ => rfl
  | .outer name, _, role => outerColumn_mirrors hcopies name
  | .correlated plan, hparts, role => by
    have hplan := (hparts _ (Expr.mem_nodes_self _)).nested plan (.inl rfl)
    exact (nested_mirrors hcopies hplan (.inl rfl)).map Sql.Expr.subquery fun _ _ => rfl
  | .existsRow plan negated, hparts, role => by
    have hplan := (hparts _ (Expr.mem_nodes_self _)).nested plan (.inr ⟨negated, rfl⟩)
    exact (nested_mirrors hcopies hplan (.inr rfl)).map (Sql.Expr.existsRow · negated) fun _ _ => rfl
termination_by structural e => e

theorem lowerList_mirrors (hcopies : a.Copies b) : (es : List Expr) →
    (∀ node ∈ Expr.nodesOfList es, Copied a b expand expand' node) → ∀ (role : Role),
    Mirrors a b Sql.renameList (lowerList es a.scope expand role) (lowerList es b.scope expand' role)
  | [], _, role => .const [] fun _ => rfl
  | e :: rest, hparts, role => by
    obtain ⟨hfirst, hrest⟩ := List.forall_mem_append.1 hparts
    exact (e.lower_mirrors hcopies hfirst role).map₂ List.cons (fun _ _ _ => rfl)
      (lowerList_mirrors hcopies rest hrest role)
termination_by structural es => es

theorem lowerArms_mirrors (hcopies : a.Copies b) : (arms : List (Expr × Expr)) →
    (∀ node ∈ Expr.nodesOfArms arms, Copied a b expand expand' node) → ∀ (role : Role),
    Mirrors a b Sql.renameArms (lowerArms arms a.scope expand role) (lowerArms arms b.scope expand' role)
  | [], _, role => .const [] fun _ => rfl
  | (test, result) :: rest, hparts, role => by
    obtain ⟨harm, hrest⟩ := List.forall_mem_append.1 hparts
    obtain ⟨htest, hresult⟩ := List.forall_mem_append.1 harm
    have harm : Mirrors a b (fun ρ (arm : Sql.Expr × Sql.Expr) => (arm.1.rename ρ, arm.2.rename ρ)) _ _ :=
      (test.lower_mirrors hcopies htest role).map₂ Prod.mk (fun _ _ _ => rfl)
        (result.lower_mirrors hcopies hresult role)
    have h : Mirrors a b Sql.renameArms _ _ :=
      harm.map₂ List.cons (fun _ _ _ => rfl) (lowerArms_mirrors hcopies rest hrest role)
    simpa only [lowerArms, bind_assoc, pure_bind] using h
termination_by structural arms => arms

end

end Expressions

end RelQuery
