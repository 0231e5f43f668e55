/-
Compiled expressions that tell no rows of a group apart.

The fields that an expression of a plan reads outside its aggregates (`Expr.bareFields`) are all that its compiled form
depends on there: aliases followed, choices entered, and the columns counted in that a nested statement reads of the row
around it. So when they are in a key, rows with the same key give the compiled expression, and each of its parts without
aggregates, one value (`Definite`).
- `column_definite`, `nested_definite`: a column, and a statement nested in an expression.
- `Expr.lower_definite`: one case for each kind of expression, by induction on it.
- `Plan.compiled_definite`: the aliases included, by induction on the alias steps.
- `Plan.plainField_column`: an expression that comes down to a field is compiled to its column.
-/
import RelQuery.Proofs.Sql.Dependence
import RelQuery.Proofs.Statement.Steady

namespace RelQuery

open Sql (Frame Leaf Query)

/-! ## Rows with the same key -/

/-- choices of rows that do not differ in the fields of a key -/
def PathRows.SameIn (key : List String) (rows rows' : PathRows) : Prop :=
  ∀ ref : FieldRef, ref.Undotted → ref.key ∈ key →
    cell (rows (ref.hops.map (·.name))) ref.column = cell (rows' (ref.hops.map (·.name))) ref.column

/-- rows in scope of a statement that do not differ in the fields of a key -/
def Scope.SameIn (scope : Scope) (key : List String) (enclosing : Frame) (tables : JoinState) (f g : Frame) : Prop :=
  ∃ rows rows' : PathRows, rows.SameIn key rows' ∧ f = scope.frame tables.nodes rows enclosing ∧
    g = scope.frame tables.nodes rows' enclosing

/-- tables that have grown in good order -/
structure Grows (base : Nat) (s s' : JoinState) : Prop where
  grows : s.Extends s'
  named : s'.Named base
  rooted : s'.Rooted base

/-- Compiled between two states of the tables, leaves that do not tell apart rows with the same key. -/
structure Definite (db : Sql.Database) (scope : Scope) (base : Nat) (key : List String) (s s' : JoinState)
    (leaves : List Leaf) : Prop extends Grows base s s' where
  same : ∀ tables, s'.Extends tables → tables.Named base → ∀ enclosing, ∀ leaf ∈ leaves,
    leaf.Same db (scope.SameIn key enclosing tables)

section Compiling

variable {db : Sql.Database} {scope : Scope} {base : Nat} {key : List String} {s s₁ s' : JoinState}

theorem Grows.refl (hnamed : s.Named base) (hrooted : s.Rooted base) : Grows base s s := ⟨.refl s, hnamed, hrooted⟩

theorem Grows.trans (h : Grows base s s₁) (h' : Grows base s₁ s') : Grows base s s' :=
  ⟨h.grows.trans h'.grows, h'.named, h'.rooted⟩

theorem Definite.nil (h : Grows base s s') : Definite db scope base key s s' [] := ⟨h, fun _ _ _ _ => nofun⟩

theorem Definite.append {leaves more : List Leaf} (h : Definite db scope base key s s₁ leaves)
    (h' : Definite db scope base key s₁ s' more) : Definite db scope base key s s' (leaves ++ more) := by
  refine ⟨h.toGrows.trans h'.toGrows, fun tables htables hnamed enclosing leaf hleaf => ?_⟩
  rcases List.mem_append.1 hleaf with hleaf | hleaf
  · exact h.same tables (h'.grows.trans htables) hnamed enclosing leaf hleaf
  · exact h'.same tables htables hnamed enclosing leaf hleaf

/-! ## References -/

theorem column_definite (hscope : scope.Numbered base) {ref : FieldRef} (href : ref.Undotted) (hkey : ref.key ∈ key)
    {role : Role} {x : Sql.Expr} (hnamed : s.Named base) (hrooted : s.Rooted base)
    (h : scope.column ref role s = .ok (x, s')) : Definite db scope base key s s' x.bareLeaves := by
  have hadvances : Advances scope base [] s s' x.leaves := column_advances hscope.qualifier hnamed hrooted h
  refine ⟨⟨hadvances.grows, hadvances.named, hadvances.rooted⟩, ?_⟩
  rintro tables htables hfinal enclosing leaf hleaf
  have hvalue : ∀ rows : PathRows, x.eval db (scope.context rows enclosing tables []) =
      cell (rows (ref.hops.map (·.name))) ref.column := fun rows =>
    (Scope.column_compiles hscope hnamed h).reads tables htables hfinal []
  obtain ⟨table, hx⟩ : ∃ table, x = .column table ref.column := by
    obtain ⟨-, ⟨-, rfl, -⟩ | ⟨-, name, -, rfl⟩⟩ := Scope.column_cases h
    · exact ⟨scope.qualifier, rfl⟩
    · exact ⟨some name, rfl⟩
  rw [hx] at hleaf hvalue
  obtain rfl := List.mem_singleton.1 hleaf
  rintro f g ⟨rows, rows', hsame, rfl, rfl⟩
  exact (hvalue rows).trans ((hsame ref href hkey).trans (hvalue rows').symm)

theorem outerColumn_definite (hscope : scope.Numbered base) {name : String} {x : Sql.Expr} (hnamed : s.Named base)
    (hrooted : s.Rooted base) (h : scope.outerColumn name s = .ok (x, s')) :
    Definite db scope base key s s' x.bareLeaves := by
  obtain ⟨rfl, o, f, ho, hf, rfl⟩ := Scope.outerColumn_ok h
  refine ⟨.refl hnamed hrooted, fun tables _ hfinal enclosing leaf hleaf => ?_⟩
  obtain rfl := List.mem_singleton.1 hleaf
  rintro f g ⟨rows, rows', -, rfl, rfl⟩
  simp only [Scope.frame_enclosing _ _ hscope hfinal ho]

/-- A nested plan takes its names from the supply, and reads fields of the row around it. -/
theorem nested_scoped {plan : Plan} {purpose : Purpose} {q : Query}
    (h : Lowering.nested plan scope (fun schema outer next => plan.select schema purpose outer next) s = .ok (q, s')) :
    s' = { s with next := s'.next } ∧ Scoped plan.outerRefs (some scope.asOuter) s.next s'.next q := by
  obtain ⟨-, selection, n, hselect, rfl, rfl⟩ := nested_ok h
  exact ⟨rfl, plan.scoped_anywhere hselect⟩

/-- the columns that a plan reads of the row around it -/
def Plan.outerColumns (root : Entity) (plan : Plan) : List String :=
  plan.outerRefs.filterMap fun name => (root.field name).map (·.name)

/-- The names that a nested statement takes are those of no table, before it or after it. -/
theorem nested_apart (hstate : s' = { s with next := s'.next }) (hnamed : s.Named base) {tables : JoinState}
    (htables : s'.Extends tables) {m : Nat} (hle : s.next ≤ m) (hlt : m < s'.next) :
    tableAlias m ∉ tableAlias base :: tables.nodes.map (·.aliasName) := by
  have hbeyond := hnamed.beyond
  intro hmem
  rcases List.mem_cons.1 hmem with heq | hmem
  · have := tableAlias_inj.1 heq
    omega
  · obtain ⟨node, hnode, heq⟩ := List.mem_map.1 hmem
    rcases htables.fresh node hnode with ⟨earlier, hearlier, hold⟩ | ⟨k, hk, hnew⟩
    · rw [hstate] at hearlier
      obtain ⟨k, -, hk, hnumber⟩ := hnamed.numbered earlier hearlier
      have := tableAlias_inj.1 (hnumber.symm.trans (hold.trans heq))
      omega
    · have := tableAlias_inj.1 (hnew.symm.trans heq)
      omega

/-- What a nested statement reads of the table around it is a field that its plan asks for. -/
theorem nested_reads (hscope : scope.Numbered base) {plan : Plan} {q : Query} (hnamed : s.Named base)
    (hscoped : Scoped plan.outerRefs (some scope.asOuter) s.next s'.next q) {c : Sql.ColumnName} (hc : q.Reads c)
    (hopened : c.1 = scope.qualifier) :
    c.2 ∈ plan.outerColumns scope.root ∧ ∃ field ∈ scope.root.fields, field.name = c.2 := by
  have hbeyond := hnamed.beyond
  rcases hscoped.reads c hc with ⟨m, hm, -, hown⟩ | ⟨o, ho, -, other, hother, field, hfield, heq⟩
  · rw [hopened, hscope.qualifier] at hown
    have := tableAlias_inj.1 (Option.some.inj hown)
    omega
  · obtain rfl := Option.some.inj ho
    have hfound : scope.root.field other = some field := hfield
    refine ⟨List.mem_filterMap.2 ⟨other, hother, ?_⟩, field, Entity.mem_of_field hfound, heq⟩
    rw [hfound, Option.map_some, heq]

theorem nested_definite (hscope : scope.Numbered base) (hroot : ∀ f ∈ scope.root.fields, '.' ∉ f.name.toList)
    {plan : Plan} {purpose : Purpose} (hkey : plan.outerColumns scope.root ⊆ key) {q : Query} (hnamed : s.Named base)
    (hrooted : s.Rooted base)
    (h : Lowering.nested plan scope (fun schema outer next => plan.select schema purpose outer next) s = .ok (q, s')) :
    Definite db scope base key s s' [.statement q] := by
  have hadvances : Advances scope base [] s s' [.statement q] :=
    nested_advances hscope.qualifier plan.isScoped hnamed hrooted h
  obtain ⟨hstate, hscoped⟩ := nested_scoped h
  refine ⟨⟨hadvances.grows, hadvances.named, hadvances.rooted⟩, fun tables htables hfinal enclosing leaf hleaf => ?_⟩
  obtain rfl := List.mem_singleton.1 hleaf
  rintro f g ⟨rows, rows', hsame, rfl, rfl⟩
  have hname : scope.asOuter.name = tableAlias base := by simp [Scope.asOuter, hscope.qualifier]
  have hwell := hscoped.wellScoped _ fun m hle hlt => nested_apart hstate hnamed htables hle hlt
  refine hwell.eval_agree ⟨fun name hname => ?_, fun c hc hopen => ?_⟩
  · obtain ⟨hroot, hnodes⟩ : name ≠ tableAlias base ∧ name ∉ tables.nodes.map (·.aliasName) := by
      simpa only [List.mem_cons, not_or] using hname
    have hqualifier : scope.qualifier ≠ some name := fun heq =>
      hroot (Option.some.inj (heq.symm.trans hscope.qualifier))
    have hnone : ∀ node ∈ tables.nodes, node.aliasName ≠ name := fun node hnode heq =>
      hnodes (heq ▸ List.mem_map_of_mem hnode)
    rw [Scope.frame_unnamed _ _ hqualifier hnone, Scope.frame_unnamed _ _ hqualifier hnone]
  · obtain ⟨name, houter, hc'⟩ := hopen
    obtain rfl : scope.asOuter.name = name := Option.some.inj houter
    have hopened : c.1 = scope.qualifier := by rw [hc', hscope.qualifier, ← hname]; rfl
    obtain ⟨hmem, field, hfield, heq⟩ := nested_reads hscope hnamed hscoped hc hopened
    have hlocal := hsame ⟨scope.root.name, c.2, [], field⟩ ⟨by simp, hroot field hfield⟩ (by
      simpa [FieldRef.key, FieldRef.column, joinPath, String.intercalate_singleton, heq] using hkey hmem)
    simpa [hopened, Scope.frame_root _ _ hscope, FieldRef.column, heq] using hlocal

end Compiling

/-! ## Growth -/

section Growth

variable {scope : Scope} {base : Nat} {expand : Expansion}

/-- aliases are compiled in good order -/
def Expansion.GrowsIn (expand : Expansion) (base : Nat) : Prop :=
  ∀ {role name s s' x}, s.Named base → s.Rooted base → expand role name s = .ok (x, s') → Grows base s s'

theorem Resolves.grow (hscope : scope.Numbered base) (hexpand : expand.GrowsIn base) {rs : List Reference}
    {s s' : JoinState} {leaves : List Leaf} (hnamed : s.Named base) (hrooted : s.Rooted base)
    (h : Resolves scope expand rs s s' leaves) : Grows base s s' := by
  induction h with
  | nil => exact .refl hnamed hrooted
  | @cons r rest s s₁ s' x leaves hr _ ih =>
    have hplain : (∀ name role, r ≠ .aliased name role) → Grows base s s₁ := by
      intro hplain
      have hsuitable : r.Suitable r.node.outerRefs :=
        ⟨hplain, by rintro name rfl; simp [Reference.node, Expr.outerRefs, Expr.nodes], fun plan _ => plan.isScoped⟩
      have hadvances := resolve_advances hscope.qualifier hsuitable hnamed hrooted hr
      exact ⟨hadvances.grows, hadvances.named, hadvances.rooted⟩
    have hfirst : Grows base s s₁ := by
      cases r with
      | aliased name role => exact hexpand hnamed hrooted hr
      | column | outer | scalar | existence => exact hplain (by simp)
    exact hfirst.trans (ih hfirst.named hfirst.rooted)

theorem Plan.expand_grows (hscope : scope.Numbered base) {p : Plan} :
    (budget : Nat) → (p.fragments.expand scope budget).GrowsIn base
  | 0 => fun _ _ h => by cases h
  | budget + 1 => fun hnamed hrooted h => by
    obtain ⟨e, -, hlower⟩ := expand_ok h
    exact (e.lower_resolves hlower).grow hscope (expand_grows hscope budget) hnamed hrooted

end Growth

/-! ## Expressions -/

theorem foldl_binary_bareLeaves (op : Sql.BinaryOp) (rest : List Sql.Expr) (e : Sql.Expr) :
    (rest.foldl (.binary op) e).bareLeaves = e.bareLeaves ++ Sql.listBareLeaves rest := by
  induction rest generalizing e with
  | nil => simp [Sql.listBareLeaves]
  | cons next rest ih =>
    rw [List.foldl_cons, ih]
    simp [Sql.Expr.bareLeaves, Sql.listBareLeaves]

theorem connect_bareLeaves (op : Sql.BinaryOp) (neutral : Int64) (es : List Sql.Expr) :
    (connect op neutral es).bareLeaves = Sql.listBareLeaves es := by
  cases es with
  | nil => rfl
  | cons e rest => exact foldl_binary_bareLeaves op rest e

section Expressions

variable {db : Sql.Database} {scope : Scope} {base : Nat} {key : List String} {expand : Expansion}
  {bare : String → List String}

/-- What compiling a part of an expression relies on: its names are no paths, and an alias that reads only fields of
the key is compiled to something definite. -/
structure Fixed (db : Sql.Database) (scope : Scope) (base : Nat) (key : List String) (expand : Expansion)
    (bare : String → List String) (node : Expr) : Prop where
  undotted : ∀ {ref}, node = .field ref → ref.Undotted
  expands : ∀ {name}, node = .aliasRef name → bare name ⊆ key → ∀ {role s s' x}, s.Named base → s.Rooted base →
    expand role name s = .ok (x, s') → Definite db scope base key s s' x.bareLeaves

mutual

theorem Expr.lower_definite (hscope : scope.Numbered base) (hroot : ∀ f ∈ scope.root.fields, '.' ∉ f.name.toList)
    (hgrow : expand.GrowsIn base) : (e : Expr) → (∀ node ∈ e.nodes, Fixed db scope base key expand bare node) →
    e.bareFields scope.root bare ⊆ key → ∀ {role s s' x}, s.Named base → s.Rooted base →
    e.lower scope expand role s = .ok (x, s') → Definite db scope base key s s' x.bareLeaves
  | .field ref, hparts, hkey, role, s, s', x, hnamed, hrooted, h =>
    column_definite hscope ((hparts _ (Expr.mem_nodes_self _)).undotted rfl) (hkey (List.mem_singleton.2 rfl)) hnamed
      hrooted h
  | .aliasRef name, hparts, hkey, role, s, s', x, hnamed, hrooted, h =>
    (hparts _ (Expr.mem_nodes_self _)).expands rfl hkey hnamed hrooted h
  | .literal v, _, _, role, s, s', x, hnamed, hrooted, h => by
    obtain ⟨rfl, rfl⟩ := Lowering.pure_ok.1 h
    exact .nil (.refl hnamed hrooted)
  | .binary op left right, hparts, hkey, role, s, s', x, hnamed, hrooted, h => by
    obtain ⟨-, hleft, hright⟩ := forall_mem_cons_append.1 hparts
    obtain ⟨hkeyLeft, hkeyRight⟩ := List.append_subset.1 hkey
    obtain ⟨l, r, s₁, hl, hr, rfl⟩ := Lowering.bind₂_pure_ok h
    have hl := Expr.lower_definite hscope hroot hgrow left hleft hkeyLeft hnamed hrooted hl
    exact hl.append (Expr.lower_definite hscope hroot hgrow right hright hkeyRight hl.named hl.rooted hr)
  | .and operands, hparts, hkey, role, s, s', x, hnamed, hrooted, h
  | .or operands, hparts, hkey, role, s, s', x, hnamed, hrooted, h => by
    obtain ⟨-, hoperands⟩ := List.forall_mem_cons.1 hparts
    obtain ⟨es, hes, rfl⟩ := Lowering.bind_pure_ok h
    rw [connect_bareLeaves]
    exact lowerList_definite hscope hroot hgrow operands hoperands hkey hnamed hrooted hes
  | .not operand, hparts, hkey, role, s, s', x, hnamed, hrooted, h
  | .isNull operand _, hparts, hkey, role, s, s', x, hnamed, hrooted, h => by
    obtain ⟨-, hoperand⟩ := List.forall_mem_cons.1 hparts
    obtain ⟨e, he, rfl⟩ := Lowering.bind_pure_ok h
    have he := Expr.lower_definite hscope hroot hgrow operand hoperand hkey hnamed hrooted he
    exact he
  | .inList operand values negated, hparts, hkey, role, s, s', x, hnamed, hrooted, h => by
    obtain ⟨-, hoperand, hvalues⟩ := forall_mem_cons_append.1 hparts
    obtain ⟨hkeyOperand, hkeyValues⟩ := List.append_subset.1 hkey
    obtain ⟨e, es, s₁, he, hes, rfl⟩ := Lowering.bind₂_pure_ok h
    have he := Expr.lower_definite hscope hroot hgrow operand hoperand hkeyOperand hnamed hrooted he
    exact he.append (lowerList_definite hscope hroot hgrow values hvalues hkeyValues he.named he.rooted hes)
  | .case [] none, _, _, role, s, s', x, hnamed, hrooted, h => by
    obtain ⟨rfl, rfl⟩ := Lowering.pure_ok.1 h
    exact .nil (.refl hnamed hrooted)
  | .case [] (some otherwise), hparts, hkey, role, s, s', x, hnamed, hrooted, h => by
    obtain ⟨-, -, hotherwise⟩ := forall_mem_cons_append.1 hparts
    exact Expr.lower_definite hscope hroot hgrow otherwise hotherwise hkey hnamed hrooted h
  | .case (arm :: arms) none, hparts, hkey, role, s, s', x, hnamed, hrooted, h => by
    obtain ⟨-, harms, -⟩ := forall_mem_cons_append.1 hparts
    obtain ⟨ws, hws, rfl⟩ := Lowering.bind_pure_ok h
    exact lowerArms_definite hscope hroot hgrow (arm :: arms) harms (List.append_subset.1 hkey).1 hnamed hrooted hws
  | .case (arm :: arms) (some otherwise), hparts, hkey, role, s, s', x, hnamed, hrooted, h => by
    obtain ⟨-, harms, hotherwise⟩ := forall_mem_cons_append.1 hparts
    obtain ⟨hkeyArms, hkeyOtherwise⟩ := List.append_subset.1 hkey
    obtain ⟨ws, e, s₁, hws, he, rfl⟩ := Lowering.bind₂_pure_ok h
    have hws := lowerArms_definite hscope hroot hgrow (arm :: arms) harms hkeyArms hnamed hrooted hws
    exact hws.append (Expr.lower_definite hscope hroot hgrow otherwise hotherwise hkeyOtherwise hws.named hws.rooted he)
  | .aggregate function none distinct, _, _, role, s, s', x, hnamed, hrooted, h => by
    obtain ⟨rfl, rfl⟩ := Lowering.pure_ok.1 h
    exact .nil (.refl hnamed hrooted)
  | .aggregate function (some arg) distinct, _, _, role, s, s', x, hnamed, hrooted, h => by
    obtain ⟨e, he, rfl⟩ := Lowering.bind_pure_ok h
    exact .nil ((arg.lower_resolves he).grow hscope hgrow hnamed hrooted)
  | .outer name, _, _, role, s, s', x, hnamed, hrooted, h => outerColumn_definite hscope hnamed hrooted h
  | .correlated plan, _, hkey, role, s, s', x, hnamed, hrooted, h
  | .existsRow plan _, _, hkey, role, s, s', x, hnamed, hrooted, h => by
    obtain ⟨q, hq, rfl⟩ := Lowering.bind_pure_ok h
    exact nested_definite hscope hroot hkey hnamed hrooted hq
termination_by structural e => e

theorem lowerList_definite (hscope : scope.Numbered base) (hroot : ∀ f ∈ scope.root.fields, '.' ∉ f.name.toList)
    (hgrow : expand.GrowsIn base) : (es : List Expr) →
    (∀ node ∈ Expr.nodesOfList es, Fixed db scope base key expand bare node) →
    Expr.bareFieldsOfList scope.root bare es ⊆ key → ∀ {role s s' xs}, s.Named base → s.Rooted base →
    lowerList es scope expand role s = .ok (xs, s') → Definite db scope base key s s' (Sql.listBareLeaves xs)
  | [], _, _, role, s, s', xs, hnamed, hrooted, h => by
    obtain ⟨rfl, rfl⟩ := Lowering.pure_ok.1 h
    exact .nil (.refl hnamed hrooted)
  | e :: rest, hparts, hkey, role, s, s', xs, hnamed, hrooted, h => by
    obtain ⟨hfirst, hrest⟩ := List.forall_mem_append.1 hparts
    obtain ⟨hkeyFirst, hkeyRest⟩ := List.append_subset.1 hkey
    obtain ⟨x, xs, s₁, hx, hxs, rfl⟩ := Lowering.bind₂_pure_ok h
    have hx := Expr.lower_definite hscope hroot hgrow e hfirst hkeyFirst hnamed hrooted hx
    exact hx.append (lowerList_definite hscope hroot hgrow rest hrest hkeyRest hx.named hx.rooted hxs)
termination_by structural es => es

theorem lowerArms_definite (hscope : scope.Numbered base) (hroot : ∀ f ∈ scope.root.fields, '.' ∉ f.name.toList)
    (hgrow : expand.GrowsIn base) : (arms : List (Expr × Expr)) →
    (∀ node ∈ Expr.nodesOfArms arms, Fixed db scope base key expand bare node) →
    Expr.bareFieldsOfArms scope.root bare arms ⊆ key → ∀ {role s s' ws}, s.Named base → s.Rooted base →
    lowerArms arms scope expand role s = .ok (ws, s') → Definite db scope base key s s' (Sql.armBareLeaves ws)
  | [], _, _, role, s, s', ws, hnamed, hrooted, h => by
    obtain ⟨rfl, rfl⟩ := Lowering.pure_ok.1 h
    exact .nil (.refl hnamed hrooted)
  | (test, result) :: rest, hparts, hkey, role, s, s', ws, hnamed, hrooted, h => by
    obtain ⟨harm, hrest⟩ := List.forall_mem_append.1 hparts
    obtain ⟨htest, hresult⟩ := List.forall_mem_append.1 harm
    obtain ⟨hkeyArm, hkeyRest⟩ := List.append_subset.1 hkey
    obtain ⟨hkeyTest, hkeyResult⟩ := List.append_subset.1 hkeyArm
    obtain ⟨t, r, more, s₁, s₂, ht, hr, hws, rfl⟩ := Lowering.bind₃_pure_ok h
    have ht := Expr.lower_definite hscope hroot hgrow test htest hkeyTest hnamed hrooted ht
    have hr := Expr.lower_definite hscope hroot hgrow result hresult hkeyResult ht.named ht.rooted hr
    exact (ht.append hr).append (lowerArms_definite hscope hroot hgrow rest hrest hkeyRest hr.named hr.rooted hws)
termination_by structural arms => arms

end

end Expressions

/-! ## Plans -/

namespace Plan

variable {db : Sql.Database} {p : Plan} {scope : Scope} {base : Nat} {key : List String}

/-- no name in the annotations of a plan is a path -/
def UndottedNotes (p : Plan) : Prop := ∀ note ∈ p.annotations, ∀ ref ∈ note.expr.fieldRefs, ref.Undotted

theorem mem_fieldRefs {e : Expr} {ref : FieldRef} (h : .field ref ∈ e.nodes) : ref ∈ e.fieldRefs :=
  List.mem_filterMap.2 ⟨_, h, rfl⟩

theorem expand_definite (hscope : scope.Numbered base) (hsame : scope.root = p.root)
    (hroot : ∀ f ∈ scope.root.fields, '.' ∉ f.name.toList) (hnotes : p.UndottedNotes) : (budget : Nat) →
    ∀ {name}, p.aliasBareFields budget name ⊆ key → ∀ {role s s' x}, s.Named base → s.Rooted base →
    p.fragments.expand scope budget role name s = .ok (x, s') → Definite db scope base key s s' x.bareLeaves
  | 0, _, _, _, _, _, _, _, _, h => by cases h
  | budget + 1, name, hkey, role, s, s', x, hnamed, hrooted, h => by
    obtain ⟨e, he, hlower⟩ := expand_ok h
    simp only [aliasBareFields, he, ← hsame] at hkey
    obtain ⟨note, hnote, rfl⟩ := Option.map_eq_some_iff.1 he
    refine note.expr.lower_definite hscope hroot (expand_grows hscope budget) (fun node hnode => ?_) hkey hnamed hrooted
      hlower
    constructor
    · rintro ref rfl
      exact hnotes note (List.mem_of_find?_eq_some hnote) ref (mem_fieldRefs hnode)
    · rintro other -
      exact expand_definite hscope hsame hroot hnotes budget

/-- A compiled expression whose bare fields are in a key tells no rows with that key apart. -/
theorem compiled_definite (hscope : scope.Numbered base) (hsame : scope.root = p.root)
    (hroot : ∀ f ∈ scope.root.fields, '.' ∉ f.name.toList) (hnotes : p.UndottedNotes) {e : Expr}
    (hrefs : ∀ ref ∈ e.fieldRefs, ref.Undotted) (hkey : p.bareFields e ⊆ key) {role : Role} {s s' : JoinState}
    {x : Sql.Expr} (hnamed : s.Named base) (hrooted : s.Rooted base)
    (h : e.lower scope (p.fragments.expansion scope) role s = .ok (x, s')) :
    Definite db scope base key s s' x.bareLeaves := by
  rw [p.expansion_eq] at h
  simp only [bareFields, ← hsame] at hkey
  refine e.lower_definite hscope hroot (expand_grows hscope _) (fun node hnode => ?_) hkey hnamed hrooted h
  constructor
  · rintro ref rfl
    exact hrefs ref (mem_fieldRefs hnode)
  · rintro name -
    exact expand_definite hscope hsame hroot hnotes p.aliasBudget

theorem compiled_grows (hscope : scope.Numbered base) {e : Expr} {role : Role} {s s' : JoinState} {x : Sql.Expr}
    (hnamed : s.Named base) (hrooted : s.Rooted base)
    (h : e.lower scope (p.fragments.expansion scope) role s = .ok (x, s')) : Grows base s s' := by
  rw [p.expansion_eq] at h
  exact (e.lower_resolves h).grow hscope (expand_grows hscope _) hnamed hrooted

/-- An expression that comes down to a field is that field, or an alias of what does. -/
theorem plainField_cases {budget : Nat} {e : Expr} {ref : FieldRef} (h : p.plainField budget e = some ref) :
    e = .field ref ∨ ∃ fewer name note, budget = fewer + 1 ∧ e = .aliasRef name ∧
      p.annotationOf name = some note ∧ p.plainField fewer note = some ref := by
  unfold plainField at h
  split at h
  · exact .inl (congrArg Expr.field (Option.some.inj h))
  · next fewer name =>
    cases hnote : p.annotationOf name with
    | none =>
      rw [hnote] at h
      cases h
    | some note =>
      rw [hnote] at h
      exact .inr ⟨fewer, name, note, rfl, rfl, hnote, h⟩
  · cases h

/-- An expression that comes down to a field is compiled to its column. -/
theorem plainField_column {budget : Nat} {e : Expr} {ref : FieldRef} (hplain : p.plainField budget e = some ref)
    {role : Role} {s s' : JoinState} {x : Sql.Expr}
    (h : e.lower scope (p.fragments.expand scope budget) role s = .ok (x, s')) :
    scope.column ref role s = .ok (x, s') := by
  induction budget generalizing e with
  | zero =>
    obtain rfl | ⟨fewer, name, note, hbudget, -⟩ := plainField_cases hplain
    · exact h
    · cases hbudget
  | succ budget ih =>
    obtain rfl | ⟨fewer, name, note, hbudget, rfl, hnote, hinner⟩ := plainField_cases hplain
    · exact h
    · obtain rfl := Nat.succ.inj hbudget
      obtain ⟨e, he, hlower⟩ := expand_ok h
      obtain rfl : note = e := Option.some.inj (hnote.symm.trans he)
      exact ih hinner hlower

/-- The field that an expression comes down to stands in it or in an annotation. -/
theorem plainField_mem {budget : Nat} {e : Expr} {ref : FieldRef} (hplain : p.plainField budget e = some ref) :
    e = .field ref ∨ ∃ note ∈ p.annotations, ref ∈ note.expr.fieldRefs := by
  induction budget generalizing e with
  | zero =>
    obtain rfl | ⟨fewer, name, note, hbudget, -⟩ := plainField_cases hplain
    · exact .inl rfl
    · cases hbudget
  | succ budget ih =>
    obtain rfl | ⟨fewer, name, inner, hbudget, rfl, hinner, hplain⟩ := plainField_cases hplain
    · exact .inl rfl
    · obtain rfl := Nat.succ.inj hbudget
      obtain ⟨note, hnote, rfl⟩ := Option.map_eq_some_iff.1 hinner
      rcases ih hplain with hfield | hlater
      · refine .inr ⟨note, List.mem_of_find?_eq_some hnote, mem_fieldRefs ?_⟩
        rw [hfield]
        exact Expr.mem_nodes_self _
      · exact .inr hlater

end Plan

end RelQuery
