/-
Compiling expressions keeps their meaning.

A compiled expression, read with a row or no row for each relation path, has the value of the expression it comes from;
connectives without operands, membership in nothing and choices without arms are compiled to constants that say the
same (`connect_eval`, `lower_compiles`). The state of the tables at which an expression was compiled does not matter,
only that they have grown since, so all the expressions of a statement can be read with its final tables.
- `lower_compiles`: one step for each kind of expression, by induction on it.
- `compiled_value`: the annotations included, by induction on the alias steps.
- `value_alias`: an alias of a plan that compiles has the value of its annotation.
-/
import RelQuery.Proofs.Statement.Tables

namespace RelQuery

/-! ## Connectives -/

section Connectives

variable {db : Sql.Database} {op : Sql.BinaryOp} (join : Truth → Truth → Truth) {neutral : Truth}

/-- operands nested to the left, as a condition -/
theorem truth_foldl_binary (happly : ∀ a b, op.apply db.toOperators a b = (join (db.truth a) (db.truth b)).toValue)
    (hassoc : ∀ a b c, join (join a b) c = join a (join b c)) (hneutral : ∀ t, join t neutral = t)
    (context : Sql.Context) :
    (rest : List Sql.Expr) → (e : Sql.Expr) →
    db.truth ((rest.foldl (.binary op) e).eval db context) =
      join (db.truth (e.eval db context))
        ((Sql.evalList db rest context).foldr (fun v t => join (db.truth v) t) neutral)
  | [], e => by simp [Sql.evalList, hneutral]
  | next :: rest, e => by
    rw [List.foldl_cons, truth_foldl_binary happly hassoc hneutral context rest]
    simp only [Sql.Expr.eval, happly, Operators.truth_toValue, Sql.evalList, List.foldr_cons, hassoc]

theorem isCondition_foldl_binary
    (happly : ∀ a b, op.apply db.toOperators a b = (join (db.truth a) (db.truth b)).toValue)
    (context : Sql.Context) : (rest : List Sql.Expr) → (e : Sql.Expr) → (e.eval db context).isCondition →
    ((rest.foldl (.binary op) e).eval db context).isCondition
  | [], _, h => h
  | next :: rest, e, _ =>
    isCondition_foldl_binary happly context rest (.binary op e next) (by simp [Sql.Expr.eval, happly])

/-- A connective of several operands, or of none, is a condition. -/
theorem connect_eval (happly : ∀ a b, op.apply db.toOperators a b = (join (db.truth a) (db.truth b)).toValue)
    (hassoc : ∀ a b c, join (join a b) c = join a (join b c)) (hneutral : ∀ t, join t neutral = t) {constant : Int64}
    (hconstant : Truth.ofBool (decide (1 = constant)) = neutral) (context : Sql.Context) {es : List Sql.Expr}
    (hlength : es.length ≠ 1) :
    (connect op constant es).eval db context =
      ((Sql.evalList db es context).foldr (fun v t => join (db.truth v) t) neutral).toValue := by
  match es, hlength with
  | [], _ => simp [connect, Sql.Expr.eq, Sql.Expr.eval, Sql.BinaryOp.apply, Operators.equals_int, hconstant,
    Sql.evalList]
  | e :: next :: rest, _ =>
    have hcondition : ((rest.foldl (Sql.Expr.binary op) (.binary op e next)).eval db context).isCondition :=
      isCondition_foldl_binary join happly context rest (.binary op e next) (by simp [Sql.Expr.eval, happly])
    have htruth := truth_foldl_binary join happly hassoc hneutral context (next :: rest) e
    simp only [connect, Sql.evalList, List.foldr_cons] at htruth ⊢
    rw [← htruth]
    exact (db.toValue_truth hcondition).symm

theorem connect_and_eval (context : Sql.Context) (es : List Sql.Expr) :
    (connect .and 1 es).eval db context = db.allOf (Sql.evalList db es context) := by
  match es with
  | [e] => rfl
  | [] => exact connect_eval Truth.and (fun _ _ => rfl) Truth.and_assoc Truth.and_yes rfl context (by simp)
  | _ :: _ :: _ => exact connect_eval Truth.and (fun _ _ => rfl) Truth.and_assoc Truth.and_yes rfl context (by simp)

theorem connect_or_eval (context : Sql.Context) (es : List Sql.Expr) :
    (connect .or 0 es).eval db context = db.anyOf (Sql.evalList db es context) := by
  match es with
  | [e] => rfl
  | [] => exact connect_eval Truth.or (fun _ _ => rfl) Truth.or_assoc Truth.or_no rfl context (by simp)
  | _ :: _ :: _ => exact connect_eval Truth.or (fun _ _ => rfl) Truth.or_assoc Truth.or_no rfl context (by simp)

end Connectives

/-! ## Expressions -/

section Expressions

variable {db : Sql.Database} {scope : Scope} {first : Nat} {rows : List String → Option Tuple} {enclosing : Sql.Frame}
  {expand : Expansion} {aliases : String → Value}

/-- What compiling a part of an expression relies on: a row can tell it, and an alias is compiled to something that
reads as the alias. -/
structure Readable (db : Sql.Database) (scope : Scope) (first : Nat) (rows : List String → Option Tuple)
    (enclosing : Sql.Frame) (expand : Expansion) (aliases : String → Value) (node : Expr) : Prop where
  plain : node.needsRows = false
  expands : ∀ {name}, node = .aliasRef name → ∀ {role s s' x}, s.Named first → expand role name s = .ok (x, s') →
    Compiles scope first rows enclosing s s' (x.eval db) (aliases name)

mutual

theorem Expr.lower_compiles (hscope : scope.Numbered first) : (e : Expr) →
    (∀ node ∈ e.nodes, Readable db scope first rows enclosing expand aliases node) →
    ∀ {role s s' x}, s.Named first → e.lower scope expand role s = .ok (x, s') →
    Compiles scope first rows enclosing s s' (x.eval db)
      (e.value db.toOperators (scope.view rows enclosing) aliases)
  | .field ref, _, role, s, s', x, hnamed, h => Scope.column_compiles hscope hnamed h
  | .aliasRef name, hparts, role, s, s', x, hnamed, h => (hparts _ (Expr.mem_nodes_self _)).expands rfl hnamed h
  | .literal v, _, role, s, s', x, hnamed, h => by
    obtain ⟨rfl, rfl⟩ := Lowering.pure_ok.1 h
    exact .const hnamed v
  | .binary op left right, hparts, role, s, s', x, hnamed, h => by
    obtain ⟨-, hleft, hright⟩ := forall_mem_cons_append.1 hparts
    obtain ⟨l, r, s₁, hl, hr, rfl⟩ := Lowering.bind₂_pure_ok h
    have hl := Expr.lower_compiles hscope left hleft hnamed hl
    have hr := Expr.lower_compiles hscope right hright hl.named hr
    have h := (hl.both hr).map fun values => op.apply db.toOperators values.1 values.2
    simpa only [Sql.Expr.eval, Expr.value, BinaryOp.apply_toSql] using h
  | .and operands, hparts, role, s, s', x, hnamed, h => by
    obtain ⟨-, hoperands⟩ := List.forall_mem_cons.1 hparts
    obtain ⟨es, hes, rfl⟩ := Lowering.bind_pure_ok h
    have hes := lowerList_compiles hscope operands hoperands hnamed hes
    have h := hes.map db.allOf
    simpa only [← connect_and_eval, Expr.value] using h
  | .or operands, hparts, role, s, s', x, hnamed, h => by
    obtain ⟨-, hoperands⟩ := List.forall_mem_cons.1 hparts
    obtain ⟨es, hes, rfl⟩ := Lowering.bind_pure_ok h
    have hes := lowerList_compiles hscope operands hoperands hnamed hes
    have h := hes.map db.anyOf
    simpa only [← connect_or_eval, Expr.value] using h
  | .not operand, hparts, role, s, s', x, hnamed, h => by
    obtain ⟨-, hoperand⟩ := List.forall_mem_cons.1 hparts
    obtain ⟨e, he, rfl⟩ := Lowering.bind_pure_ok h
    have he := Expr.lower_compiles hscope operand hoperand hnamed he
    have h := he.map fun v => (db.truth v).not.toValue
    simpa only [Sql.Expr.eval, Expr.value] using h
  | .isNull operand negated, hparts, role, s, s', x, hnamed, h => by
    obtain ⟨-, hoperand⟩ := List.forall_mem_cons.1 hparts
    obtain ⟨e, he, rfl⟩ := Lowering.bind_pure_ok h
    have he := Expr.lower_compiles hscope operand hoperand hnamed he
    have h := he.map fun v => Value.bool (v.isNull != negated)
    simpa only [Sql.Expr.eval, Expr.value] using h
  | .inList operand values negated, hparts, role, s, s', x, hnamed, h => by
    obtain ⟨-, hoperand, hvalues⟩ := forall_mem_cons_append.1 hparts
    obtain ⟨e, es, s₁, he, hes, rfl⟩ := Lowering.bind₂_pure_ok h
    have he := Expr.lower_compiles hscope operand hoperand hnamed he
    have hes := lowerList_compiles hscope values hvalues he.named hes
    have h := (he.both hes).map fun pair => ((db.member pair.1 pair.2).negateIf negated).toValue
    simpa only [Sql.Expr.eval, Expr.value] using h
  | .case [] none, _, role, s, s', x, hnamed, h => by
    obtain ⟨rfl, rfl⟩ := Lowering.pure_ok.1 h
    exact .const hnamed Value.null
  | .case [] (some otherwise), hparts, role, s, s', x, hnamed, h => by
    obtain ⟨-, -, hotherwise⟩ := forall_mem_cons_append.1 hparts
    exact Expr.lower_compiles hscope otherwise hotherwise hnamed h
  | .case (arm :: arms) none, hparts, role, s, s', x, hnamed, h => by
    obtain ⟨-, harms, -⟩ := forall_mem_cons_append.1 hparts
    obtain ⟨ws, hws, rfl⟩ := Lowering.bind_pure_ok h
    have hws := lowerArms_compiles hscope (arm :: arms) harms hnamed hws
    have h := hws.map fun choice => choice Value.null
    simpa only [Sql.Expr.eval, Expr.value] using h
  | .case (arm :: arms) (some otherwise), hparts, role, s, s', x, hnamed, h => by
    obtain ⟨-, harms, hotherwise⟩ := forall_mem_cons_append.1 hparts
    obtain ⟨ws, e, s₁, hws, he, rfl⟩ := Lowering.bind₂_pure_ok h
    have hws := lowerArms_compiles hscope (arm :: arms) harms hnamed hws
    have he := Expr.lower_compiles hscope otherwise hotherwise hws.named he
    have h := (hws.both he).map fun pair => pair.1 pair.2
    simpa only [Sql.Expr.eval, Expr.value] using h
  | .outer name, _, role, s, s', x, hnamed, h => Scope.outerColumn_compiles hscope hnamed h
  | .aggregate .., hparts, _, _, _, _, _, _ | .correlated _, hparts, _, _, _, _, _, _
  | .existsRow .., hparts, _, _, _, _, _, _ => by
    have hself := (hparts _ (Expr.mem_nodes_self _)).plain
    cases hself
termination_by structural e => e

theorem lowerList_compiles (hscope : scope.Numbered first) : (es : List Expr) →
    (∀ node ∈ Expr.nodesOfList es, Readable db scope first rows enclosing expand aliases node) →
    ∀ {role s s' xs}, s.Named first → lowerList es scope expand role s = .ok (xs, s') →
    Compiles scope first rows enclosing s s' (Sql.evalList db xs)
      (Expr.valuesOf db.toOperators (scope.view rows enclosing) aliases es)
  | [], _, role, s, s', xs, hnamed, h => by
    obtain ⟨rfl, rfl⟩ := Lowering.pure_ok.1 h
    exact .const hnamed []
  | e :: rest, hparts, role, s, s', xs, hnamed, h => by
    obtain ⟨hfirst, hrest⟩ := List.forall_mem_append.1 hparts
    obtain ⟨x, xs, s₁, hx, hxs, rfl⟩ := Lowering.bind₂_pure_ok h
    have hx := Expr.lower_compiles hscope e hfirst hnamed hx
    have hxs := lowerList_compiles hscope rest hrest hx.named hxs
    have h := (hx.both hxs).map fun pair => pair.1 :: pair.2
    simpa only [Sql.evalList, Expr.valuesOf] using h
termination_by structural es => es

theorem lowerArms_compiles (hscope : scope.Numbered first) : (arms : List (Expr × Expr)) →
    (∀ node ∈ Expr.nodesOfArms arms, Readable db scope first rows enclosing expand aliases node) →
    ∀ {role s s' ws}, s.Named first → lowerArms arms scope expand role s = .ok (ws, s') →
    Compiles scope first rows enclosing s s' (Sql.evalArms db ws)
      (Expr.valueOfArms db.toOperators (scope.view rows enclosing) aliases arms)
  | [], _, role, s, s', ws, hnamed, h => by
    obtain ⟨rfl, rfl⟩ := Lowering.pure_ok.1 h
    exact ⟨.refl s, hnamed, fun _ _ _ _ => rfl⟩
  | (test, result) :: rest, hparts, role, s, s', ws, hnamed, h => by
    obtain ⟨harm, hrest⟩ := List.forall_mem_append.1 hparts
    obtain ⟨htest, hresult⟩ := List.forall_mem_append.1 harm
    obtain ⟨t, r, more, s₁, s₂, ht, hr, hws, rfl⟩ := Lowering.bind₃_pure_ok h
    have ht := Expr.lower_compiles hscope test htest hnamed ht
    have hr := Expr.lower_compiles hscope result hresult ht.named hr
    have hws := lowerArms_compiles hscope rest hrest hr.named hws
    have h := (ht.both (hr.both hws)).map fun parts otherwise =>
      (db.truth parts.1).choose parts.2.1 (parts.2.2 otherwise)
    exact h
termination_by structural arms => arms

end

end Expressions

/-! ## Plans -/

namespace Plan

variable {p : Plan} {db : Sql.Database} {scope : Scope} {first : Nat} {rows : List String → Option Tuple}
  {enclosing : Sql.Frame}

/-- values of the aliases that agree with the annotations an expression reaches -/
structure Suits (p : Plan) (ops : Operators) (view : RowView) (aliases : String → Value) (e : Expr) : Prop where
  rowwise : p.Rowwise e
  annotations : ∀ name inner, p.Reaches e (.aliasRef name) → p.annotationOf name = some inner →
    aliases name = inner.value ops view aliases

theorem Reaches.through_node {e inner node : Expr} {name : String} (hname : .aliasRef name ∈ e.nodes)
    (hinner : p.annotationOf name = some inner) (h : p.Reaches inner node) : p.Reaches e node :=
  .through (Expr.mem_aliases.2 hname) hinner h

theorem Suits.inner {ops : Operators} {view : RowView} {aliases : String → Value} {e inner : Expr} {name : String}
    (h : p.Suits ops view aliases e) (hname : .aliasRef name ∈ e.nodes) (hinner : p.annotationOf name = some inner) :
    p.Suits ops view aliases inner where
  rowwise node hnode := h.rowwise node (hnode.through_node hname hinner)
  annotations other e' hother := h.annotations other e' (hother.through_node hname hinner)

theorem Suits.readable {aliases : String → Value} {expand : Expansion} {e : Expr}
    (h : p.Suits db.toOperators (scope.view rows enclosing) aliases e)
    (hexpand : ∀ name, .aliasRef name ∈ e.nodes → ∀ {role s s' x}, s.Named first → expand role name s = .ok (x, s') →
      Compiles scope first rows enclosing s s' (x.eval db) (aliases name)) :
    ∀ node ∈ e.nodes, Readable db scope first rows enclosing expand aliases node := fun node hnode =>
  { plain := h.rowwise node (.part hnode)
    expands := by rintro name rfl; exact hexpand name hnode }

/-- An expression compiled, its aliases followed a number of steps, has its value. -/
theorem lower_expand_compiles (hscope : scope.Numbered first) {aliases : String → Value} : (budget : Nat) → {e : Expr} →
    p.Suits db.toOperators (scope.view rows enclosing) aliases e → ∀ {role s s' x}, s.Named first →
    e.lower scope (p.fragments.expand scope budget) role s = .ok (x, s') →
    Compiles scope first rows enclosing s s' (x.eval db)
      (e.value db.toOperators (scope.view rows enclosing) aliases)
  | 0, e, hsuits, role, s, s', x, hnamed, h =>
    e.lower_compiles hscope (hsuits.readable fun name _ _ _ _ _ _ hexpand => by cases hexpand) hnamed h
  | budget + 1, e, hsuits, role, s, s', x, hnamed, h => by
    refine e.lower_compiles hscope (hsuits.readable fun name hname role s s' x hnamed hexpand => ?_) hnamed h
    obtain ⟨inner, hinner, hlower⟩ := expand_ok hexpand
    rw [hsuits.annotations name inner (.part hname) hinner]
    exact lower_expand_compiles hscope budget (hsuits.inner hname hinner) hnamed hlower

/-! ## Aliases -/

/-- an expression that compiles when its aliases are followed so many steps -/
def CompilesWithin (p : Plan) (scope : Scope) (budget : Nat) (e : Expr) : Prop :=
  ∃ role s x s', e.lower scope (p.fragments.expand scope budget) role s = .ok (x, s')

theorem CompilesWithin.inner {budget : Nat} {e : Expr} {name : String} (h : p.CompilesWithin scope budget e)
    (hname : name ∈ e.aliases) :
    ∃ smaller inner, budget = smaller + 1 ∧ p.annotationOf name = some inner ∧
      p.CompilesWithin scope smaller inner := by
  obtain ⟨role, s, x, s', hlower⟩ := h
  have hreferences := Lowering.effect_ok.2 ⟨x, hlower⟩
  rw [Expr.lower_references] at hreferences
  obtain ⟨asked, hasked⟩ := Expr.aliased_mem_references hname role
  obtain ⟨t, t', hstep⟩ := Lowering.forM_step_ok hasked hreferences
  obtain ⟨y, hy⟩ := Lowering.effect_ok.1 hstep
  cases budget with
  | zero => cases hy
  | succ smaller =>
    obtain ⟨inner, hinner, hlower⟩ := expand_ok hy
    exact ⟨smaller, inner, rfl, hinner, asked, t, y, t', hlower⟩

variable {ops : Operators} {view : RowView}

/-- More alias steps than an expression needs to compile do not change the values of its aliases. -/
theorem aliasValue_eq_of_le : {budget : Nat} → {e : Expr} → p.CompilesWithin scope budget e → ∀ {more}, budget ≤ more →
    ∀ name ∈ e.aliases, p.aliasValue ops view more name = p.aliasValue ops view budget name
  | budget, e, h, more, hle, name, hname => by
    obtain ⟨smaller, inner, rfl, hinner, hcompiles⟩ := h.inner hname
    obtain ⟨fewer, rfl⟩ : ∃ fewer, more = fewer + 1 := ⟨more - 1, by omega⟩
    simp only [aliasValue, hinner]
    exact Expr.value_congr inner fun name hname =>
      aliasValue_eq_of_le hcompiles (Nat.le_of_succ_le_succ hle) name hname
termination_by budget => budget

/-- An alias reached from an expression that compiles has the value of its annotation. -/
theorem aliasValue_reached {e target : Expr} (hreach : p.Reaches e target) {budget more : Nat}
    (h : p.CompilesWithin scope budget e) (hle : budget ≤ more) {name : String} {inner : Expr}
    (htarget : target = .aliasRef name) (hinner : p.annotationOf name = some inner) :
    p.aliasValue ops view more name = inner.value ops view (p.aliasValue ops view more) := by
  induction hreach generalizing budget with
  | part hmem =>
    subst htarget
    have hname := Expr.mem_aliases.2 hmem
    rw [aliasValue_eq_of_le h hle name hname]
    obtain ⟨smaller, e', rfl, he', hcompiles⟩ := h.inner hname
    obtain rfl : e' = inner := Option.some.inj (he'.symm.trans hinner)
    simp only [aliasValue, hinner]
    exact Expr.value_congr e' fun name hname => (aliasValue_eq_of_le hcompiles (by omega) name hname).symm
  | through hname he' _ ih =>
    obtain ⟨smaller, e', rfl, he'', hcompiles⟩ := h.inner hname
    obtain rfl := Option.some.inj (he''.symm.trans he')
    exact ih hcompiles (by omega) htarget

/-- the values of the aliases suit every expression that compiles -/
theorem suits_of_compiles {e : Expr} (hrow : p.Rowwise e) (h : p.CompilesWithin scope p.aliasBudget e) :
    p.Suits ops view (p.aliasValue ops view p.aliasBudget) e where
  rowwise := hrow
  annotations _ _ hreach hinner := aliasValue_reached hreach h (Nat.le_refl _) rfl hinner

/-! ## Statements -/

/-- compiles expressions one after another -/
def lowerAll (p : Plan) (scope : Scope) (items : List (Expr × Role)) : Lowering (List Sql.Expr) :=
  items.mapM fun item => item.1.lower scope (p.fragments.expansion scope) item.2

theorem lowerAll_cons_ok {item : Expr × Role} {rest : List (Expr × Role)} {s s' : JoinState} {xs : List Sql.Expr}
    (h : p.lowerAll scope (item :: rest) s = .ok (xs, s')) :
    ∃ x more s₁, xs = x :: more ∧ item.1.lower scope (p.fragments.expansion scope) item.2 s = .ok (x, s₁) ∧
      p.lowerAll scope rest s₁ = .ok (more, s') := by
  rw [lowerAll, List.mapM_cons] at h
  obtain ⟨x, more, s₁, hx, hxs, rfl⟩ := Lowering.bind₂_pure_ok h
  exact ⟨x, more, s₁, rfl, hx, hxs⟩

theorem lowerAll_item_ok {item : Expr × Role} : {items : List (Expr × Role)} → item ∈ items → ∀ {s s' xs},
    p.lowerAll scope items s = .ok (xs, s') →
    ∃ t x t', item.1.lower scope (p.fragments.expansion scope) item.2 t = .ok (x, t')
  | first :: rest, hitem, s, s', xs, h => by
    obtain ⟨x, more, s₁, -, hx, hmore⟩ := lowerAll_cons_ok h
    rcases List.mem_cons.1 hitem with rfl | hitem
    · exact ⟨s, x, s₁, hx⟩
    · exact lowerAll_item_ok hitem hmore

theorem lowerAll_compiles (hscope : scope.Numbered first) : (items : List (Expr × Role)) →
    (∀ item ∈ items, p.Rowwise item.1) →
    ∀ {s s' xs}, s.Named first → p.lowerAll scope items s = .ok (xs, s') →
    Compiles scope first rows enclosing s s' (fun context => xs.map fun x => x.eval db context)
      (items.map fun item => p.value db.toOperators (scope.view rows enclosing) item.1)
  | [], _, s, s', xs, hnamed, h => by
    obtain ⟨rfl, rfl⟩ := Lowering.pure_ok.1 h
    exact .const hnamed []
  | item :: rest, hrow, s, s', xs, hnamed, h => by
    obtain ⟨x, more, s₁, rfl, hx, hmore⟩ := lowerAll_cons_ok h
    rw [p.expansion_eq] at hx
    have hsuits : p.Suits db.toOperators (scope.view rows enclosing) _ item.1 :=
      suits_of_compiles (hrow item (by simp)) ⟨_, _, _, _, hx⟩
    have hfirst := lower_expand_compiles hscope p.aliasBudget hsuits hnamed hx
    have hrest := lowerAll_compiles hscope rest (fun item hitem => hrow item (by simp [hitem])) hfirst.named hmore
    exact (hfirst.both hrest).map fun pair => pair.1 :: pair.2

/-- Expressions compiled one after another in one statement have the values of the expressions they come from when they
are all read with the final tables, whatever row or no row each relation path leads to; and an alias among them has the
value of its annotation. -/
theorem lowering_keeps_values (db : Sql.Database) (schema : Schema) (p : Plan) (n : Nat) (outer : Option Outer)
    (houter : ∀ o, outer = some o → ∀ m, n ≤ m → o.name ≠ tableAlias m) (items : List (Expr × Role))
    (hrow : ∀ item ∈ items, p.Rowwise item.1) (lowered : List Sql.Expr) (final : JoinState)
    (hlower : p.lowerAll (.ofSelect schema p.root (tableAlias n) outer) items { next := n + 1 } = .ok (lowered, final))
    (rows : List String → Option Tuple) (enclosing : Sql.Frame) (group : List Sql.Frame) :
    let scope := Scope.ofSelect schema p.root (tableAlias n) outer
    lowered.map (fun x => x.eval db (scope.context rows enclosing final group)) =
        items.map (fun item => p.value db.toOperators (scope.view rows enclosing) item.1) ∧
      ∀ item ∈ items, ∀ name e, p.Reaches item.1 (.aliasRef name) → p.annotationOf name = some e →
        p.value db.toOperators (scope.view rows enclosing) (.aliasRef name) =
          p.value db.toOperators (scope.view rows enclosing) e := by
  intro scope
  have hscope : scope.Numbered n := ⟨rfl, houter⟩
  have hcompiles : Compiles scope n rows enclosing { next := n + 1 } final
      (fun context => lowered.map fun x => x.eval db context)
      (items.map fun item => p.value db.toOperators (scope.view rows enclosing) item.1) :=
    lowerAll_compiles hscope items hrow (.init n) hlower
  refine ⟨hcompiles.reads final (.refl final) hcompiles.named group, fun item hitem name e hreach he => ?_⟩
  obtain ⟨s, x, s', hx⟩ := lowerAll_item_ok hitem hlower
  rw [p.expansion_eq] at hx
  exact aliasValue_reached hreach ⟨_, _, _, _, hx⟩ (Nat.le_refl _) rfl he

/-! ## A sample: entries of blogs -/

def sampleBlog : Entity where
  name := "blog"
  table := "blogs"
  primaryKey := "id"
  fields := [⟨"id", .int, false⟩, ⟨"rating", .int, false⟩]
  relations := []

/-- an entry may have no blog -/
def sampleEntry : Entity where
  name := "entry"
  table := "entries"
  primaryKey := "id"
  fields := [⟨"id", .int, false⟩, ⟨"blog_id", .int, true⟩]
  relations := [⟨"blog", "blog", .toOne, "blog_id", "id"⟩]

def sampleSchema : Schema := ⟨[sampleBlog, sampleEntry]⟩

/-- the rating of an entry's blog -/
def sampleRating : FieldRef := ⟨"entry", "blog.rating", sampleEntry.relations, ⟨"rating", .int, false⟩⟩

/-- entries with their blog's rating -/
def samplePlan : Plan := { ofEntity sampleEntry with annotations := [⟨"rated", .field sampleRating⟩] }

/-- rated above three, or not rated at all -/
def sampleCondition : Expr :=
  .or [.binary .gt (.aliasRef "rated") (.literal (.int 3)), .isNull (.aliasRef "rated") false]

theorem sample_reaches {e node : Expr} (he : e = sampleCondition ∨ e = .field sampleRating)
    (h : samplePlan.Reaches e node) : node.needsRows = false := by
  have hinner : ∀ {name inner}, samplePlan.annotationOf name = some inner → inner = .field sampleRating := by
    intro name inner h
    by_cases hname : "rated" = name
    · simpa [samplePlan, annotationOf, hname, eq_comm] using h
    · simp [samplePlan, annotationOf, hname] at h
  induction h with
  | part hmem =>
    rcases he with rfl | rfl
    · simp only [sampleCondition, Expr.nodes, Expr.nodesOfList, List.mem_cons, List.mem_append,
        List.not_mem_nil] at hmem
      rcases hmem with rfl | ((rfl | (rfl | h) | (rfl | h)) | ((rfl | rfl | h) | h))
      all_goals first | rfl | cases h
    · obtain rfl : _ = _ := by simpa [Expr.nodes] using hmem
      rfl
  | through _ hannotation _ ih => exact ih (.inr (hinner hannotation))

/-- An entry without a blog meets the condition, and its rating reads as null: the one join serves both expressions. -/
theorem lowering_keeps_values_unrated :
    ∃ lowered final,
      samplePlan.lowerAll (.ofSelect sampleSchema sampleEntry (tableAlias 0) none)
        [(sampleCondition, .filter), (.field sampleRating, .output)] { next := 1 } = .ok (lowered, final) ∧
      final.nodes.length = 1 ∧
      lowered.map (fun x => x.eval ⟨.exact, fun _ => []⟩ (Scope.context
        (.ofSelect sampleSchema sampleEntry (tableAlias 0) none)
        (fun path => if path = [] then some fun _ => .int 1 else none) Sql.Frame.empty final [])) =
        [.bool true, .null] := by
  refine ⟨_, _, rfl, rfl, ?_⟩
  refine (lowering_keeps_values ⟨.exact, fun _ => []⟩ sampleSchema samplePlan 0 none (by simp)
    [(sampleCondition, .filter), (.field sampleRating, .output)] ?_ _ _ rfl
    (fun path => if path = [] then some fun _ => .int 1 else none) Sql.Frame.empty []).1
  intro item hitem node hreach
  exact sample_reaches (by rcases List.mem_pair.1 hitem with rfl | rfl <;> simp) hreach

end Plan

end RelQuery
