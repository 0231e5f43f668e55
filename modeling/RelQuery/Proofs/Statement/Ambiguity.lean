/-
Grouped plans are not ambiguous.

A grouped plan is compiled only when the fields that its outputs, filters and order keys read outside aggregates are in
the group key (`Plan.checked`); an order key may instead be an annotation of the key itself, which is compiled twice but
has one value (`compiled_agrees`). Rows of a group are the same in the fields of the key (`SameIn`), so none of this
depends on the row of the group that it is read from.
- `Plan.checkGrouping_guards`: when the check passes, and that it fails with nothing but an ambiguous grouping.
- `Plan.select_unambiguous`: the statement of a plan that passes it, nested or not.
- `grouping_unambiguous`: the statements of all plans.
-/
import RelQuery.Proofs.Sql.Picking
import RelQuery.Proofs.Statement.Definite

namespace RelQuery

open Sql (Frame Query Context)

/-! ## The check -/

/-- a check that passes when a condition holds, and reports an ambiguous grouping otherwise -/
def Guards (check : Except QueryError Unit) (condition : Prop) : Prop :=
  check = .ok () ∧ condition ∨ (∃ fault, check = .error (.ambiguousGrouping fault)) ∧ ¬condition

namespace Guards

variable {check more : Except QueryError Unit} {A B : Prop}

theorem iff (h : Guards check A) (hiff : A ↔ B) : Guards check B := by
  rwa [← propext hiff]

theorem and (h : Guards check A) (h' : Guards more B) : Guards (do check; more) (A ∧ B) := by
  rcases h with ⟨rfl, ha⟩ | ⟨⟨fault, rfl⟩, ha⟩
  · rcases h' with ⟨rfl, hb⟩ | ⟨⟨fault, rfl⟩, hb⟩
    · exact .inl ⟨rfl, ha, hb⟩
    · exact .inr ⟨⟨fault, rfl⟩, fun hboth => hb hboth.2⟩
  · exact .inr ⟨⟨fault, rfl⟩, fun hboth => ha hboth.1⟩

theorem forM {α : Type} {step : α → Except QueryError Unit} {P : α → Prop} (h : ∀ x, Guards (step x) (P x)) :
    (xs : List α) → Guards (xs.forM step) (∀ x ∈ xs, P x)
  | [] => .inl ⟨rfl, nofun⟩
  | x :: rest => by
    rw [List.forM_eq_forM, List.forM_cons]
    exact ((h x).and (forM h rest)).iff List.forall_mem_cons.symm

end Guards

namespace Plan

variable {p : Plan}

theorem checkDefinite_guards (p : Plan) (key : List String) (e : Expr) (fault : String → GroupingFault) :
    Guards (p.checkDefinite key e fault) (p.bareFields e ⊆ key) := by
  unfold checkDefinite ungroupedField
  cases hfind : (p.bareFields e).find? fun field => !key.contains field with
  | none => exact .inl ⟨rfl, fun field hfield => by simpa using List.find?_eq_none.1 hfind field hfield⟩
  | some field =>
    refine .inr ⟨⟨fault field, rfl⟩, fun hsub => ?_⟩
    simpa [hsub (List.mem_of_find?_eq_some hfind)] using List.find?_some hfind

/-- what may read a field outside an aggregate only when it is in the group key -/
def checked (p : Plan) (outputs : List Output) : List Expr :=
  (outputs.filter fun o => p.exprAggregates o.term.expr).map (·.term.expr) ++ p.filters.filter p.exprAggregates ++
    (p.ordering.filter fun key => !key.expr.isAliasIn (p.groupAliases outputs)).map (·.expr)

/-- whether the group key holds every field that is read outside an aggregate -/
def IsDefinite (p : Plan) (outputs : List Output) : Prop :=
  ∀ e ∈ p.checked outputs, p.bareFields e ⊆ p.groupFields outputs

instance (p : Plan) (outputs : List Output) : Decidable (p.IsDefinite outputs) :=
  inferInstanceAs (Decidable (∀ e ∈ p.checked outputs, p.bareFields e ⊆ p.groupFields outputs))

theorem checkGrouping_guards (p : Plan) (outputs : List Output) :
    Guards (p.checkGrouping outputs) (p.IsDefinite outputs) := by
  have hguards := (Guards.forM (fun o : Output => p.checkDefinite_guards (p.groupFields outputs) o.term.expr
      (.mixedOutput o.column.key)) (outputs.filter fun o => p.exprAggregates o.term.expr)).and
    ((Guards.forM (fun e => p.checkDefinite_guards (p.groupFields outputs) e .bareFilter)
      (p.filters.filter p.exprAggregates)).and
    (Guards.forM (fun key : OrderKey => p.checkDefinite_guards (p.groupFields outputs) key.expr .bareOrder)
      (p.ordering.filter fun key => !key.expr.isAliasIn (p.groupAliases outputs))))
  refine hguards.iff ?_
  simp only [IsDefinite, checked, List.forall_mem_append, List.forall_mem_map, and_assoc]

theorem checkGrouping_ok {outputs : List Output} : p.checkGrouping outputs = .ok () ↔ p.IsDefinite outputs := by
  rcases p.checkGrouping_guards outputs with ⟨hok, hdefinite⟩ | ⟨⟨fault, herror⟩, hindefinite⟩
  · exact iff_of_true hok hdefinite
  · refine iff_of_false (fun hok => ?_) hindefinite
    rw [herror] at hok
    cases hok

/-- A grouped plan is compiled only when the group key holds what it reads. -/
theorem select_definite {schema : Schema} {purpose : Purpose} {outer : Option Outer} {next : Nat}
    {selected : Selection × Nat} (hgrouped : p.isGrouped = true)
    (h : p.select schema purpose outer next = .ok selected) :
    ∃ outputs shape, p.outputs schema purpose = .ok (outputs, shape) ∧ p.IsDefinite outputs := by
  rw [select_eq] at h
  obtain ⟨⟨outputs, shape⟩, houtputs, hmore⟩ := ok_of_bind h
  refine ⟨outputs, shape, houtputs, ?_⟩
  simp only [hgrouped, if_true] at hmore
  obtain ⟨_, hcheck, -⟩ := ok_of_bind hmore
  exact checkGrouping_ok.1 hcheck

/-- Otherwise its grouping is ambiguous, whatever it is compiled for. -/
theorem select_ambiguous {schema : Schema} {purpose : Purpose} {outputs : List Output} {shape : ResultShape}
    (hgrouped : p.isGrouped = true) (houtputs : p.outputs schema purpose = .ok (outputs, shape))
    (hindefinite : ¬p.IsDefinite outputs) (outer : Option Outer) (next : Nat) :
    ∃ fault, p.select schema purpose outer next = .error (.ambiguousGrouping fault) := by
  rcases p.checkGrouping_guards outputs with ⟨-, hdefinite⟩ | ⟨⟨fault, herror⟩, -⟩
  · exact absurd hdefinite hindefinite
  · refine ⟨fault, ?_⟩
    rw [select_eq, assemble, houtputs]
    dsimp only [bind, Except.bind]
    rw [if_pos hgrouped, herror]

/-! ## Compiled expressions -/

section Compiled

variable {db : Sql.Database} {schema : Schema} {n : Nat} {outer : Option Outer} {final : JoinState}
  {item : Expr × Role} {x : Sql.Expr}

/-- an expression of a plan and what it is compiled to, among the final tables of a SELECT -/
inductive CompiledIn (p : Plan) (schema : Schema) (n : Nat) (outer : Option Outer) (final : JoinState)
    (item : Expr × Role) (x : Sql.Expr) : Prop
  | mk {s s' : JoinState} (named : s.Named n) (rooted : s.Rooted n)
    (lowered : item.1.lower (p.site schema n outer).scope (p.fragments.expansion (p.site schema n outer).scope) item.2
      s = .ok (x, s')) (grows : s'.Extends final) : CompiledIn p schema n outer final item x

theorem lowerAll_compiledIn (hnumbered : (p.site schema n outer).scope.Numbered n) : {items : List (Expr × Role)} →
    ∀ {s xs}, s.Named n → s.Rooted n → p.lowerAll (p.site schema n outer).scope items s = .ok (xs, final) →
    s.Extends final ∧ List.Forall₂ (p.CompiledIn schema n outer final) items xs
  | [], s, xs, _, _, h => by
    obtain ⟨rfl, rfl⟩ := Lowering.pure_ok.1 h
    exact ⟨.refl _, .nil⟩
  | item :: rest, s, xs, hnamed, hrooted, h => by
    obtain ⟨x, more, s₁, rfl, hx, hmore⟩ := lowerAll_cons_ok h
    have hgrows := compiled_grows hnumbered hnamed hrooted hx
    obtain ⟨hextends, hrest⟩ := lowerAll_compiledIn hnumbered hgrows.named hgrows.rooted hmore
    exact ⟨hgrows.grows.trans hextends, .cons ⟨hnamed, hrooted, hx, hextends⟩ hrest⟩

theorem CompiledIn.aggregates_eq (h : p.CompiledIn schema n outer final item x) :
    x.aggregates = p.exprAggregates item.1 := by
  obtain ⟨-, -, lowered, -⟩ := h
  exact lower_aggregates lowered

/-- With its bare fields in a key, a compiled expression does not tell rows with that key apart. -/
theorem CompiledIn.constant (h : p.CompiledIn schema n outer final item x)
    (hnumbered : (p.site schema n outer).scope.Numbered n) (hfinal : final.Named n)
    (hroot : ∀ f ∈ p.root.fields, '.' ∉ f.name.toList) (hnotes : p.UndottedNotes)
    (hrefs : ∀ ref ∈ item.1.fieldRefs, ref.Undotted) {key : List String} (hkey : p.bareFields item.1 ⊆ key)
    {enclosing f g : Frame} (hsame : (p.site schema n outer).scope.SameIn key enclosing final f g) :
    x.Constant db f g := by
  obtain ⟨named, rooted, lowered, grows⟩ := h
  have hdefinite : Definite db _ n key _ _ x.bareLeaves :=
    compiled_definite hnumbered rfl hroot hnotes hrefs hkey named rooted lowered
  exact .of_leaves (hdefinite.same final grows hfinal enclosing) hsame

/-- What comes down to a field has the value of the field. -/
theorem CompiledIn.plain (h : p.CompiledIn schema n outer final item x)
    (hnumbered : (p.site schema n outer).scope.Numbered n) (hfinal : final.Named n) {ref : FieldRef}
    (hplain : p.plainField p.aliasBudget item.1 = some ref) (rows : PathRows) (enclosing : Frame) :
    x.eval db (.ofFrame ((p.site schema n outer).scope.frame final.nodes rows enclosing)) =
      cell (rows (ref.hops.map (·.name))) ref.column := by
  obtain ⟨named, -, lowered, grows⟩ := h
  rw [p.expansion_eq] at lowered
  exact (Scope.column_compiles hnumbered named (plainField_column hplain lowered)).reads final grows hfinal []

theorem site_tidy_of_named {s : JoinState} (h : s.Named n) : (p.site schema n outer).Tidy s := by
  refine ⟨Nat.le_of_lt h.beyond, fun node hnode => ?_, fun m hm heq => ?_⟩
  · obtain ⟨m, -, hm, hname⟩ := h.numbered node hnode
    exact ⟨m, hm, hname⟩
  · have hbeyond := h.beyond
    have hsame : n = m := tableAlias_inj.1 heq
    omega

/-- An expression that is compiled twice in one statement has one value. -/
theorem CompiledIn.agrees {role role' : Role} {e : Expr} {y : Sql.Expr}
    (h : p.CompiledIn schema n outer final (e, role) x) (h' : p.CompiledIn schema n outer final (e, role') y)
    {rs : List ColumnReference} (hsettled : p.Settled schema n outer rs final) (rows : PathRows) {enclosing : Frame}
    (hclear : ∀ m, n ≤ m → m < final.next → enclosing (some (tableAlias m)) = none) :
    let f := (p.site schema n outer).scope.frame final.nodes rows enclosing
    x.eval db (.ofFrame f) = y.eval db (.ofFrame f) := by
  obtain ⟨named, -, lowered, grows⟩ := h
  obtain ⟨named', -, lowered', grows'⟩ := h'
  rw [p.expansion_eq] at lowered lowered'
  have htwins : (p.site schema n outer).Twins (p.site schema n outer) :=
    ⟨rfl, rfl, fun o o' ho ho' => by rw [Option.some.inj (ho.symm.trans ho')]⟩
  have hnotes : p.SteadyNotes db := fun _ _ plan _ => plan.isSteady db
  have hparts : ∀ node ∈ e.nodes, Matched db (p.site schema n outer) (p.site schema n outer)
      (p.fragments.expand (p.site schema n outer).scope p.aliasBudget)
      (p.fragments.expand (p.site schema n outer).scope p.aliasBudget) node := fun node _ =>
    ⟨fun plan _ => plan.isSteady db, fun _ _ _ _ _ _ _ _ _ hs ht hx hy => expand_agrees htwins rfl hnotes _ hs ht hx hy⟩
  have hagrees := e.lower_agrees htwins hparts (site_tidy_of_named named) (site_tidy_of_named named') lowered lowered'
  have hmeets : Meets (p.site schema n outer) (p.site schema n outer) final final
      ((p.site schema n outer).scope.frame final.nodes rows enclosing)
      ((p.site schema n outer).scope.frame final.nodes rows enclosing) :=
    hsettled.meets hsettled rfl (fun _ _ _ => rfl) (fun o o' ho ho' => by rw [Option.some.inj (ho.symm.trans ho')])
      hclear hclear
  exact hagrees.same final final grows grows' _ _ ⟨hmeets, .nil⟩

end Compiled

/-! ## Rows of a group -/

section Groups

variable {db : Sql.Database} {schema : Schema} {purpose : Purpose} {n m : Nat} {outer : Option Outer}
  {final : JoinState} {outputs : List Output} {results conditions keys : List Sql.Expr}

theorem mem_conjunction_bareLeaves {leaf : Sql.Leaf} {es : List Sql.Expr} {e : Sql.Expr}
    (he : e ∈ (Sql.Expr.conjunction es).toList) (h : leaf ∈ e.bareLeaves) : ∃ e ∈ es, leaf ∈ e.bareLeaves := by
  have hlist : ∀ {es : List Sql.Expr}, leaf ∈ Sql.listBareLeaves es → ∃ e ∈ es, leaf ∈ e.bareLeaves := by
    intro es hmem
    induction es with
    | nil => cases hmem
    | cons first rest ih =>
      rcases List.mem_append.1 hmem with hmem | hmem
      · exact ⟨first, by simp, hmem⟩
      · obtain ⟨other, hother, hleaf⟩ := ih hmem
        exact ⟨other, by simp [hother], hleaf⟩
  cases es with
  | nil => cases he
  | cons first rest =>
    obtain rfl : e = rest.foldl Sql.Expr.and first := by simpa [Sql.Expr.conjunction] using he
    have hall : leaf ∈ (rest.foldl (.binary .and) first).bareLeaves := h
    rw [foldl_binary_bareLeaves] at hall
    have hmem : leaf ∈ Sql.listBareLeaves (first :: rest) := hall
    exact hlist hmem

/-- An output that is no aggregate has one value in a group, being part of the key. -/
theorem eval_of_groupKey (hgrouped : p.isGrouped = true) {scope : Scope} {joins : List Sql.Join} {enclosing f g : Frame}
    (hkey : ((p.query scope outputs joins results conditions keys).clauses db enclosing).groupKey (.ofFrame f) =
      ((p.query scope outputs joins results conditions keys).clauses db enclosing).groupKey (.ofFrame g))
    {o : Output} {x : Sql.Expr} (hmem : (o, x) ∈ outputs.zip results) (hplain : p.exprAggregates o.term.expr = false) :
    x.eval db (.ofFrame f) = x.eval db (.ofFrame g) := by
  simp only [Query.clauses, Sql.evalList_eq_map] at hkey
  refine List.map_inj_left.1 hkey x ?_
  simp only [query, hgrouped, if_true]
  exact List.mem_map.2 ⟨(o, x), List.mem_filter.2 ⟨hmem, by simp [hplain]⟩, rfl⟩

/-- Rows that are the same in the outputs which are no aggregates are the same in the fields of the key. -/
theorem sameIn_of_outputs (hnumbered : (p.site schema n outer).scope.Numbered n) (hfinal : final.Named n)
    (hnotes : p.UndottedNotes) (houtputs : ∀ o ∈ outputs, ∀ ref, o.term = .field ref → ref.Undotted)
    (hcompiled : List.Forall₂ (fun (o : Output) x => p.CompiledIn schema n outer final (o.term.expr, o.role) x) outputs
      results) {rows rows' : PathRows} {enclosing : Frame}
    (hsame : ∀ o x, (o, x) ∈ outputs.zip results → p.exprAggregates o.term.expr = false →
      x.eval db (.ofFrame ((p.site schema n outer).scope.frame final.nodes rows enclosing)) =
        x.eval db (.ofFrame ((p.site schema n outer).scope.frame final.nodes rows' enclosing))) :
    rows.SameIn (p.groupFields outputs) rows' := by
  intro ref href hkey
  obtain ⟨o, ho, hplain⟩ := List.mem_filterMap.1 hkey
  obtain ⟨hmem, haggregates⟩ := List.mem_filter.1 ho
  obtain ⟨found, hfound, hsameKey⟩ := Option.map_eq_some_iff.1 hplain
  have hundotted : found.Undotted := by
    rcases plainField_mem hfound with hterm | ⟨note, hnote, hmem⟩
    · cases hterm' : o.term with
      | field other =>
        rw [hterm'] at hterm
        obtain rfl := Expr.field.inj hterm
        exact houtputs o hmem other hterm'
      | aliasRef name =>
        rw [hterm'] at hterm
        cases hterm
    · exact hnotes note hnote found hmem
  obtain ⟨hpath, hcolumn⟩ := FieldRef.key_inj hundotted href hsameKey
  obtain ⟨x, hzip, hx⟩ := exists_of_forall₂ hcompiled hmem
  have hvalue := hsame o x hzip (by simpa using haggregates)
  rwa [hx.plain hnumbered hfinal hfound, hx.plain hnumbered hfinal hfound, hpath, hcolumn] at hvalue

/-- An alias in the key is the term of an output that is no aggregate. -/
theorem exists_output_of_alias {e : Expr} (h : e.isAliasIn (p.groupAliases outputs) = true) :
    ∃ o ∈ outputs, p.exprAggregates o.term.expr = false ∧ o.term.expr = e := by
  obtain ⟨name, rfl, hname⟩ : ∃ name, e = .aliasRef name ∧ name ∈ p.groupAliases outputs := by
    cases e with
    | aliasRef name => exact ⟨name, rfl, by simpa [Expr.isAliasIn] using h⟩
    | _ => cases h
  obtain ⟨o, ho, hterm⟩ := List.mem_filterMap.1 hname
  obtain ⟨hmem, haggregates⟩ := List.mem_filter.1 ho
  refine ⟨o, hmem, by simpa using haggregates, ?_⟩
  cases hcase : o.term with
  | field ref =>
    rw [hcase] at hterm
    cases hterm
  | aliasRef other =>
    rw [hcase] at hterm
    rw [Option.some.inj hterm]
    rfl

section Parts

variable {rs : List ColumnReference} {enclosing f g : Frame} (hdefinite : p.IsDefinite outputs)
  (hsettled : p.Settled schema n outer rs final) (hroot : ∀ f ∈ p.root.fields, '.' ∉ f.name.toList)
  (hnotes : p.UndottedNotes) (hitems : ∀ item ∈ p.items outputs, ∀ ref ∈ item.1.fieldRefs, ref.Undotted)
  (hframes : (p.site schema n outer).scope.SameIn (p.groupFields outputs) enclosing final f g)

include hdefinite hsettled hroot hnotes hitems hframes

/-- An output is checked, or it is part of the key. -/
theorem output_constant {o : Output} {x : Sql.Expr} (ho : o ∈ outputs)
    (hx : p.CompiledIn schema n outer final (o.term.expr, o.role) x)
    (hsame : p.exprAggregates o.term.expr = false → x.eval db (.ofFrame f) = x.eval db (.ofFrame g)) :
    x.Constant db f g := by
  cases haggregates : p.exprAggregates o.term.expr with
  | true =>
    have hitem : (o.term.expr, o.role) ∈ p.items outputs := by simp [items, List.mem_map_of_mem ho]
    have hchecked : o.term.expr ∈ p.checked outputs := by
      simp only [checked, List.mem_append, List.mem_map]
      exact .inl (.inl ⟨o, List.mem_filter.2 ⟨ho, haggregates⟩, rfl⟩)
    exact hx.constant hsettled.numbered hsettled.named hroot hnotes (hitems _ hitem) (hdefinite _ hchecked) hframes
  | false => exact .of_value (hx.aggregates_eq.trans haggregates) (hsame haggregates)

/-- Every filter that aggregates is checked, and HAVING is made of them. -/
theorem having_constant
    (hconditions : List.Forall₂ (fun e x => p.CompiledIn schema n outer final (e, p.filterRole e) x) p.filters
      conditions) {e : Sql.Expr}
    (he : e ∈ (p.query (p.site schema n outer).scope outputs final.joins results conditions keys).having.toList) :
    e.Constant db f g := by
  refine .of_leaves (S := (p.site schema n outer).scope.SameIn (p.groupFields outputs) enclosing final)
    (fun leaf hleaf => ?_) hframes
  obtain ⟨x, hx, hleaf⟩ := mem_conjunction_bareLeaves he hleaf
  obtain ⟨⟨aggregates, y⟩, hpair, rfl⟩ := List.mem_map.1 hx
  obtain ⟨hzip, haggregates⟩ := List.mem_filter.1 hpair
  rw [← List.map_uncurry_zip_eq_zipWith] at hzip
  obtain ⟨⟨filter, condition⟩, hmem, heq⟩ := List.mem_map.1 hzip
  obtain ⟨rfl, rfl⟩ := Prod.mk.inj heq
  have hfilter := (List.of_mem_zip hmem).1
  obtain ⟨named, rooted, lowered, grows⟩ := (List.forall₂_iff_zip.1 hconditions).2 hmem
  have hbare : p.bareFields filter ⊆ p.groupFields outputs := hdefinite filter (by
    simp only [checked, List.mem_append]
    exact .inl (.inr (List.mem_filter.2 ⟨hfilter, haggregates⟩)))
  have hrefs := hitems (filter, p.filterRole filter) (by simp [items, List.mem_map_of_mem hfilter])
  have hleaves : Definite db _ n (p.groupFields outputs) _ _ condition.bareLeaves :=
    compiled_definite hsettled.numbered rfl hroot hnotes hrefs hbare named rooted lowered
  exact hleaves.same final grows hsettled.named enclosing leaf hleaf

/-- An order key is checked, or it is an alias in the group key. -/
theorem orderKey_constant
    (hresults : List.Forall₂ (fun (o : Output) x => p.CompiledIn schema n outer final (o.term.expr, o.role) x) outputs
      results)
    (hclear : ∀ k, n ≤ k → k < final.next → enclosing (some (tableAlias k)) = none)
    (hsame : ∀ o x, (o, x) ∈ outputs.zip results → p.exprAggregates o.term.expr = false →
      x.eval db (.ofFrame f) = x.eval db (.ofFrame g))
    {key : OrderKey} {x : Sql.Expr} (hkey : key ∈ p.ordering)
    (hx : p.CompiledIn schema n outer final (key.expr, .output) x) : x.Constant db f g := by
  cases hexempt : key.expr.isAliasIn (p.groupAliases outputs) with
  | false =>
    have hitem : (key.expr, .output) ∈ p.items outputs := by
      simp only [items, List.mem_append, List.mem_map]
      exact .inr ⟨key, hkey, rfl⟩
    have hchecked : key.expr ∈ p.checked outputs := by
      simp only [checked, List.mem_append, List.mem_map]
      exact .inr ⟨key, List.mem_filter.2 ⟨hkey, by simp [hexempt]⟩, rfl⟩
    exact hx.constant hsettled.numbered hsettled.named hroot hnotes (hitems _ hitem) (hdefinite _ hchecked) hframes
  | true =>
    obtain ⟨o, ho, hplain, hexpr⟩ := exists_output_of_alias hexempt
    obtain ⟨y, hzip, hy⟩ := exists_of_forall₂ hresults ho
    obtain ⟨rows, rows', -, rfl, rfl⟩ := hframes
    rw [← hexpr] at hx
    exact .of_value (hx.aggregates_eq.trans hplain) ((hx.agrees hy hsettled rows hclear).trans
      ((hsame o y hzip hplain).trans (hx.agrees hy hsettled rows' hclear).symm))

end Parts

/-- What a definite plan computes for a group does not tell the rows of the group apart. -/
theorem query_constant (hdefinite : p.IsDefinite outputs) {rs : List ColumnReference}
    (hsettled : p.Settled schema n outer rs final) (hroot : ∀ f ∈ p.root.fields, '.' ∉ f.name.toList)
    (hnotes : p.UndottedNotes) (hitems : ∀ item ∈ p.items outputs, ∀ ref ∈ item.1.fieldRefs, ref.Undotted)
    (hresults : List.Forall₂ (fun (o : Output) x => p.CompiledIn schema n outer final (o.term.expr, o.role) x) outputs
      results)
    (hconditions : List.Forall₂ (fun e x => p.CompiledIn schema n outer final (e, p.filterRole e) x) p.filters
      conditions)
    (hkeys : List.Forall₂ (fun (key : OrderKey) x => p.CompiledIn schema n outer final (key.expr, .output) x) p.ordering
      keys) {rows rows' : PathRows} {enclosing : Frame}
    (hclear : ∀ k, n ≤ k → k < final.next → enclosing (some (tableAlias k)) = none)
    (hsame : ∀ o x, (o, x) ∈ outputs.zip results → p.exprAggregates o.term.expr = false →
      x.eval db (.ofFrame ((p.site schema n outer).scope.frame final.nodes rows enclosing)) =
        x.eval db (.ofFrame ((p.site schema n outer).scope.frame final.nodes rows' enclosing))) :
    ∀ e ∈ (p.query (p.site schema n outer).scope outputs final.joins results conditions keys).groupExpressions,
      e.Constant db ((p.site schema n outer).scope.frame final.nodes rows enclosing)
        ((p.site schema n outer).scope.frame final.nodes rows' enclosing) := by
  have hrows : rows.SameIn (p.groupFields outputs) rows' :=
    sameIn_of_outputs hsettled.numbered hsettled.named hnotes (fun o ho ref hterm => by
      refine hitems (o.term.expr, o.role) (by simp [items, List.mem_map_of_mem ho]) ref (mem_fieldRefs ?_)
      rw [hterm]
      exact Expr.mem_nodes_self _) hresults hsame
  have hframes : (p.site schema n outer).scope.SameIn (p.groupFields outputs) enclosing final
      ((p.site schema n outer).scope.frame final.nodes rows enclosing)
      ((p.site schema n outer).scope.frame final.nodes rows' enclosing) := ⟨rows, rows', hrows, rfl, rfl⟩
  intro e he
  simp only [Query.groupExpressions, List.mem_append] at he
  rcases he with (hselect | hhaving) | horder
  · obtain ⟨⟨o, x⟩, hmem, rfl⟩ : ∃ pair ∈ outputs.zip results, pair.2 = e := by
      simpa [query] using hselect
    have hx := (List.forall₂_iff_zip.1 hresults).2 hmem
    exact output_constant hdefinite hsettled hroot hnotes hitems hframes (List.of_mem_zip hmem).1 hx (hsame o x hmem)
  · exact having_constant hdefinite hsettled hroot hnotes hitems hframes hconditions hhaving
  · obtain ⟨orderKey, hkey, rfl⟩ := List.mem_map.1 horder
    simp only [query] at hkey
    rw [← List.map_uncurry_zip_eq_zipWith] at hkey
    obtain ⟨⟨key, x⟩, hmem, rfl⟩ := List.mem_map.1 hkey
    have hx := (List.forall₂_iff_zip.1 hkeys).2 hmem
    exact orderKey_constant hdefinite hsettled hroot hnotes hitems hframes hresults hclear hsame
      (List.of_mem_zip hmem).1 hx

end Groups

/-! ## Statements -/

/-- whether no reference of a plan holds a name with a dot, as none does that is resolved in an undotted schema -/
def Undotted (p : Plan) : Prop := ∀ e ∈ p.expressions, ∀ ref ∈ e.fieldRefs, ref.Undotted

instance (p : Plan) : Decidable p.Undotted :=
  inferInstanceAs (Decidable (∀ e ∈ p.expressions, ∀ ref ∈ e.fieldRefs,
    (∀ hop ∈ ref.hops, '.' ∉ hop.name.toList) ∧ '.' ∉ ref.column.toList))

theorem items_undotted {schema : Schema} (hundotted : schema.Undotted) (hrefs : p.Undotted) {purpose : Purpose}
    {outputs : List Output} {shape : ResultShape} (houtputs : p.outputs schema purpose = .ok (outputs, shape)) :
    ∀ item ∈ p.items outputs, ∀ ref ∈ item.1.fieldRefs, ref.Undotted := by
  intro item hitem ref href
  simp only [items, List.mem_append, List.mem_map] at hitem
  rcases hitem with (⟨o, ho, rfl⟩ | ⟨e, he, rfl⟩) | ⟨key, hkey, rfl⟩
  · cases hterm : o.term with
    | field other =>
      obtain rfl : ref = other := by simpa [hterm, OutputTerm.expr, Expr.fieldRefs, Expr.nodes] using href
      obtain ⟨path, hpath⟩ := outputs_resolved houtputs o ho ref hterm
      exact hundotted.resolve hpath
    | aliasRef name => simp [hterm, OutputTerm.expr, Expr.fieldRefs, Expr.nodes] at href
  · exact hrefs e (List.mem_append_left _ (List.mem_append_left _ he)) ref href
  · exact hrefs key.expr (List.mem_append_right _ (List.mem_map_of_mem hkey)) ref href

/-- The statement of a grouped plan is unambiguous, nested or not. -/
theorem select_unambiguous {schema : Schema} (hundotted : schema.Undotted) (hroot : p.root ∈ schema.entities)
    (hrefs : p.Undotted) (hgrouped : p.isGrouped = true) {purpose : Purpose}
    (hpurpose : purpose = .rows ∨ purpose = .scalar) {outer : Option Outer} {n m : Nat} {selection : Selection}
    (houter : ∀ o, outer = some o → ∀ k, n ≤ k → o.name ≠ tableAlias k)
    (h : p.select schema purpose outer n = .ok (selection, m)) {db : Sql.Database} {enclosing : Frame}
    (hclear : ∀ k, n ≤ k → k < m → enclosing (some (tableAlias k)) = none) :
    selection.query.Unambiguous db enclosing := by
  obtain ⟨found, _, hfound, hdefinite⟩ := select_definite hgrouped h
  obtain ⟨outputs, final, houtputs, hclauses, -, rfl⟩ := select_ok hpurpose h
  obtain rfl : found = outputs := (Prod.mk.inj (Except.ok.inj (hfound.symm.trans houtputs))).1
  obtain ⟨results, conditions, keys, hresults, hconditions, hkeys, hlower, hquery⟩ := lowerClauses_ok hclauses
  have hnumbered : (p.site schema n outer).scope.Numbered n := ⟨rfl, houter⟩
  have hsettled := lowerAll_settled hnumbered hlower
  have hnotes : p.UndottedNotes := fun note hnote =>
    hrefs note.expr (List.mem_append_left _ (List.mem_append_right _ (List.mem_map_of_mem hnote)))
  obtain ⟨-, hcompiled⟩ := lowerAll_compiledIn hnumbered (.init n) nofun hlower
  obtain ⟨hfirst, hthird⟩ := forall₂_append_inj hcompiled (by simp [hresults, hconditions])
  obtain ⟨hfirst, hsecond⟩ := forall₂_append_inj hfirst (by simp [hresults])
  rw [List.forall₂_map_left_iff] at hfirst hsecond hthird
  have hframes : ∀ {f}, f ∈ (selection.query.clauses db enclosing).kept →
      ∃ rows : PathRows, f = (p.site schema n outer).scope.frame final.nodes rows enclosing := by
    intro f hf
    have hjoined : f ∈ Sql.joinFrames db selection.query.joins (Sql.sourceFrames db selection.query.source enclosing) :=
      List.mem_of_mem_filter hf
    have hrows : Sql.joinFrames db final.joins _ = _ := hsettled.joinFrames enclosing
    rw [hquery] at hjoined
    obtain ⟨rows, -, rfl⟩ := List.mem_map.1 (hrows ▸ hjoined)
    exact ⟨rows, rfl⟩
  intro f hf g hg hkey
  obtain ⟨rows, rfl⟩ := hframes hf
  obtain ⟨rows', rfl⟩ := hframes hg
  rw [hquery] at hkey ⊢
  exact query_constant hdefinite hsettled (fun field hfield => hundotted.field hroot hfield) hnotes
    (items_undotted hundotted hrefs houtputs) hfirst hsecond hthird hclear
    fun o x hmem hplain => eval_of_groupKey hgrouped hkey hmem hplain

theorem unordered_unambiguous {q : Query} {db : Sql.Database} {enclosing : Frame} (h : q.Unambiguous db enclosing) :
    q.unordered.Unambiguous db enclosing := fun f hf g hg hkey e he => by
  refine h f hf g hg hkey e ?_
  simp only [Query.groupExpressions, Query.unordered, List.map_nil, List.append_nil] at he ⊢
  exact List.mem_append_left _ he

/-- The count and the existence of a grouped plan's rows are taken from a derived table that is unambiguous. -/
theorem derived_unambiguous {schema : Schema} (hundotted : schema.Undotted) (hroot : p.root ∈ schema.entities)
    (hrefs : p.Undotted) (hgrouped : p.isGrouped = true) {purpose : Purpose} {column : Sql.Expr}
    (hpurpose : purpose.reduced = some column) {outer : Option Outer} {n m : Nat} {selection : Selection}
    (houter : ∀ o, outer = some o → ∀ k, n ≤ k → o.name ≠ tableAlias k)
    (h : p.select schema purpose outer n = .ok (selection, m)) {db : Sql.Database} {enclosing : Frame}
    (hclear : ∀ k, n ≤ k → k < m → enclosing (some (tableAlias k)) = none) :
    ∃ inner name, selection.query = .around column inner name ∧ inner.Unambiguous db enclosing := by
  rw [select_reduced schema hpurpose] at h
  obtain ⟨⟨rows, k⟩, hrows, hpack⟩ := map_ok h
  obtain ⟨rfl, rfl⟩ := Prod.mk.inj hpack
  have hunambiguous : rows.query.Unambiguous db enclosing :=
    select_unambiguous hundotted hroot hrefs hgrouped (.inl rfl) houter hrows fun i hle hlt =>
      hclear i hle (Nat.lt_of_lt_of_le hlt (Nat.le_add_right _ _))
  have hwrapped : p.isWrapped = true := by simp [isWrapped, hgrouped]
  refine ⟨if p.isPaged then rows.query else rows.query.unordered, tableAlias k, ?_, ?_⟩
  · simp only [hwrapped]
    rfl
  · split
    · exact hunambiguous
    · exact unordered_unambiguous hunambiguous

/-- Grouping is never ambiguous: in the statements of a grouped plan rows with the same key give every part without
aggregates of an output, of HAVING and of an order key one value, and no result depends on which row of a group is
picked; so it is in statements nested in others and in the derived tables of counts. A plan whose key does not hold what
it reads outside aggregates is not compiled, its grouping being ambiguous. -/
theorem grouping_unambiguous (schema : Schema) (hundotted : schema.Undotted) (p : Plan)
    (hroot : p.root ∈ schema.entities) (hrefs : p.Undotted) (hgrouped : p.isGrouped = true) :
    (∀ d compiled, p.compile schema d = .ok compiled → ∃ selection, p.rowSelection schema = .ok selection ∧
      compiled.primary = .ofTokens d (selection.query.tokens d) selection.columns ∧
      ∀ db, selection.query.Unambiguous db Frame.empty ∧
        ∀ picks, selection.query.evalPicking db Frame.empty picks = selection.query.eval db Frame.empty) ∧
    (∀ purpose outer n m selection, (∀ o, outer = some o → ∀ k, n ≤ k → o.name ≠ tableAlias k) →
      p.select schema purpose outer n = .ok (selection, m) → ∀ db enclosing,
      (∀ k, n ≤ k → k < m → enclosing (some (tableAlias k)) = none) →
      ∃ q, (purpose.reduced = none ∧ q = selection.query ∨
          ∃ column name, purpose.reduced = some column ∧ selection.query = .around column q name) ∧
        q.Unambiguous db enclosing ∧ ∀ picks, q.evalPicking db enclosing picks = q.eval db enclosing) ∧
    ∀ purpose outputs shape, p.outputs schema purpose = .ok (outputs, shape) → ¬p.IsDefinite outputs →
      (∀ outer n, ∃ fault, p.select schema purpose outer n = .error (.ambiguousGrouping fault)) ∧
      (purpose = .rows → ∀ d, ∃ fault, p.compile schema d = .error (.ambiguousGrouping fault) ∧
        p.compileCount schema d = .error (.ambiguousGrouping fault) ∧
        p.compileExists schema d = .error (.ambiguousGrouping fault)) := by
  refine ⟨fun d compiled h => ?_, fun purpose outer n m selection houter h db enclosing hclear => ?_,
    fun purpose outputs shape houtputs hindefinite => ⟨select_ambiguous hgrouped houtputs hindefinite, ?_⟩⟩
  · obtain ⟨selection, hselection, -⟩ := ok_of_bind h
    obtain ⟨n, hselect⟩ := select_of_rowSelection hselection
    refine ⟨selection, hselection, compile_primary hselection h, fun db => ?_⟩
    have hunambiguous : selection.query.Unambiguous db Frame.empty :=
      select_unambiguous hundotted hroot hrefs hgrouped (.inl rfl) (by simp) hselect fun _ _ _ => rfl
    exact ⟨hunambiguous, hunambiguous.eval_eq⟩
  · cases hpurpose : purpose.reduced with
    | none =>
      have hunambiguous : selection.query.Unambiguous db enclosing :=
        select_unambiguous hundotted hroot hrefs hgrouped (by cases purpose <;> simp_all [Purpose.reduced]) houter h
          hclear
      exact ⟨_, .inl ⟨rfl, rfl⟩, hunambiguous, hunambiguous.eval_eq⟩
    | some column =>
      obtain ⟨inner, name, hquery, hunambiguous⟩ : ∃ inner name, selection.query = .around column inner name ∧
          inner.Unambiguous db enclosing := derived_unambiguous hundotted hroot hrefs hgrouped hpurpose houter h hclear
      exact ⟨inner, .inr ⟨column, name, rfl, hquery⟩, hunambiguous, hunambiguous.eval_eq⟩
  · rintro rfl d
    obtain ⟨fault, hrows⟩ := select_ambiguous hgrouped houtputs hindefinite none 0
    have hcount := p.select_reduced schema (show Purpose.count.reduced = some Sql.Expr.countRows from rfl)
    have hexists := p.select_reduced schema (show Purpose.existence.reduced = some (Sql.Expr.int 1) from rfl)
    refine ⟨fault, ?_, ?_, ?_⟩
    · simp only [compile, rowSelection, hrows]
      rfl
    · simp only [compileCount, countQuery, hcount, hrows]
      rfl
    · simp only [compileExists, existsQuery, hexists, hrows]
      rfl

/-- two entries of one blog -/
def sampleSiblings : Sql.Database where
  toOperators := .exact
  rows table :=
    if table = "blogs" then [fun column => if column = "id" then .int 1 else .int 4]
    else if table = "entries" then [fun _ => .int 1, fun column => if column = "id" then .int 2 else .int 1]
    else []

/-- how many entries there are of blogs with a rating, where there are more than one, in some order -/
def sampleGrouped (order : Expr) : Plan :=
  { ofEntity sampleEntry with
    annotations := [⟨"rated", .field sampleRating⟩, ⟨"entries", .aggregate .count none false⟩]
    filters := [.binary .gt (.aliasRef "entries") (.literal (.int 1))]
    projection := some ⟨.mapping, ["rated", "entries"]⟩
    ordering := [⟨order, .asc⟩] }

/-- Two entries are one group, which may be ordered by its rating but not by the key of an entry. -/
theorem grouping_unambiguous_siblings :
    (∃ selection, (sampleGrouped (.aliasRef "rated")).rowSelection sampleSchema = .ok selection ∧
      (selection.query.clauses sampleSiblings Frame.empty).kept.length = 2 ∧
      (selection.query.clauses sampleSiblings Frame.empty).keys = [[.int 4]] ∧
      selection.query.Unambiguous sampleSiblings Frame.empty) ∧
    ∃ fault, (sampleGrouped (.field ⟨"entry", "id", [], ⟨"id", .int, false⟩⟩)).compile sampleSchema .sqlite =
      .error (.ambiguousGrouping fault) := by
  have hundotted : sampleSchema.Undotted := by decide
  constructor
  · obtain ⟨-, hselect, -⟩ := grouping_unambiguous sampleSchema hundotted (sampleGrouped (.aliasRef "rated"))
      (by decide) (by decide) rfl
    refine ⟨_, rfl, rfl, rfl, ?_⟩
    obtain ⟨q, ⟨-, rfl⟩ | ⟨column, name, hcolumn, -⟩, hunambiguous, -⟩ :=
      hselect .rows none 0 _ _ (by simp) rfl sampleSiblings Frame.empty fun _ _ _ => rfl
    · exact hunambiguous
    · cases hcolumn
  · obtain ⟨-, -, hrefuse⟩ := grouping_unambiguous sampleSchema hundotted
      (sampleGrouped (.field ⟨"entry", "id", [], ⟨"id", .int, false⟩⟩)) (by decide)
      (by decide) rfl
    obtain ⟨fault, hcompile, -⟩ := (hrefuse .rows _ _ rfl (by decide)).2 rfl .sqlite
    exact ⟨fault, hcompile⟩

end Plan

end RelQuery
