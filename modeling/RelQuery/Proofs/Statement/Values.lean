/-
Values never reach the text of a statement.

Two plans that differ only in their literals that are not null are compiled alike: both are refused with one error, or
both yield statements of one text whose bound values are those of the same literals, each plan's own (`Blind`). The
plans are one plan filled with two lists of literals (`Literals`); filled with labels instead, all different, it is
compiled to a statement that binds labels only, and the two statements are that one with the labels replaced.
- `Literals.blind`: so it is for whatever is compiled with the values replaced when its literals are replaced.
- `values_stay_out_of_text`: the statements for rows, number, existence and changes, and those of batches.
-/
import RelQuery.Proofs.Record.Batched
import RelQuery.Proofs.Statement.Replacing
import RelQuery.Proofs.Statement.WellScoped

namespace RelQuery

/-! ## Literals told apart -/

/-- How the literals of something are replaced, listed and filled in. -/
structure Literals (α : Type) where
  map : (Value → Value) → α → α
  list : α → List Value
  fill : α → List Value → α
  fill_list (a : α) : fill a (list a) = a
  map_fill {f : Value → Value} (hf : f .null = .null) (a : α) (vs : List Value) : map f (fill a vs) = fill a (vs.map f)
  fill_map {f g : Value → Value} (h : Replaces f g) (a : α) (vs : List Value) : fill (map f a) vs = fill a vs
  list_map {f g : Value → Value} (h : Replaces f g) (a : α) : list (map f a) = (list a).map g

/-- nothing of a value but whether it is null -/
def Value.blank : Value → Value
  | .null => .null
  | _ => .bool true

theorem Value.blank_replaces : Replaces Value.blank Value.blank :=
  ⟨rfl, fun _ => rfl, fun {v} _ => by cases v <;> first | rfl | contradiction⟩

/-- a replacement as it is at values other than null -/
def Value.keepingNull (g : Value → Value) (v : Value) : Value := if v.isNull then .null else g v

theorem Value.keepingNull_replaces {g : Value → Value} (h : ∀ v, v.isNull = false → (g v).isNull = false) :
    Replaces (keepingNull g) g :=
  ⟨rfl, fun hv => by simp [keepingNull, hv], fun hv => h _ hv⟩

/-- as many different values as asked for -/
def labels (n : Nat) : List Value := (List.range n).map fun k => .text (tableAlias k)

theorem labels_nodup (n : Nat) : (labels n).Nodup :=
  List.nodup_range.map fun _ _ h => tableAlias_inj.1 (Value.text.inj h)

theorem isNull_label {n : Nat} {v : Value} (h : v ∈ labels n) : v.isNull = false := by
  obtain ⟨k, -, rfl⟩ := List.mem_map.1 h
  rfl

@[simp] theorem length_labels (n : Nat) : (labels n).length = n := by simp [labels]

/-- the value of a list that is in the place of a label -/
def relabel (vs : List Value) (v : Value) : Value := (vs[(labels vs.length).idxOf v]?).getD v

theorem relabel_label (vs : List Value) {v : Value} (h : v ∈ labels vs.length) :
    some (relabel vs v) = vs[(labels vs.length).idxOf v]? := by
  have hlt := List.idxOf_lt_length_of_mem h
  rw [length_labels] at hlt
  rw [relabel, List.getElem?_eq_getElem hlt, Option.getD_some]

theorem map_relabel (vs : List Value) : (labels vs.length).map (relabel vs) = vs := by
  refine List.ext_getElem (by simp) fun k hk hk' => ?_
  rw [List.getElem_map, relabel, (labels_nodup _).idxOf_getElem, List.getElem?_eq_getElem hk', Option.getD_some]

theorem relabel_replaces {vs : List Value} (hvs : ∀ v ∈ vs, v.isNull = false) : Replaces (relabel vs) (relabel vs) where
  null := by
    have hnull : Value.null ∉ labels vs.length := fun h => absurd (isNull_label h) (by simp [Value.isNull])
    rw [relabel, List.idxOf_eq_length hnull, length_labels, List.getElem?_eq_none le_rfl, Option.getD_none]
  value _ := rfl
  notNull {v} hv := by
    unfold relabel
    cases hfound : vs[(labels vs.length).idxOf v]? with
    | none => exact hv
    | some w => exact hvs w (List.mem_of_getElem? hfound)

/-! ## Blindness -/

/-- Two outcomes of compiling, for two lists of literals, that do not tell the literals apart: one error, or two
statements of one text and with the same columns, which bind the values of the same literals. -/
inductive Blind (us vs : List Value) : Except QueryError Statement → Except QueryError Statement → Prop where
  | failed (e : QueryError) : Blind us vs (.error e) (.error e)
  | compiled {s s' : Statement} (occurrences : List Nat) (sql : s.sql = s'.sql) (columns : s.columns = s'.columns)
      (params : s.params.map some = occurrences.map (us[·]?))
      (params' : s'.params.map some = occurrences.map (vs[·]?)) : Blind us vs (.ok s) (.ok s')

namespace Literals

variable {α : Type} (L : Literals α) {a b : α}

/-- Filled with the literals of something that differs from it in nothing else, it becomes that. -/
theorem fill_of_blank (h : L.map Value.blank a = L.map Value.blank b) : L.fill a (L.list b) = b := by
  rw [← L.fill_map Value.blank_replaces a, h, L.fill_map Value.blank_replaces, L.fill_list]

theorem length_of_blank (h : L.map Value.blank a = L.map Value.blank b) : (L.list a).length = (L.list b).length := by
  have hlists := congrArg L.list h
  rw [L.list_map Value.blank_replaces, L.list_map Value.blank_replaces] at hlists
  simpa using congrArg List.length hlists

theorem isNull_of_mem {v : Value} (h : v ∈ L.list a) : v.isNull = false := by
  -- replacing nothing is replacing each literal by anything that is the same for values other than null
  have hreplaces : Replaces id fun w => if w.isNull then .bool true else w :=
    ⟨rfl, fun hw => by simp [hw], fun hw => by simp [hw]⟩
  have hself : L.map id a = a := by
    conv_lhs => rw [← L.fill_list a, L.map_fill rfl, List.map_id, L.fill_list]
  have hlist := L.list_map hreplaces a
  rw [hself] at hlist
  obtain ⟨w, -, rfl⟩ := List.mem_map.1 (hlist ▸ h)
  cases w <;> rfl

variable (run : α → Except QueryError Statement)
  (hrun : ∀ {f g}, Replaces f g → ∀ a, run (L.map f a) = Statement.mapParams g <$> run a)
include hrun

/-- What is filled with labels is compiled to a statement that binds labels only. -/
theorem mem_labels_of_params {n : Nat} {s : Statement} (h : run (L.fill a (labels n)) = .ok s) {v : Value}
    (hv : v ∈ s.params) : v ∈ labels n := by
  by_contra hout
  -- a replacement of `v` and of no label would have to change what is bound, and changes nothing
  obtain ⟨other, hother, hne⟩ : ∃ other : Value, other.isNull = false ∧ other ≠ v := by
    by_cases hbool : v = .bool true
    · exact ⟨.bool false, rfl, by simp [hbool]⟩
    · exact ⟨.bool true, rfl, Ne.symm hbool⟩
  let g : Value → Value := fun w => if w = v then other else w
  have hreplaces : Replaces (Value.keepingNull g) g := by
    refine Value.keepingNull_replaces fun w hw => ?_
    simp only [g]
    split <;> assumption
  have hkept : ∀ w ∈ labels n, Value.keepingNull g w = w := by
    intro w hw
    have hwv : w ≠ v := fun hwv => hout (hwv ▸ hw)
    simp [Value.keepingNull, isNull_label hw, g, hwv]
  have hsame := hrun hreplaces (L.fill a (labels n))
  rw [L.map_fill hreplaces.null, List.map_congr_left hkept, List.map_id', h] at hsame
  have hparams : s.params.map g = s.params := congrArg Statement.params (Except.ok.inj hsame).symm
  have hfixed := List.map_inj_left.1 (hparams.trans (List.map_id s.params).symm) v hv
  exact hne (by simpa [g] using hfixed)

/-- Whatever is compiled with the values replaced when its literals are replaced does not tell literals apart. -/
theorem blind (h : L.map Value.blank a = L.map Value.blank b) : Blind (L.list a) (L.list b) (run a) (run b) := by
  have hlength := L.length_of_blank h
  set template := L.fill a (labels (L.list a).length) with htemplate
  have hfilled : ∀ c, L.map Value.blank a = L.map Value.blank c →
      run c = Statement.mapParams (relabel (L.list c)) <$> run template := by
    intro c hc
    have hreplaces : Replaces (relabel (L.list c)) (relabel (L.list c)) :=
      relabel_replaces fun _ hv => L.isNull_of_mem hv
    rw [← hrun hreplaces, htemplate, L.map_fill hreplaces.null, L.length_of_blank hc, map_relabel, L.fill_of_blank hc]
  rw [hfilled a rfl, hfilled b h]
  cases htemplate : run template with
  | error e => exact .failed e
  | ok s =>
    have hlabels : ∀ {v}, v ∈ s.params → v ∈ labels (L.list a).length := L.mem_labels_of_params run hrun htemplate
    refine .compiled (s.params.map (labels (L.list a).length).idxOf) rfl rfl ?_ ?_
    · simp only [Statement.mapParams, List.map_map]
      exact List.map_congr_left fun v hv => relabel_label _ (hlabels hv)
    · rw [hlength] at hlabels ⊢
      simp only [Statement.mapParams, List.map_map]
      exact List.map_congr_left fun v hv => relabel_label _ (hlabels hv)

end Literals

/-! ## Statements of plans -/

/-- the literals of a plan, those of its subplans included -/
def Plan.asLiterals : Literals Plan where
  map := Plan.mapLiterals
  list := Plan.literals
  fill := Plan.fill
  fill_list p := by simpa using p.fill_append_literals []
  map_fill hf p vs := p.fill_mapLiterals hf vs
  fill_map h p vs := p.mapLiterals_fill h vs
  list_map h p := p.literals_mapLiterals h

/-- the plan with nothing left of its literals but whether they are null -/
def Plan.blanked (p : Plan) : Plan := p.mapLiterals Value.blank

/-- assignments with their literals replaced -/
def mapAssigned (f : Value → Value) (assignments : List (String × Expr)) : List (String × Expr) :=
  assignments.map fun a => (a.1, a.2.mapLiterals f)

/-- the literals of the assigned expressions -/
def assignedLiterals (assignments : List (String × Expr)) : List Value := assignments.flatMap (·.2.literals)

/-- assignments with the first of the given values for their literals that are not null -/
def fillAssigned : List (String × Expr) → List Value → List (String × Expr)
  | [], _ => []
  | (column, e) :: rest, vs => (column, e.fill vs) :: fillAssigned rest (vs.drop e.literals.length)

section Assigned

variable {f g : Value → Value}

theorem fillAssigned_literals (assignments : List (String × Expr)) :
    fillAssigned assignments (assignedLiterals assignments) = assignments := by
  induction assignments with
  | nil => rfl
  | cons a rest ih =>
    rw [assignedLiterals, List.flatMap_cons, fillAssigned, List.drop_left, a.2.fill_literals]
    exact congrArg (a :: ·) ih

theorem mapAssigned_fill (hf : f .null = .null) (assignments : List (String × Expr)) (vs : List Value) :
    mapAssigned f (fillAssigned assignments vs) = fillAssigned assignments (vs.map f) := by
  induction assignments generalizing vs with
  | nil => rfl
  | cons a rest ih =>
    rw [fillAssigned, fillAssigned, ← List.map_drop, ← ih, ← a.2.fill_mapLiterals hf]
    rfl

theorem fillAssigned_map (h : Replaces f g) (assignments : List (String × Expr)) (vs : List Value) :
    fillAssigned (mapAssigned f assignments) vs = fillAssigned assignments vs := by
  induction assignments generalizing vs with
  | nil => rfl
  | cons a rest ih =>
    rw [fillAssigned, ← ih, ← a.2.mapLiterals_fill h, ← List.length_map (f := g), ← a.2.literals_mapLiterals h]
    rfl

theorem assignedLiterals_map (h : Replaces f g) (assignments : List (String × Expr)) :
    assignedLiterals (mapAssigned f assignments) = (assignedLiterals assignments).map g := by
  simp only [assignedLiterals, mapAssigned, List.flatMap_map, List.map_flatMap, Expr.literals_mapLiterals h]

end Assigned

/-- the literals of a plan and of the expressions that its rows are to be assigned -/
def changeLiterals : Literals (Plan × List (String × Expr)) where
  map f change := (change.1.mapLiterals f, mapAssigned f change.2)
  list change := change.1.literals ++ assignedLiterals change.2
  fill change vs := (change.1.fill vs, fillAssigned change.2 (vs.drop change.1.literals.length))
  fill_list change := by rw [change.1.fill_append_literals, List.drop_left, fillAssigned_literals]
  map_fill hf change vs := by rw [change.1.fill_mapLiterals hf, mapAssigned_fill hf, List.map_drop]
  fill_map h change vs := by
    rw [change.1.mapLiterals_fill h, fillAssigned_map h, change.1.literals_mapLiterals h, List.length_map]
  list_map h change := by
    rw [change.1.literals_mapLiterals h, assignedLiterals_map h, List.map_append]

namespace BatchFetch

/-- The statement of a fetch for keys that are not null has the keys bound, and its text shows how many they are. -/
theorem IsOf.render_keys {fetch : BatchFetch} {primary : List OutputColumn} {relation : Relation} {target : Entity}
    {f : Field} (h : fetch.IsOf primary relation target f) (d : Sql.Dialect) {keys : List Value}
    (hkeys : ∀ key ∈ keys, key.isNull = false) : (fetch.render d keys).params = keys ∧
      (fetch.render d keys).sql = (fetch.render d (List.replicate keys.length (.bool true))).sql := by
  have hparams : (fetch.render d keys).params = keys := by
    rw [h.render_eq]
    exact params_memberCondition d target f hkeys
  have hblank : keys.map Value.blank = List.replicate keys.length (.bool true) := by
    refine List.eq_replicate_iff.2 ⟨List.length_map _, fun v hv => ?_⟩
    obtain ⟨key, hkey, rfl⟩ := List.mem_map.1 hv
    have hnull := hkeys key hkey
    cases key <;> first | rfl | cases hnull
  have hmapped : fetch.queryFor (keys.map Value.blank) = (fetch.queryFor keys).mapParams Value.blank := by
    rw [queryFor, queryFor, h.query, h.keyColumn]
    simp [Sql.Query.mapParams_eq, allRows, Sql.Query.selecting, Sql.Expr.mapParams, Sql.Expr.columnOf,
      Sql.Source.mapParams, Sql.mapParamsOfList_eq]
  refine ⟨hparams, ?_⟩
  rw [← hblank, render, render, hmapped, Sql.Query.tokens_mapParams Value.blank_replaces, Statement.ofTokens_mapBound]
  rfl

end BatchFetch

namespace Plan

/-- **Values stay out of the text.** Let two plans, and the assignments made by them, differ only in literals that are
not null. In every dialect they are compiled alike for their rows, their number, their existence and for changes: both
are refused with one error, or the statements have one text and one list of columns and bind the values of the same
literals, each its own; fetches and shapes are the same. A fetch binds the keys it is given, and its text is the same
for any other keys of that number. -/
theorem values_stay_out_of_text (schema : Schema) (d : Sql.Dialect) (p p' : Plan)
    (assignments assignments' : List (String × Expr)) (hplans : p.blanked = p'.blanked)
    (hassigned : mapAssigned Value.blank assignments = mapAssigned Value.blank assignments') :
    Blind p.literals p'.literals ((p.compile schema d).map CompiledQuery.primary)
      ((p'.compile schema d).map CompiledQuery.primary) ∧
    (p.compile schema d).map (fun q => (q.batched, q.shape)) =
      (p'.compile schema d).map (fun q => (q.batched, q.shape)) ∧
    Blind p.literals p'.literals (p.compileCount schema d) (p'.compileCount schema d) ∧
    Blind p.literals p'.literals (p.compileExists schema d) (p'.compileExists schema d) ∧
    Blind p.literals p'.literals (p.compileDelete schema d) (p'.compileDelete schema d) ∧
    Blind (p.literals ++ assignedLiterals assignments) (p'.literals ++ assignedLiterals assignments')
      (p.compileUpdate schema d assignments) (p'.compileUpdate schema d assignments') ∧
    ∀ q, p.compile schema d = .ok q → ∀ fetch ∈ q.batched, ∀ keys keys' : List Value,
      (∀ key ∈ keys, key.isNull = false) → (∀ key ∈ keys', key.isNull = false) → keys.length = keys'.length →
      (fetch.render d keys).sql = (fetch.render d keys').sql ∧
      (fetch.render d keys).columns = (fetch.render d keys').columns ∧
      (fetch.render d keys).params = keys ∧ (fetch.render d keys').params = keys' := by
  have hrows : ∀ {f g}, Replaces f g → ∀ p : Plan, ((p.mapLiterals f).compile schema d).map CompiledQuery.primary =
      Statement.mapParams g <$> (p.compile schema d).map CompiledQuery.primary := by
    intro f g h p
    rw [p.compile_mapLiterals h schema d]
    cases p.compile schema d <;> rfl
  have hrest : ∀ p : Plan, (p.blanked.compile schema d).map (fun q => (q.batched, q.shape)) =
      (p.compile schema d).map fun q => (q.batched, q.shape) := by
    intro p
    rw [blanked, p.compile_mapLiterals Value.blank_replaces schema d]
    cases p.compile schema d <;> rfl
  refine ⟨asLiterals.blind (fun p => (p.compile schema d).map CompiledQuery.primary) hrows hplans, ?_,
    asLiterals.blind (compileCount schema d) (fun h p => p.compileCount_mapLiterals h schema d) hplans,
    asLiterals.blind (compileExists schema d) (fun h p => p.compileExists_mapLiterals h schema d) hplans,
    asLiterals.blind (compileDelete schema d) (fun h p => p.compileDelete_mapLiterals h schema d) hplans,
    changeLiterals.blind (a := (p, assignments)) (b := (p', assignments'))
      (fun change => change.1.compileUpdate schema d change.2)
      (fun h change => change.1.compileUpdate_mapLiterals h schema d change.2)
      (congrArg₂ Prod.mk hplans hassigned), ?_⟩
  · rw [← hrest p, hplans, hrest p']
  · intro q hq fetch hfetch keys keys' hkeys hkeys' hlength
    obtain ⟨outputs, -, -, hnone | ⟨-, hbatches⟩⟩ := compile_ok hq
    · simp [hnone] at hfetch
    · obtain ⟨name, -, hname⟩ := mem_of_mapM_ok hbatches hfetch
      obtain ⟨-, relation, target, f, -, -, hof⟩ := BatchFetch.ofRelation_ok hname
      obtain ⟨hparams, hsql⟩ := hof.render_keys d hkeys
      obtain ⟨hparams', hsql'⟩ := hof.render_keys d hkeys'
      exact ⟨by rw [hsql, hsql', hlength], rfl, hparams, hparams'⟩

/-- the entries of blogs rated above a bound -/
def sampleAbove (bound : Value) : Plan :=
  { ofEntity sampleEntry with
    filters := [.existsRow
      (sampleInnerPlan.filter (.binary .gt (.field ⟨"blog", "rating", [], ⟨"rating", .int, false⟩⟩) (.literal bound)))
      false] }

/-- The new value of a column is bound before what the rows are selected by, whatever the two are. -/
theorem values_stay_out_of_text_above :
    ∃ s s', (sampleAbove (.int 3)).compileUpdate sampleSchema .sqlite [("blog_id", .literal (.int 7))] = .ok s ∧
      (sampleAbove (.bool true)).compileUpdate sampleSchema .sqlite [("blog_id", .literal (.text "'; --"))] = .ok s' ∧
      s.sql = s'.sql ∧ s.params = [.int 7, .int 3] ∧ s'.params = [.text "'; --", .bool true] := by
  obtain ⟨-, -, -, -, -, hupdate, -⟩ := values_stay_out_of_text sampleSchema .sqlite (sampleAbove (.int 3))
    (sampleAbove (.bool true)) [("blog_id", .literal (.int 7))] [("blog_id", .literal (.text "'; --"))] rfl rfl
  have hparams : ((sampleAbove (.int 3)).compileUpdate sampleSchema .sqlite [("blog_id", .literal (.int 7))]).map
      Statement.params = .ok [.int 7, .int 3] := rfl
  have hparams' : ((sampleAbove (.bool true)).compileUpdate sampleSchema .sqlite
      [("blog_id", .literal (.text "'; --"))]).map Statement.params = .ok [.text "'; --", .bool true] := rfl
  generalize (sampleAbove (.int 3)).compileUpdate sampleSchema .sqlite [("blog_id", .literal (.int 7))] = outcome at *
  generalize (sampleAbove (.bool true)).compileUpdate sampleSchema .sqlite
    [("blog_id", .literal (.text "'; --"))] = outcome' at *
  cases hupdate with
  | failed e => cases hparams
  | compiled occurrences hsql hcolumns _ _ =>
    exact ⟨_, _, rfl, rfl, hsql, Except.ok.inj hparams, Except.ok.inj hparams'⟩

end Plan

end RelQuery
