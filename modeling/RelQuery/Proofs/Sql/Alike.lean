/-
Queries that are one but for the names of their tables.

Clauses are alike when they say the same of corresponding contexts (`Clauses.Alike`), and queries when their clauses are
the same expressions up to what those read (`Query.Alike`). Alike queries whose joined rows correspond one by one
(`Query.Parallel`) give the same rows in the same order, and so do the queries that they are reduced to.
-/
import RelQuery.Proofs.Sql.Reducing

namespace RelQuery.Sql

variable {db : Database} {R : Context → Context → Prop}

/-! ## Clauses -/

/-- clauses that say the same of contexts that correspond -/
structure Clauses.Alike (R : Context → Context → Prop) (c c' : Clauses) : Prop where
  condition : ∀ a b, R a b → (c.condition a = .yes ↔ c'.condition b = .yes)
  grouped : c.grouped = c'.grouped
  groupKey : ∀ a b, R a b → c.groupKey a = c'.groupKey b
  having : ∀ a b, R a b → (c.having a = .yes ↔ c'.having b = .yes)
  sortKey : ∀ a b, R a b → c.sortKey a = c'.sortKey b
  directions : c.directions = c'.directions
  items : ∀ a b, R a b → c.items a = c'.items b
  distinct : c.distinct = c'.distinct
  page : c.page = c'.page

namespace Clauses

variable {ι : Type}

/-- the context of a group, or of a row by itself: the row that stands for it, if there is one, and its rows -/
def contextOf (frame : ι → Frame) (outer : Frame) (place : Option ι × List ι) : Context :=
  ⟨(place.1.map frame).getD outer, place.2.map frame⟩

/-- the places of the contexts, when the rows kept are numbered -/
def places (c : Clauses) (frame : ι → Frame) (kept : List ι) (wholeTable : Bool) : List (Option ι × List ι) :=
  if !c.grouped then kept.map fun i => (some i, [])
  else if wholeTable then [(kept.head?, kept)]
  else (kept.map fun i => c.groupKey (.ofFrame (frame i))).eraseDups.map fun key =>
    let group := kept.filter fun i => c.groupKey (.ofFrame (frame i)) = key
    (group.head?, group)

theorem kept_eq {c : Clauses} {frame : ι → Frame} {rows : List ι} (hframes : c.frames = rows.map frame) :
    c.kept = (rows.filter fun i => c.condition (.ofFrame (frame i)) = .yes).map frame := by
  rw [kept, hframes, List.filter_map]
  rfl

theorem contexts_eq {c : Clauses} {frame : ι → Frame} {kept : List ι} (hkept : c.kept = kept.map frame) (outer : Frame)
    (wholeTable : Bool) :
    c.contexts outer wholeTable = (c.places frame kept wholeTable).map (contextOf frame outer) := by
  have hgroup : ∀ group : List ι, contextOf frame outer (group.head?, group) =
      ⟨(group.map frame).headD outer, group.map frame⟩ := by
    intro group
    cases group <;> rfl
  have hkeys : c.keys = (kept.map fun i => c.groupKey (.ofFrame (frame i))).eraseDups := by
    rw [keys, hkept, List.map_map]
    rfl
  unfold contexts places
  split
  · rw [hkept, List.map_map, List.map_map]
    rfl
  · split
    · rw [List.map_singleton, hgroup, hkept]
    · rw [List.map_map, hkeys]
      refine List.map_congr_left fun key _ => ?_
      have hfilter : (kept.map frame).filter (fun row => c.groupKey (.ofFrame row) = key) =
          (kept.filter fun i => c.groupKey (.ofFrame (frame i)) = key).map frame := List.filter_map ..
      simp only [Function.comp_apply, hgroup, hkept, hfilter]

/-- A place is a row kept by itself, or a group of rows kept. -/
theorem mem_places {c : Clauses} {frame : ι → Frame} {kept : List ι} {wholeTable : Bool} {place : Option ι × List ι}
    (h : place ∈ c.places frame kept wholeTable) : place.1.isSome ∨ place.2 = [] := by
  have hgroup : ∀ group : List ι, (group.head?, group).1.isSome ∨ (group.head?, group).2 = [] := by
    intro group
    cases group with
    | nil => exact .inr rfl
    | cons => exact .inl rfl
  unfold places at h
  split at h
  · obtain ⟨i, -, rfl⟩ := List.mem_map.1 h
    exact .inl rfl
  · split at h
    · obtain rfl := List.mem_singleton.1 h
      exact hgroup _
    · obtain ⟨key, -, rfl⟩ := List.mem_map.1 h
      exact hgroup _

/-- what clauses make of contexts: those that pass, in order, presented, freed of repetitions and paged -/
def present (c : Clauses) (ops : Operators) (contexts : List Context) : List (List Value) :=
  let rows := (c.sorted ops (contexts.filter fun context => c.having context = .yes)).map c.items
  let rows := if c.distinct then rows.eraseDups else rows
  match c.page with
  | some page => page.slice rows
  | none => rows

theorem rows_eq_present (c : Clauses) (ops : Operators) (outer : Frame) (wholeTable : Bool) :
    c.rows ops outer wholeTable = c.present ops (c.contexts outer wholeTable) := rfl

/-- Clauses make the same of contexts of which they say the same, one by one. -/
theorem present_eq {c c' : Clauses} {a b : ι → Context} {places : List ι}
    (hhaving : ∀ i ∈ places, c.having (a i) = .yes ↔ c'.having (b i) = .yes)
    (hsortKey : ∀ i ∈ places, c.sortKey (a i) = c'.sortKey (b i)) (hitems : ∀ i ∈ places, c.items (a i) = c'.items (b i))
    (hdirections : c.directions = c'.directions) (hdistinct : c.distinct = c'.distinct) (hpage : c.page = c'.page)
    (ops : Operators) : c.present ops (places.map a) = c'.present ops (places.map b) := by
  obtain ⟨chosen, hchosen⟩ : ∃ chosen, chosen = places.filter fun i => c.having (a i) = .yes := ⟨_, rfl⟩
  have hsub : ∀ i ∈ chosen, i ∈ places := fun i hmem => (List.mem_filter.1 (hchosen ▸ hmem)).1
  have hpassed : (places.map a).filter (fun context => c.having context = .yes) = chosen.map a := by
    rw [List.filter_map, hchosen]
    rfl
  have hpassed' : (places.map b).filter (fun context => c'.having context = .yes) = chosen.map b := by
    rw [List.filter_map, hchosen]
    congr 1
    refine List.filter_congr fun i hmem => ?_
    simp only [Function.comp_apply, hhaving i hmem]
  have hsorted : (c.sorted ops (chosen.map a)).map c.items = (c'.sorted ops (chosen.map b)).map c'.items := by
    have hleft := List.map_mergeSort (f := a) (l := chosen)
      (r := fun i j => sortsBefore ops c.directions (c.sortKey (a i)) (c.sortKey (a j)))
      (s := fun i j => sortsBefore ops c.directions (c.sortKey i) (c.sortKey j)) (fun _ _ _ _ => rfl)
    have hright := List.map_mergeSort (f := b) (l := chosen)
      (r := fun i j => sortsBefore ops c.directions (c.sortKey (a i)) (c.sortKey (a j)))
      (s := fun i j => sortsBefore ops c'.directions (c'.sortKey i) (c'.sortKey j)) (fun i hi j hj => by
        rw [hdirections, hsortKey _ (hsub i hi), hsortKey _ (hsub j hj)])
    rw [sorted, sorted, ← hleft, ← hright, List.map_map, List.map_map]
    exact List.map_congr_left fun i hmem => hitems i (hsub i ((List.mergeSort_perm _ _).mem_iff.1 hmem))
  simp only [present, hpassed, hpassed', hsorted, hdistinct, hpage]

/-- Alike clauses give the same rows when their joined rows correspond. -/
theorem Alike.rows_eq {c c' : Clauses} (h : c.Alike R c') {rows : List ι} {frame frame' : ι → Frame}
    (hframes : c.frames = rows.map frame) (hframes' : c'.frames = rows.map frame') {outer outer' : Frame}
    (hrow : ∀ i (group : List ι), R ⟨frame i, group.map frame⟩ ⟨frame' i, group.map frame'⟩)
    (hnone : R ⟨outer, []⟩ ⟨outer', []⟩) (ops : Operators) (wholeTable : Bool) :
    c.rows ops outer wholeTable = c'.rows ops outer' wholeTable := by
  have hone : ∀ i, R (.ofFrame (frame i)) (.ofFrame (frame' i)) := fun i => hrow i []
  have hkept : c'.kept = (rows.filter fun i => c.condition (.ofFrame (frame i)) = .yes).map frame' := by
    rw [kept_eq hframes']
    congr 2
    funext i
    simp only [h.condition _ _ (hone i)]
  obtain ⟨kept, hlist⟩ : ∃ kept, kept = rows.filter fun i => c.condition (.ofFrame (frame i)) = .yes := ⟨_, rfl⟩
  rw [← hlist] at hkept
  have hplaces : c'.places frame' kept wholeTable = c.places frame kept wholeTable := by
    have hkey : (fun i => c'.groupKey (.ofFrame (frame' i))) = fun i => c.groupKey (.ofFrame (frame i)) :=
      funext fun i => (h.groupKey _ _ (hone i)).symm
    have hkeyAt := congrFun hkey
    simp only [places, h.grouped, hkeyAt]
  have hplace : ∀ place ∈ c.places frame kept wholeTable,
      R (contextOf frame outer place) (contextOf frame' outer' place) := by
    rintro ⟨i, group⟩ hmem
    cases i with
    | some i => exact hrow i group
    | none =>
      have hempty : group = [] := by simpa using mem_places hmem
      rw [hempty]
      exact hnone
  rw [rows_eq_present, rows_eq_present, contexts_eq (hlist ▸ kept_eq hframes), contexts_eq hkept, hplaces]
  exact present_eq (fun place hmem => h.having _ _ (hplace place hmem))
    (fun place hmem => h.sortKey _ _ (hplace place hmem)) (fun place hmem => h.items _ _ (hplace place hmem))
    h.directions h.distinct h.page ops

end Clauses

/-! ## Queries -/

/-- expressions that read the same from contexts that correspond -/
structure Expr.Alike (db : Database) (R : Context → Context → Prop) (x y : Expr) : Prop where
  reads : ∀ a b, R a b → x.eval db a = y.eval db b
  aggregates : x.aggregates = y.aggregates

/-- queries whose clauses read the same from contexts that correspond -/
structure Query.Alike (db : Database) (R : Context → Context → Prop) (q q' : Query) : Prop where
  select : List.Forall₂ (Expr.Alike db R) (q.select.map (·.expr)) (q'.select.map (·.expr))
  condition : ∀ a b, R a b → (evalCondition db q.condition a = .yes ↔ evalCondition db q'.condition b = .yes)
  groupBy : List.Forall₂ (Expr.Alike db R) q.groupBy q'.groupBy
  having : ∀ a b, R a b → (evalCondition db q.having a = .yes ↔ evalCondition db q'.having b = .yes)
  filtersGroups : q.having.isSome = q'.having.isSome
  orderBy : List.Forall₂ (Expr.Alike db R) (q.orderBy.map (·.expr)) (q'.orderBy.map (·.expr))
  directions : q.orderBy.map (·.direction) = q'.orderBy.map (·.direction)
  distinct : q.distinct = q'.distinct
  page : q.page = q'.page

section Lists

variable {xs ys : List Expr}

theorem map_eval_alike (h : List.Forall₂ (Expr.Alike db R) xs ys) {a b : Context} (hab : R a b) :
    xs.map (fun x => x.eval db a) = ys.map fun y => y.eval db b := by
  induction h with
  | nil => rfl
  | cons hx _ ih => rw [List.map_cons, List.map_cons, hx.reads a b hab, ih]

theorem isEmpty_alike (h : List.Forall₂ (Expr.Alike db R) xs ys) : xs.isEmpty = ys.isEmpty := by
  cases h <;> rfl

theorem any_aggregates_alike (h : List.Forall₂ (Expr.Alike db R) xs ys) :
    xs.any Expr.aggregates = ys.any Expr.aggregates := by
  induction h with
  | nil => rfl
  | cons hx _ ih => rw [List.any_cons, List.any_cons, hx.aggregates, ih]

theorem evalList_eq_map : (es : List Expr) → (context : Context) →
    evalList db es context = es.map fun e => e.eval db context
  | [], _ => rfl
  | _ :: rest, context => by simp only [evalList, evalList_eq_map rest, List.map_cons]

theorem evalKeys_eq_map : (keys : List OrderKey) → (context : Context) →
    evalKeys db keys context = keys.map fun key => key.expr.eval db context
  | [], _ => rfl
  | ⟨_, _⟩ :: rest, context => by simp only [evalKeys, evalKeys_eq_map rest, List.map_cons]

/-- Conjunctions of alike conditions hold together. -/
theorem conjunction_alike (h : List.Forall₂ (Expr.Alike db R) xs ys) {a b : Context} (hab : R a b) :
    evalCondition db (Expr.conjunction xs) a = .yes ↔ evalCondition db (Expr.conjunction ys) b = .yes := by
  have hvalues := map_eval_alike h hab
  have hall : ∀ (es : List Expr) (context : Context), (∀ e ∈ es, db.truth (e.eval db context) = .yes) ↔
      ∀ v ∈ es.map (fun e => e.eval db context), db.truth v = .yes := by
    intro es context
    simp
  rw [evalCondition_conjunction, evalCondition_conjunction, hall, hall, hvalues]

theorem isSome_conjunction (es : List Expr) : (Expr.conjunction es).isSome = !es.isEmpty := by
  cases es <;> rfl

end Lists

namespace Query

variable {q q' : Query}

theorem Alike.isGrouped_eq (h : q.Alike db R q') : q.isGrouped = q'.isGrouped := by
  have hselect := any_aggregates_alike h.select
  have horder := any_aggregates_alike h.orderBy
  have hkeys := isEmpty_alike h.groupBy
  rw [List.any_map, List.any_map] at hselect horder
  simp only [isGrouped, hkeys, h.filtersGroups]
  exact congrArg₂ (· || ·) (congrArg₂ (· || ·) rfl hselect) horder

theorem Alike.clauses (h : q.Alike db R q') (outer outer' : Frame) :
    (q.clauses db outer).Alike R (q'.clauses db outer') where
  condition := h.condition
  grouped := h.isGrouped_eq
  groupKey a b hab := by
    simp only [Query.clauses, evalList_eq_map]
    exact map_eval_alike h.groupBy hab
  having := h.having
  sortKey a b hab := by
    have hkeys := map_eval_alike h.orderBy hab
    rw [List.map_map, List.map_map] at hkeys
    simp only [Query.clauses, evalKeys_eq_map]
    exact hkeys
  directions := by
    have hdirections := congrArg (List.map fun direction => Option.getD direction SortDirection.asc) h.directions
    rw [List.map_map, List.map_map] at hdirections
    exact hdirections
  items a b hab := by
    have hitems := map_eval_alike h.select hab
    rw [List.map_map, List.map_map] at hitems
    simp only [Query.clauses, evalItems_eq_map]
    exact hitems
  distinct := h.distinct
  page := h.page

/-! ## Queries read with other tables around them -/

/-- Alike queries whose joined rows correspond one by one when each is read with its own tables around it. -/
inductive Parallel (db : Database) (q q' : Query) (outer outer' : Frame) : Prop
  | mk {ι : Type} {R : Context → Context → Prop} {rows : List ι} {frame frame' : ι → Frame} (alike : q.Alike db R q')
    (frames : joinFrames db q.joins (sourceFrames db q.source outer) = rows.map frame)
    (frames' : joinFrames db q'.joins (sourceFrames db q'.source outer') = rows.map frame')
    (row : ∀ i (group : List ι), R ⟨frame i, group.map frame⟩ ⟨frame' i, group.map frame'⟩)
    (none : R ⟨outer, []⟩ ⟨outer', []⟩) : Parallel db q q' outer outer'

variable {outer outer' : Frame}

/-- Parallel queries give the same rows. -/
theorem Parallel.eval_eq (h : q.Parallel db q' outer outer') : q.eval db outer = q'.eval db outer' := by
  obtain ⟨alike, frames, frames', row, none⟩ := h
  rw [Query.eval_eq, Query.eval_eq, isEmpty_alike alike.groupBy]
  exact (alike.clauses outer outer').rows_eq frames frames' row none _ _

theorem Parallel.unordered (h : q.Parallel db q' outer outer') :
    q.unordered.Parallel db q'.unordered outer outer' := by
  obtain ⟨alike, frames, frames', row, none⟩ := h
  refine ⟨⟨alike.select, alike.condition, alike.groupBy, alike.having, alike.filtersGroups, .nil, rfl, alike.distinct,
    alike.page⟩, frames, frames', row, none⟩

/-- the same constant in place of the outputs -/
theorem Parallel.selecting (h : q.Parallel db q' outer outer') (n : Int64) :
    { q with select := [⟨.int n, none⟩] }.Parallel db { q' with select := [⟨.int n, none⟩] } outer outer' := by
  obtain ⟨alike, frames, frames', row, none⟩ := h
  exact ⟨{ alike with select := .cons ⟨fun _ _ _ => rfl, rfl⟩ .nil }, frames, frames', row, none⟩

/-- Around queries of as many rows a constant is given as many times. -/
theorem around_eval_eq (n : Int64) (h : (q.eval db outer).length = (q'.eval db outer').length)
    (name name' : String) : (around (.int n) q name).eval db outer = (around (.int n) q' name').eval db outer' := by
  have hrows : ∀ (q : Query) (name : String) (outer : Frame),
      (around (.int n) q name).eval db outer = List.replicate (q.eval db outer).length [.int n] := by
    intro q name outer
    have hperm : ((around (.int n) q name).eval db outer).Perm _ := eval_plain rfl rfl rfl rfl outer
    have hsource : sourceFrames db (around (.int n) q name).source outer = _ := sourceFrames_derived q name outer
    rw [hsource] at hperm
    refine List.eq_replicate_iff.2 ⟨?_, fun row hrow => ?_⟩
    · rw [hperm.length_eq]
      simp [around, Query.selecting, joinFrames, evalCondition]
    · obtain ⟨frame, -, rfl⟩ := List.mem_map.1 (hperm.mem_iff.1 hrow)
      rfl
  rw [hrows, hrows, h]

end Query

end RelQuery.Sql
