/-
Pages of rows.

A query that groups nothing gives the rows it keeps in the order of its sort keys, and its page is a piece of that list
(`Query.eval_kept`). When values are in order so are sort keys (`sortsBefore_total`, `sortsBefore_trans`), and then the
order of the rows is settled up to rows that may change places: two lists of the same rows, sorted, show the same of
each row when rows that may change places show the same (`map_mergeSort_eq`).
-/
import RelQuery.Proofs.Sql.Alike

namespace RelQuery

/-- Of two values one may stand before the other, and values in between do not matter. -/
structure Operators.Preorders (ops : Operators) : Prop where
  total : ∀ a b, ops.before a b ∨ ops.before b a
  trans : ∀ a b c, ops.before a b → ops.before b c → ops.before a c

namespace Sql

/-! ## Sort keys -/

/-- whether a value may stand before another in a direction -/
def SortDirection.allows (ops : Operators) (a b : Value) : SortDirection → Bool
  | .asc => ops.before a b
  | .desc => ops.before b a

theorem sortsBefore_cons {ops : Operators} {direction : SortDirection} {directions : List SortDirection} {a b : Value}
    {as bs : List Value} : sortsBefore ops (direction :: directions) (a :: as) (b :: bs) = true ↔
      direction.allows ops a b = true ∧ (direction.allows ops b a = true → sortsBefore ops directions as bs = true) := by
  cases direction <;> simp only [sortsBefore, SortDirection.allows] <;> split <;> simp_all

section SortKeys

variable {ops : Operators} (h : ops.Preorders)

include h

theorem SortDirection.allows_total (direction : SortDirection) (a b : Value) :
    direction.allows ops a b = true ∨ direction.allows ops b a = true := by
  cases direction with
  | asc => exact h.total a b
  | desc => exact h.total b a

theorem SortDirection.allows_trans (direction : SortDirection) {a b c : Value} (hab : direction.allows ops a b = true)
    (hbc : direction.allows ops b c = true) : direction.allows ops a c = true := by
  cases direction with
  | asc => exact h.trans a b c hab hbc
  | desc => exact h.trans c b a hbc hab

theorem sortsBefore_total (directions : List SortDirection) (as bs : List Value) :
    sortsBefore ops directions as bs = true ∨ sortsBefore ops directions bs as = true := by
  induction directions generalizing as bs with
  | nil => exact .inl rfl
  | cons direction directions ih =>
    cases as with
    | nil => exact .inl rfl
    | cons a as =>
      cases bs with
      | nil => exact .inl rfl
      | cons b bs =>
        rw [sortsBefore_cons, sortsBefore_cons]
        have hfirst := direction.allows_total h a b
        have hrest := ih as bs
        tauto

/-- Keys of one length that may stand in an order by steps may stand in it. -/
theorem sortsBefore_trans (directions : List SortDirection) {as bs cs : List Value} (hbs : as.length = bs.length)
    (hcs : bs.length = cs.length) (hab : sortsBefore ops directions as bs = true)
    (hbc : sortsBefore ops directions bs cs = true) : sortsBefore ops directions as cs = true := by
  induction directions generalizing as bs cs with
  | nil => rfl
  | cons direction directions ih =>
    cases as with
    | nil => cases cs <;> rfl
    | cons a as =>
      obtain ⟨b, bs, rfl⟩ := List.exists_cons_of_length_eq_add_one hbs.symm
      obtain ⟨c, cs, rfl⟩ := List.exists_cons_of_length_eq_add_one hcs.symm
      rw [sortsBefore_cons] at hab hbc ⊢
      refine ⟨direction.allows_trans h hab.1 hbc.1, fun hca => ?_⟩
      -- when the ends of the chain are level, so are its steps
      have hba : direction.allows ops b a = true := direction.allows_trans h hbc.1 hca
      have hcb : direction.allows ops c b = true := direction.allows_trans h hca hab.1
      exact ih (Nat.succ.inj hbs) (Nat.succ.inj hcs) (hab.2 hba) (hbc.2 hcb)

end SortKeys

/-! ## Sorted lists -/

/-- Sorted, lists of the same things show the same one by one, when things that may change places show the same. -/
theorem map_mergeSort_eq {α β : Type} {le : α → α → Bool} (htotal : ∀ a b, le a b || le b a)
    (htrans : ∀ a b c, le a b → le b c → le a c) {f : α → β} {xs ys : List α} (hperm : xs.Perm ys)
    (hties : ∀ a ∈ xs, ∀ b ∈ xs, le a b → le b a → f a = f b) :
    (xs.mergeSort le).map f = (ys.mergeSort le).map f := by
  -- of each thing only what stands after it and what it shows is compared, and that cannot change places
  obtain ⟨view, hview⟩ : ∃ view : α → (α → Bool) × β, view = fun a => (le a, f a) := ⟨_, rfl⟩
  have hself : ∀ a, le a a := fun a => by simpa using htotal a a
  have hsorted : ∀ zs : List α, zs.Perm xs → ((zs.mergeSort le).map view).Pairwise fun p q =>
      ∃ a ∈ xs, ∃ b ∈ xs, p = view a ∧ q = view b ∧ le a b := by
    intro zs hzs
    have hmem : ∀ a, a ∈ zs.mergeSort le ↔ a ∈ xs := fun a => ((List.mergeSort_perm zs le).trans hzs).mem_iff
    refine List.pairwise_map.2 ((List.pairwise_mergeSort htrans htotal zs).imp_of_mem fun {a b} ha hb hab => ?_)
    exact ⟨a, (hmem a).1 ha, b, (hmem b).1 hb, rfl, rfl, hab⟩
  have hsame : (xs.mergeSort le).map view = (ys.mergeSort le).map view := by
    have hviews := (((List.mergeSort_perm xs le).trans hperm).trans (List.mergeSort_perm ys le).symm).map view
    refine List.Perm.eq_of_pairwise (fun p q _ _ hpq hqp => ?_) (hsorted xs (.refl xs)) (hsorted ys hperm.symm) hviews
    obtain ⟨a, ha, b, hb, rfl, rfl, hab⟩ := hpq
    obtain ⟨b', -, a', -, hb', ha', hba⟩ := hqp
    obtain ⟨hafterB, -⟩ := Prod.mk.inj (hview ▸ hb')
    obtain ⟨hafterA, -⟩ := Prod.mk.inj (hview ▸ ha')
    have hback : le b a := by
      have hlast : le a' a := hafterA ▸ hself a
      exact htrans b a' a (hafterB ▸ hba) hlast
    have hshown := hties a ha b hb hab hback
    have hafter : le a = le b := funext fun c =>
      Bool.eq_iff_iff.2 ⟨fun hac => htrans b a c hback hac, fun hbc => htrans a b c hab hbc⟩
    rw [hview]
    exact Prod.ext hafter hshown
  have hsnd := congrArg (List.map Prod.snd) hsame
  rw [List.map_map, List.map_map, hview] at hsnd
  exact hsnd

/-! ## Queries -/

/-- the piece of a list that is its page; without a page all of it -/
def sliced {α : Type} (page : Option Page) (rows : List α) : List α :=
  match page with
  | some page => page.slice rows
  | none => rows

theorem sliced_map {α β : Type} (page : Option Page) (f : α → β) (rows : List α) :
    sliced page (rows.map f) = (sliced page rows).map f := by
  cases page with
  | none => rfl
  | some page =>
    simp only [sliced, Page.slice, ← List.map_drop]
    split
    · rw [List.map_take]
    · rfl

theorem mem_of_mem_sliced {α : Type} {page : Option Page} {rows : List α} {row : α} (h : row ∈ sliced page rows) :
    row ∈ rows := by
  cases page with
  | none => exact h
  | some page =>
    simp only [sliced, Page.slice] at h
    split at h
    · exact List.mem_of_mem_drop (List.mem_of_mem_take h)
    · exact List.mem_of_mem_drop h

namespace Query

variable {db : Database}

/-- whether a query may give one row before another -/
def putsBefore (db : Database) (q : Query) (a b : Frame) : Bool :=
  sortsBefore db.toOperators (q.orderBy.map fun key => key.direction.getD .asc) (evalKeys db q.orderBy (.ofFrame a))
    (evalKeys db q.orderBy (.ofFrame b))

/-- whether a query keeps a joined row -/
def keepsRow (db : Database) (q : Query) (frame : Frame) : Bool := evalCondition db q.condition (.ofFrame frame) = .yes

/-- A query without groups gives a page of the rows it keeps, in order. -/
theorem eval_kept {q : Query} (hgrouped : q.isGrouped = false) (hhaving : q.having = none)
    (hdistinct : q.distinct = false) {outer : Frame} {ι : Type} {rows : List ι} {frame : ι → Frame}
    (hframes : joinFrames db q.joins (sourceFrames db q.source outer) = rows.map frame) :
    q.eval db outer =
      (sliced q.page ((rows.filter fun i => q.keepsRow db (frame i)).mergeSort fun i j =>
        q.putsBefore db (frame i) (frame j))).map fun i => q.select.map fun item => item.expr.eval db (.ofFrame (frame i))
    := by
  obtain ⟨kept, hkept⟩ : ∃ kept, kept = rows.filter fun i => q.keepsRow db (frame i) := ⟨_, rfl⟩
  have hclauses : (q.clauses db outer).kept = kept.map frame := by
    rw [Clauses.kept_eq hframes, hkept]
    rfl
  have hcontexts : ((q.clauses db outer).contexts outer q.groupBy.isEmpty).filter
      (fun context => (q.clauses db outer).having context = .yes) = kept.map fun i => .ofFrame (frame i) := by
    have hall : ∀ context, (q.clauses db outer).having context = .yes := fun context => by
      simp [clauses, hhaving, evalCondition]
    have hplain : (q.clauses db outer).grouped = false := hgrouped
    simp [Clauses.contexts, hplain, hclauses, hall, Function.comp_def]
  have hsorted : (q.clauses db outer).sorted db.toOperators (kept.map fun i => .ofFrame (frame i)) =
      (kept.mergeSort fun i j => q.putsBefore db (frame i) (frame j)).map fun i => .ofFrame (frame i) :=
    (List.map_mergeSort (f := fun i => Context.ofFrame (frame i)) (l := kept)
      (r := fun i j => q.putsBefore db (frame i) (frame j)) (s := fun a b => sortsBefore db.toOperators
        (q.clauses db outer).directions ((q.clauses db outer).sortKey a) ((q.clauses db outer).sortKey b))
      fun _ _ _ _ => rfl).symm
  have hrepeats : (q.clauses db outer).distinct = false := hdistinct
  have hrows : q.eval db outer = sliced q.page
      ((kept.mergeSort fun i j => q.putsBefore db (frame i) (frame j)).map fun i => evalItems db q.select
        (.ofFrame (frame i))) := by
    rw [eval_eq, Clauses.rows, hcontexts, hsorted, List.map_map]
    simp only [hrepeats, Bool.false_eq_true, if_false]
    rfl
  rw [hrows, sliced_map, hkept]
  exact List.map_congr_left fun i _ => evalItems_eq_map q.select _

/-- Rows that are kept in order already need no sorting. -/
theorem eval_sorted {q : Query} (hgrouped : q.isGrouped = false) (hhaving : q.having = none)
    (hdistinct : q.distinct = false) {outer : Frame} {frames : List Frame} (hkept : (q.clauses db outer).kept = frames)
    (hsorted : frames.Pairwise fun a b => q.putsBefore db a b = true) :
    q.eval db outer =
      (sliced q.page frames).map fun frame => q.select.map fun item => item.expr.eval db (.ofFrame frame) := by
  obtain ⟨joined, hjoined⟩ : ∃ joined, joined = joinFrames db q.joins (sourceFrames db q.source outer) := ⟨_, rfl⟩
  have hfilter : joined.filter (fun frame => q.keepsRow db frame) = frames := hjoined ▸ hkept
  have hrows := eval_kept hgrouped hhaving hdistinct (hjoined.symm.trans (List.map_id' joined).symm)
  rw [hrows, hfilter, List.mergeSort_of_pairwise hsorted]

end Query

end Sql

end RelQuery
