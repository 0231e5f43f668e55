/-
Lists without repetitions, lists side by side and lists in order.
-/
import Mathlib.Tactic

namespace RelQuery

theorem nodup_eraseDups {α : Type} [BEq α] [LawfulBEq α] (xs : List α) : xs.eraseDups.Nodup := by
  induction h : xs.length using Nat.strong_induction_on generalizing xs with
  | h n ih =>
    cases xs with
    | nil => simp
    | cons x rest =>
      have hshorter : (rest.filter fun other => !other == x).length < n := by
        have := List.length_filter_le (fun other => !other == x) rest
        rw [← h, List.length_cons]
        omega
      rw [List.eraseDups_cons, List.nodup_cons]
      exact ⟨by simp [List.mem_eraseDups], ih _ hshorter _ rfl⟩

/-- The same elements in another order are the same different elements. -/
theorem perm_eraseDups {α : Type} [BEq α] [LawfulBEq α] {xs ys : List α} (h : xs.Perm ys) :
    xs.eraseDups.Perm ys.eraseDups :=
  (List.perm_ext_iff_of_nodup (nodup_eraseDups xs) (nodup_eraseDups ys)).2 fun x => by
    rw [List.mem_eraseDups, List.mem_eraseDups, h.mem_iff]

/-- Repetitions among the elements of one kind are those among all elements. -/
theorem eraseDups_filter {α : Type} [BEq α] [LawfulBEq α] (p : α → Bool) (xs : List α) :
    (xs.filter p).eraseDups = xs.eraseDups.filter p := by
  induction h : xs.length using Nat.strong_induction_on generalizing xs with
  | h n ih =>
    cases xs with
    | nil => rfl
    | cons x rest =>
      have hshorter : (rest.filter fun other => !other == x).length < n := by
        have := List.length_filter_le (fun other => !other == x) rest
        rw [← h, List.length_cons]
        omega
      have hrest := ih _ hshorter _ rfl
      rw [List.filter_filter] at hrest
      rw [List.eraseDups_cons]
      by_cases hx : p x = true
      · rw [List.filter_cons_of_pos hx, List.filter_cons_of_pos hx, List.eraseDups_cons, List.filter_filter, ← hrest]
        simp only [Bool.and_comm]
      · rw [List.filter_cons_of_neg hx, List.filter_cons_of_neg hx, ← hrest]
        congr 1
        apply List.filter_congr
        intro other _
        by_cases hsame : other = x
        · simp [hsame, hx]
        · simp [hsame]

theorem forall_mem_cons_append {α : Type} {P : α → Prop} {x : α} {xs ys : List α} :
    (∀ y ∈ x :: (xs ++ ys), P y) ↔ P x ∧ (∀ y ∈ xs, P y) ∧ ∀ y ∈ ys, P y := by
  rw [List.forall_mem_cons, List.forall_mem_append]

theorem exists_of_mem_zipWith {α β γ : Type} {f : α → β → γ} {as : List α} {bs : List β} {c : γ}
    (h : c ∈ List.zipWith f as bs) : ∃ a ∈ as, ∃ b ∈ bs, f a b = c := by
  rw [← List.map_uncurry_zip_eq_zipWith] at h
  obtain ⟨⟨a, b⟩, hpair, rfl⟩ := List.mem_map.1 h
  obtain ⟨ha, hb⟩ := List.of_mem_zip hpair
  exact ⟨a, ha, b, hb, rfl⟩

theorem map_zip_map {α β γ : Type} (xs : List α) (f : α → β) (g : α × β → γ) :
    (xs.zip (xs.map f)).map g = xs.map fun x => g (x, f x) := by
  induction xs with
  | nil => rfl
  | cons x rest ih => rw [List.map_cons, List.zip_cons_cons, List.map_cons, List.map_cons, ih]

theorem exists_of_forall₂ {α β : Type*} {R : α → β → Prop} {as : List α} {bs : List β} (h : List.Forall₂ R as bs)
    {a : α} (ha : a ∈ as) : ∃ b, (a, b) ∈ as.zip bs ∧ R a b := by
  induction h with
  | nil => cases ha
  | @cons first b rest more hfirst _ ih =>
    rcases List.mem_cons.1 ha with rfl | ha
    · exact ⟨b, List.mem_cons_self, hfirst⟩
    · obtain ⟨other, hother, hR⟩ := ih ha
      exact ⟨other, List.mem_cons_of_mem _ hother, hR⟩

/-- A traversal that succeeds has succeeded at each element, in order. -/
theorem forall₂_of_mapM_ok {ε α β : Type} {f : α → Except ε β} {as : List α} {bs : List β} (h : as.mapM f = .ok bs) :
    List.Forall₂ (fun a b => f a = .ok b) as bs := by
  induction as generalizing bs with
  | nil =>
    obtain rfl := Except.ok.inj h
    exact .nil
  | cons first rest ih =>
    rw [List.mapM_cons] at h
    cases hfirst : f first with
    | error e => simp [hfirst, bind, Except.bind] at h
    | ok b =>
      cases hrest : rest.mapM f with
      | error e => simp [hfirst, hrest, bind, Except.bind] at h
      | ok more =>
        obtain rfl : b :: more = bs := by simpa [hfirst, hrest, bind, Except.bind, pure, Except.pure] using h
        exact .cons hfirst (ih hrest)

theorem exists_of_mapM_ok {ε α β : Type} {f : α → Except ε β} {as : List α} {bs : List β} (h : as.mapM f = .ok bs)
    {a : α} (ha : a ∈ as) : ∃ b ∈ bs, f a = .ok b := by
  obtain ⟨b, hpair, heq⟩ := exists_of_forall₂ (forall₂_of_mapM_ok h) ha
  exact ⟨b, (List.of_mem_zip hpair).2, heq⟩

/-- The results of a traversal come from the members of the list. -/
theorem mem_of_mapM_ok {ε α β : Type} {f : α → Except ε β} {as : List α} {bs : List β} (h : as.mapM f = .ok bs) {b : β}
    (hb : b ∈ bs) : ∃ a ∈ as, f a = .ok b := by
  obtain ⟨a, hpair, heq⟩ := exists_of_forall₂ (forall₂_of_mapM_ok h).flip hb
  exact ⟨a, (List.of_mem_zip hpair).2, heq⟩

theorem mapM_congr {ε α β : Type} {f g : α → Except ε β} {xs : List α} (h : ∀ x ∈ xs, f x = g x) :
    xs.mapM f = xs.mapM g := by
  induction xs with
  | nil => rfl
  | cons x rest ih =>
    rw [List.mapM_cons, List.mapM_cons, h x List.mem_cons_self, ih fun y hy => h y (List.mem_cons_of_mem _ hy)]

theorem mapM_snoc {ε α β : Type} {f : α → Except ε β} {xs : List α} {ys : List β} {x : α} {y : β}
    (h : xs.mapM f = .ok ys) (hx : f x = .ok y) : (xs ++ [x]).mapM f = .ok (ys ++ [y]) := by
  rw [List.mapM_append, h, List.mapM_cons, hx]
  rfl

/-- An element of a list in two parts is in the first or in the second. -/
theorem append_eq_append_cons {α : Type*} {xs ys before later : List α} {x : α} (h : xs ++ ys = before ++ x :: later) :
    (∃ between, xs = before ++ x :: between ∧ later = between ++ ys) ∨
      ∃ between, before = xs ++ between ∧ ys = between ++ x :: later := by
  rcases List.append_eq_append_iff.1 h with hsecond | ⟨between, hxs, hlater⟩
  · exact .inr hsecond
  · cases between with
    | nil => exact .inr ⟨[], by rw [hxs, List.append_nil, List.append_nil], hlater.symm⟩
    | cons y between =>
      rw [List.cons_append] at hlater
      obtain ⟨rfl, rfl⟩ := List.cons.inj hlater
      exact .inl ⟨between, hxs, rfl⟩

/-- A traversal that fails has failed at one of the members of the list. -/
theorem exists_of_mapM_error {ε α β : Type} {f : α → Except ε β} {as : List α} {e : ε} (h : as.mapM f = .error e) :
    ∃ a ∈ as, f a = .error e := by
  induction as with
  | nil => cases h
  | cons first rest ih =>
    rw [List.mapM_cons] at h
    cases hfirst : f first with
    | error failure =>
      rw [hfirst] at h
      cases h
      exact ⟨first, List.mem_cons_self, hfirst⟩
    | ok b =>
      rw [hfirst] at h
      cases hrest : rest.mapM f with
      | error failure =>
        rw [hrest] at h
        cases h
        obtain ⟨a, ha, heq⟩ := ih hrest
        exact ⟨a, List.mem_cons_of_mem first ha, heq⟩
      | ok bs =>
        rw [hrest] at h
        cases h

/-- Where the elements with a property have different keys, each of them is told by its key. -/
theorem eq_of_pairwise_key {α β : Type*} {P : α → Prop} {key : α → β} {xs : List α}
    (h : xs.Pairwise fun a b => P a → P b → key a ≠ key b) {a b : α} (ha : a ∈ xs) (hb : b ∈ xs) (hPa : P a) (hPb : P b)
    (hkey : key a = key b) : a = b := by
  have : Std.Symm fun a b : α => P a → P b → key a ≠ key b := ⟨fun _ _ h hb ha => (h ha hb).symm⟩
  by_contra hne
  exact h.forall ha hb hne hPa hPb hkey

theorem forall₂_append_inj {α β : Type*} {R : α → β → Prop} {as more : List α} {bs others : List β}
    (h : List.Forall₂ R (as ++ more) (bs ++ others)) (hlength : as.length = bs.length) :
    List.Forall₂ R as bs ∧ List.Forall₂ R more others := by
  have hfirst := List.forall₂_take_append _ _ _ h
  have hlast := List.forall₂_drop_append _ _ _ h
  rw [← hlength, List.take_left] at hfirst
  rw [← hlength, List.drop_left] at hlast
  exact ⟨hfirst, hlast⟩

/-- Lists are mapped to the same list when they agree element by element. -/
theorem map_eq_map_iff_forall₂ {α β γ : Type*} {f : α → γ} {g : β → γ} {as : List α} {bs : List β} :
    as.map f = bs.map g ↔ List.Forall₂ (fun a b => f a = g b) as bs := by
  rw [← List.forall₂_eq_eq_eq, List.forall₂_map_left_iff, List.forall₂_map_right_iff]

theorem filterMap_eq_of_forall₂ {α β γ : Type} {f : α → Option γ} {g : β → Option γ} {as : List α} {bs : List β}
    (h : List.Forall₂ (fun a b => f a = g b) as bs) : as.filterMap f = bs.filterMap g := by
  induction h with
  | nil => rfl
  | cons hfirst _ ih => rw [List.filterMap_cons, List.filterMap_cons, hfirst, ih]

/-- Two lists over a common one, joined. -/
theorem forall₂_zipWith {α β γ δ : Type} {R : α → β → Prop} {S : β → γ → Prop} {T : α → δ → Prop} {g : β → γ → δ}
    (hstep : ∀ a b c, R a b → S b c → T a (g b c)) {as : List α} {bs : List β} {cs : List γ}
    (h : List.Forall₂ R as bs) (h' : List.Forall₂ S bs cs) : List.Forall₂ T as (List.zipWith g bs cs) := by
  induction h generalizing cs with
  | nil => exact .nil
  | cons hfirst _ ih =>
    cases h' with
    | cons hfirst' hrest => exact .cons (hstep _ _ _ hfirst hfirst') (ih hrest)

/-- What is found in one of two lists side by side is found in the other. -/
theorem find?_of_forall₂ {α β : Type} {R : α → β → Prop} {p : α → Bool} {q : β → Bool}
    (hsame : ∀ a b, R a b → p a = q b) {as : List α} {bs : List β} (h : List.Forall₂ R as bs) {a : α}
    (ha : as.find? p = some a) : ∃ b, bs.find? q = some b ∧ R a b := by
  induction h with
  | nil => cases ha
  | @cons a' b' _ _ hfirst _ ih =>
    rw [List.find?_cons] at ha ⊢
    rw [← hsame a' b' hfirst]
    cases hp : p a' with
    | true =>
      rw [hp] at ha
      obtain rfl := Option.some.inj ha
      exact ⟨b', rfl, hfirst⟩
    | false =>
      rw [hp] at ha
      exact ih ha

/-- Where the keys differ, an element is what is found by its key. -/
theorem find?_of_nodup_map {α β : Type} [DecidableEq β] {key : α → β} {xs : List α} (h : (xs.map key).Nodup) {a : α}
    (ha : a ∈ xs) : xs.find? (key · = key a) = some a := by
  have hsome : (xs.find? (key · = key a)).isSome := List.find?_isSome.2 ⟨a, ha, by simp⟩
  obtain ⟨found, hfound⟩ := Option.isSome_iff_exists.1 hsome
  have hkey : key found = key a := by simpa using List.find?_some hfound
  rw [hfound, List.inj_on_of_nodup_map h (List.mem_of_find?_eq_some hfound) ha hkey]

/-- A text of marked elements ends where the marks end. -/
theorem append_inj_of_forall {α : Type*} {p : α → Bool} {xs ys rest rest' : List α} (hxs : ∀ x ∈ xs, p x)
    (hys : ∀ y ∈ ys, p y) (hrest : ∀ x ∈ rest.head?, ¬p x) (hrest' : ∀ y ∈ rest'.head?, ¬p y)
    (h : xs ++ rest = ys ++ rest') : xs = ys ∧ rest = rest' := by
  induction xs generalizing ys with
  | nil =>
    cases ys with
    | nil => exact ⟨rfl, h⟩
    | cons y ys => exact absurd (hys y List.mem_cons_self) (hrest y (by simp_all))
  | cons x xs ih =>
    cases ys with
    | nil => exact absurd (hxs x List.mem_cons_self) (hrest' x (by rw [List.nil_append] at h; simp [← h]))
    | cons y ys =>
      obtain ⟨rfl, htail⟩ := List.cons.inj h
      obtain ⟨rfl, heq⟩ := ih (fun z hz => hxs z (List.mem_cons_of_mem _ hz))
        (fun z hz => hys z (List.mem_cons_of_mem _ hz)) htail
      exact ⟨rfl, heq⟩

end RelQuery
