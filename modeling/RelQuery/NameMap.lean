/-
Values by name, in ascending order of the names.

Names are ordered by code point, which is also the order of their UTF-8 bytes. A map is its list of entries; `insert`
keeps the list ascending and replaces the value of a name that is already there, so that listings, JSON objects and
fingerprints do not depend on the order in which names were given.
- `get?_insert_self`, `get?_insert_of_ne`: setting a name changes what is held under it and nothing else.
- `ascending_ofList`: a map made by insertion is in strictly ascending order, so no name occurs twice.
- `ext_get?`: such maps are told apart by what is found in them.
-/
namespace RelQuery

structure NameMap (α : Type) where
  entries : List (String × α) := []
deriving DecidableEq, Repr, Inhabited

namespace NameMap

variable {α : Type}

def empty : NameMap α := ⟨[]⟩

/-- an ascending entry list with one name set -/
def insertEntry (name : String) (value : α) : List (String × α) → List (String × α)
  | [] => [(name, value)]
  | (key, held) :: rest =>
    if name < key then (name, value) :: (key, held) :: rest
    else if name = key then (name, value) :: rest
    else (key, held) :: insertEntry name value rest

def insert (m : NameMap α) (name : String) (value : α) : NameMap α :=
  ⟨insertEntry name value m.entries⟩

def erase (m : NameMap α) (name : String) : NameMap α :=
  ⟨m.entries.filter fun entry => entry.1 ≠ name⟩

def get? (m : NameMap α) (name : String) : Option α := m.entries.lookup name

def contains (m : NameMap α) (name : String) : Bool := (m.get? name).isSome

def names (m : NameMap α) : List String := m.entries.map Prod.fst

/-- later values replace earlier ones of the same name -/
def ofList (members : List (String × α)) : NameMap α :=
  members.foldl (fun m member => m.insert member.1 member.2) empty

/-! ## Laws -/

theorem lookup_insertEntry_self (name : String) (value : α) (entries : List (String × α)) :
    (insertEntry name value entries).lookup name = some value := by
  induction entries with
  | nil => simp [insertEntry]
  | cons entry rest ih =>
    obtain ⟨key, held⟩ := entry
    simp only [insertEntry]
    split
    · simp
    · split
      · simp
      · rename_i hne
        have : (name == key) = false := beq_false_of_ne hne
        simp [List.lookup_cons, this, ih]

theorem lookup_insertEntry_of_ne {name other : String} (h : other ≠ name) (value : α) (entries : List (String × α)) :
    (insertEntry name value entries).lookup other = entries.lookup other := by
  have hno : (other == name) = false := beq_false_of_ne h
  induction entries with
  | nil => simp [insertEntry, List.lookup_cons, hno]
  | cons entry rest ih =>
    obtain ⟨key, held⟩ := entry
    simp only [insertEntry]
    split
    · simp [List.lookup_cons, hno]
    · split
      · rename_i heq
        subst heq
        simp [List.lookup_cons, hno]
      · simp [List.lookup_cons, ih]

/-- a name just set has its new value -/
theorem get?_insert_self (m : NameMap α) (name : String) (value : α) :
    (m.insert name value).get? name = some value :=
  lookup_insertEntry_self name value m.entries

/-- setting a name leaves every other name as it was -/
theorem get?_insert_of_ne (m : NameMap α) {name other : String} (h : other ≠ name) (value : α) :
    (m.insert name value).get? other = m.get? other :=
  lookup_insertEntry_of_ne h value m.entries

/-- A name is missing when nothing is found under it. -/
theorem get?_eq_none {m : NameMap α} {name : String} : m.get? name = none ↔ name ∉ m.names := by
  obtain ⟨entries⟩ := m
  rw [get?, names]
  induction entries with
  | nil => simp
  | cons entry rest ih =>
    rw [List.lookup_cons, List.map_cons, List.mem_cons, not_or, ← ih]
    by_cases hname : name = entry.1
    · simp [hname]
    · simp [hname, beq_false_of_ne hname]

theorem mem_names_of_get? {m : NameMap α} {name : String} {value : α} (h : m.get? name = some value) :
    name ∈ m.names :=
  Decidable.byContradiction fun hmissing => by simp [get?_eq_none.2 hmissing] at h

/-- A missing name that is set is one name more. -/
theorem names_insert_perm {m : NameMap α} {name : String} (h : m.get? name = none) (value : α) :
    (m.insert name value).names.Perm (name :: m.names) := by
  obtain ⟨entries⟩ := m
  rw [get?_eq_none] at h
  rw [names, names, insert]
  rw [names] at h
  dsimp only at h ⊢
  induction entries with
  | nil => exact .refl _
  | cons entry rest ih =>
    rw [List.map_cons, List.mem_cons, not_or] at h
    obtain ⟨hne, hrest⟩ := h
    rw [insertEntry, if_neg hne]
    split
    · exact .refl _
    · exact ((ih hrest).cons _).trans (.swap _ _ _)

theorem mem_names_insertEntry {name x : String} {value : α} {entries : List (String × α)} :
    x ∈ (insertEntry name value entries).map Prod.fst ↔ x = name ∨ x ∈ entries.map Prod.fst := by
  induction entries with
  | nil => simp [insertEntry]
  | cons entry rest ih =>
    obtain ⟨key, held⟩ := entry
    simp only [insertEntry]
    split
    · simp
    · split
      · rename_i heq
        subst heq
        simp
      · simp only [List.map_cons, List.mem_cons, ih]
        exact or_left_comm

theorem mem_insertEntry {name : String} {value : α} {entry : String × α} {entries : List (String × α)}
    (h : entry ∈ insertEntry name value entries) : entry = (name, value) ∨ entry ∈ entries := by
  induction entries with
  | nil => exact .inl (List.mem_singleton.1 h)
  | cons first rest ih =>
    obtain ⟨key, held⟩ := first
    simp only [insertEntry] at h
    split at h
    · exact List.mem_cons.1 h
    · split at h
      · exact (List.mem_cons.1 h).imp_right (List.mem_cons_of_mem _)
      · rcases List.mem_cons.1 h with rfl | h
        · exact .inr List.mem_cons_self
        · exact (ih h).imp_right (List.mem_cons_of_mem _)

/-- entries in ascending order, so that no name occurs twice -/
def Ascending (entries : List (String × α)) : Prop := (entries.map Prod.fst).Pairwise (· < ·)

theorem ascending_insertEntry {name : String} {value : α} {entries : List (String × α)} (h : Ascending entries) :
    Ascending (insertEntry name value entries) := by
  induction entries with
  | nil => simp [Ascending, insertEntry]
  | cons entry rest ih =>
    obtain ⟨key, held⟩ := entry
    have hrest : Ascending rest := (List.pairwise_cons.1 h).2
    have hkey : ∀ x ∈ rest.map Prod.fst, key < x := (List.pairwise_cons.1 h).1
    simp only [insertEntry]
    split
    · rename_i hlt
      refine List.pairwise_cons.2 ⟨fun x hx => ?_, h⟩
      rcases List.mem_cons.1 hx with rfl | hx
      · exact hlt
      · exact String.lt_trans hlt (hkey x hx)
    · split
      · rename_i heq
        subst heq
        exact List.pairwise_cons.2 ⟨hkey, hrest⟩
      · rename_i hnlt hne
        refine List.pairwise_cons.2 ⟨fun x hx => ?_, ih hrest⟩
        rcases mem_names_insertEntry.1 hx with rfl | hx
        · exact Decidable.byContradiction fun hge =>
            hne (String.le_antisymm (String.not_lt.1 hge) (String.not_lt.1 hnlt))
        · exact hkey x hx

/-- In ascending order an entry is what is found under its name. -/
theorem mem_iff_lookup {entries : List (String × α)} (h : Ascending entries) {name : String} {value : α} :
    (name, value) ∈ entries ↔ entries.lookup name = some value := by
  induction entries with
  | nil => simp
  | cons entry rest ih =>
    obtain ⟨key, held⟩ := entry
    obtain ⟨hkey, hrest⟩ := List.pairwise_cons.1 h
    rw [List.lookup_cons, List.mem_cons, ih hrest]
    by_cases hname : name = key
    · subst hname
      have hfree : rest.lookup name ≠ some value := fun hfound =>
        String.lt_irrefl name (hkey name (List.mem_map_of_mem ((ih hrest).2 hfound)))
      simp [hfree, eq_comm]
    · simp [hname, beq_false_of_ne hname]

/-- Maps in ascending order in which the same is found under each name are equal. -/
theorem ext_get? {m m' : NameMap α} (h : Ascending m.entries) (h' : Ascending m'.entries)
    (hget : ∀ name, m.get? name = m'.get? name) : m = m' := by
  have hnodup : ∀ {entries : List (String × α)}, Ascending entries → entries.Nodup := by
    intro entries hentries
    refine (List.pairwise_map.1 hentries).imp ?_
    rintro entry _ hlt rfl
    exact String.lt_irrefl _ hlt
  have hperm : m.entries.Perm m'.entries := by
    rw [List.perm_ext_iff_of_nodup (hnodup h) (hnodup h')]
    rintro ⟨name, value⟩
    rw [mem_iff_lookup h, mem_iff_lookup h']
    exact iff_of_eq (congrArg (· = some value) (hget name))
  obtain ⟨entries⟩ := m
  obtain ⟨entries'⟩ := m'
  refine congrArg NameMap.mk (hperm.eq_of_pairwise (fun a b _ _ hab hba => ?_) (List.pairwise_map.1 h)
    (List.pairwise_map.1 h'))
  exact absurd (String.lt_trans hab hba) (String.lt_irrefl _)

/-- every map made by insertion is in ascending order -/
theorem ascending_ofList (members : List (String × α)) : Ascending (ofList members).entries := by
  have step : ∀ (m : NameMap α), Ascending m.entries →
      Ascending (members.foldl (fun m member => m.insert member.1 member.2) m).entries := by
    induction members with
    | nil => exact fun _ h => h
    | cons member rest ih => exact fun m h => ih (m.insert member.1 member.2) (ascending_insertEntry h)
  exact step empty List.Pairwise.nil

end NameMap

end RelQuery
