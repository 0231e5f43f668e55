/-
Where the names of members lead.

A path of one segment is looked up among the relations of an entity and then among its fields, the first of a name being
found; a path of several goes through relations. So a field or a relation is reached by its own name when that name holds
no dot and is not that of an earlier one, and a field named `pk` besides only when it is the primary key.
- `Schema.ofDrafts_member`: what a schema refuses among the names of members.
- `Schema.resolve_field_iff`, `Schema.resolve_relation_iff`: when a member is reached by its name.
-/
import RelQuery.Proofs.Schema.Keys

namespace RelQuery

/-! ## Paths of one segment -/

theorem not_mem_of_mem_splitDots {cs piece : List Char} (h : piece ∈ splitDots cs) : '.' ∉ piece := by
  induction cs generalizing piece with
  | nil => simp_all [splitDots]
  | cons c rest ih =>
    rw [splitDots] at h
    split at h
    · rcases List.mem_cons.1 h with rfl | h
      · exact List.not_mem_nil
      · exact ih h
    · next hc =>
      cases hpieces : splitDots rest with
      | nil => exact absurd hpieces (splitDots_ne_nil rest)
      | cons first more =>
        rw [hpieces] at h ih
        rcases List.mem_cons.1 h with rfl | h
        · rw [List.mem_cons, not_or]
          exact ⟨Ne.symm hc, ih List.mem_cons_self⟩
        · exact ih (List.mem_cons_of_mem _ h)

/-- The segments of a path hold no dots. -/
theorem not_mem_of_mem_pathSegments {path segment : String} (h : segment ∈ pathSegments path) :
    '.' ∉ segment.toList := by
  obtain ⟨piece, hpiece, rfl⟩ := List.mem_map.1 h
  rw [String.toList_ofList]
  exact not_mem_of_mem_splitDots hpiece

/-- A path is its one segment, or has several and is none of them. -/
theorem pathSegments_tells (path : String) : ('.' ∉ path.toList ∧ pathSegments path = [path]) ∨
    '.' ∈ path.toList ∧ ∃ head second rest, pathSegments path = head :: second :: rest := by
  by_cases hdot : '.' ∈ path.toList
  · rcases pathSegments_cases path with hsingle | hseveral
    · exact absurd hdot (not_mem_of_mem_pathSegments (hsingle ▸ List.mem_cons_self))
    · exact .inr ⟨hdot, hseveral⟩
  · exact .inl ⟨hdot, pathSegments_of_undotted hdot⟩

namespace Schema

variable {drafts : List EntityDraft} {schema : Schema} {e : Entity}

/-- A relation of a checked schema is named neither like a field nor `pk`. -/
theorem ofDrafts_member (h : ofDrafts drafts = .ok schema) (he : e ∈ schema.entities) {r : Relation}
    (hr : r ∈ e.relations) : r.name ≠ "pk" ∧ r.name ∉ e.columnNames := by
  obtain ⟨draft, -, hsettle, relation, -, hsettled⟩ := ofDrafts_origin h he hr
  obtain ⟨hfield, hpk, target, -, -, -, rfl⟩ := RelationDraft.settle_eq_ok.1 hsettled
  refine ⟨hpk, fun hmem => ?_⟩
  rw [EntityDraft.settle_columnNames hsettle] at hmem
  have hsome : (draft.field relation.name).isSome := by
    rw [EntityDraft.field_isSome, fieldName, if_neg hpk]
    exact hmem
  rw [hfield] at hsome
  cases hsome

theorem relation_eq_none (h : ofDrafts drafts = .ok schema) (he : e ∈ schema.entities) {name : String} {f : Field}
    (hf : e.field name = some f) : e.relation name = none := by
  cases hfound : e.relation name with
  | none => rfl
  | some r =>
    have hhidden := (ofDrafts_relation h he (Entity.mem_of_relation hfound)).1
    rw [Entity.relation_name hfound, hf] at hhidden
    cases hhidden

theorem resolve_eq (h : ofDrafts drafts = .ok schema) (he : e ∈ schema.entities) (path : String) :
    schema.resolve e.name path = schema.follow (.unknownPath e.name path) e (pathSegments path) := by
  rw [resolve, ofDrafts_entity h he]
  rfl

/-- A name without a dot leads to the field that is found by it. -/
theorem resolve_undotted (h : ofDrafts drafts = .ok schema) (he : e ∈ schema.entities) {name : String}
    (hundotted : '.' ∉ name.toList) {f : Field} (hf : e.field name = some f) :
    schema.resolve e.name name = .ok ⟨[], e, f⟩ := by
  rw [resolve_eq h he, pathSegments_of_undotted hundotted, follow, relation_eq_none h he hf, hf]
  rfl

/-- Looked up by its name, a field without a dot in it leads to a field of that name, or to the key when it is `pk`. -/
theorem resolve_own (h : ofDrafts drafts = .ok schema) (he : e ∈ schema.entities) {f : Field} (hf : f ∈ e.fields)
    (hundotted : '.' ∉ f.name.toList) : ∃ g ∈ e.fields,
      FieldRef.resolve schema e.name f.name = .ok ⟨e.name, f.name, [], g⟩ ∧ g.name = fieldName e.primaryKey f.name := by
  have hsome : (e.field f.name).isSome := by
    by_cases hpk : f.name = "pk"
    · have hkey := (ofDrafts_keys h he).1
      rw [Entity.field, fieldName, ite_self] at hkey
      rw [Entity.field, fieldName, if_pos hpk]
      exact hkey
    · rw [Entity.field, fieldName, if_neg hpk]
      exact List.find?_isSome.2 ⟨f, hf, by simp⟩
  obtain ⟨g, hg⟩ := Option.isSome_iff_exists.1 hsome
  refine ⟨g, Entity.mem_of_field hg, ?_, by simpa using List.find?_some hg⟩
  rw [FieldRef.resolve, resolve_undotted h he hundotted hg]
  rfl

/-- Each relation leads to an entity with a key. -/
theorem ofDrafts_target (h : ofDrafts drafts = .ok schema) (he : e ∈ schema.entities) {r : Relation}
    (hr : r ∈ e.relations) :
    ∃ target key, schema.entity r.target = .ok target ∧ target.field target.primaryKey = some key := by
  obtain ⟨target, htarget⟩ := (ofDrafts_relation h he hr).2
  obtain ⟨key, hkey⟩ := Option.isSome_iff_exists.1 (ofDrafts_keys h (mem_of_entity htarget)).1
  exact ⟨target, key, htarget, hkey⟩

/-- A path of several segments goes along the relation that its first segment names. -/
theorem follow_several {failure : QueryError} {head second : String} {rest : List String} {resolved : ResolvedPath}
    (h : schema.follow failure e (head :: second :: rest) = .ok resolved) :
    ∃ r more, e.relation head = some r ∧ resolved.hops = r :: more := by
  rw [follow] at h
  split at h
  · next r hr =>
    obtain ⟨target, -, hmore⟩ := ok_of_bind h
    obtain ⟨path, -, hpure⟩ := ok_of_bind hmore
    obtain rfl := Except.ok.inj hpure
    exact ⟨r, path.hops, hr, rfl⟩
  · cases h

/-- A name with a dot leads through relations. -/
theorem resolve_dotted (h : ofDrafts drafts = .ok schema) (he : e ∈ schema.entities) {path : String} {ref : FieldRef}
    (hdotted : '.' ∈ path.toList) (href : FieldRef.resolve schema e.name path = .ok ref) : ref.hops ≠ [] := by
  obtain ⟨resolved, hresolved, hpure⟩ := ok_of_bind href
  obtain rfl := Except.ok.inj hpure
  rcases pathSegments_tells path with ⟨hundotted, -⟩ | ⟨-, head, second, rest, hseveral⟩
  · exact absurd hdotted hundotted
  · rw [resolve_eq h he, hseveral] at hresolved
    obtain ⟨r, more, -, hhops⟩ := follow_several hresolved
    simp [hhops]

/-- A field is reached by its own name when this is no path, belongs to no field before it, and is not `pk` on an entity
with another key. -/
theorem resolve_field_iff (h : ofDrafts drafts = .ok schema) (he : e ∈ schema.entities) (f : Field) :
    schema.resolve e.name f.name = .ok ⟨[], e, f⟩ ↔ '.' ∉ f.name.toList ∧ e.fields.find? (·.name = f.name) = some f ∧
      (f.name = "pk" → e.primaryKey = "pk") := by
  constructor
  · intro hresolve
    rw [resolve_eq h he] at hresolve
    rcases pathSegments_tells f.name with ⟨hundotted, hsingle⟩ | ⟨-, head, second, rest, hseveral⟩
    · rw [hsingle, follow] at hresolve
      split at hresolve
      · obtain ⟨target, -, hmore⟩ := ok_of_bind hresolve
        obtain ⟨key, -, hpure⟩ := ok_of_bind hmore
        cases hpure
      · obtain ⟨found, hfound, hpure⟩ := ok_of_bind hresolve
        obtain rfl : found = f := congrArg ResolvedPath.field (Except.ok.inj hpure)
        have hfield : e.fields.find? (·.name = fieldName e.primaryKey found.name) = some found := orFail_eq_ok.1 hfound
        have hname : found.name = fieldName e.primaryKey found.name := by simpa using List.find?_some hfield
        refine ⟨hundotted, hname ▸ hfield, fun hpk => ?_⟩
        rw [fieldName, if_pos hpk, hpk] at hname
        exact hname.symm
    · rw [hseveral] at hresolve
      obtain ⟨r, more, -, hhops⟩ := follow_several hresolve
      cases hhops
  · rintro ⟨hundotted, hfirst, hpk⟩
    have hname : fieldName e.primaryKey f.name = f.name := fieldName_eq_self.2 hpk
    exact resolve_undotted h he hundotted (by rw [Entity.field, hname, hfirst])

/-- A relation is reached by its own name, and leads to the key of its target, when this is no path and belongs to no
relation before it. -/
theorem resolve_relation_iff (h : ofDrafts drafts = .ok schema) (he : e ∈ schema.entities) {r : Relation}
    {target : Entity} {key : Field} (htarget : schema.entity r.target = .ok target)
    (hkey : target.field target.primaryKey = some key) :
    schema.resolve e.name r.name = .ok ⟨[r], target, key⟩ ↔
      '.' ∉ r.name.toList ∧ e.relation r.name = some r := by
  rw [resolve_eq h he]
  rcases pathSegments_tells r.name with ⟨hundotted, hsingle⟩ | ⟨hdotted, head, second, rest, hseveral⟩
  · rw [hsingle, follow]
    refine Iff.trans ?_ (and_iff_right hundotted).symm
    constructor
    · intro hresolve
      split at hresolve
      · next relation hrelation =>
        obtain ⟨reached, -, hmore⟩ := ok_of_bind hresolve
        obtain ⟨field, -, hpure⟩ := ok_of_bind hmore
        obtain rfl := List.singleton_inj.1 (congrArg ResolvedPath.hops (Except.ok.inj hpure))
        exact hrelation
      · obtain ⟨field, -, hpure⟩ := ok_of_bind hresolve
        cases hpure
    · intro hrelation
      rw [hrelation]
      dsimp only [bind, Except.bind]
      rw [htarget]
      dsimp only
      rw [hkey]
      rfl
  · refine iff_of_false (fun hresolve => ?_) fun hboth => hboth.1 hdotted
    rw [hseveral] at hresolve
    obtain ⟨relation, more, hrelation, hhops⟩ := follow_several hresolve
    obtain ⟨rfl, -⟩ := List.cons.inj hhops
    have hhead : head ∈ pathSegments r.name := hseveral ▸ List.mem_cons_self
    rw [← Entity.relation_name hrelation] at hhead
    exact not_mem_of_mem_pathSegments hhead hdotted

end Schema

end RelQuery
