/-
A registry over all sequences of calls.

A call declares an entity or asks the schema something. `Registry.perform` makes one call, `Registry.run` makes one
after another; the declarations that were accepted are read off the replies. What a registry holds follows from them:
it is open with these declarations, or sealed with the schema they make.
- `Records.perform`: one call keeps the registry to the accepted declarations.
- `records_after`: so does a run.
- `sealing`: when a registry seals, what it answers, and what each refusal leaves behind.
-/
import RelQuery.Plan.Builder
import RelQuery.Proofs.Schema.Names
import RelQuery.Schema.Registry

namespace RelQuery

/-! ## Missing entities -/

namespace Schema

theorem name_not_mem_of_ofDrafts {drafts : List EntityDraft} {draft : EntityDraft} {schema : Schema}
    (h : ofDrafts (drafts ++ [draft]) = .ok schema) : draft.name ∉ drafts.map (·.name) := by
  have hnodup := ofDrafts_nodup h
  rw [List.map_append] at hnodup
  exact fun hmem => List.disjoint_of_nodup_append hnodup hmem (List.mem_singleton.2 rfl)

/-- Declarations make no schema while the target of a relation is missing. -/
theorem ofDrafts_of_missing {drafts : List EntityDraft} {owner : EntityDraft} (howner : owner ∈ drafts)
    {r : RelationDraft} (hr : r ∈ owner.relations) (hmissing : r.target ∉ drafts.map (·.name)) :
    ∃ e, ofDrafts drafts = .error e := by
  cases h : ofDrafts drafts with
  | error e => exact ⟨e, rfl⟩
  | ok schema =>
    obtain ⟨-, hentities⟩ := ofDrafts_ok h
    obtain ⟨entity, -, hsettle⟩ := exists_of_mapM_ok hentities howner
    obtain ⟨relations, hrelations, -⟩ := ok_of_bind hsettle
    obtain ⟨relation, -, hrelation⟩ := exists_of_mapM_ok hrelations hr
    obtain ⟨-, -, target, htarget, -⟩ := RelationDraft.settle_eq_ok.1 hrelation
    have hname : target.name = r.target := by simpa using List.find?_some htarget
    exact absurd (hname ▸ List.mem_map_of_mem (List.mem_of_find?_eq_some htarget)) hmissing

end Schema

namespace Registry

/-! ## Calls -/

/-- what is asked of a schema -/
inductive Question where
  | schema
  | entity (name : String)
  | resolve (root path : String)
  | plan (entity : String)
deriving DecidableEq, Repr

/-- what a call gives when it succeeds -/
inductive Reply where
  | registered
  | schema (schema : Schema)
  | entity (entity : Entity)
  | resolved (path : ResolvedPath)
  | plan (plan : Plan)

def Question.answer (schema : Schema) : Question → Except QueryError Reply
  | .schema => .ok (.schema schema)
  | .entity name => (schema.entity name).map .entity
  | .resolve root path => (schema.resolve root path).map .resolved
  | .plan name => (Plan.start schema name).map .plan

/-- a call to a registry -/
inductive Call where
  | register (draft : EntityDraft)
  | ask (question : Question)
deriving DecidableEq, Repr

/-- The reply to a call, and the registry after it. A declaration that is refused leaves the registry to the next call
as it was. -/
def perform (registry : Registry) : Call → Except QueryError Reply × Registry
  | .register draft =>
    match registry.register draft with
    | .ok after => (.ok .registered, after)
    | .error e => (.error e, registry)
  | .ask question => registry.read question.answer

/-- the replies to calls made one after another, and the registry after them -/
def run : List Call → Registry → List (Except QueryError Reply) × Registry
  | [], registry => ([], registry)
  | call :: rest, registry =>
    let (reply, next) := registry.perform call
    let (replies, last) := run rest next
    (reply :: replies, last)

/-- the declaration that a call adds, by its reply -/
def Call.accepted : Call → Except QueryError Reply → List EntityDraft
  | .register draft, .ok _ => [draft]
  | .register _, .error _ | .ask _, _ => []

/-- the registry after calls to an empty one -/
def after (calls : List Call) : Registry := (run calls empty).2

/-- the declarations accepted in calls to an empty registry, oldest first -/
def accepted (calls : List Call) : List EntityDraft :=
  (List.zipWith Call.accepted calls (run calls empty).1).flatten

theorem run_append (calls more : List Call) (registry : Registry) :
    run (calls ++ more) registry =
      ((run calls registry).1 ++ (run more (run calls registry).2).1, (run more (run calls registry).2).2) := by
  induction calls generalizing registry with
  | nil => rfl
  | cons call rest ih => simp [run, ih]

theorem length_run (calls : List Call) (registry : Registry) : (run calls registry).1.length = calls.length := by
  induction calls generalizing registry with
  | nil => rfl
  | cons call rest ih => simp [run, ih]

/-- One call more is made of the registry that the calls before it left. -/
theorem after_snoc (calls : List Call) (call : Call) : after (calls ++ [call]) = ((after calls).perform call).2 := by
  simp [after, run_append, run]

theorem accepted_snoc (calls : List Call) (call : Call) :
    accepted (calls ++ [call]) = accepted calls ++ call.accepted ((after calls).perform call).1 := by
  have hlength : calls.length = (run calls empty).1.length := (length_run calls empty).symm
  simp [accepted, after, run_append, run, List.zipWith_append hlength]

/-! ## What a registry holds -/

/-- a registry that holds what declarations make of it -/
inductive Records (drafts : List EntityDraft) : Registry → Prop
  | opened : Records drafts (.opened drafts)
  | sealed {schema : Schema} : Schema.ofDrafts drafts = .ok schema → Records drafts (.sealed schema)

namespace Records

variable {drafts : List EntityDraft} {registry : Registry}

/-- Where the declarations make a schema, every question is answered from it and leaves the registry sealed. -/
theorem perform_ask (h : Records drafts registry) {schema : Schema} (hschema : Schema.ofDrafts drafts = .ok schema)
    (question : Question) : registry.perform (.ask question) = (question.answer schema, .sealed schema) := by
  cases h with
  | opened => simp [perform, read, Registry.schema, hschema]
  | sealed hsealed =>
    obtain rfl := Except.ok.inj (hsealed.symm.trans hschema)
    rfl

/-- Where they make none, the registry is open and stays as it is. -/
theorem perform_ask_invalid (h : Records drafts registry) {e : QueryError} (he : Schema.ofDrafts drafts = .error e)
    (question : Question) : registry = .opened drafts ∧ registry.perform (.ask question) = (.error e, registry) := by
  cases h with
  | opened => exact ⟨rfl, by simp [perform, read, Registry.schema, he]⟩
  | sealed hsealed => cases hsealed.symm.trans he

/-- A call keeps a registry to the declarations that are accepted. -/
theorem perform (h : Records drafts registry) (call : Call) :
    Records (drafts ++ call.accepted (registry.perform call).1) (registry.perform call).2 := by
  cases call with
  | register draft =>
    cases h with
    | opened =>
      simp only [Registry.perform, register]
      split
      · next hregister =>
        split at hregister
        · cases hregister
        · obtain rfl := Except.ok.inj hregister
          exact .opened
      · rw [Call.accepted, List.append_nil]
        exact .opened
    | sealed hschema =>
      rw [Registry.perform, register, Call.accepted, List.append_nil]
      exact .sealed hschema
  | ask question =>
    rw [Call.accepted, List.append_nil]
    cases hschema : Schema.ofDrafts drafts with
    | ok schema =>
      rw [h.perform_ask hschema]
      exact .sealed hschema
    | error e =>
      rw [(h.perform_ask_invalid hschema question).2]
      exact h

end Records

/-- After any calls a registry holds what the accepted declarations make of it. -/
theorem records_after (calls : List Call) : Records (accepted calls) (after calls) := by
  induction calls using List.reverseRecOn with
  | nil => exact .opened
  | append_singleton calls call ih =>
    rw [after_snoc, accepted_snoc]
    exact ih.perform call

/-! ## Sealing -/

theorem exists_of_isSealed {calls : List Call} (h : (after calls).isSealed) :
    ∃ schema, Schema.ofDrafts (accepted calls) = .ok schema ∧ after calls = .sealed schema := by
  have hrecords := records_after calls
  cases hregistry : after calls with
  | opened drafts =>
    rw [hregistry] at h
    cases h
  | sealed schema =>
    rw [hregistry] at hrecords
    cases hrecords with
    | sealed hschema => exact ⟨schema, hschema, rfl⟩

/-- A sealed registry is left as it is by every call, which declares nothing. -/
theorem perform_sealed (schema : Schema) (call : Call) :
    ((sealed schema).perform call).2 = .sealed schema ∧ call.accepted ((sealed schema).perform call).1 = [] := by
  cases call with
  | register draft => exact ⟨rfl, rfl⟩
  | ask question => exact ⟨rfl, rfl⟩

theorem after_sealed {calls : List Call} {schema : Schema} (h : after calls = .sealed schema) (more : List Call) :
    after (calls ++ more) = .sealed schema ∧ accepted (calls ++ more) = accepted calls := by
  induction more using List.reverseRecOn with
  | nil => simpa using h
  | append_singleton more call ih =>
    obtain ⟨hafter, haccepted⟩ := ih
    rw [← List.append_assoc, after_snoc, accepted_snoc, hafter, haccepted]
    obtain ⟨hkept, hnothing⟩ := perform_sealed schema call
    exact ⟨hkept, by rw [hnothing, List.append_nil]⟩

/-- Only a question seals a registry, and only when the declarations make a schema. -/
theorem question_of_isSealed {calls : List Call} {call : Call} (hopen : ¬(after calls).isSealed)
    (h : ((after calls).perform call).2.isSealed) :
    ∃ question schema, call = .ask question ∧ Schema.ofDrafts (accepted calls) = .ok schema := by
  have hrecords := records_after calls
  cases call with
  | register draft =>
    cases hregistry : after calls with
    | opened drafts =>
      rw [hregistry, perform, register] at h
      split at h
      · next hregister =>
        split at hregister
        · cases hregister
        · obtain rfl := Except.ok.inj hregister
          cases h
      · cases h
    | sealed schema => exact absurd (hregistry ▸ rfl) hopen
  | ask question =>
    cases hschema : Schema.ofDrafts (accepted calls) with
    | ok schema => exact ⟨question, schema, rfl, rfl⟩
    | error e =>
      rw [(hrecords.perform_ask_invalid hschema question).2] at h
      exact absurd h hopen

/-- A registry is sealed by the first question for which the declarations make a schema. -/
theorem isSealed_after_iff (calls : List Call) :
    (after calls).isSealed ↔ ∃ before question rest schema, calls = before ++ .ask question :: rest ∧
      Schema.ofDrafts (accepted before) = .ok schema := by
  constructor
  · induction calls using List.reverseRecOn with
    | nil =>
      intro h
      cases h
    | append_singleton calls call ih =>
      intro h
      by_cases hbefore : (after calls).isSealed
      · obtain ⟨before, question, rest, schema, rfl, hschema⟩ := ih hbefore
        exact ⟨before, question, rest ++ [call], schema, by simp, hschema⟩
      · rw [after_snoc] at h
        obtain ⟨question, schema, rfl, hschema⟩ := question_of_isSealed hbefore h
        exact ⟨calls, question, [], schema, rfl, hschema⟩
  · rintro ⟨before, question, rest, schema, rfl, hschema⟩
    have hsealed : after (before ++ [.ask question]) = .sealed schema := by
      rw [after_snoc, (records_after before).perform_ask hschema]
    have hlast := (after_sealed hsealed rest).1
    rw [List.append_assoc, List.singleton_append] at hlast
    rw [hlast]
    rfl

/-- what the calls made after other calls are told, and what they leave behind -/
structure Sealing (calls : List Call) : Prop where
  /-- the first question for which the declarations make a schema seals the registry -/
  begins : (after calls).isSealed ↔ ∃ before question rest schema, calls = before ++ .ask question :: rest ∧
    Schema.ofDrafts (accepted before) = .ok schema
  /-- a sealed registry holds the schema of the accepted declarations, whatever is called afterwards -/
  final : (after calls).isSealed → ∃ schema, Schema.ofDrafts (accepted calls) = .ok schema ∧
    ∀ more, after (calls ++ more) = .sealed schema ∧ accepted (calls ++ more) = accepted calls ∧
      ∀ question, (after (calls ++ more)).perform (.ask question) = (question.answer schema, .sealed schema)
  /-- a question about declarations that make a schema seals the registry, also when its answer is an error -/
  answered : ∀ schema, Schema.ofDrafts (accepted calls) = .ok schema → ∀ question,
    (after calls).perform (.ask question) = (question.answer schema, .sealed schema)
  /-- a question about declarations that make none finds the registry open with them and leaves it so -/
  invalid : ∀ e, Schema.ofDrafts (accepted calls) = .error e → ∀ question,
    after calls = .opened (accepted calls) ∧
      (after calls).perform (.ask question) = (.error e, .opened (accepted calls))
  /-- a declaration that comes late -/
  late : (after calls).isSealed → ∀ draft,
    (after calls).perform (.register draft) = (.error (.lateRegistration draft.name), after calls)
  /-- a declaration of a name that is taken -/
  repeated : ¬(after calls).isSealed → ∀ draft, draft.name ∈ (accepted calls).map (·.name) →
    (after calls).perform (.register draft) = (.error (.duplicateEntity draft.name), after calls)
  /-- any other declaration -/
  declared : ¬(after calls).isSealed → ∀ draft, draft.name ∉ (accepted calls).map (·.name) →
    (after calls).perform (.register draft) = (.ok .registered, .opened (accepted calls ++ [draft]))
  /-- an entity that is missed by a question can be declared, and the next question is answered -/
  repaired : ∀ draft schema, Schema.ofDrafts (accepted calls ++ [draft]) = .ok schema →
    (∃ owner ∈ accepted calls, ∃ r ∈ owner.relations, r.target = draft.name) → ∀ question next, ∃ e,
      run [.ask question, .register draft, .ask next] (after calls) =
        ([.error e, .ok .registered, next.answer schema], .sealed schema)

/-- An open registry holds the accepted declarations. -/
theorem after_open {calls : List Call} (h : ¬(after calls).isSealed) : after calls = .opened (accepted calls) := by
  have hrecords := records_after calls
  cases hregistry : after calls with
  | opened drafts =>
    rw [hregistry] at hrecords
    cases hrecords
    rfl
  | sealed schema => exact absurd (hregistry ▸ rfl) h

theorem perform_register_fresh {drafts : List EntityDraft} {draft : EntityDraft}
    (h : draft.name ∉ drafts.map (·.name)) :
    (opened drafts).perform (.register draft) = (.ok .registered, .opened (drafts ++ [draft])) := by
  have hfresh : ¬drafts.any (·.name = draft.name) := by
    intro hany
    obtain ⟨other, hother, hname⟩ := List.any_eq_true.1 hany
    exact h (List.mem_map.2 ⟨other, hother, by simpa using hname⟩)
  rw [perform, register, if_neg hfresh]

theorem perform_register_taken {drafts : List EntityDraft} {draft : EntityDraft}
    (h : draft.name ∈ drafts.map (·.name)) :
    (opened drafts).perform (.register draft) = (.error (.duplicateEntity draft.name), .opened drafts) := by
  have htaken : drafts.any (·.name = draft.name) := by
    obtain ⟨other, hother, hname⟩ := List.mem_map.1 h
    exact List.any_eq_true.2 ⟨other, hother, by simpa using hname⟩
  rw [perform, register, if_pos htaken]

/-- A registry seals once: after any calls, with the schema of the accepted declarations and for good. Every call that
fails leaves it as it was, but for a question that a schema answers with an error. -/
theorem sealing (calls : List Call) : Sealing calls where
  begins := isSealed_after_iff calls
  final := by
    intro hsealed
    obtain ⟨schema, hschema, hregistry⟩ := exists_of_isSealed hsealed
    refine ⟨schema, hschema, fun more => ?_⟩
    obtain ⟨hafter, haccepted⟩ := after_sealed hregistry more
    refine ⟨hafter, haccepted, fun question => ?_⟩
    exact (records_after (calls ++ more)).perform_ask (haccepted ▸ hschema) question
  answered := fun schema hschema question => (records_after calls).perform_ask hschema question
  invalid := by
    intro e he question
    obtain ⟨hopened, hperform⟩ := (records_after calls).perform_ask_invalid he question
    exact ⟨hopened, hopened ▸ hperform⟩
  late := by
    intro hsealed draft
    obtain ⟨schema, -, hregistry⟩ := exists_of_isSealed hsealed
    rw [hregistry]
    rfl
  repeated := by
    intro hopen draft htaken
    rw [after_open hopen]
    exact perform_register_taken htaken
  declared := by
    intro hopen draft hfresh
    rw [after_open hopen]
    exact perform_register_fresh hfresh
  repaired := by
    rintro draft schema hschema ⟨owner, howner, r, hr, htarget⟩ question next
    have hfresh := Schema.name_not_mem_of_ofDrafts hschema
    obtain ⟨e, he⟩ := Schema.ofDrafts_of_missing howner hr (htarget ▸ hfresh)
    obtain ⟨hopened, hperform⟩ := (records_after calls).perform_ask_invalid he question
    have hnext := Records.opened.perform_ask hschema next
    refine ⟨e, ?_⟩
    rw [run, hperform, hopened]
    simp only [run, perform_register_fresh hfresh, hnext]

example :
    let blog : EntityDraft := .declare "blog" none none [⟨"id", .int, false⟩] []
    let entry : EntityDraft :=
      .declare "entry" none none [⟨"id", .int, false⟩, ⟨"blog_id", .int, true⟩] [.toOne "blog" "blog" "blog_id"]
    let (replies, last) :=
      run [.register entry, .ask .schema, .register blog, .ask (.entity "author"), .register blog] empty
    replies.map Except.isOk = [true, false, true, false, false] ∧ last.isSealed := by
  decide

end Registry

end RelQuery
