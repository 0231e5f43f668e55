/-
Late loading only adds to a record.

Whatever a storage answers, and wherever a late step fails, the record after the step holds all that it held before, with
the same values (`Record.Grows`); and what a step has given is held by the record from then on, so that asking for it
again sends nothing. A step that sets a member does so only where the record had none: a field is fetched when reading it
has found nothing under its name, and a relation is stored under a name that was free before its key was loaded.
- `Engine.loadFieldWithin_leads`, `Engine.loadRelatedBy_leads`: one late step, by the relations that wait for each other.
- `Engine.load_held`: what is held, or may not be fetched, is read off the record.
- `Engine.late_loading_adds`: any step in any sequence of steps.
-/
import RelQuery.Proofs.Record.Owed

namespace RelQuery

variable {σ : Type}

/-! ## Growth -/

namespace Record

/-- The later record holds everything that the earlier one holds, with the same values. -/
structure Grows (r r' : Record) : Prop where
  entity : r'.entity = r.entity
  annotations : r'.annotations = r.annotations
  fields : ∀ name v, r.fields.get? name = some v → r'.fields.get? name = some v
  related : ∀ name related, r.related.get? name = some related → r'.related.get? name = some related

variable {r r' r'' : Record}

theorem Grows.refl (r : Record) : r.Grows r := ⟨rfl, rfl, fun _ _ h => h, fun _ _ h => h⟩

theorem Grows.trans (h : r.Grows r') (h' : r'.Grows r'') : r.Grows r'' where
  entity := h'.entity.trans h.entity
  annotations := h'.annotations.trans h.annotations
  fields name v hv := h'.fields name v (h.fields name v hv)
  related name related hrelated := h'.related name related (h.related name related hrelated)

/-- A field is added under a name that is free. -/
theorem grows_setField {name : String} (hfree : r.fields.get? name = none) (v : Value) : r.Grows (r.setField name v) where
  entity := rfl
  annotations := rfl
  fields other held hheld := by
    have hne : other ≠ name := by
      rintro rfl
      rw [hfree] at hheld
      cases hheld
    exact (NameMap.get?_insert_of_ne _ hne v).trans hheld
  related _ _ h := h

/-- A relation is added under a name that was free, be it that other members have been added since. -/
theorem Grows.setRelated {name : String} (h : r.Grows r') (hfree : r.related.get? name = none) (related : Related) :
    r.Grows (r'.setRelated name related) where
  entity := h.entity
  annotations := h.annotations
  fields := h.fields
  related other held hheld := by
    have hne : other ≠ name := by
      rintro rfl
      rw [hfree] at hheld
      cases hheld
    exact (NameMap.get?_insert_of_ne _ hne related).trans (h.related other held hheld)

theorem Grows.member (h : r.Grows r') {name : String} {v : Value} (hv : r.member name = .ok v) :
    r'.member name = .ok v := by
  unfold Record.member at hv ⊢
  rw [h.annotations, h.entity]
  cases halias : r.annotations.get? name with
  | some held => rwa [halias] at hv
  | none =>
    rw [halias] at hv
    obtain ⟨field, hfield, hheld⟩ := ok_of_bind hv
    dsimp only
    rw [hfield]
    exact orFail_eq_ok.2 (h.fields _ _ (orFail_eq_ok.1 hheld))

theorem relation_eq_ok {name : String} {related : Related} :
    r.relation name = .ok related ↔ (r.entity.relation name).isSome ∧ r.related.get? name = some related := by
  unfold relation
  cases r.entity.relation name <;> simp [orFail_eq_ok]

theorem Grows.relation (h : r.Grows r') {name : String} {related : Related} (hrelated : r.relation name = .ok related) :
    r'.relation name = .ok related := by
  obtain ⟨hdeclared, hheld⟩ := relation_eq_ok.1 hrelated
  exact relation_eq_ok.2 ⟨h.entity ▸ hdeclared, h.related name related hheld⟩

/-- What is read of a record is read of the record after it has grown. -/
theorem Grows.get (h : r.Grows r') {path : String} {v : Value} (hv : r.get path = .ok v) : r'.get path = .ok v := by
  unfold Record.get at hv ⊢
  match hsegments : pathSegments path with
  | [] | [_] =>
    rw [hsegments, getSegments] at hv
    rw [getSegments]
    exact h.member hv
  | name :: next :: rest =>
    rw [hsegments, getSegments] at hv
    obtain ⟨related, hrelated, hmore⟩ := ok_of_bind hv
    rw [getSegments, h.relation hrelated]
    -- the entity of the record shows only in the error of a path through a relation to many rows
    cases related with
    | one record => cases record <;> exact hmore
    | many records => cases hmore

theorem member_eq_notLoaded {name : String} {e : QueryError} (h : r.member name = .error e)
    (he : Engine.isNotLoaded e = true) : r.annotations.get? name = none ∧
      ∃ field, r.entity.field name = some field ∧ r.fields.get? field.name = none := by
  unfold Record.member at h
  cases halias : r.annotations.get? name with
  | some held => rw [halias] at h; cases h
  | none =>
    rw [halias] at h
    cases hfield : r.entity.field name with
    | none =>
      obtain rfl : QueryError.unknownPath r.entity.name name = e := by
        rw [hfield] at h
        exact Except.error.inj h
      cases he
    | some field =>
      refine ⟨rfl, field, rfl, ?_⟩
      rw [hfield] at h
      cases hheld : r.fields.get? field.name with
      | none => rfl
      | some v =>
        have hok : orFail (.notLoaded r.entity.name name) (r.fields.get? field.name) = .error e := h
        rw [hheld] at hok
        cases hok

end Record

/-! ## Steps on a record -/

theorem RecordM.bind_run {α β : Type} (step : RecordM σ α) (next : α → RecordM σ β) (r : Record) (session : Session σ) :
    (step >>= next) r session =
      match step r session with
      | ((.error e, r'), after) => ((.error e, r'), after)
      | ((.ok a, r'), after) => next a r' after := by
  change (fun result : (Except QueryError α × Record) × Session σ =>
    ExceptT.bindCont next result.1.1 result.1.2 result.2) (step r session) = _
  rcases step r session with ⟨⟨_ | a, r'⟩, after⟩ <;> rfl

/-- A step whose result is passed on in another form. -/
theorem RecordM.passOn_run {α β : Type} {step : RecordM σ α} {r r' : Record} {session after : Session σ}
    {result : Except QueryError α} (h : step r session = ((result, r'), after)) (f : α → β) :
    (do let a ← step; return f a : RecordM σ β) r session = ((do let a ← result; return f a, r'), after) := by
  rw [RecordM.bind_run, h]
  cases result <;> rfl

/-- Whatever the session, the step on the record has a result and a record after it of this kind. -/
structure RecordM.Leads {α : Type} (step : RecordM σ α) (r : Record) (Q : Except QueryError α → Record → Prop) :
    Prop where
  ends : ∀ session : Session σ, Q (step r session).1.1 (step r session).1.2

namespace RecordM.Leads

variable {α β : Type} {r : Record} {Q : Except QueryError α → Record → Prop}
  {R : Except QueryError β → Record → Prop}

theorem pure {a : α} (h : Q (.ok a) r) : Leads (Pure.pure a : RecordM σ α) r Q := ⟨fun _ => h⟩

theorem throw {e : QueryError} (h : Q (.error e) r) : Leads (throw e : RecordM σ α) r Q := ⟨fun _ => h⟩

theorem answer {result : Except QueryError α} (h : Q result r) : Leads (Engine.answer result : RecordM σ α) r Q := by
  cases result with
  | ok a => exact pure h
  | error e => exact throw h

/-- A step of the session leaves the record as it is. -/
theorem atSession (step : SessionM σ α) (h : ∀ result, Q result r) : Leads (Engine.atSession step) r Q :=
  ⟨fun _ => h _⟩

theorem mono {step : RecordM σ α} {Q' : Except QueryError α → Record → Prop} (h : Leads step r Q)
    (hmono : ∀ result r', Q result r' → Q' result r') : Leads step r Q' := ⟨fun session => hmono _ _ (h.ends session)⟩

theorem bind {step : RecordM σ α} {next : α → RecordM σ β}
    (h : Leads step r fun result r' => (∀ e, result = .error e → R (.error e) r') ∧
      ∀ a, result = .ok a → Leads (next a) r' R) : Leads (step >>= next) r R := by
  constructor
  intro session
  have hstep := h.ends session
  rw [bind_run]
  generalize step r session = done at hstep
  rcases done with ⟨⟨e | a, r'⟩, after⟩
  · exact hstep.1 e rfl
  · exact (hstep.2 a rfl).ends after

theorem get_bind {next : Record → RecordM σ β} (h : Leads (next r) r R) : Leads (get >>= next) r R := by
  apply bind
  constructor
  intro _
  exact ⟨nofun, fun a ha => by cases ha; exact h⟩

/-- a step that is known already -/
theorem answer_bind {result : Except QueryError α} {next : α → RecordM σ β}
    (herror : ∀ e, result = .error e → R (.error e) r) (hok : ∀ a, result = .ok a → Leads (next a) r R) :
    Leads (Engine.answer result >>= next) r R :=
  bind (answer ⟨herror, hok⟩)

/-- a step of the session in between -/
theorem atSession_bind {step : SessionM σ α} {next : α → RecordM σ β} (herror : ∀ e, R (.error e) r)
    (hok : ∀ a, Leads (next a) r R) : Leads (Engine.atSession step >>= next) r R :=
  bind (atSession step fun _ => ⟨fun e _ => herror e, fun a _ => hok a⟩)

/-- a step that is given up first when a condition holds -/
theorem orThrow {p : Prop} [Decidable p] {e : QueryError} {next : PUnit → RecordM σ α} (hthrow : Q (.error e) r)
    (hnext : ¬p → Leads (next ⟨⟩) r Q) : Leads (if p then MonadExcept.throw e >>= next else next ⟨⟩) r Q := by
  split
  · exact bind (throw ⟨fun _ he => by cases he; exact hthrow, nofun⟩)
  · next hp => exact hnext hp

end RecordM.Leads

namespace Engine

variable (engine : Engine σ)

/-- A field that is fetched is added to the record; when the fetch fails, the record is as before. -/
theorem refetchField_leads {r : Record} {name : String} {field : Field} (hfield : r.entity.field name = some field)
    {Q : Except QueryError Value → Record → Prop} (herror : ∀ e, Q (.error e) r)
    (hok : ∀ v, Q (.ok v) (r.setField field.name v)) : RecordM.Leads (engine.refetchField name) r Q := by
  apply RecordM.Leads.get_bind
  apply RecordM.Leads.answer_bind fun e _ => herror e
  intro found hfound
  obtain rfl : field = found := Option.some.inj (hfield.symm.trans (orFail_eq_ok.1 hfound))
  apply RecordM.Leads.answer_bind fun e _ => herror e
  intro key _
  apply RecordM.Leads.answer_bind fun e _ => herror e
  intro p _
  apply RecordM.Leads.atSession_bind herror
  intro q
  apply RecordM.Leads.atSession_bind herror
  intro rows
  apply RecordM.Leads.atSession_bind herror
  intro _
  apply RecordM.Leads.answer_bind fun e _ => herror e
  intro cell _
  exact ⟨fun _ => hok _⟩

/-- What has come of a relation that was asked for: the record has only grown, and holds the relation if it was given. -/
def HoldsRelation (r : Record) (name : String) (result : Except QueryError Related) (r' : Record) : Prop :=
  r.Grows r' ∧ ∀ related, result = .ok related → r'.relation name = .ok related

/-- A relation that is loaded is added under its name, which was free before its key was loaded. -/
theorem loadRelatedBy_leads {loadKey : String → RecordM σ Value}
    (hkey : ∀ column r, RecordM.Leads (loadKey column) r fun _ r' => r.Grows r') (name : String) (r : Record) :
    RecordM.Leads (engine.loadRelatedBy loadKey name) r (HoldsRelation r name) := by
  have hfailed {middle : Record} (hgrown : r.Grows middle) (e : QueryError) : HoldsRelation r name (.error e) middle :=
    ⟨hgrown, nofun⟩
  apply RecordM.Leads.get_bind
  split
  · next related hheld =>
    apply RecordM.Leads.atSession_bind (hfailed (.refl r))
    intro _
    exact .pure ⟨.refl r, fun _ heq => Except.ok.inj heq ▸ hheld⟩
  · next e hmissing =>
    apply RecordM.Leads.answer_bind fun e _ => hfailed (.refl r) e
    intro relation hrelation
    have hdeclared : (r.entity.relation name).isSome := by
      rw [orFail_eq_ok.1 hrelation]
      rfl
    have hfree : r.related.get? name = none := by
      by_contra hheld
      obtain ⟨related, hrelated⟩ := Option.ne_none_iff_exists'.1 hheld
      rw [Record.relation_eq_ok.2 ⟨hdeclared, hrelated⟩] at hmissing
      cases hmissing
    refine .orThrow (hfailed (.refl r) _) fun _ => ?_
    apply RecordM.Leads.bind
    apply (hkey relation.localColumn r).mono
    intro result middle hgrown
    refine ⟨fun e _ => hfailed hgrown e, fun key _ => ?_⟩
    have hstored (related : Related) : RecordM.Leads
        (do modify fun r => r.setRelated name related; return related : RecordM σ Related) middle
        (HoldsRelation r name) := by
      constructor
      intro session
      refine ⟨hgrown.setRelated hfree related, fun other hother => ?_⟩
      obtain rfl := Except.ok.inj hother
      exact Record.relation_eq_ok.2 ⟨hgrown.entity ▸ hdeclared, NameMap.get?_insert_self _ _ _⟩
    split
    · exact .bind (.pure ⟨nofun, fun _ heq => by cases heq; exact hstored _⟩)
    · exact .atSession_bind (hfailed hgrown) hstored

/-- What has come of a value that was asked for: the record has only grown, and holds the value if it was given. -/
def HoldsValue (r : Record) (path : String) (result : Except QueryError Value) (r' : Record) : Prop :=
  r.Grows r' ∧ ∀ v, result = .ok v → r'.get path = .ok v

/-- A field that was missed under its name is fetched into a free place. -/
theorem refetchField_holds {r : Record} {path : String} (hone : pathSegments path = [path]) {e : QueryError}
    (hmissing : r.get path = .error e) (he : isNotLoaded e = true) :
    RecordM.Leads (engine.refetchField path) r (HoldsValue r path) := by
  rw [Record.get, hone, Record.getSegments] at hmissing
  obtain ⟨halias, field, hfield, hfree⟩ := Record.member_eq_notLoaded hmissing he
  apply engine.refetchField_leads hfield
  · exact fun e => ⟨.refl r, fun w hw => by cases hw⟩
  · intro v
    refine ⟨Record.grows_setField hfree v, fun w hw => ?_⟩
    obtain rfl := Except.ok.inj hw
    rw [Record.get, hone, Record.getSegments]
    have hheld : (r.setField field.name v).fields.get? field.name = some v := NameMap.get?_insert_self _ _ _
    have hentity : (r.setField field.name v).entity.field path = some field := hfield
    have halias : (r.setField field.name v).annotations.get? path = none := halias
    rw [Record.member, halias]
    dsimp only
    rw [hentity]
    exact orFail_eq_ok.2 hheld

/-- **A value that is loaded late** is held by the record afterwards; whether it comes or not, the record has only grown.
The induction is on the number of relations that may wait for each other. -/
theorem loadFieldWithin_leads (budget : Nat) (path : String) (r : Record) :
    RecordM.Leads (engine.loadFieldWithin budget path) r (HoldsValue r path) := by
  induction budget using Nat.strong_induction_on generalizing path r with
  | _ budget ih =>
    have hfailed {middle : Record} (hgrown : r.Grows middle) (e : QueryError) : HoldsValue r path (.error e) middle :=
      ⟨hgrown, nofun⟩
    unfold loadFieldWithin
    apply RecordM.Leads.get_bind
    split
    · next v hheld => exact .pure ⟨.refl r, fun _ heq => Except.ok.inj heq ▸ hheld⟩
    · next e hmissing =>
      split
      · next head second rest inner hsegments =>
        refine .orThrow (hfailed (.refl r) _) fun _ => ?_
        apply RecordM.Leads.bind
        have hkey (column : String) (r : Record) :
            RecordM.Leads (engine.loadFieldWithin inner column) r fun _ r' => r.Grows r' :=
          (ih inner (Nat.lt_succ_self inner) column r).mono fun _ _ h => h.1
        apply (engine.loadRelatedBy_leads hkey head r).mono
        intro result middle hgrown
        refine ⟨fun e _ => hfailed hgrown.1 e, fun _ _ => ?_⟩
        apply RecordM.Leads.get_bind
        exact .answer ⟨hgrown.1, fun _ heq => heq⟩
      · exact .orThrow (hfailed (.refl r) _) fun _ => .throw (hfailed (.refl r) _)
      · next hdotted hspent =>
        refine .orThrow (hfailed (.refl r) _) fun hlazy => ?_
        have hone : pathSegments path = [path] := by
          rcases pathSegments_cases path with hone | ⟨head, second, rest, hmore⟩
          · exact hone
          · exact ((Nat.eq_zero_or_eq_succ_pred _).elim (hspent _ _ _ hmore) (hdotted _ _ _ _ hmore)).elim
        have he : isNotLoaded e = true := by
          cases hkind : isNotLoaded e
          · simp [hkind] at hlazy
          · rfl
        exact engine.refetchField_holds hone hmissing he

/-! ## Late loads one after another -/

/-- what can be loaded late -/
inductive Member where
  | value (path : String)
  | relation (name : String)

/-- what a late load gives -/
inductive Content where
  | value (v : Value)
  | related (related : Related)

end Engine

/-- what a record holds of a member -/
def Record.content (r : Record) : Engine.Member → Except QueryError Engine.Content
  | .value path => do
    let v ← r.get path
    return .value v
  | .relation name => do
    let related ← r.relation name
    return .related related

/-- What a record holds of a member stays when the record grows. -/
theorem Record.Grows.content {r r' : Record} (h : r.Grows r') {m : Engine.Member} {c : Engine.Content}
    (hc : r.content m = .ok c) : r'.content m = .ok c := by
  cases m with
  | value path =>
    obtain ⟨v, hv, hcontent⟩ := ok_of_bind hc
    rw [Record.content, h.get hv]
    exact hcontent
  | relation name =>
    obtain ⟨related, hrelated, hcontent⟩ := ok_of_bind hc
    rw [Record.content, h.relation hrelated]
    exact hcontent

namespace Engine

variable (engine : Engine σ)

/-- a member of a record, loaded when the record does not hold it -/
def load : Member → RecordM σ Content
  | .value path => do
    let v ← engine.loadField path
    return .value v
  | .relation name => do
    let related ← engine.loadRelated name
    return .related related

/-- a record and the session after late loads one after another, whatever has come of each -/
def loadEach (members : List Member) (start : Record × Session σ) : Record × Session σ :=
  members.foldl (fun now m => ((engine.load m now.1 now.2).1.2, (engine.load m now.1 now.2).2)) start

/-- A late load adds to the record, which then holds what the load has given. -/
theorem load_leads (m : Member) (r : Record) :
    RecordM.Leads (engine.load m) r fun result r' => r.Grows r' ∧ ∀ c, result = .ok c → r'.content m = .ok c := by
  cases m with
  | value path =>
    apply RecordM.Leads.bind
    apply RecordM.Leads.get_bind
    apply (engine.loadFieldWithin_leads _ path r).mono
    rintro result r' ⟨hgrown, hheld⟩
    refine ⟨fun e _ => ⟨hgrown, nofun⟩, fun v hv => .pure ⟨hgrown, fun c hc => ?_⟩⟩
    rw [Record.content, hheld v hv]
    exact hc
  | relation name =>
    apply RecordM.Leads.bind
    apply RecordM.Leads.get_bind
    apply (engine.loadRelatedBy_leads (fun column r => (engine.loadFieldWithin_leads _ column r).mono fun _ _ h => h.1)
      name r).mono
    rintro result r' ⟨hgrown, hheld⟩
    refine ⟨fun e _ => ⟨hgrown, nofun⟩, fun related hrelated => .pure ⟨hgrown, fun c hc => ?_⟩⟩
    rw [Record.content, hheld related hrelated]
    exact hc

/-- Late loads one after another add to the record. -/
theorem loadEach_grows (members : List Member) (r : Record) (session : Session σ) :
    r.Grows (engine.loadEach members (r, session)).1 := by
  induction members generalizing r session with
  | nil => exact .refl r
  | cons m rest ih => exact ((engine.load_leads m r).ends session).1.trans (ih _ _)

/-- What the record holds of a member is the result; the record and the storage are not changed. -/
structure ReadsOff (m : Member) (r : Record) (session : Session σ) : Prop where
  result : (engine.load m r session).1 = (r.content m, r)
  storage : (engine.load m r session).2.link.storage = session.link.storage

/-- A value that is held, or may not be fetched, is read off the record. -/
theorem loadField_held {r : Record} {path : String}
    (h : engine.settings.lazyRefetch = false ∨ ∃ v, r.get path = .ok v) (session : Session σ) :
    engine.loadField path r session = ((r.get path, r), session) := by
  unfold loadField
  rw [RecordM.bind_eq (get_eq r)]
  cases hget : r.get path with
  | ok v => exact loadFieldWithin_eq hget _
  | error e =>
    have hoff : engine.settings.lazyRefetch = false := by
      rcases h with hoff | ⟨v, hv⟩
      · exact hoff
      · rw [hget] at hv
        cases hv
    unfold loadFieldWithin
    rw [RecordM.bind_eq (get_eq r), hget]
    dsimp only
    rw [if_pos (by rw [hoff, Bool.and_false]; rfl)]
    rfl

/-- A relation that is held, or may not be fetched, is read off the record. -/
theorem loadRelated_held {r : Record} {name : String}
    (h : engine.settings.lazyRefetch = false ∨ ∃ related, r.relation name = .ok related) (session : Session σ) :
    ∃ after, engine.loadRelated name r session = ((r.relation name, r), after) ∧
      after.link.storage = session.link.storage := by
  unfold loadRelated
  rw [RecordM.bind_eq (get_eq r)]
  unfold loadRelatedBy
  rw [RecordM.bind_eq (get_eq r)]
  cases hheld : r.relation name with
  | ok related => exact ⟨_, rfl, rfl⟩
  | error e =>
    have hoff : engine.settings.lazyRefetch = false := by
      rcases h with hoff | ⟨related, hrelated⟩
      · exact hoff
      · rw [hheld] at hrelated
        cases hrelated
    refine ⟨session, ?_, rfl⟩
    unfold Record.relation at hheld
    cases hrelation : r.entity.relation name with
    | none =>
      rw [hrelation] at hheld
      cases hheld
      rfl
    | some relation =>
      rw [hrelation] at hheld
      have hmissing : orFail (.notLoaded r.entity.name name) (r.related.get? name) = .error e := hheld
      have hanswer : (answer (orFail (.unknownPath r.entity.name name) (some relation)) : RecordM σ Relation) r session
          = ((.ok relation, r), session) := rfl
      dsimp only
      rw [RecordM.bind_eq hanswer, if_pos (by rw [hoff]; rfl)]
      cases hfree : r.related.get? name with
      | none =>
        rw [hfree] at hmissing
        cases hmissing
        rfl
      | some related =>
        rw [hfree] at hmissing
        cases hmissing

/-- **What the record holds, or what may not be fetched,** is read off the record. -/
theorem load_held {m : Member} {r : Record} (h : engine.settings.lazyRefetch = false ∨ ∃ c, r.content m = .ok c)
    (session : Session σ) : engine.ReadsOff m r session := by
  cases m with
  | value path =>
    have hget : engine.settings.lazyRefetch = false ∨ ∃ v, r.get path = .ok v :=
      h.imp_right fun ⟨_, hc⟩ => (ok_of_bind hc).imp fun _ hv => hv.1
    have hrun : engine.load (.value path) r session = ((r.content (.value path), r), session) :=
      RecordM.passOn_run (engine.loadField_held hget session) _
    exact ⟨congrArg Prod.fst hrun, congrArg (fun done => done.2.link.storage) hrun⟩
  | relation name =>
    have hrelation : engine.settings.lazyRefetch = false ∨ ∃ related, r.relation name = .ok related :=
      h.imp_right fun ⟨_, hc⟩ => (ok_of_bind hc).imp fun _ hv => hv.1
    obtain ⟨after, hloaded, hstorage⟩ := engine.loadRelated_held hrelation session
    have hrun : engine.load (.relation name) r session = ((r.content (.relation name), r), after) :=
      RecordM.passOn_run hloaded _
    exact ⟨congrArg Prod.fst hrun, (congrArg (fun done => done.2.link.storage) hrun).trans hstorage⟩

/-- **Late loading only adds.** Take any record, any late loads of it one after another and one more, over any storage.
The record after the last load holds all that it held before, with the same values, whatever has come of the load. If it
has given something, then so does the same load at any later time, and neither the record nor the storage is touched. And
when nothing may be fetched late, a load tells what the record holds, and touches nothing. -/
theorem late_loading_adds (engine : Engine σ) (r : Record) (session : Session (Audited σ)) (before : List Member)
    (m : Member) :
    let now := engine.audited.loadEach before (r, session)
    let loaded := engine.audited.load m now.1 now.2
    now.1.Grows loaded.1.2 ∧
      (∀ c, loaded.1.1 = .ok c → ∀ between : List Member,
        let later := engine.audited.loadEach between (loaded.1.2, loaded.2)
        later.1.content m = .ok c ∧ engine.audited.ReadsOff m later.1 later.2) ∧
      (engine.settings.lazyRefetch = false → engine.audited.ReadsOff m now.1 now.2) := by
  intro now loaded
  obtain ⟨hgrown, hheld⟩ := (engine.audited.load_leads m now.1).ends now.2
  refine ⟨hgrown, fun c hc between => ?_, fun hoff => engine.audited.load_held (.inl hoff) now.2⟩
  have hlater := (engine.audited.loadEach_grows between loaded.1.2 loaded.2).content (hheld c hc)
  exact ⟨hlater, engine.audited.load_held (.inr ⟨c, hlater⟩) _⟩

/-- a post in a blog -/
def samplePost : Entity :=
  ⟨"post", "posts", "id", [⟨"id", .int, false⟩, ⟨"title", .text, false⟩, ⟨"blog_id", .int, false⟩],
    [⟨"blog", "blog", .toOne, "blog_id", "id"⟩]⟩

def sampleBlog : Entity := ⟨"blog", "blogs", "id", [⟨"id", .int, false⟩, ⟨"name", .text, false⟩], []⟩

/-- The storage fails once the post's column has been fetched, and answers later. -/
def sampleLate : Engine Script := ⟨⟨[samplePost, sampleBlog]⟩, Script.storage, { lazyRefetch := true, compileCache := false }⟩

def sampleLateReplies : Script :=
  [⟨.rows [[.int 3]], none⟩, ⟨.fail (.backend "down"), none⟩, ⟨.rows [[.int 3, .text "Lean"]], none⟩]

/-- The column stays when the blog fails to come; once it has come it is there to stay, and the storage, which has nothing
left to answer, is not asked for it again. -/
theorem late_loading_adds_blog :
    let now := sampleLate.audited.loadEach [.relation "blog"]
      ((Record.empty samplePost).setField "id" (.int 7), sampleLate.audited.start (.start sampleLateReplies))
    let loaded := sampleLate.audited.load (.relation "blog") now.1 now.2
    now.1.related.names = [] ∧ now.1.fields.get? "blog_id" = some (.int 3) ∧
      now.2.link.storage.sent.length = 2 ∧ loaded.2.link.storage.sent.length = 3 ∧ now.1.Grows loaded.1.2 ∧
      ∃ c, loaded.1.1 = .ok c ∧ ∀ between : List Member,
        let later := sampleLate.audited.loadEach between (loaded.1.2, loaded.2)
        later.1.content (.relation "blog") = .ok c ∧ sampleLate.audited.ReadsOff (.relation "blog") later.1 later.2 := by
  intro now loaded
  obtain ⟨hgrown, hlater, -⟩ := late_loading_adds sampleLate ((Record.empty samplePost).setField "id" (.int 7))
    (sampleLate.audited.start (.start sampleLateReplies)) [.relation "blog"] (.relation "blog")
  have hgiven : loaded.1.1.isOk = true := by decide +kernel
  obtain ⟨c, hc⟩ : ∃ c, loaded.1.1 = .ok c := by
    cases hresult : loaded.1.1 with
    | ok c => exact ⟨c, rfl⟩
    | error e => rw [hresult] at hgiven; cases hgiven
  exact ⟨by decide +kernel, by decide +kernel, by decide +kernel, by decide +kernel, hgrown, c, hc, hlater c hc⟩

end Engine

end RelQuery
