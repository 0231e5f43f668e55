/-
Paths joined by a dot.

A path leads along relations, one for each segment, and its last segment may name a field instead. So a path joined to
another by a dot leads somewhere exactly when all its own segments name relations (`Schema.Route`) and the other path
leads somewhere from the entity reached; what is found is what the other path finds, by a longer way. Relations may lead
back to where they came from: nothing here asks the schema to be without cycles.
- `follow_append_ok`: segments followed in two parts.
- `follow_error`: in a checked schema the only failure on the way is the one that was asked for.
- `Schema.paths_compose`: paths joined by a dot, what any path leads along and to, and how it fails.
-/
import RelQuery.Proofs.Schema.Members

namespace RelQuery

namespace Schema

/-- Relations that lead from one entity to another: each is found by its name on the entity reached before it. -/
inductive Route (schema : Schema) : Entity → List Relation → Entity → Prop
  | stay (e : Entity) : Route schema e [] e
  | hop {e target last : Entity} {r : Relation} {hops : List Relation} : e.relation r.name = some r →
    schema.entity r.target = .ok target → Route schema target hops last → Route schema e (r :: hops) last

variable {drafts : List EntityDraft} {schema : Schema} {e last : Entity} {failure : QueryError}
  {segment : String} {segments more : List String} {hops : List Relation} {path whole : ResolvedPath}

theorem Route.mem (h : schema.Route e hops last) (he : e ∈ schema.entities) : last ∈ schema.entities := by
  induction h with
  | stay => exact he
  | hop _ htarget _ ih => exact ih (mem_of_entity htarget)

/-! ## Segments in two parts -/

/-- A first segment before others is a relation, from whose target the others are followed. -/
theorem follow_cons_ok (hmore : more ≠ []) : schema.follow failure e (segment :: more) = .ok whole ↔
    ∃ r target path, e.relation segment = some r ∧ schema.entity r.target = .ok target ∧
      schema.follow failure target more = .ok path ∧ whole = { path with hops := r :: path.hops } := by
  obtain ⟨next, rest, rfl⟩ := List.exists_cons_of_ne_nil hmore
  constructor
  · intro h
    rw [follow] at h
    split at h
    · next r hr =>
      obtain ⟨target, htarget, hrest⟩ := ok_of_bind h
      obtain ⟨path, hpath, hpure⟩ := ok_of_bind hrest
      exact ⟨r, target, path, hr, htarget, hpath, (Except.ok.inj hpure).symm⟩
    · cases h
  · rintro ⟨r, target, path, hr, htarget, hpath, rfl⟩
    rw [follow, hr]
    dsimp only [bind, Except.bind]
    rw [htarget]
    dsimp only
    rw [hpath]
    rfl

/-- A last segment is a relation, which stands for the key of its target, or a field. -/
theorem follow_last_ok : schema.follow failure e [segment] = .ok whole ↔
    (∃ r target key, e.relation segment = some r ∧ schema.entity r.target = .ok target ∧
      target.field target.primaryKey = some key ∧ whole = ⟨[r], target, key⟩) ∨
    (e.relation segment = none ∧ ∃ field, e.field segment = some field ∧ whole = ⟨[], e, field⟩) := by
  rw [follow]
  cases hr : e.relation segment with
  | none =>
    simp only [reduceCtorEq, false_and, exists_const, true_and, false_or]
    cases e.field segment <;> simp [orFail, bind, Except.bind, pure, Except.pure, eq_comm]
  | some r =>
    simp only [Option.some.injEq, reduceCtorEq, false_and, or_false]
    constructor
    · intro h
      obtain ⟨target, htarget, hrest⟩ := ok_of_bind h
      obtain ⟨key, hkey, hpure⟩ := ok_of_bind hrest
      exact ⟨r, target, key, rfl, htarget, orFail_eq_ok.1 hkey, (Except.ok.inj hpure).symm⟩
    · rintro ⟨_, target, key, rfl, htarget, hkey, rfl⟩
      rw [htarget]
      dsimp only [bind, Except.bind]
      rw [hkey]
      rfl

/-- Where segments lead does not depend on how they would fail. -/
theorem follow_ok_of_ok {failure' : QueryError} (h : schema.follow failure e segments = .ok whole) :
    schema.follow failure' e segments = .ok whole := by
  induction segments generalizing e whole with
  | nil => cases h
  | cons segment more ih =>
    cases more with
    | nil => exact follow_last_ok.2 (follow_last_ok.1 h)
    | cons next rest =>
      obtain ⟨r, target, path, hr, htarget, hpath, rfl⟩ := (follow_cons_ok (List.cons_ne_nil _ _)).1 h
      exact (follow_cons_ok (List.cons_ne_nil _ _)).2 ⟨r, target, path, hr, htarget, ih hpath, rfl⟩

/-- Segments before others name relations, and the others are followed from the entity that these lead to. -/
theorem follow_append_ok (hmore : more ≠ []) : schema.follow failure e (segments ++ more) = .ok whole ↔
    ∃ hops last path, schema.Route e hops last ∧ hops.map (·.name) = segments ∧
      schema.follow failure last more = .ok path ∧ whole = { path with hops := hops ++ path.hops } := by
  induction segments generalizing e whole with
  | nil =>
    constructor
    · exact fun h => ⟨[], e, whole, .stay e, rfl, h, rfl⟩
    · rintro ⟨hops, last, path, hroute, hnames, hpath, rfl⟩
      obtain rfl := List.map_eq_nil_iff.1 hnames
      cases hroute
      exact hpath
  | cons segment rest ih =>
    rw [List.cons_append, follow_cons_ok (List.append_ne_nil_of_right_ne_nil rest hmore)]
    constructor
    · rintro ⟨r, target, _, hr, htarget, hrest, rfl⟩
      obtain ⟨hops, last, path, hroute, rfl, hpath, rfl⟩ := ih.1 hrest
      have hname := Entity.relation_name hr
      exact ⟨r :: hops, last, path, .hop (hname ▸ hr) htarget hroute, by rw [List.map_cons, hname], hpath, rfl⟩
    · rintro ⟨hops, last, path, hroute, hnames, hpath, rfl⟩
      cases hroute with
      | stay => cases hnames
      | @hop _ target _ r hops hr htarget hroute =>
        obtain ⟨rfl, hrest⟩ := List.cons.inj hnames
        exact ⟨r, target, _, hr, htarget, ih.2 ⟨hops, last, path, hroute, hrest, hpath, rfl⟩, rfl⟩

/-! ## What segments lead to -/

/-- Segments lead along the relations of a route, to a field of the entity at its end. -/
theorem follow_route (h : schema.follow failure e segments = .ok whole) :
    schema.Route e whole.hops whole.owner ∧ whole.field ∈ whole.owner.fields := by
  induction segments generalizing e whole with
  | nil => cases h
  | cons segment more ih =>
    cases more with
    | nil =>
      rcases follow_last_ok.1 h with ⟨r, target, key, hr, htarget, hkey, rfl⟩ | ⟨-, field, hfield, rfl⟩
      · have hname := Entity.relation_name hr
        exact ⟨.hop (hname ▸ hr) htarget (.stay target), Entity.mem_of_field hkey⟩
      · exact ⟨.stay e, Entity.mem_of_field hfield⟩
    | cons next rest =>
      obtain ⟨r, target, path, hr, htarget, hpath, rfl⟩ := (follow_cons_ok (List.cons_ne_nil _ _)).1 h
      have hname := Entity.relation_name hr
      obtain ⟨hroute, hfield⟩ := ih hpath
      exact ⟨.hop (hname ▸ hr) htarget hroute, hfield⟩

/-- Segments that name the relations of a route, and nothing else, lead to the key of the entity at its end. -/
theorem follow_hops (hchecked : ofDrafts drafts = .ok schema) (h : schema.Route e hops last) (hhops : hops ≠ []) :
    ∃ key, last.field last.primaryKey = some key ∧
      schema.follow failure e (hops.map (·.name)) = .ok ⟨hops, last, key⟩ := by
  induction h with
  | stay => exact absurd rfl hhops
  | @hop e target last r hops hr htarget hroute ih =>
    cases hops with
    | nil =>
      cases hroute
      obtain ⟨key, hkey⟩ := Option.isSome_iff_exists.1 (ofDrafts_keys hchecked (mem_of_entity htarget)).1
      exact ⟨key, hkey, follow_last_ok.2 (.inl ⟨r, target, key, hr, htarget, hkey, rfl⟩)⟩
    | cons next rest =>
      obtain ⟨key, hkey, hrest⟩ := ih (List.cons_ne_nil _ _)
      exact ⟨key, hkey, (follow_cons_ok (List.cons_ne_nil _ _)).2 ⟨r, target, _, hr, htarget, hrest, rfl⟩⟩

/-- In a checked schema relations lead to entities and entities have keys, so only a name that is missing fails. -/
theorem follow_error (hchecked : ofDrafts drafts = .ok schema) (he : e ∈ schema.entities) {x : QueryError}
    (h : schema.follow failure e segments = .error x) : x = failure := by
  induction segments generalizing e with
  | nil => exact (Except.error.inj h).symm
  | cons segment more ih =>
    cases more with
    | nil =>
      rw [follow] at h
      split at h
      · next r hr =>
        obtain ⟨target, key, htarget, hkey⟩ := ofDrafts_target hchecked he (Entity.mem_of_relation hr)
        rw [htarget] at h
        dsimp only [bind, Except.bind] at h
        rw [hkey] at h
        cases h
      · cases hfield : e.field segment with
        | none =>
          rw [hfield] at h
          exact (Except.error.inj h).symm
        | some field =>
          rw [hfield] at h
          cases h
    | cons next rest =>
      rw [follow] at h
      split at h
      · next r hr =>
        obtain ⟨target, -, htarget, -⟩ := ofDrafts_target hchecked he (Entity.mem_of_relation hr)
        rw [htarget] at h
        dsimp only [bind, Except.bind] at h
        cases hpath : schema.follow failure target (next :: rest) with
        | error x' =>
          rw [hpath] at h
          obtain rfl := Except.error.inj h
          exact ih (mem_of_entity htarget) hpath
        | ok path =>
          rw [hpath] at h
          cases h
      · exact (Except.error.inj h).symm

/-! ## Paths -/

theorem pathSegments_dot (p q : String) : pathSegments (p ++ "." ++ q) = pathSegments p ++ pathSegments q := by
  have hdot : (p ++ "." ++ q).toList = p.toList ++ '.' :: q.toList := by simp
  rw [pathSegments, hdot, splitDots_append_dot, List.map_append]
  rfl

theorem pathSegments_ne_nil (path : String) : pathSegments path ≠ [] := by
  rw [pathSegments, Ne, List.map_eq_nil_iff]
  exact splitDots_ne_nil _

theorem resolve_ok {root path : String} : schema.resolve root path = .ok whole ↔
    ∃ start, schema.entity root = .ok start ∧
      schema.follow (.unknownPath root path) start (pathSegments path) = .ok whole := by
  constructor
  · exact ok_of_bind
  · rintro ⟨start, hstart, hfollow⟩
    rw [resolve, hstart]
    exact hfollow

/-- Two paths joined by a dot lead somewhere exactly when every segment of the first names a relation along the way and
the second leads somewhere from the entity reached, and then along both and to where the second leads; the relations of
the first are those that it leads along by itself. What any path leads along is declared where the relation before it
leads, and what it leads to is declared there. A path that leads nowhere is unknown as a whole, unless its root is. -/
theorem paths_compose (hchecked : ofDrafts drafts = .ok schema) (root : String) :
    (∀ p q whole, schema.resolve root (p ++ "." ++ q) = .ok whole ↔
      ∃ start hops reached rest, schema.entity root = .ok start ∧ schema.Route start hops reached ∧
        hops.map (·.name) = pathSegments p ∧ schema.resolve reached.name q = .ok rest ∧
        whole = ⟨hops ++ rest.hops, rest.owner, rest.field⟩) ∧
    (∀ p start hops reached, schema.entity root = .ok start → schema.Route start hops reached →
      hops.map (·.name) = pathSegments p → ∃ first, schema.resolve root p = .ok first ∧ first.hops = hops ∧
        first.owner = reached ∧
        ∀ q rest, schema.resolve reached.name q = .ok rest → ∃ whole,
          schema.resolve root (p ++ "." ++ q) = .ok whole ∧ whole.isToMany = (first.isToMany || rest.isToMany)) ∧
    (∀ path whole, schema.resolve root path = .ok whole → ∃ start, schema.entity root = .ok start ∧
      schema.Route start whole.hops whole.owner ∧ whole.field ∈ whole.owner.fields) ∧
    ∀ path failure, schema.resolve root path = .error failure →
      ((∃ start, schema.entity root = .ok start) ∧ failure = .unknownPath root path) ∨
        (schema.entity? root = none ∧ failure = .unknownPath root "") := by
  have hjoined : ∀ p q whole, schema.resolve root (p ++ "." ++ q) = .ok whole ↔
      ∃ start hops reached rest, schema.entity root = .ok start ∧ schema.Route start hops reached ∧
        hops.map (·.name) = pathSegments p ∧ schema.resolve reached.name q = .ok rest ∧
        whole = ⟨hops ++ rest.hops, rest.owner, rest.field⟩ := by
    intro p q whole
    rw [resolve_ok, pathSegments_dot]
    constructor
    · rintro ⟨start, hstart, hfollow⟩
      obtain ⟨hops, reached, rest, hroute, hnames, hrest, rfl⟩ := (follow_append_ok (pathSegments_ne_nil q)).1 hfollow
      have hreached := ofDrafts_entity hchecked (hroute.mem (mem_of_entity hstart))
      exact ⟨start, hops, reached, rest, hstart, hroute, hnames, resolve_ok.2 ⟨_, hreached, follow_ok_of_ok hrest⟩, rfl⟩
    · rintro ⟨start, hops, reached, rest, hstart, hroute, hnames, hrest, rfl⟩
      have hreached := ofDrafts_entity hchecked (hroute.mem (mem_of_entity hstart))
      obtain ⟨found, hfound, hfollow⟩ := resolve_ok.1 hrest
      obtain rfl := Except.ok.inj (hfound.symm.trans hreached)
      exact ⟨start, hstart, (follow_append_ok (pathSegments_ne_nil q)).2
        ⟨hops, found, rest, hroute, hnames, follow_ok_of_ok hfollow, rfl⟩⟩
  refine ⟨hjoined, fun p start hops reached hstart hroute hnames => ?_, fun path whole h => ?_,
    fun path failure h => ?_⟩
  · have hhops : hops ≠ [] := fun hnil => pathSegments_ne_nil p (by rw [← hnames, hnil, List.map_nil])
    obtain ⟨key, -, hfollow⟩ := follow_hops hchecked hroute hhops
    rw [hnames] at hfollow
    refine ⟨⟨hops, reached, key⟩, resolve_ok.2 ⟨start, hstart, hfollow⟩, rfl, rfl, fun q rest hrest => ?_⟩
    exact ⟨_, (hjoined p q _).2 ⟨start, hops, reached, rest, hstart, hroute, hnames, hrest, rfl⟩, List.any_append⟩
  · obtain ⟨start, hstart, hfollow⟩ := resolve_ok.1 h
    exact ⟨start, hstart, follow_route hfollow⟩
  · cases hfound : schema.entity? root with
    | none =>
      rw [resolve, entity, hfound] at h
      exact .inr ⟨rfl, (Except.error.inj h).symm⟩
    | some start =>
      have hstart := entity_eq_ok.2 hfound
      rw [resolve, hstart] at h
      exact .inl ⟨⟨start, hstart⟩, follow_error hchecked (mem_of_entity hstart) h⟩

end Schema

/-! ## A cycle -/

namespace Threads

/-- messages that answer each other, in rooms -/
def drafts : List EntityDraft :=
  [.declare "room" none none [⟨"id", .int, false⟩] [.toMany "messages" "message" "room_id"],
    .declare "message" none none [⟨"id", .int, false⟩, ⟨"text", .text, false⟩, ⟨"room_id", .int, false⟩,
      ⟨"parent_id", .int, true⟩] [.toOne "room" "room" "room_id", .toOne "parent" "message" "parent_id"]]

def message : Entity :=
  ⟨"message", "message", "id",
    [⟨"id", .int, false⟩, ⟨"text", .text, false⟩, ⟨"room_id", .int, false⟩, ⟨"parent_id", .int, true⟩],
    [⟨"room", "room", .toOne, "room_id", "id"⟩, ⟨"parent", "message", .toOne, "parent_id", "id"⟩]⟩

def room : Entity := ⟨"room", "room", "id", [⟨"id", .int, false⟩], [⟨"messages", "message", .toMany, "id", "room_id"⟩]⟩

def schema : Schema := ⟨[room, message]⟩

theorem checked : Schema.ofDrafts drafts = .ok schema := rfl

/-- From a message to the messages of its room, on to the room of these, and to the texts that its messages answer; a
text leads nowhere. -/
theorem paths_compose_answers :
    (∃ whole, schema.resolve "message" "room.messages.room.messages.parent.text" = .ok whole ∧
      whole.hops.map (·.name) = ["room", "messages", "room", "messages", "parent"] ∧
      schema.Route message whole.hops message ∧ whole.isToMany = true) ∧
    ∃ failure, schema.resolve "message" "room.messages.text.length" = .error failure ∧
      failure = .unknownPath "message" "room.messages.text.length" := by
  obtain ⟨hjoined, hthrough, hleads, hfails⟩ := Schema.paths_compose checked "message"
  have hroute : schema.Route message (message.relations.take 1 ++ room.relations) message :=
    .hop rfl rfl (.hop rfl rfl (.stay message))
  constructor
  · obtain ⟨first, -, -, -, hmore⟩ := hthrough "room.messages" message _ message rfl hroute (by decide)
    obtain ⟨whole, hwhole, -⟩ := hmore "room.messages.parent.text" _ rfl
    obtain ⟨start, hstart, hlinked, -⟩ := hleads _ _ hwhole
    obtain rfl : message = start := Except.ok.inj hstart
    obtain rfl := Except.ok.inj hwhole
    exact ⟨_, hwhole, by decide, hlinked, by decide⟩
  · rcases hfails "room.messages.text.length" _ rfl with ⟨-, hfailure⟩ | ⟨hmissing, -⟩
    · exact ⟨_, rfl, hfailure⟩
    · cases hmissing

end Threads

end RelQuery
