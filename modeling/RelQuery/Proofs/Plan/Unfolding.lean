/-
Aliases followed to their ends.

An alias stands for the expression of its annotation, which may hold aliases again. An expression can be unfolded until
no alias is left (`Plan.Unfolds`) exactly when every alias that it reaches has an annotation and no annotation that it
reaches leads back to its own alias. No chain of aliases is then longer than the list of annotations, for no annotation
occurs in a chain twice, so a limit of as many steps is none (`Plan.EndsWithin`).
- `endsWithin_iff`: without missing aliases and circles, every chain ends in as many steps as there are annotations.
- `unfolds_iff`: what can be unfolded.
-/
import Mathlib.Tactic
import RelQuery.Proofs.Plan.Building
import RelQuery.Proofs.Plan.Searches

namespace RelQuery

/-! ## Other expressions for aliases -/

namespace Expr

mutual

/-- an expression with others in place of its aliases; subplans have aliases of their own -/
def replaceAliases (f : String → Expr) : Expr → Expr
  | .field ref => .field ref
  | .aliasRef name => f name
  | .literal value => .literal value
  | .binary op left right => .binary op (replaceAliases f left) (replaceAliases f right)
  | .and operands => .and (replaceAliasesOfList f operands)
  | .or operands => .or (replaceAliasesOfList f operands)
  | .not operand => .not (replaceAliases f operand)
  | .isNull operand negated => .isNull (replaceAliases f operand) negated
  | .inList operand values negated => .inList (replaceAliases f operand) (replaceAliasesOfList f values) negated
  | .case arms none => .case (replaceAliasesOfArms f arms) none
  | .case arms (some e) => .case (replaceAliasesOfArms f arms) (some (replaceAliases f e))
  | .aggregate function none distinct => .aggregate function none distinct
  | .aggregate function (some arg) distinct => .aggregate function (some (replaceAliases f arg)) distinct
  | .outer name => .outer name
  | .correlated plan => .correlated plan
  | .existsRow plan negated => .existsRow plan negated
termination_by structural e => e

def replaceAliasesOfList (f : String → Expr) : List Expr → List Expr
  | [] => []
  | e :: rest => replaceAliases f e :: replaceAliasesOfList f rest
termination_by structural es => es

def replaceAliasesOfArms (f : String → Expr) : List (Expr × Expr) → List (Expr × Expr)
  | [] => []
  | (test, result) :: rest => (replaceAliases f test, replaceAliases f result) :: replaceAliasesOfArms f rest
termination_by structural arms => arms

end

variable {f : String → Expr} {asked : String}

mutual

/-- An alias in the new expression is one of an expression that was put in. -/
theorem aliasRef_mem_replaceAliases : (e : Expr) → .aliasRef asked ∈ (e.replaceAliases f).nodes →
    ∃ name, .aliasRef name ∈ e.nodes ∧ .aliasRef asked ∈ (f name).nodes
  | .field _, h | .literal _, h | .aggregate _ none _, h | .outer _, h | .correlated _, h | .existsRow .., h => by
    simp [replaceAliases, nodes] at h
  | .aliasRef name, h => ⟨name, by simp [nodes], h⟩
  | .binary _ left right, h => by
    simp only [replaceAliases, nodes, List.mem_cons, List.mem_append, reduceCtorEq, false_or] at h ⊢
    rcases h with h | h
    · exact (aliasRef_mem_replaceAliases left h).imp fun _ ⟨hname, hmem⟩ => ⟨.inl hname, hmem⟩
    · exact (aliasRef_mem_replaceAliases right h).imp fun _ ⟨hname, hmem⟩ => ⟨.inr hname, hmem⟩
  | .and operands, h | .or operands, h => by
    simp only [replaceAliases, nodes, List.mem_cons, reduceCtorEq, false_or] at h ⊢
    exact aliasRef_mem_replaceAliasesOfList operands h
  | .not operand, h | .isNull operand _, h | .aggregate _ (some operand) _, h => by
    simp only [replaceAliases, nodes, List.mem_cons, reduceCtorEq, false_or] at h ⊢
    exact aliasRef_mem_replaceAliases operand h
  | .inList operand values _, h => by
    simp only [replaceAliases, nodes, List.mem_cons, List.mem_append, reduceCtorEq, false_or] at h ⊢
    rcases h with h | h
    · exact (aliasRef_mem_replaceAliases operand h).imp fun _ ⟨hname, hmem⟩ => ⟨.inl hname, hmem⟩
    · exact (aliasRef_mem_replaceAliasesOfList values h).imp fun _ ⟨hname, hmem⟩ => ⟨.inr hname, hmem⟩
  | .case arms none, h => by
    simp only [replaceAliases, nodes, List.mem_cons, List.append_nil, reduceCtorEq, false_or] at h ⊢
    exact aliasRef_mem_replaceAliasesOfArms arms h
  | .case arms (some e), h => by
    simp only [replaceAliases, nodes, List.mem_cons, List.mem_append, reduceCtorEq, false_or] at h ⊢
    rcases h with h | h
    · exact (aliasRef_mem_replaceAliasesOfArms arms h).imp fun _ ⟨hname, hmem⟩ => ⟨.inl hname, hmem⟩
    · exact (aliasRef_mem_replaceAliases e h).imp fun _ ⟨hname, hmem⟩ => ⟨.inr hname, hmem⟩
termination_by structural e => e

theorem aliasRef_mem_replaceAliasesOfList : (es : List Expr) →
    .aliasRef asked ∈ nodesOfList (replaceAliasesOfList f es) →
    ∃ name, .aliasRef name ∈ nodesOfList es ∧ .aliasRef asked ∈ (f name).nodes
  | [], h => by cases h
  | e :: rest, h => by
    simp only [replaceAliasesOfList, nodesOfList, List.mem_append] at h ⊢
    rcases h with h | h
    · exact (aliasRef_mem_replaceAliases e h).imp fun _ ⟨hname, hmem⟩ => ⟨.inl hname, hmem⟩
    · exact (aliasRef_mem_replaceAliasesOfList rest h).imp fun _ ⟨hname, hmem⟩ => ⟨.inr hname, hmem⟩
termination_by structural es => es

theorem aliasRef_mem_replaceAliasesOfArms : (arms : List (Expr × Expr)) →
    .aliasRef asked ∈ nodesOfArms (replaceAliasesOfArms f arms) →
    ∃ name, .aliasRef name ∈ nodesOfArms arms ∧ .aliasRef asked ∈ (f name).nodes
  | [], h => by cases h
  | (test, result) :: rest, h => by
    simp only [replaceAliasesOfArms, nodesOfArms, List.mem_append] at h ⊢
    rcases h with (h | h) | h
    · exact (aliasRef_mem_replaceAliases test h).imp fun _ ⟨hname, hmem⟩ => ⟨.inl (.inl hname), hmem⟩
    · exact (aliasRef_mem_replaceAliases result h).imp fun _ ⟨hname, hmem⟩ => ⟨.inl (.inr hname), hmem⟩
    · exact (aliasRef_mem_replaceAliasesOfArms rest h).imp fun _ ⟨hname, hmem⟩ => ⟨.inr hname, hmem⟩
termination_by structural arms => arms

end

end Expr

namespace Plan

variable {p : Plan} {e inner node : Expr} {name : String} {steps : Nat}

/-! ## What can be reached -/

/-- What the annotation of an alias reaches is reached wherever the alias is. -/
theorem Reaches.beyond (h : p.Reaches e (.aliasRef name)) (hinner : p.annotationOf name = some inner)
    (hnode : p.Reaches inner node) : p.Reaches e node := by
  generalize hasked : Expr.aliasRef name = asked at h
  induction h with
  | part hmem =>
    subst hasked
    exact .through (Expr.mem_aliases.2 hmem) hinner hnode
  | through hname hnext _ ih => exact .through hname hnext (ih hasked)

/-- What is reached is a part of the expression, or of the annotation of an alias that is reached. -/
theorem reaches_iff : p.Reaches e node ↔ node ∈ e.nodes ∨
    ∃ name inner, p.Reaches e (.aliasRef name) ∧ p.annotationOf name = some inner ∧ node ∈ inner.nodes := by
  constructor
  · intro h
    induction h with
    | part hmem => exact .inl hmem
    | through hname hinner _ ih =>
      have hown := Reaches.part (p := p) (Expr.mem_aliases.1 hname)
      rcases ih with hmem | ⟨other, next, hother, hnext, hmem⟩
      · exact .inr ⟨_, _, hown, hinner, hmem⟩
      · exact .inr ⟨other, next, hown.beyond hinner hother, hnext, hmem⟩
  · rintro (hmem | ⟨name, inner, hreach, hinner, hmem⟩)
    · exact .part hmem
    · exact hreach.beyond hinner (.part hmem)

variable (p) in
/-- An alias without an annotation is reached. -/
def Dangles (e : Expr) : Prop := ∃ name, p.Reaches e (.aliasRef name) ∧ p.annotationOf name = none

variable (p) in
/-- An alias is reached whose annotation leads back to it. -/
def Circles (e : Expr) : Prop :=
  ∃ name inner, p.Reaches e (.aliasRef name) ∧ p.annotationOf name = some inner ∧ p.Reaches inner (.aliasRef name)

theorem Dangles.through (hname : name ∈ e.aliases) (hinner : p.annotationOf name = some inner)
    (h : p.Dangles inner) : p.Dangles e :=
  h.imp fun _ ⟨hreach, hnone⟩ => ⟨.through hname hinner hreach, hnone⟩

theorem Circles.through (hname : name ∈ e.aliases) (hinner : p.annotationOf name = some inner)
    (h : p.Circles inner) : p.Circles e := by
  obtain ⟨other, next, hreach, hnext, hback⟩ := h
  exact ⟨other, next, .through hname hinner hreach, hnext, hback⟩

/-! ## Chains that end -/

variable (p) in
/-- Every chain of aliases from the expression comes to its end within a number of steps. -/
def EndsWithin : Nat → Expr → Prop
  | 0, e => e.aliases = []
  | steps + 1, e => ∀ name ∈ e.aliases, ∃ inner, p.annotationOf name = some inner ∧ EndsWithin steps inner

theorem EndsWithin.next (h : p.EndsWithin steps e) (hname : name ∈ e.aliases) :
    ∃ fewer inner, steps = fewer + 1 ∧ p.annotationOf name = some inner ∧ p.EndsWithin fewer inner := by
  cases steps with
  | zero =>
    have hnone : e.aliases = [] := h
    rw [hnone] at hname
    cases hname
  | succ fewer =>
    obtain ⟨inner, hinner, hends⟩ := h name hname
    exact ⟨fewer, inner, rfl, hinner, hends⟩

instance decidableEndsWithin : (steps : Nat) → (e : Expr) → Decidable (p.EndsWithin steps e)
  | 0, e => inferInstanceAs (Decidable (e.aliases = []))
  | steps + 1, e =>
    have (name : String) : Decidable (∃ inner, p.annotationOf name = some inner ∧ p.EndsWithin steps inner) :=
      match p.annotationOf name with
      | none => isFalse nofun
      | some inner =>
        have := decidableEndsWithin steps inner
        decidable_of_iff (p.EndsWithin steps inner) (by simp)
    inferInstanceAs (Decidable (∀ name ∈ e.aliases, _))

/-- In a chain whose annotations all reach the expression's aliases, the next alias is a new one. -/
theorem fresh_of_chain (hdangles : ¬p.Dangles e) (hcircles : ¬p.Circles e) {chain : List String}
    (hchain : ∀ name ∈ chain, ∃ inner, p.annotationOf name = some inner ∧
      ∀ other ∈ e.aliases, p.Reaches inner (.aliasRef other)) (hname : name ∈ e.aliases) :
    name ∉ chain ∧ ∃ inner, p.annotationOf name = some inner := by
  have hreach : p.Reaches e (.aliasRef name) := .part (Expr.mem_aliases.1 hname)
  constructor
  · intro hmem
    obtain ⟨own, hown, hback⟩ := hchain name hmem
    exact hcircles ⟨name, own, hreach, hown, hback name hname⟩
  · exact Option.ne_none_iff_exists'.1 fun hnone => hdangles ⟨name, hreach, hnone⟩

/-- The annotations of a chain are different ones, so as many steps are left as there are annotations besides. -/
theorem endsWithin_of_chain (hdangles : ¬p.Dangles e) (hcircles : ¬p.Circles e) (chain : List String)
    (hnodup : chain.Nodup) (hchain : ∀ name ∈ chain, ∃ inner, p.annotationOf name = some inner ∧
      ∀ other ∈ e.aliases, p.Reaches inner (.aliasRef other))
    (hsteps : p.annotations.length ≤ chain.length + steps) : p.EndsWithin steps e := by
  induction steps generalizing e chain with
  | zero =>
    -- a chain of all annotations goes no further
    refine List.eq_nil_iff_forall_not_mem.2 fun name hname => ?_
    obtain ⟨hfresh, inner, hinner⟩ := fresh_of_chain hdangles hcircles hchain hname
    have hsub : name :: chain ⊆ p.aliasNames := by
      refine List.cons_subset.2 ⟨annotationOf_isSome.1 (by simp [hinner]), fun other hother => ?_⟩
      obtain ⟨own, hown, -⟩ := hchain other hother
      exact annotationOf_isSome.1 (by simp [hown])
    have hlength := ((List.nodup_cons.2 ⟨hfresh, hnodup⟩).subperm hsub).length_le
    rw [List.length_cons, aliasNames, List.length_map] at hlength
    omega
  | succ steps ih =>
    intro name hname
    obtain ⟨hfresh, inner, hinner⟩ := fresh_of_chain hdangles hcircles hchain hname
    refine ⟨inner, hinner, ih (fun h => hdangles (h.through hname hinner)) (fun h => hcircles (h.through hname hinner))
      (name :: chain) (List.nodup_cons.2 ⟨hfresh, hnodup⟩) (fun other hother => ?_) ?_⟩
    · rcases List.mem_cons.1 hother with rfl | hother
      · exact ⟨inner, hinner, fun next hnext => .part (Expr.mem_aliases.1 hnext)⟩
      · obtain ⟨own, hown, hreach⟩ := hchain other hother
        exact ⟨own, hown, fun next hnext => (hreach name hname).beyond hinner (.part (Expr.mem_aliases.1 hnext))⟩
    · rw [List.length_cons]
      omega

/-! ## Unfolding -/

/-- An expression with each alias replaced by what its annotation unfolds to. -/
inductive Unfolds (p : Plan) : Expr → Expr → Prop
  | mk {e : Expr} (inner full : String → Expr) : (∀ name ∈ e.aliases, p.annotationOf name = some (inner name)) →
    (∀ name ∈ e.aliases, Unfolds p (inner name) (full name)) → Unfolds p e (e.replaceAliases full)

theorem EndsWithin.unfolds (h : p.EndsWithin steps e) : ∃ full, p.Unfolds e full := by
  induction steps generalizing e with
  | zero =>
    have hnone : e.aliases = [] := h
    exact ⟨_, .mk Expr.aliasRef Expr.aliasRef (by simp [hnone]) (by simp [hnone])⟩
  | succ steps ih =>
    have hnext : ∀ name ∈ e.aliases, ∃ inner, p.annotationOf name = some inner ∧ ∃ full, p.Unfolds inner full := by
      intro name hname
      obtain ⟨inner, hinner, hends⟩ := h name hname
      exact ⟨inner, hinner, ih hends⟩
    choose! inner hinner full hfull using hnext
    exact ⟨_, .mk inner full hinner hfull⟩

/-- What is unfolded holds no alias any more. -/
theorem Unfolds.aliases_eq_nil {full : Expr} (h : p.Unfolds e full) : full.aliases = [] := by
  induction h with
  | mk inner full _ _ ih =>
    refine List.eq_nil_iff_forall_not_mem.2 fun asked hasked => ?_
    obtain ⟨name, hname, hmem⟩ := Expr.aliasRef_mem_replaceAliases _ (Expr.mem_aliases.1 hasked)
    have hnone := ih name (Expr.mem_aliases.2 hname)
    simpa [hnone] using Expr.mem_aliases.2 hmem

theorem Unfolds.not_dangles {full : Expr} (h : p.Unfolds e full) : ¬p.Dangles e := by
  induction h with
  | mk inner full hinner _ ih =>
    rintro ⟨name, hreach, hnone⟩
    cases hreach with
    | part hmem => cases hnone.symm.trans (hinner name (Expr.mem_aliases.2 hmem))
    | through hname hnext hdeeper =>
      obtain rfl := Option.some.inj (hnext.symm.trans (hinner _ hname))
      exact ih _ hname ⟨name, hdeeper, hnone⟩

theorem Unfolds.not_circles {full : Expr} (h : p.Unfolds e full) : ¬p.Circles e := by
  induction h with
  | mk inner full hinner _ ih =>
    rintro ⟨name, own, hreach, hown, hback⟩
    cases hreach with
    | part hmem =>
      have hname := Expr.mem_aliases.2 hmem
      obtain rfl := Option.some.inj (hown.symm.trans (hinner name hname))
      exact ih name hname ⟨name, _, hback, hown, hback⟩
    | through hname hnext hdeeper =>
      obtain rfl := Option.some.inj (hnext.symm.trans (hinner _ hname))
      exact ih _ hname ⟨name, own, hdeeper, hown, hback⟩

/-- Within as many steps as there are annotations every chain ends that ends at all. -/
theorem endsWithin_iff (hsteps : p.annotations.length ≤ steps) :
    p.EndsWithin steps e ↔ ¬p.Dangles e ∧ ¬p.Circles e := by
  constructor
  · intro h
    obtain ⟨full, hfull⟩ := h.unfolds
    exact ⟨hfull.not_dangles, hfull.not_circles⟩
  · rintro ⟨hdangles, hcircles⟩
    exact endsWithin_of_chain hdangles hcircles [] .nil nofun (by simpa using hsteps)

/-- An expression can be unfolded when no alias is missing and none leads back to itself. -/
theorem unfolds_iff : (∃ full, p.Unfolds e full) ↔ ¬p.Dangles e ∧ ¬p.Circles e := by
  constructor
  · rintro ⟨full, hfull⟩
    exact ⟨hfull.not_dangles, hfull.not_circles⟩
  · intro h
    exact ((endsWithin_iff le_rfl).2 h).unfolds

end Plan

end RelQuery
