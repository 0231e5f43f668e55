/-
Compiling with more aliases.

A plan gets annotations, and its aliases more than one step to be followed, when it goes on being built. What could be
compiled before is compiled to the same then, with the same tables.
- `Expr.lower_mono`: where aliases that meant something mean the same, expressions are compiled the same.
- `Plan.lowerAll_mono`: the expressions of a plan, compiled in a plan with further annotations.
-/
import RelQuery.Proofs.Statement.Outputs

namespace RelQuery

/-- Whatever one step of compilation gives, the other gives as well. -/
def Lowering.Within {α : Type} (act act' : Lowering α) : Prop := ∀ ⦃s s' a⦄, act s = .ok (a, s') → act' s = .ok (a, s')

namespace Lowering.Within

variable {α β : Type} {act act' : Lowering α} {next next' : α → Lowering β}

theorem refl (act : Lowering α) : act.Within act := fun _ _ _ h => h

theorem bind (h : act.Within act') (hnext : ∀ a, (next a).Within (next' a)) :
    (act >>= next).Within (act' >>= next') := by
  intro s s' b hb
  obtain ⟨a, s₁, ha, hmore⟩ := bind_ok hb
  rw [bind_eq (h ha)]
  exact hnext a hmore

theorem map (h : act.Within act') (f : α → β) : (do return f (← act)).Within (do return f (← act')) :=
  h.bind fun a => refl (pure (f a))

end Lowering.Within

/-- Aliases that mean something mean the same. -/
def Expansion.Within (expand expand' : Expansion) : Prop := ∀ role name, (expand role name).Within (expand' role name)

open Lowering.Within in
mutual

theorem Expr.lower_mono {expand expand' : Expansion} (hexpand : expand.Within expand') (scope : Scope) : (e : Expr) →
    (role : Role) → (e.lower scope expand role).Within (e.lower scope expand' role)
  | .field _, _ | .literal _, _ | .outer _, _ | .case [] none, _ | .aggregate _ none _, _ | .correlated _, _
  | .existsRow _ _, _ => refl _
  | .aliasRef name, role => hexpand role name
  | .binary _ left right, role =>
    (left.lower_mono hexpand scope role).bind fun _ => (right.lower_mono hexpand scope role).map _
  | .and operands, role => (lowerList_mono hexpand scope operands role).map _
  | .or operands, role => (lowerList_mono hexpand scope operands role.weakened).map _
  | .not operand, role | .isNull operand _, role => (operand.lower_mono hexpand scope role.weakened).map _
  | .inList operand values negated, role =>
    (operand.lower_mono hexpand scope (if negated then role.weakened else role)).bind fun _ =>
      (lowerList_mono hexpand scope values (if negated then role.weakened else role)).map _
  | .case [] (some otherwise), role => otherwise.lower_mono hexpand scope role.weakened
  | .case (arm :: arms) none, role => (lowerArms_mono hexpand scope (arm :: arms) role.weakened).map _
  | .case (arm :: arms) (some otherwise), role =>
    (lowerArms_mono hexpand scope (arm :: arms) role.weakened).bind fun _ =>
      (otherwise.lower_mono hexpand scope role.weakened).map _
  | .aggregate _ (some arg) _, role => (arg.lower_mono hexpand scope role.aggregated).map _
termination_by structural e => e

theorem lowerList_mono {expand expand' : Expansion} (hexpand : expand.Within expand') (scope : Scope) :
    (es : List Expr) → (role : Role) → (lowerList es scope expand role).Within (lowerList es scope expand' role)
  | [], _ => refl _
  | e :: rest, role =>
    (e.lower_mono hexpand scope role).bind fun _ => (lowerList_mono hexpand scope rest role).map _
termination_by structural es => es

theorem lowerArms_mono {expand expand' : Expansion} (hexpand : expand.Within expand') (scope : Scope) :
    (arms : List (Expr × Expr)) → (role : Role) →
    (lowerArms arms scope expand role).Within (lowerArms arms scope expand' role)
  | [], _ => refl _
  | (test, result) :: rest, role =>
    (test.lower_mono hexpand scope role).bind fun _ => (result.lower_mono hexpand scope role).bind fun _ =>
      (lowerArms_mono hexpand scope rest role).map _
termination_by structural arms => arms

end

namespace Plan

variable {p next : Plan}

/-- An annotation is found among more annotations that follow. -/
theorem annotationOf_mono (h : p.annotations <+: next.annotations) {name : String} {e : Expr}
    (he : p.annotationOf name = some e) : next.annotationOf name = some e := by
  obtain ⟨more, hmore⟩ := h
  obtain ⟨note, hnote, rfl⟩ := Option.map_eq_some_iff.1 he
  rw [annotationOf, ← hmore, List.find?_append, hnote]
  rfl

theorem expand_mono (h : p.annotations <+: next.annotations) (scope : Scope) : {budget more : Nat} → budget ≤ more →
    (p.fragments.expand scope budget).Within (next.fragments.expand scope more)
  | 0, _, _ => fun _ _ _ _ _ hx => by cases hx
  | budget + 1, 0, hle => absurd hle (by omega)
  | budget + 1, more + 1, hle => fun role name s s' x hx => by
    obtain ⟨e, he, hlower⟩ := expand_ok hx
    rw [expand_succ, annotationOf_mono h he]
    exact e.lower_mono (expand_mono h scope (Nat.le_of_succ_le_succ hle)) scope role hlower

/-- What a plan compiles, it compiles alike with further annotations. -/
theorem lowerAll_mono (h : p.annotations <+: next.annotations) (scope : Scope) : (items : List (Expr × Role)) →
    (p.lowerAll scope items).Within (next.lowerAll scope items)
  | [] => .refl _
  | item :: rest => by
    have hexpand : (p.fragments.expansion scope).Within (next.fragments.expansion scope) := by
      rw [p.expansion_eq, next.expansion_eq]
      exact expand_mono h scope (Nat.succ_le_succ h.length_le)
    rw [lowerAll, lowerAll, List.mapM_cons, List.mapM_cons]
    exact (item.1.lower_mono hexpand scope item.2).bind fun _ => (lowerAll_mono h scope rest).map _

end Plan

end RelQuery
