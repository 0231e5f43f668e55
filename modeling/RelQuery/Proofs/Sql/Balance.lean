/-
Parentheses of a written statement.

Whatever is written for an expression or a query, each parenthesis in it has its partner in it (`Balanced`), so that a
nested query ends at the parenthesis that closes it.
- `Expr.balanced`, `Query.balanced`: the parentheses of expressions and queries match.
-/
import Mathlib.Tactic
import RelQuery.Sql.Write

namespace RelQuery.Sql

namespace Token

/-- whether a token is a parenthesis -/
def isParenthesis : Token → Bool
  | .sign .open | .sign .close => true
  | _ => false

/-- tokens whose parentheses match -/
inductive Balanced : List Token → Prop where
  | nil : Balanced []
  | one {token : Token} : token.isParenthesis = false → Balanced [token]
  | append {a b : List Token} : Balanced a → Balanced b → Balanced (a ++ b)
  | inside {inner : List Token} : Balanced inner → Balanced (parenthesized inner)

theorem Balanced.cons {token : Token} {rest : List Token} (htoken : token.isParenthesis = false) (h : Balanced rest) :
    Balanced (token :: rest) :=
  .append (.one htoken) h

/-- tokens without parentheses -/
theorem balanced_of_all {tokens : List Token} (h : ∀ token ∈ tokens, token.isParenthesis = false) :
    Balanced tokens := by
  induction tokens with
  | nil => exact .nil
  | cons token rest ih => exact .cons (h token (by simp)) (ih fun token htoken => h token (by simp [htoken]))

theorem balanced_commaSeparated {pieces : List (List Token)} (h : ∀ piece ∈ pieces, Balanced piece) :
    Balanced (commaSeparated pieces) := by
  match pieces with
  | [] => exact .nil
  | [piece] => exact h piece (by simp)
  | piece :: next :: rest =>
    have hrest := balanced_commaSeparated fun piece hpiece => h piece (List.mem_cons_of_mem _ hpiece)
    exact .append (h piece (by simp)) (.cons rfl (.cons rfl hrest))

end Token

open Token

theorem balanced_qualifierTokens (table : Option String) : Balanced (qualifierTokens table) := by
  cases table with
  | none => exact .nil
  | some name => exact .cons rfl (.one rfl)

theorem balanced_aliasTokens (aliasName : Option String) : Balanced (aliasTokens aliasName) := by
  cases aliasName with
  | none => exact .nil
  | some name => exact balanced_of_all (by simp [aliasTokens, isParenthesis])

theorem TableRef.balanced (t : TableRef) : Balanced t.tokens := .cons rfl (balanced_aliasTokens t.aliasName)

theorem JoinKind.balanced (kind : JoinKind) : Balanced kind.tokens := by
  cases kind <;> exact balanced_of_all (by simp [JoinKind.tokens, isParenthesis])

theorem BinaryOp.token_isParenthesis (op : BinaryOp) : op.token.isParenthesis = false := by cases op <;> rfl

theorem balanced_operandTokens (e : Expr) {tokens : List Token} (h : Balanced tokens) :
    Balanced (operandTokens e tokens) := by
  unfold operandTokens
  split
  · exact .inside h
  · exact h

theorem balanced_negationTokens (negated : Bool) : Balanced (negationTokens negated) := by
  cases negated
  · exact .nil
  · exact .cons rfl (.one rfl)

theorem balanced_clause (w : Word) {body : List Token} (h : Balanced body) : Balanced (clause w body) :=
  .cons rfl (.cons rfl (.cons rfl h))

theorem balanced_page (d : Dialect) (limit offset : Option UInt64) : Balanced (d.page limit offset) := by
  apply balanced_of_all
  cases d <;> cases limit <;> cases offset <;>
    simp [Dialect.page, Dialect.limitedPage, Dialect.standardPage, Dialect.fetchPage, Dialect.boundToken, isParenthesis]

variable (d : Dialect)

/-- the lines of a query -/
theorem Query.tokens_eq (select : List SelectItem) (distinct : Bool) (source : Option Source) (joins : List Join)
    (condition : Option Expr) (groupBy : List Expr) (having : Option Expr) (orderBy : List OrderKey)
    (page : Option Page) :
    Query.tokens d ⟨select, distinct, source, joins, condition, groupBy, having, orderBy, page⟩
      = .word .select :: (if distinct then [.blank, .word .distinct] else [])
        ++ (if select.isEmpty then [] else .blank :: commaSeparated (itemTokens d select))
        ++ (source.map fun source => clause .fromSource (source.tokens d)).getD []
        ++ joinTokens d joins
        ++ (condition.map fun e => clause .whereTrue (e.tokens d)).getD []
        ++ (if groupBy.isEmpty then [] else clause .groupBy (commaSeparated (exprTokens d groupBy)))
        ++ (having.map fun e => clause .having (e.tokens d)).getD []
        ++ (if !orderBy.isEmpty then clause .orderBy (commaSeparated (orderTokens d orderBy))
          else if d.pageNeedsOrder && page.isSome then anyOrder
          else [])
        ++ (page.map fun page => .lineBreak :: d.page page.limit page.offset).getD [] := by
  cases source <;> cases condition <;> cases having <;> cases page <;> rfl

mutual

theorem Expr.balanced : (e : Expr) → Balanced (e.tokens d)
  | .column table _ => .append (balanced_qualifierTokens table) (.one rfl)
  | .int _ => .one rfl
  | .param .null | .param (.bool _) | .param (.int _) | .param (.real _) | .param (.text _) => .one rfl
  | .binary op left right => by
    rw [Expr.tokens]
    split
    · exact .cons rfl (.inside (.append left.balanced (.cons rfl (.cons rfl right.balanced))))
    · exact .append (balanced_operandTokens left left.balanced)
        (.cons rfl (.cons op.token_isParenthesis (.cons rfl (balanced_operandTokens right right.balanced))))
  | .not e => .cons rfl (.cons rfl (balanced_operandTokens e e.balanced))
  | .call _ args distinct => by
    rw [Expr.tokens]
    refine .cons rfl (.inside (.append ?_ (balanced_commaSeparated (exprTokens_balanced args))))
    cases distinct
    · exact .nil
    · exact .cons rfl (.one rfl)
  | .case arms none => .cons rfl (.append (.append (armTokens_balanced arms) .nil) (.cons rfl (.one rfl)))
  | .case arms (some e) =>
    .cons rfl (.append (.append (armTokens_balanced arms) (.cons rfl (.cons rfl (.cons rfl e.balanced))))
      (.cons rfl (.one rfl)))
  | .subquery q => .inside q.balanced
  | .existsRow q negated => by
    rw [Expr.tokens]
    refine .append ?_ (.cons rfl (.cons rfl (.inside q.balanced)))
    cases negated
    · exact .nil
    · exact .cons rfl (.one rfl)
  | .inList e values negated => by
    rw [Expr.tokens]
    split
    · cases negated <;> exact balanced_of_all (by simp [emptyMembership, isParenthesis])
    · exact .append (.append (balanced_operandTokens e e.balanced) (balanced_negationTokens negated))
        (.cons rfl (.cons rfl (.cons rfl (.inside (balanced_commaSeparated (exprTokens_balanced values))))))
  | .inQuery e q negated =>
    .append (.append (balanced_operandTokens e e.balanced) (balanced_negationTokens negated))
      (.cons rfl (.cons rfl (.cons rfl (.inside q.balanced))))
  | .isNull e negated => .append (balanced_operandTokens e e.balanced) (.cons rfl (.one rfl))
  | .star table => .append (balanced_qualifierTokens table) (.one rfl)
  | .paren e => .inside e.balanced
termination_by structural e => e

theorem exprTokens_balanced : (es : List Expr) → ∀ piece ∈ exprTokens d es, Balanced piece
  | [] => by simp [exprTokens]
  | e :: rest => by
    rw [exprTokens, List.forall_mem_cons]
    exact ⟨e.balanced, exprTokens_balanced rest⟩
termination_by structural es => es

theorem armTokens_balanced : (arms : List (Expr × Expr)) → Balanced (armTokens d arms)
  | [] => .nil
  | (test, result) :: rest => by
    rw [armTokens]
    exact .append (.append (.cons rfl (.cons rfl (.cons rfl test.balanced)))
      (.cons rfl (.cons rfl (.cons rfl result.balanced)))) (armTokens_balanced rest)
termination_by structural arms => arms

theorem itemTokens_balanced : (items : List SelectItem) → ∀ piece ∈ itemTokens d items, Balanced piece
  | [] => by simp [itemTokens]
  | ⟨e, aliasName⟩ :: rest => by
    rw [itemTokens, List.forall_mem_cons]
    exact ⟨.append e.balanced (balanced_aliasTokens aliasName), itemTokens_balanced rest⟩
termination_by structural items => items

theorem Source.balanced : (source : Source) → Balanced (source.tokens d)
  | .table t => t.balanced
  | .derived q aliasName => .append (.inside q.balanced) (balanced_aliasTokens (some aliasName))
termination_by structural source => source

theorem joinTokens_balanced : (joins : List Join) → Balanced (joinTokens d joins)
  | [] => .nil
  | ⟨kind, table, on⟩ :: rest => by
    rw [joinTokens]
    refine .append (.append (.append (.cons rfl kind.balanced) ?_) ?_) (joinTokens_balanced rest)
    · exact .cons rfl (.cons rfl (.cons rfl table.balanced))
    · exact .cons rfl (.cons rfl (.cons rfl on.balanced))
termination_by structural joins => joins

theorem orderTokens_balanced : (keys : List OrderKey) → ∀ piece ∈ orderTokens d keys, Balanced piece
  | [] => by simp [orderTokens]
  | ⟨e, none⟩ :: rest => List.forall_mem_cons.mpr ⟨.append e.balanced .nil, orderTokens_balanced rest⟩
  | ⟨e, some _⟩ :: rest =>
    List.forall_mem_cons.mpr ⟨.append e.balanced (.cons rfl (.one rfl)), orderTokens_balanced rest⟩
termination_by structural keys => keys

theorem Query.balanced : (q : Query) → Balanced (q.tokens d)
  | ⟨select, distinct, source, joins, condition, groupBy, having, orderBy, page⟩ => by
    rw [Query.tokens_eq]
    refine .append (.append (.append (.append (.append (.append (.append (.append (.cons rfl ?_) ?_) ?_)
      (joinTokens_balanced joins)) ?_) ?_) ?_) ?_) ?_
    · cases distinct with
      | false => exact .nil
      | true => exact .cons rfl (.one rfl)
    · split
      · exact .nil
      · exact .cons rfl (balanced_commaSeparated (itemTokens_balanced select))
    · cases source with
      | none => exact .nil
      | some source => exact balanced_clause .fromSource source.balanced
    · cases condition with
      | none => exact .nil
      | some e => exact balanced_clause .whereTrue e.balanced
    · split
      · exact .nil
      · exact balanced_clause .groupBy (balanced_commaSeparated (exprTokens_balanced groupBy))
    · cases having with
      | none => exact .nil
      | some e => exact balanced_clause .having e.balanced
    · split
      · exact balanced_clause .orderBy (balanced_commaSeparated (orderTokens_balanced orderBy))
      · split
        · exact balanced_clause .orderBy (.inside (balanced_of_all (by simp [isParenthesis])))
        · exact .nil
    · cases page with
      | none => exact .nil
      | some page => exact .cons rfl (balanced_page d page.limit page.offset)
termination_by structural q => q

end

end RelQuery.Sql
