/-
The values in a statement replaced.

A value in a statement tree is bound to a placeholder or, when it is null, written as a word. So a replacement that keeps
nulls, and makes none (`Replaces`), changes nothing in the text of a statement; it changes the values bound, each in its
place (`Statement.ofTokens_mapBound`). Nothing is asked of it at null for the values bound, since null is never bound.
-/
import RelQuery.Proofs.Sql.Balance
import RelQuery.Statement.Basic

namespace RelQuery

/-- `f` keeps null, and replaces every other value by what `g` gives for it, never null. -/
structure Replaces (f g : Value → Value) : Prop where
  null : f .null = .null
  value : ∀ {v}, v.isNull = false → f v = g v
  notNull : ∀ {v}, v.isNull = false → (g v).isNull = false

namespace Sql

/-! ## Tokens -/

namespace Token

/-- a token with the value bound by it replaced -/
def mapBound (f : Value → Value) : Token → Token
  | .bound v => .bound (f v)
  | token => token

variable {f : Value → Value}

theorem textsFrom_mapBound (d : Dialect) (tokens : List Token) (n : Nat) :
    textsFrom d n (tokens.map (mapBound f)) = textsFrom d n tokens := by
  induction tokens generalizing n with
  | nil => rfl
  | cons token rest ih => cases token <;> simp [mapBound, textsFrom, ih]

theorem boundValues_mapBound (tokens : List Token) :
    boundValues (tokens.map (mapBound f)) = (boundValues tokens).map f := by
  rw [boundValues, boundValues, List.filterMap_map, List.map_filterMap]
  congr 1
  funext token
  cases token <;> rfl

@[simp] theorem commaSeparated_mapBound : (pieces : List (List Token)) →
    (commaSeparated pieces).map (mapBound f) = commaSeparated (pieces.map (List.map (mapBound f)))
  | [] => rfl
  | [piece] => rfl
  | piece :: next :: rest => by
    simp only [commaSeparated, List.map_append, List.map_cons, mapBound, commaSeparated_mapBound (next :: rest)]

@[simp] theorem parenthesized_mapBound (inner : List Token) :
    (parenthesized inner).map (mapBound f) = parenthesized (inner.map (mapBound f)) := by
  simp [parenthesized, mapBound]

/-- tokens that bind no value -/
def Unbound (tokens : List Token) : Prop := ∀ token ∈ tokens, ∀ v, token ≠ .bound v

theorem Unbound.mapBound_eq {tokens : List Token} (h : Unbound tokens) : tokens.map (mapBound f) = tokens := by
  refine (List.map_congr_left fun token htoken => ?_).trans (List.map_id' tokens)
  cases token with
  | bound v => exact absurd rfl (h _ htoken v)
  | _ => rfl

end Token

/-! ## Trees -/

section Trees

variable (f : Value → Value)

mutual

/-- the expression with every value in it replaced, also in its subqueries -/
def Expr.mapParams : Expr → Expr
  | .column table name => .column table name
  | .int n => .int n
  | .param v => .param (f v)
  | .binary op left right => .binary op left.mapParams right.mapParams
  | .not e => .not e.mapParams
  | .call function args distinct => .call function (mapParamsOfList args) distinct
  | .case arms otherwise => .case (mapParamsOfArms arms) (match otherwise with
      | none => none
      | some e => some e.mapParams)
  | .subquery q => .subquery q.mapParams
  | .existsRow q negated => .existsRow q.mapParams negated
  | .inList e values negated => .inList e.mapParams (mapParamsOfList values) negated
  | .inQuery e q negated => .inQuery e.mapParams q.mapParams negated
  | .isNull e negated => .isNull e.mapParams negated
  | .star table => .star table
  | .paren e => .paren e.mapParams
termination_by structural e => e

def mapParamsOfList : List Expr → List Expr
  | [] => []
  | e :: rest => e.mapParams :: mapParamsOfList rest
termination_by structural es => es

def mapParamsOfArms : List (Expr × Expr) → List (Expr × Expr)
  | [] => []
  | (test, result) :: rest => (test.mapParams, result.mapParams) :: mapParamsOfArms rest
termination_by structural arms => arms

def mapParamsOfItems : List SelectItem → List SelectItem
  | [] => []
  | ⟨e, aliasName⟩ :: rest => ⟨e.mapParams, aliasName⟩ :: mapParamsOfItems rest
termination_by structural items => items

def Source.mapParams : Source → Source
  | .table t => .table t
  | .derived q aliasName => .derived q.mapParams aliasName
termination_by structural source => source

def mapParamsOfJoins : List Join → List Join
  | [] => []
  | ⟨kind, table, on⟩ :: rest => ⟨kind, table, on.mapParams⟩ :: mapParamsOfJoins rest
termination_by structural joins => joins

def mapParamsOfKeys : List OrderKey → List OrderKey
  | [] => []
  | ⟨e, direction⟩ :: rest => ⟨e.mapParams, direction⟩ :: mapParamsOfKeys rest
termination_by structural keys => keys

/-- the query with every value in it replaced, also in its subqueries -/
def Query.mapParams : Query → Query
  | ⟨select, distinct, source, joins, condition, groupBy, having, orderBy, page⟩ =>
    ⟨mapParamsOfItems select, distinct, (match source with
        | none => none
        | some source => some source.mapParams), mapParamsOfJoins joins, (match condition with
        | none => none
        | some e => some e.mapParams), mapParamsOfList groupBy, (match having with
        | none => none
        | some e => some e.mapParams), mapParamsOfKeys orderBy, page⟩
termination_by structural q => q

end

/-- the UPDATE with every value in it replaced -/
def Update.mapParams (s : Update) : Update :=
  ⟨s.table, s.assignments.map fun a => (a.1, a.2.mapParams f), s.condition.map (Expr.mapParams f)⟩

/-- the DELETE with every value in it replaced -/
def Delete.mapParams (s : Delete) : Delete := ⟨s.table, s.condition.map (Expr.mapParams f)⟩

variable {f}

theorem mapParamsOfList_eq (es : List Expr) : mapParamsOfList f es = es.map (Expr.mapParams f) := by
  induction es with
  | nil => rfl
  | cons e rest ih => rw [mapParamsOfList, ih, List.map_cons]

theorem mapParamsOfArms_eq (arms : List (Expr × Expr)) :
    mapParamsOfArms f arms = arms.map fun arm => (arm.1.mapParams f, arm.2.mapParams f) := by
  induction arms with
  | nil => rfl
  | cons arm rest ih =>
    obtain ⟨test, result⟩ := arm
    rw [mapParamsOfArms, ih, List.map_cons]

theorem mapParamsOfItems_eq (items : List SelectItem) :
    mapParamsOfItems f items = items.map fun item => ⟨item.expr.mapParams f, item.aliasName⟩ := by
  induction items with
  | nil => rfl
  | cons item rest ih =>
    obtain ⟨e, aliasName⟩ := item
    rw [mapParamsOfItems, ih, List.map_cons]

theorem mapParamsOfJoins_eq (joins : List Join) :
    mapParamsOfJoins f joins = joins.map fun join => ⟨join.kind, join.table, join.on.mapParams f⟩ := by
  induction joins with
  | nil => rfl
  | cons join rest ih =>
    obtain ⟨kind, table, on⟩ := join
    rw [mapParamsOfJoins, ih, List.map_cons]

theorem mapParamsOfKeys_eq (keys : List OrderKey) :
    mapParamsOfKeys f keys = keys.map fun key => ⟨key.expr.mapParams f, key.direction⟩ := by
  induction keys with
  | nil => rfl
  | cons key rest ih =>
    obtain ⟨e, direction⟩ := key
    rw [mapParamsOfKeys, ih, List.map_cons]

theorem Query.mapParams_eq (q : Query) : q.mapParams f =
    ⟨q.select.map fun item => ⟨item.expr.mapParams f, item.aliasName⟩, q.distinct, q.source.map (Source.mapParams f),
      q.joins.map fun join => ⟨join.kind, join.table, join.on.mapParams f⟩, q.condition.map (Expr.mapParams f),
      q.groupBy.map (Expr.mapParams f), q.having.map (Expr.mapParams f),
      q.orderBy.map fun key => ⟨key.expr.mapParams f, key.direction⟩, q.page⟩ := by
  obtain ⟨select, distinct, source, joins, condition, groupBy, having, orderBy, page⟩ := q
  cases source <;> cases condition <;> cases having <;>
    simp only [mapParams, mapParamsOfItems_eq, mapParamsOfJoins_eq, mapParamsOfList_eq, mapParamsOfKeys_eq,
      Option.map_none, Option.map_some]

@[simp] theorem Expr.isOperation_mapParams (e : Expr) : (e.mapParams f).isOperation = e.isOperation := by
  cases e with
  | case arms otherwise => cases otherwise <;> rfl
  | _ => rfl

theorem Expr.conjunction_mapParams (es : List Expr) :
    Expr.conjunction (es.map (Expr.mapParams f)) = (Expr.conjunction es).map (Expr.mapParams f) := by
  have hfold : ∀ (rest : List Expr) (e : Expr), (rest.map (Expr.mapParams f)).foldl Expr.and (e.mapParams f) =
      (rest.foldl Expr.and e).mapParams f := by
    intro rest
    induction rest with
    | nil => exact fun _ => rfl
    | cons next rest ih => exact fun e => ih (e.and next)
  cases es with
  | nil => rfl
  | cons e rest => exact congrArg some (hfold rest e)

/-! ## Trees as tokens -/

variable {g : Value → Value}

theorem operandTokens_mapParams (e : Expr) (tokens : List Token) :
    operandTokens (e.mapParams f) (tokens.map (Token.mapBound g)) =
      (operandTokens e tokens).map (Token.mapBound g) := by
  unfold operandTokens
  rw [Expr.isOperation_mapParams]
  split
  · exact (Token.parenthesized_mapBound tokens).symm
  · rfl

section Words

open Token (Unbound)

theorem aliasTokens_unbound (aliasName : Option String) : Unbound (aliasTokens aliasName) := by
  cases aliasName <;> simp [Unbound, aliasTokens]

theorem qualifierTokens_unbound (table : Option String) : Unbound (qualifierTokens table) := by
  cases table <;> simp [Unbound, qualifierTokens]

theorem tableTokens_unbound (t : TableRef) : Unbound t.tokens :=
  List.forall_mem_cons.2 ⟨nofun, aliasTokens_unbound t.aliasName⟩

theorem page_unbound (d : Dialect) (limit offset : Option UInt64) : Unbound (d.page limit offset) := by
  cases d <;> cases limit <;> cases offset <;>
    simp [Unbound, Dialect.page, Dialect.limitedPage, Dialect.standardPage, Dialect.fetchPage, Dialect.boundToken]

end Words

@[simp] theorem BinaryOp.mapBound_token (op : BinaryOp) : op.token.mapBound g = op.token := by
  cases op <;> rfl

theorem clause_mapBound (w : Word) (body : List Token) :
    (clause w body).map (Token.mapBound g) = clause w (body.map (Token.mapBound g)) := rfl

theorem isEmpty_mapParamsOfList (es : List Expr) : (mapParamsOfList f es).isEmpty = es.isEmpty := by
  rw [mapParamsOfList_eq, List.isEmpty_map]

theorem isEmpty_mapParamsOfItems (items : List SelectItem) : (mapParamsOfItems f items).isEmpty = items.isEmpty := by
  rw [mapParamsOfItems_eq, List.isEmpty_map]

theorem isEmpty_mapParamsOfKeys (keys : List OrderKey) : (mapParamsOfKeys f keys).isEmpty = keys.isEmpty := by
  rw [mapParamsOfKeys_eq, List.isEmpty_map]

theorem Expr.tokens_param (h : Replaces f g) (d : Dialect) (v : Value) :
    (Expr.param (f v)).tokens d = ((Expr.param v).tokens d).map (Token.mapBound g) := by
  have hbound : ∀ w : Value, w.isNull = false → (Expr.param w).tokens d = [.bound w] := by
    intro w hw
    cases w with
    | null => cases hw
    | _ => rfl
  cases hv : v.isNull with
  | true =>
    obtain rfl : v = .null := by cases v <;> simp_all [Value.isNull]
    rw [h.null]
    rfl
  | false => rw [h.value hv, hbound v hv, hbound (g v) (h.notNull hv), List.map_singleton, Token.mapBound]

mutual

theorem Expr.tokens_mapParams (h : Replaces f g) (d : Dialect) : (e : Expr) →
    (e.mapParams f).tokens d = (e.tokens d).map (Token.mapBound g)
  | .column table name => by
    rw [Expr.mapParams, Expr.tokens, List.map_append, (qualifierTokens_unbound table).mapBound_eq]
    rfl
  | .int n => rfl
  | .param v => Expr.tokens_param h d v
  | .binary op left right => by
    simp only [Expr.mapParams, Expr.tokens, left.tokens_mapParams h d, right.tokens_mapParams h d]
    split
    · simp [Token.mapBound]
    · simp only [List.map_append, List.map_cons, operandTokens_mapParams, BinaryOp.mapBound_token]
      rfl
  | .not e => by
    simp only [Expr.mapParams, Expr.tokens, e.tokens_mapParams h d, List.map_cons, Token.mapBound, operandTokens_mapParams]
  | .call function args distinct => by
    simp only [Expr.mapParams, Expr.tokens, exprTokens_mapParams h d args, List.map_cons, Token.mapBound,
      Token.parenthesized_mapBound, List.map_append, Token.commaSeparated_mapBound]
    cases distinct <;> rfl
  | .case arms none => by
    simp only [Expr.mapParams, Expr.tokens, armTokens_mapParams h d arms, List.map_cons, Token.mapBound, List.map_append,
      List.map_nil]
  | .case arms (some e) => by
    simp only [Expr.mapParams, Expr.tokens, armTokens_mapParams h d arms, e.tokens_mapParams h d, List.map_cons, Token.mapBound,
      List.map_append, List.map_nil]
  | .subquery q => by
    simp only [Expr.mapParams, Expr.tokens, q.tokens_mapParams h d, Token.parenthesized_mapBound]
  | .existsRow q negated => by
    simp only [Expr.mapParams, Expr.tokens, q.tokens_mapParams h d, List.map_append, List.map_cons, Token.mapBound,
      Token.parenthesized_mapBound]
    cases negated <;> rfl
  | .inList e [] negated => by cases negated <;> rfl
  | .inList e (first :: rest) negated => by
    simp only [Expr.mapParams, mapParamsOfList, Expr.tokens, List.isEmpty_cons, Bool.false_eq_true, if_false, exprTokens,
      e.tokens_mapParams h d, first.tokens_mapParams h d, exprTokens_mapParams h d rest, List.map_append, List.map_cons,
      Token.mapBound, Token.parenthesized_mapBound, Token.commaSeparated_mapBound, operandTokens_mapParams]
    cases negated <;> rfl
  | .inQuery e q negated => by
    simp only [Expr.mapParams, Expr.tokens, e.tokens_mapParams h d, q.tokens_mapParams h d, List.map_append, List.map_cons,
      Token.mapBound, Token.parenthesized_mapBound, operandTokens_mapParams]
    cases negated <;> rfl
  | .isNull e negated => by
    simp only [Expr.mapParams, Expr.tokens, e.tokens_mapParams h d, List.map_append, operandTokens_mapParams, List.map_cons,
      List.map_nil, Token.mapBound]
  | .star table => by
    rw [Expr.mapParams, Expr.tokens, List.map_append, (qualifierTokens_unbound table).mapBound_eq]
    rfl
  | .paren e => by simp only [Expr.mapParams, Expr.tokens, e.tokens_mapParams h d, Token.parenthesized_mapBound]
termination_by structural e => e

theorem exprTokens_mapParams (h : Replaces f g) (d : Dialect) : (es : List Expr) →
    exprTokens d (mapParamsOfList f es) = (exprTokens d es).map (List.map (Token.mapBound g))
  | [] => rfl
  | e :: rest => by
    simp only [mapParamsOfList, exprTokens, e.tokens_mapParams h d, exprTokens_mapParams h d rest, List.map_cons]
termination_by structural es => es

theorem armTokens_mapParams (h : Replaces f g) (d : Dialect) : (arms : List (Expr × Expr)) →
    armTokens d (mapParamsOfArms f arms) = (armTokens d arms).map (Token.mapBound g)
  | [] => rfl
  | (test, result) :: rest => by
    simp only [mapParamsOfArms, armTokens, test.tokens_mapParams h d, result.tokens_mapParams h d, armTokens_mapParams h d rest,
      List.map_append, List.map_cons, Token.mapBound]
termination_by structural arms => arms

theorem itemTokens_mapParams (h : Replaces f g) (d : Dialect) : (items : List SelectItem) →
    itemTokens d (mapParamsOfItems f items) = (itemTokens d items).map (List.map (Token.mapBound g))
  | [] => rfl
  | ⟨e, aliasName⟩ :: rest => by
    simp only [mapParamsOfItems, itemTokens, e.tokens_mapParams h d, itemTokens_mapParams h d rest, List.map_cons,
      List.map_append, (aliasTokens_unbound aliasName).mapBound_eq]
termination_by structural items => items

theorem Source.tokens_mapParams (h : Replaces f g) (d : Dialect) : (source : Source) →
    (source.mapParams f).tokens d = (source.tokens d).map (Token.mapBound g)
  | .table t => (tableTokens_unbound t).mapBound_eq.symm
  | .derived q aliasName => by
    simp only [Source.mapParams, Source.tokens, q.tokens_mapParams h d, List.map_append, Token.parenthesized_mapBound,
      (aliasTokens_unbound (some aliasName)).mapBound_eq]
termination_by structural source => source

theorem joinTokens_mapParams (h : Replaces f g) (d : Dialect) : (joins : List Join) →
    joinTokens d (mapParamsOfJoins f joins) = (joinTokens d joins).map (Token.mapBound g)
  | [] => rfl
  | ⟨kind, table, on⟩ :: rest => by
    have hkind : kind.tokens.map (Token.mapBound g) = kind.tokens := by cases kind <;> rfl
    simp only [mapParamsOfJoins, joinTokens, on.tokens_mapParams h d, joinTokens_mapParams h d rest, List.map_append,
      List.map_cons, Token.mapBound, hkind, (tableTokens_unbound table).mapBound_eq]
termination_by structural joins => joins

theorem orderTokens_mapParams (h : Replaces f g) (d : Dialect) : (keys : List OrderKey) →
    orderTokens d (mapParamsOfKeys f keys) = (orderTokens d keys).map (List.map (Token.mapBound g))
  | [] => rfl
  | ⟨e, direction⟩ :: rest => by
    simp only [mapParamsOfKeys, orderTokens, e.tokens_mapParams h d, orderTokens_mapParams h d rest, List.map_cons,
      List.map_append]
    cases direction <;> rfl
termination_by structural keys => keys

theorem Query.tokens_mapParams (h : Replaces f g) (d : Dialect) : (q : Query) → (q.mapParams f).tokens d = (q.tokens d).map (Token.mapBound g)
  | ⟨select, distinct, source, joins, condition, groupBy, having, orderBy, page⟩ => by
    have hmap : (Query.mk select distinct source joins condition groupBy having orderBy page).mapParams f =
        ⟨mapParamsOfItems f select, distinct, source.map (Source.mapParams f), mapParamsOfJoins f joins,
          condition.map (Expr.mapParams f), mapParamsOfList f groupBy, having.map (Expr.mapParams f),
          mapParamsOfKeys f orderBy, page⟩ := by
      cases source <;> cases condition <;> cases having <;> rfl
    have hsource : ((source.map (Source.mapParams f)).map fun source => clause .fromSource (source.tokens d)).getD [] =
        ((source.map fun source => clause .fromSource (source.tokens d)).getD []).map (Token.mapBound g) := by
      cases source with
      | none => rfl
      | some source => simp only [Option.map_some, Option.getD_some, source.tokens_mapParams h d, clause_mapBound]
    have hcondition : ((condition.map (Expr.mapParams f)).map fun e => clause .whereTrue (e.tokens d)).getD [] =
        ((condition.map fun e => clause .whereTrue (e.tokens d)).getD []).map (Token.mapBound g) := by
      cases condition with
      | none => rfl
      | some e => simp only [Option.map_some, Option.getD_some, e.tokens_mapParams h d, clause_mapBound]
    have hhaving : ((having.map (Expr.mapParams f)).map fun e => clause .having (e.tokens d)).getD [] =
        ((having.map fun e => clause .having (e.tokens d)).getD []).map (Token.mapBound g) := by
      cases having with
      | none => rfl
      | some e => simp only [Option.map_some, Option.getD_some, e.tokens_mapParams h d, clause_mapBound]
    have hpage : ((page.map fun page => .lineBreak :: d.page page.limit page.offset).getD []).map (Token.mapBound g) =
        (page.map fun page => .lineBreak :: d.page page.limit page.offset).getD [] := by
      cases page with
      | none => rfl
      | some page => exact congrArg (Token.lineBreak :: ·) (page_unbound d page.limit page.offset).mapBound_eq
    have hdistinct : (if distinct then [Token.blank, .word .distinct] else []).map (Token.mapBound g) =
        if distinct then [.blank, .word .distinct] else [] := by
      cases distinct <;> rfl
    rw [hmap, Query.tokens_eq, Query.tokens_eq]
    simp only [isEmpty_mapParamsOfItems, isEmpty_mapParamsOfList, isEmpty_mapParamsOfKeys, itemTokens_mapParams h d select,
      joinTokens_mapParams h d joins, exprTokens_mapParams h d groupBy, orderTokens_mapParams h d orderBy, hsource, hcondition,
      hhaving, List.map_append, List.map_cons, hpage, hdistinct, apply_ite (List.map (Token.mapBound g)),
      clause_mapBound, Token.commaSeparated_mapBound, List.map_nil]
    rfl
termination_by structural q => q

end

theorem conditionTokens_mapParams (h : Replaces f g) (d : Dialect) (condition : Option Expr) :
    conditionTokens d (condition.map (Expr.mapParams f)) = (conditionTokens d condition).map (Token.mapBound g) := by
  cases condition with
  | none => rfl
  | some e =>
    simp only [Option.map_some, conditionTokens, e.tokens_mapParams h d, List.map_cons, Token.mapBound]

theorem Update.tokens_mapParams (h : Replaces f g) (d : Dialect) (s : Update) :
    (s.mapParams f).tokens d = (s.tokens d).map (Token.mapBound g) := by
  have hassignments : (s.assignments.map fun a => (a.1, a.2.mapParams f)).map (assignmentTokens d) =
      (s.assignments.map (assignmentTokens d)).map (List.map (Token.mapBound g)) := by
    rw [List.map_map, List.map_map]
    refine List.map_congr_left fun a _ => ?_
    simp only [Function.comp_apply, assignmentTokens, a.2.tokens_mapParams h d, List.map_cons, Token.mapBound]
  simp only [Update.mapParams, Update.tokens, hassignments, conditionTokens_mapParams h d, List.map_append,
    List.map_cons, Token.mapBound, Token.commaSeparated_mapBound]

theorem Delete.tokens_mapParams (h : Replaces f g) (d : Dialect) (s : Delete) :
    (s.mapParams f).tokens d = (s.tokens d).map (Token.mapBound g) := by
  simp only [Delete.mapParams, Delete.tokens, conditionTokens_mapParams h d, List.map_cons, Token.mapBound]

end Trees

end Sql

/-! ## Statements -/

/-- the statement with the values bound by it replaced -/
def Statement.mapParams (f : Value → Value) (s : Statement) : Statement := ⟨s.sql, s.params.map f, s.columns⟩

/-- Replacing values changes no text. -/
theorem Statement.ofTokens_mapBound (f : Value → Value) (d : Sql.Dialect) (tokens : List Sql.Token)
    (columns : List OutputColumn) :
    ofTokens d (tokens.map (Sql.Token.mapBound f)) columns = (ofTokens d tokens columns).mapParams f := by
  simp only [ofTokens, mapParams, Sql.Token.render, Sql.Token.textsFrom_mapBound, Sql.Token.boundValues_mapBound]

end RelQuery
