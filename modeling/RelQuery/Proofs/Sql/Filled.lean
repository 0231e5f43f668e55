/-
Lists of a written statement.

A token may call for a list: SELECT for its items, SET for assignments, GROUP BY and ORDER BY for keys, IN for a
parenthesis with members, a parenthesis for what it encloses, a comma for one more item, CASE for arms. A list is empty
when its token is followed by something that begins no item, so that neighbours tell, blanks left out, whether a list
called for is missing (`Token.Filled`). Which tokens are checked is a parameter: what is written for an expression or a
query has every list it should, except that a query without columns has an empty select list.
- `item_hereditary`: the lists of compiled expressions, those of the queries in them given.
- `Query.sound`: all lists of a query with a column.
-/
import Mathlib.Tactic
import RelQuery.Proofs.Sql.Balance
import RelQuery.Proofs.Statement.Inherited

namespace RelQuery.Sql

namespace Token

/-- whether an item of a list can begin with a token -/
def beginsItem : Token → Bool
  | .name _ | .int _ | .truth _ | .bound _ | .function _ | .sign .star | .sign .open => true
  | .word .not | .word .null | .word .case | .word .existsRow => true
  | _ => false

/-- Whether a token can stand right behind another. After one that calls for a list it is the first item, or a word
before it; after any other it may be any. -/
def admits : Token → Token → Bool
  | .word .select, next => next = .word .distinct || next.beginsItem
  | .word .distinct, next | .word .set, next | .word .groupBy, next | .word .orderBy, next | .sign .comma, next =>
    next.beginsItem
  | .word .isIn, next => next = .sign .open
  | .sign .open, next => next = .word .select || next = .word .distinct || next.beginsItem
  | .word .case, next => next = .word .caseWhen
  | _, _ => true

/-- any token may be checked -/
def asksAny (_ : Token) : Bool := true

/-- tokens other than those that ask for a select list or for assignments -/
def asksOther (token : Token) : Bool := token ∉ [.word .select, .word .distinct, .word .set]

/-- whether no token that is checked, blanks left out, stands before one that it does not admit -/
def Linked (checked : Token → Bool) (tokens : List Token) : Prop :=
  (tokens.filter (· ≠ .blank)).IsChain fun token next => checked token → token.admits next

/-- Every list that a checked token calls for has an item; the text ends in a line break. -/
def Filled (checked : Token → Bool) (tokens : List Token) : Prop := Linked checked (tokens ++ [.lineBreak])

instance (checked : Token → Bool) (tokens : List Token) : Decidable (Filled checked tokens) :=
  inferInstanceAs (Decidable (List.IsChain _ _))

/-- tokens that leave no list open, whatever is written after them -/
def Sound (checked : Token → Bool) (tokens : List Token) : Prop :=
  ∀ rest, Linked checked rest → Linked checked (tokens ++ rest)

/-- tokens whose first one, blanks left out, is as asked -/
def Begins (asked : Token → Bool) (tokens : List Token) : Prop :=
  ∃ first rest, tokens.filter (· ≠ .blank) = first :: rest ∧ asked first

/-- tokens that can be an item of a list -/
structure Item (checked : Token → Bool) (tokens : List Token) : Prop where
  begins : Begins beginsItem tokens
  sound : Sound checked tokens

section Pieces

variable {checked : Token → Bool} {asked : Token → Bool} {token : Token} {a b tokens : List Token}

theorem Sound.filled (h : Sound checked tokens) : Filled checked tokens := h _ (by simp [Linked])

theorem Sound.nil : Sound checked [] := fun _ h => h

theorem Sound.append (ha : Sound checked a) (hb : Sound checked b) : Sound checked (a ++ b) := fun rest hrest => by
  rw [List.append_assoc]
  exact ha _ (hb rest hrest)

theorem Sound.blank (h : Sound checked tokens) : Sound checked (.blank :: tokens) := h

theorem Begins.append (h : Begins asked a) (b : List Token) : Begins asked (a ++ b) := by
  obtain ⟨first, rest, heq, hfirst⟩ := h
  exact ⟨first, rest ++ b.filter (· ≠ .blank), by rw [List.filter_append, heq, List.cons_append], hfirst⟩

theorem Begins.mono {asked' : Token → Bool} (h : Begins asked a) (hsub : ∀ token, asked token → asked' token) :
    Begins asked' a := by
  obtain ⟨first, rest, heq, hfirst⟩ := h
  exact ⟨first, rest, heq, hsub first hfirst⟩

/-- A token before others is sound when it is not checked, or what it calls for is there. -/
theorem Sound.cons (h : Sound checked tokens)
    (hnext : checked token → Begins token.admits tokens ∨ ∀ next, token.admits next) : Sound checked (token :: tokens) := by
  intro rest hrest
  have htokens := h rest hrest
  by_cases hblank : token = .blank
  · subst hblank
    exact htokens
  · unfold Linked
    rw [List.cons_append, List.filter_cons_of_pos (by simpa using hblank), List.isChain_cons]
    refine ⟨fun next hhead hchecked => ?_, htokens⟩
    rcases hnext hchecked with hbegins | hany
    · obtain ⟨first, more, heq, hfirst⟩ := hbegins.append rest
      rw [heq] at hhead
      obtain rfl := Option.some.inj hhead
      exact hfirst
    · exact hany next

/-- a token with the list it calls for -/
theorem Sound.lead (h : Sound checked tokens) (hbegins : Begins token.admits tokens) : Sound checked (token :: tokens) :=
  h.cons fun _ => .inl hbegins

/-- a token that calls for nothing -/
theorem Sound.plain (h : Sound checked tokens) (htoken : ∀ next, token.admits next) : Sound checked (token :: tokens) :=
  h.cons fun _ => .inr htoken

theorem Sound.one (htoken : ∀ next, token.admits next) : Sound checked [token] := Sound.nil.plain htoken

/-- tokens none of which calls for anything -/
theorem Sound.of_all (h : ∀ token ∈ tokens, ∀ next, token.admits next) : Sound checked tokens := by
  induction tokens with
  | nil => exact .nil
  | cons token rest ih =>
    obtain ⟨htoken, hrest⟩ := List.forall_mem_cons.1 h
    exact (ih hrest).plain htoken

theorem Item.append (ha : Item checked a) (hb : Sound checked b) : Item checked (a ++ b) :=
  ⟨ha.begins.append b, ha.sound.append hb⟩

/-- A token with which an item can begin, and which calls for nothing. -/
theorem Item.cons (hbegins : token.beginsItem) (htoken : ∀ next, token.admits next) (h : Sound checked tokens) :
    Item checked (token :: tokens) := by
  have hblank : token ≠ .blank := by
    rintro rfl
    cases hbegins
  exact ⟨⟨token, tokens.filter (· ≠ .blank), List.filter_cons_of_pos (by simpa using hblank), hbegins⟩, h.plain htoken⟩

theorem Item.parenthesized (h : Sound checked tokens) (hbegins : Begins (Token.sign .open).admits tokens) :
    Item checked (parenthesized tokens) :=
  ⟨⟨.sign .open, _, rfl, rfl⟩, (h.append (.one fun _ => rfl)).lead ((hbegins.append _))⟩

theorem Item.inside (h : Item checked tokens) : Item checked (Token.parenthesized tokens) :=
  .parenthesized h.sound (h.begins.mono fun token htoken => by simp [admits, htoken])

/-- items with commas between them -/
theorem Item.commaSeparated : {pieces : List (List Token)} → pieces ≠ [] → (∀ piece ∈ pieces, Item checked piece) →
    Item checked (Token.commaSeparated pieces)
  | [], hne, _ => absurd rfl hne
  | [piece], _, h => h piece (by simp)
  | piece :: next :: rest, _, h => by
    obtain ⟨hpiece, hmore⟩ := List.forall_mem_cons.1 h
    have hall := commaSeparated (List.cons_ne_nil next rest) hmore
    exact hpiece.append (hall.sound.blank.lead hall.begins)

/-- a word with its list, on a line of its own -/
theorem Sound.clause (w : Word) {body : List Token} (h : Item checked body)
    (hword : ∀ next, next.beginsItem → (Token.word w).admits next) : Sound checked (Sql.clause w body) :=
  (h.sound.blank.lead ((h.begins.mono hword))).plain fun _ => rfl

end Pieces

end Token

open Token

/-! ## Expressions -/

variable {checked : Token → Bool} (d : Dialect)

theorem item_operandTokens (e : Expr) {tokens : List Token} (h : Item checked tokens) :
    Item checked (operandTokens e tokens) := by
  unfold operandTokens
  split
  · exact h.inside
  · exact h

theorem BinaryOp.token_admits (op : BinaryOp) (next : Token) : op.token.admits next := by cases op <;> rfl

theorem sound_aliasTokens (aliasName : Option String) : Sound checked (aliasTokens aliasName) := by
  cases aliasName with
  | none => exact .nil
  | some name => exact Sound.blank (.plain (.blank (.one fun _ => rfl)) fun _ => rfl)

theorem TableRef.sound (t : TableRef) : Sound checked t.tokens := (sound_aliasTokens t.aliasName).plain fun _ => rfl

theorem Query.begins (q : Query) : Begins (Token.sign .open).admits (q.tokens d) := by
  cases q
  rw [Query.tokens_eq]
  exact ⟨.word .select, _, rfl, rfl⟩

/-- A membership test has the list of members, or the query, that it asks for. -/
theorem item_membership (negated : Bool) {operand members : List Token} (hoperand : Item checked operand)
    (hmembers : Sound checked members) (hbegins : Begins (Token.sign .open).admits members) :
    Item checked (operand ++ negationTokens negated ++ .blank :: .word .isIn :: .blank :: parenthesized members) := by
  have hnegation : Sound checked (negationTokens negated) := by
    cases negated with
    | false => exact .nil
    | true => exact Sound.blank (.one fun _ => rfl)
  have hinside := Item.parenthesized hmembers hbegins
  have hopen : Begins (Token.word .isIn).admits (.blank :: parenthesized members) := ⟨.sign .open, _, rfl, rfl⟩
  exact (hoperand.append hnegation).append (hinside.sound.blank.lead (hopen)).blank

theorem item_call (function : String) (distinct : Bool) {args : List Token} (hargs : Item checked args) :
    Item checked (.function function :: parenthesized ((if distinct then [.word .distinct, .blank] else []) ++ args)) := by
  have hinside : Item checked (parenthesized ((if distinct then [.word .distinct, .blank] else []) ++ args)) := by
    cases distinct with
    | false => exact hargs.inside
    | true =>
      have hdistinct : Sound checked (.word .distinct :: .blank :: args) := hargs.sound.blank.lead (hargs.begins)
      exact .parenthesized hdistinct ⟨.word .distinct, _, rfl, rfl⟩
  exact .cons rfl (fun _ => rfl) hinside.sound

theorem sound_armTokens {arms : List (Expr × Expr)}
    (harms : ∀ arm ∈ arms, Item checked (arm.1.tokens d) ∧ Item checked (arm.2.tokens d)) :
    Sound checked (armTokens d arms) := by
  induction arms with
  | nil => exact .nil
  | cons arm rest ih =>
    obtain ⟨⟨htest, hresult⟩, hrest⟩ := List.forall_mem_cons.1 harms
    have hthen : Sound checked (.blank :: .word .caseThen :: .blank :: arm.2.tokens d) :=
      Sound.blank (hresult.sound.blank.plain fun _ => rfl)
    have hwhen : Sound checked (.blank :: .word .caseWhen :: .blank :: arm.1.tokens d) :=
      Sound.blank (htest.sound.blank.plain fun _ => rfl)
    exact (hwhen.append hthen).append (ih hrest)

theorem item_case {arms : List (Expr × Expr)} {otherwise : Option Expr} (hne : arms ≠ [])
    (harms : ∀ arm ∈ arms, Item checked (arm.1.tokens d) ∧ Item checked (arm.2.tokens d))
    (hotherwise : ∀ e ∈ otherwise, Item checked (e.tokens d)) : Item checked ((Expr.case arms otherwise).tokens d) := by
  have hwhen : Begins (Token.word .case).admits (armTokens d arms) := by
    cases arms with
    | nil => exact absurd rfl hne
    | cons arm rest => exact ⟨.word .caseWhen, _, rfl, rfl⟩
  have hend : Sound checked [.blank, .word .caseEnd] := Sound.blank (.one fun _ => rfl)
  have hall {tail : List Token} (htail : Sound checked tail) :
      Item checked (.word .case :: (armTokens d arms ++ tail ++ [.blank, .word .caseEnd])) :=
    ⟨⟨.word .case, _, rfl, rfl⟩, Sound.lead (((sound_armTokens d harms).append htail).append hend)
      ((hwhen.append _).append _)⟩
  cases otherwise with
  | none => exact hall .nil
  | some e => exact hall (Sound.blank ((hotherwise e rfl).sound.blank.plain fun _ => rfl))

theorem item_param (v : Value) : Item checked ((Expr.param v).tokens d) := by
  cases v <;> exact .cons rfl (fun _ => rfl) .nil

/-- the expressions of a list, one by one -/
theorem item_exprTokens {es : List Expr} (h : ∀ e ∈ es, Item checked (e.tokens d)) :
    ∀ piece ∈ exprTokens d es, Item checked piece := by
  induction es with
  | nil => exact nofun
  | cons e rest ih =>
    obtain ⟨he, hrest⟩ := List.forall_mem_cons.1 h
    exact List.forall_mem_cons.2 ⟨he, ih hrest⟩

/-- expressions with commas between them -/
theorem item_commaSeparated {es : List Expr} (hne : es ≠ []) (h : ∀ e ∈ es, Item checked (e.tokens d)) :
    Item checked (commaSeparated (exprTokens d es)) := by
  refine .commaSeparated ?_ (item_exprTokens d h)
  cases es with
  | nil => exact absurd rfl hne
  | cons e rest => exact List.cons_ne_nil _ _

/-- What is written for a compiled expression is an item, if every query in it has its lists. -/
theorem item_hereditary : ExprHereditary (fun e => Item checked (e.tokens d)) fun q => Sound checked (q.tokens d) where
  column table name := by
    cases table with
    | none => exact .cons rfl (fun _ => rfl) .nil
    | some table => exact .cons rfl (fun _ => rfl) (Sound.plain (.one fun _ => rfl) fun _ => rfl)
  int n := .cons rfl (fun _ => rfl) .nil
  param := item_param d
  binary op left right hleft hright := by
    rw [Expr.tokens]
    split
    · have hright' : Sound checked (.sign .comma :: .blank :: right.tokens d) :=
        hright.sound.blank.lead (hright.begins)
      exact .cons rfl (fun _ => rfl) (hleft.append hright').inside.sound
    · have hright' := (item_operandTokens right hright).sound.blank
      exact (item_operandTokens left hleft).append (hright'.plain op.token_admits).blank
  not he := .cons rfl (fun _ => rfl) (item_operandTokens _ he).sound.blank
  isNull negated e he := by
    refine (item_operandTokens e he).append (Sound.blank (.one fun next => ?_))
    cases negated <;> rfl
  inList negated e values he hvalues := by
    rw [Expr.tokens]
    split
    · exact .cons rfl (fun _ => rfl) (Sound.blank (Sound.plain (Sound.blank (.one fun _ => rfl)) fun _ => rfl))
    · next hvalue =>
      have hmembers := item_commaSeparated d (by simpa using hvalue) hvalues
      exact item_membership negated (item_operandTokens e he) hmembers.sound
        (hmembers.begins.mono fun token htoken => by simp [admits, htoken])
  inQuery negated e q he hq := item_membership negated (item_operandTokens e he) hq (q.begins d)
  case := item_case d
  countRows function distinct := item_call _ distinct (.cons rfl (fun _ => rfl) .nil)
  call function distinct arg harg := item_call _ distinct harg
  subquery hq := .parenthesized hq (Query.begins d _)
  existsRow negated q hq := by
    have hquery : Item checked (.word .existsRow :: .blank :: parenthesized (q.tokens d)) :=
      .cons rfl (fun _ => rfl) (Item.parenthesized hq (q.begins d)).sound.blank
    cases negated with
    | false => exact hquery
    | true => exact .cons rfl (fun _ => rfl) hquery.sound.blank

/-! ## Queries -/

theorem item_itemTokens {items : List SelectItem} (h : ∀ item ∈ items, Item checked (item.expr.tokens d)) :
    ∀ piece ∈ itemTokens d items, Item checked piece := by
  induction items with
  | nil => exact nofun
  | cons item rest ih =>
    obtain ⟨e, aliasName⟩ := item
    obtain ⟨hitem, hrest⟩ := List.forall_mem_cons.1 h
    exact List.forall_mem_cons.2 ⟨hitem.append (sound_aliasTokens aliasName), ih hrest⟩

theorem item_orderTokens {keys : List OrderKey} (h : ∀ key ∈ keys, Item checked (key.expr.tokens d)) :
    ∀ piece ∈ orderTokens d keys, Item checked piece := by
  induction keys with
  | nil => exact nofun
  | cons key rest ih =>
    obtain ⟨e, direction⟩ := key
    obtain ⟨hkey, hrest⟩ := List.forall_mem_cons.1 h
    refine List.forall_mem_cons.2 ⟨hkey.append ?_, ih hrest⟩
    cases direction with
    | none => exact .nil
    | some direction =>
      refine Sound.blank (.one fun next => ?_)
      cases direction <;> rfl

theorem sound_joinTokens {joins : List Join} (h : ∀ join ∈ joins, Item checked (join.on.tokens d)) :
    Sound checked (joinTokens d joins) := by
  induction joins with
  | nil => exact .nil
  | cons join rest ih =>
    obtain ⟨kind, table, on⟩ := join
    obtain ⟨hjoin, hrest⟩ := List.forall_mem_cons.1 h
    have hkind : Sound checked (.lineBreak :: kind.tokens) := by
      cases kind with
      | inner => exact Sound.plain (.one fun _ => rfl) fun _ => rfl
      | left => exact Sound.plain (Sound.plain (Sound.blank (.one fun _ => rfl)) fun _ => rfl) fun _ => rfl
    have htable : Sound checked (.blank :: .word .join :: .blank :: table.tokens) :=
      Sound.blank (table.sound.blank.plain fun _ => rfl)
    have hon : Sound checked (.blank :: .word .on :: .blank :: on.tokens d) :=
      Sound.blank (hjoin.sound.blank.plain fun _ => rfl)
    exact ((hkind.append htable).append hon).append (ih hrest)

theorem sound_page (limit offset : Option UInt64) : Sound checked (d.page limit offset) := by
  apply Sound.of_all
  cases d <;> cases limit <;> cases offset <;>
    simp [Dialect.page, Dialect.limitedPage, Dialect.standardPage, Dialect.fetchPage, Dialect.boundToken, admits]

/-- an optional clause -/
theorem sound_optional (w : Word) {e : Option Expr} (he : ∀ x ∈ e, Item checked (x.tokens d))
    (hword : ∀ next, next.beginsItem → (Token.word w).admits next) :
    Sound checked ((e.map fun x => clause w (x.tokens d)).getD []) := by
  cases e with
  | none => exact .nil
  | some x => exact .clause w (he x rfl) hword

/-- The select list is called for where SELECT and DISTINCT are checked. -/
theorem sound_select {select : List SelectItem} (distinct : Bool)
    (hselect : select = [] → checked (.word .select) = false ∧ checked (.word .distinct) = false)
    (hitems : ∀ item ∈ select, Item checked (item.expr.tokens d)) :
    Sound checked (.word .select :: (if distinct then [.blank, .word .distinct] else [])
      ++ (if select.isEmpty then [] else .blank :: commaSeparated (itemTokens d select))) := by
  cases select with
  | nil =>
    obtain ⟨hchecked, hchecked'⟩ := hselect rfl
    have hdistinct : Sound checked (if distinct then [.blank, .word .distinct] else []) := by
      cases distinct with
      | false => exact .nil
      | true => exact Sound.blank (Sound.nil.cons fun h => absurd h (by simp [hchecked']))
    exact (hdistinct.append .nil).cons fun h => absurd h (by simp [hchecked])
  | cons item rest =>
    obtain ⟨e, aliasName⟩ := item
    have hall := Item.commaSeparated (List.cons_ne_nil _ _) (item_itemTokens d hitems)
    cases distinct with
    | false => exact hall.sound.blank.lead (hall.begins.mono fun token htoken => by simp [admits, htoken])
    | true =>
      have hdistinct : Sound checked
          (.word .distinct :: .blank :: commaSeparated (itemTokens d (⟨e, aliasName⟩ :: rest))) :=
        hall.sound.blank.lead hall.begins
      exact hdistinct.blank.lead ⟨.word .distinct, _, rfl, rfl⟩

theorem sound_source {source : Option Source}
    (h : ∀ inner name, source = some (.derived inner name) → Sound checked (inner.tokens d)) :
    Sound checked ((source.map fun source => clause .fromSource (source.tokens d)).getD []) := by
  cases source with
  | none => exact .nil
  | some source =>
    refine Sound.plain (Sound.plain (Sound.blank ?_) fun _ => rfl) fun _ => rfl
    cases source with
    | table t => exact t.sound
    | derived inner name =>
      exact (Item.parenthesized (h inner name rfl) (inner.begins d)).sound.append (sound_aliasTokens (some name))

theorem sound_groupBy {groupBy : List Expr} (h : ∀ e ∈ groupBy, Item checked (e.tokens d)) :
    Sound checked (if groupBy.isEmpty then [] else clause .groupBy (commaSeparated (exprTokens d groupBy))) := by
  split
  · exact .nil
  · next hne => exact .clause .groupBy (item_commaSeparated d (by simpa using hne) h) fun _ h => h

theorem sound_orderBy (paged : Bool) {orderBy : List OrderKey} (h : ∀ key ∈ orderBy, Item checked (key.expr.tokens d)) :
    Sound checked (if !orderBy.isEmpty then clause .orderBy (commaSeparated (orderTokens d orderBy))
      else if paged then anyOrder else []) := by
  cases orderBy with
  | nil =>
    simp only [List.isEmpty_nil, Bool.not_true, Bool.false_eq_true, if_false]
    cases paged with
    | false => exact .nil
    | true =>
      have hselect : Sound checked [.word .select, .blank, .word .null] :=
        Sound.lead (Sound.blank (.one fun _ => rfl)) ⟨.word .null, _, rfl, rfl⟩
      exact .clause .orderBy (.parenthesized hselect ⟨.word .select, _, rfl, rfl⟩) fun _ h => h
  | cons key rest =>
    obtain ⟨e, direction⟩ := key
    exact .clause .orderBy (.commaSeparated (List.cons_ne_nil _ _) (item_orderTokens d h)) fun _ h => h

theorem sound_pageClause (page : Option Page) :
    Sound checked ((page.map fun page => .lineBreak :: d.page page.limit page.offset).getD []) := by
  cases page with
  | none => exact .nil
  | some page => exact (sound_page d page.limit page.offset).plain fun _ => rfl

/-- **A query has all lists it calls for, a select list too if it has a column.** -/
theorem Query.sound {q : Query}
    (hselect : q.select = [] → checked (.word .select) = false ∧ checked (.word .distinct) = false)
    (hexpressions : ∀ e ∈ q.expressions, Item checked (e.tokens d))
    (hderived : ∀ inner name, q.source = some (.derived inner name) → Sound checked (inner.tokens d)) :
    Sound checked (q.tokens d) := by
  obtain ⟨select, distinct, source, joins, condition, groupBy, having, orderBy, page⟩ := q
  simp only [Query.expressions, List.mem_append, List.mem_map, or_imp, forall_and, forall_exists_index, and_imp,
    forall_apply_eq_imp_iff₂, Option.mem_toList] at hexpressions
  obtain ⟨⟨⟨⟨⟨hitems, hjoins⟩, hcondition⟩, hgroups⟩, hhaving⟩, hkeys⟩ := hexpressions
  have hhead := sound_select d distinct hselect hitems
  have horder := sound_orderBy d (d.pageNeedsOrder && page.isSome) hkeys
  rw [Query.tokens_eq]
  exact (((((((hhead.append (sound_source d hderived)).append (sound_joinTokens d hjoins)).append
    (sound_optional d .whereTrue hcondition fun _ _ => rfl)).append (sound_groupBy d hgroups)).append
    (sound_optional d .having hhaving fun _ _ => rfl)).append horder).append (sound_pageClause d page))

/-! ## Empty lists -/

theorem Token.Linked.of_infix {a b : List Token} (h : Linked checked b) (hab : a <:+: b) : Linked checked a :=
  List.IsChain.infix h (hab.filter _)

/-- Of two neighbours the second is admitted by the first, if that is checked. -/
theorem Token.Linked.admits {tokens : List Token} {token next : Token} (h : Linked checked tokens)
    (hpair : [token, next] <:+: tokens.filter (· ≠ .blank)) (hchecked : checked token) : token.admits next := by
  have hchain : [token, next].IsChain fun token next => checked token → token.admits next :=
    List.IsChain.infix h hpair
  exact List.isChain_pair.1 hchain hchecked

/-- A query from somewhere without a column has an empty select list. -/
theorem Query.not_linked {q : Query} (hchecked : checked (.word .select)) (hchecked' : checked (.word .distinct))
    (hsource : q.source ≠ none) (hselect : q.select = []) : ¬Linked checked (q.tokens d) := by
  obtain ⟨select, distinct, source, joins, condition, groupBy, having, orderBy, page⟩ := q
  obtain rfl : select = [] := hselect
  obtain ⟨source, rfl⟩ := Option.ne_none_iff_exists'.1 hsource
  intro h
  have hprefix : (.word .select :: (if distinct then [.blank, .word .distinct] else []) ++ [.lineBreak]) <:+:
      Query.tokens d ⟨[], distinct, some source, joins, condition, groupBy, having, orderBy, page⟩ := by
    rw [Query.tokens_eq]
    simp only [clause, List.isEmpty_nil, if_true, Option.map_some, Option.getD_some, List.append_nil, List.append_assoc,
      List.cons_append]
    exact List.IsPrefix.isInfix ⟨_, by simp only [List.cons_append, List.append_assoc]; rfl⟩
  have hhead := h.of_infix hprefix
  cases distinct with
  | false =>
    have hadmits : (Token.word .select).admits .lineBreak := hhead.admits ⟨[], [], rfl⟩ hchecked
    exact Bool.false_ne_true hadmits
  | true =>
    have hadmits : (Token.word .distinct).admits .lineBreak := hhead.admits ⟨[.word .select], [], rfl⟩ hchecked'
    exact Bool.false_ne_true hadmits

/-- A derived table is written out in the query that reads it. -/
theorem Query.derived_infix {q inner : Query} {name : String} (h : q.source = some (.derived inner name)) :
    inner.tokens d <:+: q.tokens d := by
  obtain ⟨select, distinct, source, joins, condition, groupBy, having, orderBy, page⟩ := q
  obtain rfl : source = some (.derived inner name) := h
  have hclause : inner.tokens d <:+: clause .fromSource (Source.tokens d (.derived inner name)) :=
    ⟨[.lineBreak, .word .fromSource, .blank, .sign .open], .sign .close :: aliasTokens (some name), by
      simp [clause, Source.tokens, parenthesized]⟩
  have hhead : clause .fromSource (Source.tokens d (.derived inner name)) <:+:
      Query.tokens d ⟨select, distinct, some (.derived inner name), joins, condition, groupBy, having, orderBy, page⟩ := by
    rw [Query.tokens_eq]
    simp only [Option.map_some, Option.getD_some, List.append_assoc]
    exact ⟨.word .select :: ((if distinct then [.blank, .word .distinct] else [])
      ++ if select.isEmpty then [] else .blank :: commaSeparated (itemTokens d select)), _, by
        simp only [List.cons_append, List.append_assoc]
        rfl⟩
  exact hclause.trans hhead

/-! ## Statements that change rows -/

theorem conditionTokens_balanced (e : Option Expr) : Balanced (conditionTokens d e) := by
  cases e with
  | none => exact .nil
  | some e => exact .cons rfl (.cons rfl (.cons rfl (e.balanced d)))

theorem sound_conditionTokens {e : Option Expr} (he : ∀ x ∈ e, Item checked (x.tokens d)) :
    Sound checked (conditionTokens d e) := by
  cases e with
  | none => exact .nil
  | some x => exact Sound.blank ((he x rfl).sound.blank.plain fun _ => rfl)

theorem Delete.balanced (s : Delete) : Balanced (s.tokens d) :=
  .cons rfl (.cons rfl (.cons rfl (.cons rfl (.cons rfl (conditionTokens_balanced d s.condition)))))

theorem Delete.sound {s : Delete} (hcondition : ∀ e ∈ s.condition, Item checked (e.tokens d)) :
    Sound checked (s.tokens d) :=
  Sound.plain (Sound.blank (Sound.plain (Sound.blank ((sound_conditionTokens d hcondition).plain fun _ => rfl))
    fun _ => rfl)) fun _ => rfl

theorem Update.balanced (s : Update) : Balanced (s.tokens d) := by
  refine .append (.cons rfl (.cons rfl (.cons rfl (.cons rfl (.cons rfl (.cons rfl (balanced_commaSeparated ?_)))))))
    (conditionTokens_balanced d s.condition)
  intro piece hpiece
  obtain ⟨assignment, -, rfl⟩ := List.mem_map.1 hpiece
  exact .cons rfl (.cons rfl (.cons rfl (.cons rfl (assignment.2.balanced d))))

/-- An UPDATE has its assignments, if there are any. -/
theorem Update.sound {s : Update} (hset : s.assignments = [] → checked (.word .set) = false)
    (hassignments : ∀ a ∈ s.assignments, Item checked (a.2.tokens d))
    (hcondition : ∀ e ∈ s.condition, Item checked (e.tokens d)) : Sound checked (s.tokens d) := by
  have hall : ∀ piece ∈ s.assignments.map (assignmentTokens d), Item checked piece := by
    intro piece hpiece
    obtain ⟨assignment, hassignment, rfl⟩ := List.mem_map.1 hpiece
    have hvalue := (hassignments assignment hassignment).sound.blank
    exact .cons rfl (fun _ => rfl) (Sound.blank (hvalue.plain fun _ => rfl))
  have hassigned : Sound checked (.word .set :: .blank :: commaSeparated (s.assignments.map (assignmentTokens d))) := by
    by_cases hnil : s.assignments = []
    · rw [hnil]
      exact (Sound.blank .nil).cons fun h => absurd h (by simp [hset hnil])
    · have hitems := Item.commaSeparated (by simpa using hnil) hall
      exact hitems.sound.blank.lead hitems.begins
  exact (Sound.plain (Sound.blank (Sound.plain hassigned.blank fun _ => rfl)) fun _ => rfl).append
    (sound_conditionTokens d hcondition)

/-- An UPDATE that assigns nothing has an empty list of assignments. -/
theorem Update.not_filled {s : Update} (hchecked : checked (.word .set)) (hassignments : s.assignments = []) :
    ¬Filled checked (s.tokens d) := by
  intro h
  obtain ⟨table, assignments, condition⟩ := s
  obtain rfl : assignments = [] := hassignments
  have hnext : ∃ next rest, (Update.tokens d ⟨table, [], condition⟩ ++ [Token.lineBreak]).filter (· ≠ Token.blank) =
      [.word .update, .name table] ++ [.word .set, next] ++ rest ∧ (Token.word .set).admits next = false := by
    cases condition with
    | none => exact ⟨.lineBreak, [], rfl, rfl⟩
    | some e => exact ⟨.word .whereTrue, _, rfl, rfl⟩
  obtain ⟨next, rest, hnext, hrefused⟩ := hnext
  have hadmitted : (Token.word .set).admits next := Token.Linked.admits h (hnext ▸ ⟨_, _, rfl⟩) hchecked
  exact Bool.false_ne_true (hrefused.symm.trans hadmitted)

end RelQuery.Sql
