/-
The names and bound values of a statement tree, and of what is written for it.

`Expr.mentions`, `Query.mentions` and those of changes list the names and the values other than null in the order in
which a statement has them. What is written for a tree shows them (`Token.Shows`), with two exceptions that go by
`whole`: a membership test without members is written as a constant, and a dialect without RETURNING leaves that clause
out. Functions are told by name, so this is a property that a whole has when its parts have it (`shows_hereditary`).
-/
import RelQuery.Proofs.Sql.Balance
import RelQuery.Proofs.Sql.Scanning
import RelQuery.Proofs.Statement.Inherited

namespace RelQuery.Sql

/-! ## Trees -/

/-- a name that need not be there -/
def Mention.ofName? (name : Option String) : List Mention := name.toList.map .name

def TableRef.mentions (t : TableRef) : List Mention := .name t.table :: Mention.ofName? t.aliasName

mutual

/-- the names and values of an expression; with `whole` also those of a test that is written as a constant -/
def Expr.mentions (whole : Bool) : Expr → List Mention
  | .column table name => Mention.ofName? table ++ [.name name]
  | .int _ => []
  | .param v => if v.isNull then [] else [.value v]
  | .binary _ left right => left.mentions whole ++ right.mentions whole
  | .not e | .isNull e _ | .paren e => e.mentions whole
  | .call _ args _ => listMentions whole args
  | .case arms none => armMentions whole arms
  | .case arms (some e) => armMentions whole arms ++ e.mentions whole
  | .subquery q | .existsRow q _ => q.mentions whole
  | .inList e values _ => if values.isEmpty && !whole then [] else e.mentions whole ++ listMentions whole values
  | .inQuery e q _ => e.mentions whole ++ q.mentions whole
  | .star table => Mention.ofName? table
termination_by structural e => e

def listMentions (whole : Bool) : List Expr → List Mention
  | [] => []
  | e :: rest => e.mentions whole ++ listMentions whole rest
termination_by structural es => es

def armMentions (whole : Bool) : List (Expr × Expr) → List Mention
  | [] => []
  | (test, result) :: rest => test.mentions whole ++ result.mentions whole ++ armMentions whole rest
termination_by structural arms => arms

def itemMentions (whole : Bool) : List SelectItem → List Mention
  | [] => []
  | ⟨e, aliasName⟩ :: rest => e.mentions whole ++ Mention.ofName? aliasName ++ itemMentions whole rest
termination_by structural items => items

def Source.mentions (whole : Bool) : Source → List Mention
  | .table t => t.mentions
  | .derived q aliasName => q.mentions whole ++ [.name aliasName]
termination_by structural source => source

def joinMentions (whole : Bool) : List Join → List Mention
  | [] => []
  | ⟨_, table, on⟩ :: rest => table.mentions ++ on.mentions whole ++ joinMentions whole rest
termination_by structural joins => joins

def orderMentions (whole : Bool) : List OrderKey → List Mention
  | [] => []
  | ⟨e, _⟩ :: rest => e.mentions whole ++ orderMentions whole rest
termination_by structural keys => keys

/-- the names and values of a query, clause by clause -/
def Query.mentions (whole : Bool) : Query → List Mention
  | ⟨select, _, source, joins, condition, groupBy, having, orderBy, _⟩ =>
    itemMentions whole select
      ++ (match source with
        | none => []
        | some source => source.mentions whole)
      ++ joinMentions whole joins
      ++ (match condition with
        | none => []
        | some e => e.mentions whole)
      ++ listMentions whole groupBy
      ++ (match having with
        | none => []
        | some e => e.mentions whole)
      ++ orderMentions whole orderBy
termination_by structural q => q

end

/-- the names and values of a condition that need not be there -/
def conditionMentions (whole : Bool) (condition : Option Expr) : List Mention :=
  (condition.map (Expr.mentions whole)).getD []

/-- the clauses of a query -/
theorem Query.mentions_eq (whole : Bool) (select : List SelectItem) (distinct : Bool) (source : Option Source)
    (joins : List Join) (condition : Option Expr) (groupBy : List Expr) (having : Option Expr)
    (orderBy : List OrderKey) (page : Option Page) :
    Query.mentions whole ⟨select, distinct, source, joins, condition, groupBy, having, orderBy, page⟩ =
      itemMentions whole select ++ (source.map (Source.mentions whole)).getD [] ++ joinMentions whole joins
        ++ conditionMentions whole condition ++ listMentions whole groupBy ++ conditionMentions whole having
        ++ orderMentions whole orderBy := by
  cases source <;> cases condition <;> cases having <;> rfl

/-- the names and values of an INSERT; with `whole` also the columns that a dialect cannot give back -/
def Insert.mentions (whole : Bool) (d : Dialect) (s : Insert) : List Mention :=
  .name s.table :: (s.columns.map Mention.name ++ listMentions whole s.values ++
    (if whole || d.hasReturning then s.returning.map Mention.name else []))

def Update.mentions (whole : Bool) (s : Update) : List Mention :=
  .name s.table :: (s.assignments.flatMap (fun a => .name a.1 :: a.2.mentions whole) ++
    conditionMentions whole s.condition)

def Delete.mentions (whole : Bool) (s : Delete) : List Mention := .name s.table :: conditionMentions whole s.condition

/-! ## Tokens -/

namespace Token

/-- The tokens are spaced, hold these names and values, and call functions only by plain names. -/
structure Shows (tokens : List Token) (mentions : List Mention) : Prop where
  spaced : Spaced tokens
  mentions : tokens.filterMap mention? = mentions
  functions : ∀ f, .function f ∈ tokens → IsPlainFunction f
  bound : .bound .null ∉ tokens

/-- whether tokens end everything before them, if there are any -/
def Gapped (tokens : List Token) : Prop := ∀ token ∈ tokens.head?, token.isGap

namespace Shows

variable {a b : List Token} {ms more : List Mention}

theorem nil : Shows [] [] := ⟨.nil, rfl, by simp, by simp⟩

theorem append (ha : Shows a ms) (hb : Shows b more) (hgap : Gapped b) : Shows (a ++ b) (ms ++ more) where
  spaced := List.isChain_append.2 ⟨ha.spaced, hb.spaced, fun _ _ next hnext _ => hgap next hnext⟩
  mentions := by rw [List.filterMap_append, ha.mentions, hb.mentions]
  functions f hf := (List.mem_append.1 hf).elim (ha.functions f) (hb.functions f)
  bound hnull := (List.mem_append.1 hnull).elim ha.bound hb.bound

/-- a token that shows its end and mentions nothing, in front of others -/
theorem cons {token : Token} (h : Shows a ms) (hopen : token.isOpenEnded = false)
    (hfunction : ∀ f, token = .function f → IsPlainFunction f) : Shows (token :: a) ms where
  spaced := List.isChain_cons.2 ⟨fun _ _ hend => by simp [hopen] at hend, h.spaced⟩
  mentions := by
    have hnone : token.mention? = none := by cases token <;> first | rfl | cases hopen
    rw [List.filterMap_cons_none hnone, h.mentions]
  functions f hf := (List.mem_cons.1 hf).elim (fun heq => hfunction f heq.symm) (h.functions f)
  bound hnull := (List.mem_cons.1 hnull).elim (fun heq => by subst heq; cases hopen) h.bound

theorem word (h : Shows a ms) (w : Word) : Shows (.word w :: a) ms := h.cons rfl (by simp)

theorem sign (h : Shows a ms) (s : Sign) : Shows (.sign s :: a) ms := h.cons rfl (by simp)

theorem blank (h : Shows a ms) : Shows (.blank :: a) ms := h.cons rfl (by simp)

theorem lineBreak (h : Shows a ms) : Shows (.lineBreak :: a) ms := h.cons rfl (by simp)

/-- tokens that mention nothing -/
theorem of_closed (h : ∀ token ∈ a, token.isOpenEnded = false ∧ ∀ f, token ≠ .function f) : Shows a [] := by
  induction a with
  | nil => exact .nil
  | cons token rest ih =>
    obtain ⟨hopen, hfunction⟩ := h token (by simp)
    exact (ih fun token htoken => h token (by simp [htoken])).cons hopen fun f hf => absurd hf (hfunction f)

theorem name (s : String) : Shows [.name s] [.name s] := ⟨.singleton _, rfl, by simp, by simp⟩

theorem value {v : Value} (h : v.isNull = false) : Shows [.bound v] [.value v] := by
  refine ⟨.singleton _, rfl, by simp, ?_⟩
  rintro hnull
  obtain rfl := Token.bound.inj (List.mem_singleton.1 hnull)
  cases h

/-- a name and what follows it -/
theorem name_cons {s : String} (h : Shows a ms) (hgap : Gapped a) : Shows (.name s :: a) (.name s :: ms) :=
  (name s).append h hgap

theorem parenthesized (h : Shows a ms) : Shows (parenthesized a) ms := by
  have hclosed : Shows (a ++ [.sign .close]) (ms ++ []) := h.append (Shows.nil.sign .close) (by simp [Gapped, isGap])
  rw [List.append_nil] at hclosed
  exact hclosed.sign .open

theorem commaSeparated {pieces : List (List Token)} {mentions : List (List Mention)}
    (h : List.Forall₂ Shows pieces mentions) : Shows (commaSeparated pieces) mentions.flatten := by
  induction h with
  | nil => exact .nil
  | @cons piece ms rest more hpiece hrest ih =>
    cases hrest with
    | nil => simpa [Token.commaSeparated] using hpiece
    | cons => exact hpiece.append (ih.blank.sign .comma) (by simp [Gapped, isGap])

end Shows

end Token

open Token (Shows Gapped)

/-! ## Parts of statements -/

theorem shows_aliasTokens (aliasName : Option String) :
    Shows (aliasTokens aliasName) (Mention.ofName? aliasName) ∧ Gapped (aliasTokens aliasName) := by
  cases aliasName with
  | none => exact ⟨.nil, by simp [aliasTokens, Gapped]⟩
  | some name => exact ⟨((Shows.name name).blank.word .as).blank, by simp [aliasTokens, Gapped, Token.isGap]⟩

theorem shows_qualified (table : Option String) {tokens : List Token} {ms : List Mention} (h : Shows tokens ms) :
    Shows (qualifierTokens table ++ tokens) (Mention.ofName? table ++ ms) := by
  cases table with
  | none => exact h
  | some name => exact (h.sign .dot).name_cons (by simp [Gapped, Token.isGap])

theorem TableRef.shows (t : TableRef) : Shows t.tokens t.mentions :=
  (shows_aliasTokens t.aliasName).1.name_cons (shows_aliasTokens t.aliasName).2

theorem JoinKind.shows (kind : JoinKind) : Shows kind.tokens [] := by
  cases kind <;> exact .of_closed (by simp [JoinKind.tokens, Token.isOpenEnded])

theorem shows_operandTokens (e : Expr) {tokens : List Token} {ms : List Mention} (h : Shows tokens ms) :
    Shows (operandTokens e tokens) ms := by
  unfold operandTokens
  split
  · exact h.parenthesized
  · exact h

theorem shows_negationTokens (negated : Bool) :
    Shows (negationTokens negated) [] ∧ Gapped (negationTokens negated) := by
  cases negated
  · exact ⟨.nil, by simp [negationTokens, Gapped]⟩
  · exact ⟨(Shows.nil.word .not).blank, by simp [negationTokens, Gapped, Token.isGap]⟩

theorem shows_page (d : Dialect) (limit offset : Option UInt64) : Shows (d.page limit offset) [] := by
  refine .of_closed ?_
  cases d <;> cases limit <;> cases offset <;>
    simp [Dialect.page, Dialect.limitedPage, Dialect.standardPage, Dialect.fetchPage, Dialect.boundToken,
      Token.isOpenEnded]

theorem isPlainFunction_concat : Token.IsPlainFunction "CONCAT" := by
  intro d
  have hall : (Text.upperCase "CONCAT").toList.all d.isPlain = true := by cases d <;> rfl
  exact List.all_eq_true.1 hall

theorem isPlainFunction_aggregate (function : AggregateFunction) : Token.IsPlainFunction function.sqlName := by
  intro d
  have hall : (Text.upperCase function.sqlName).toList.all d.isPlain = true := by cases function <;> cases d <;> rfl
  exact List.all_eq_true.1 hall

theorem listMentions_eq (whole : Bool) (es : List Expr) :
    listMentions whole es = (es.map (Expr.mentions whole)).flatten := by
  induction es with
  | nil => rfl
  | cons e rest ih => rw [listMentions, ih, List.map_cons, List.flatten_cons]

theorem itemMentions_eq (whole : Bool) (items : List SelectItem) : itemMentions whole items =
    (items.map fun item => item.expr.mentions whole ++ Mention.ofName? item.aliasName).flatten := by
  induction items with
  | nil => rfl
  | cons item rest ih =>
    obtain ⟨e, aliasName⟩ := item
    rw [itemMentions, ih, List.map_cons, List.flatten_cons]

theorem orderMentions_eq (whole : Bool) (keys : List OrderKey) :
    orderMentions whole keys = (keys.map fun key => key.expr.mentions whole).flatten := by
  induction keys with
  | nil => rfl
  | cons key rest ih =>
    obtain ⟨e, direction⟩ := key
    rw [orderMentions, ih, List.map_cons, List.flatten_cons]

section Lists

variable {d : Dialect}

theorem shows_exprTokens {es : List Expr} (h : ∀ e ∈ es, Shows (e.tokens d) (e.mentions false)) :
    Shows (Token.commaSeparated (exprTokens d es)) (listMentions false es) := by
  rw [listMentions_eq]
  refine .commaSeparated ?_
  induction es with
  | nil => exact .nil
  | cons e rest ih => exact .cons (h e List.mem_cons_self) (ih fun e he => h e (List.mem_cons_of_mem _ he))

theorem shows_itemTokens {items : List SelectItem}
    (h : ∀ item ∈ items, Shows (item.expr.tokens d) (item.expr.mentions false)) :
    Shows (Token.commaSeparated (itemTokens d items)) (itemMentions false items) := by
  rw [itemMentions_eq]
  refine .commaSeparated ?_
  induction items with
  | nil => exact .nil
  | cons item rest ih =>
    obtain ⟨e, aliasName⟩ := item
    obtain ⟨haliases, hgap⟩ := shows_aliasTokens aliasName
    exact .cons ((h ⟨e, aliasName⟩ List.mem_cons_self).append haliases hgap)
      (ih fun item hitem => h item (List.mem_cons_of_mem _ hitem))

theorem shows_orderTokens {keys : List OrderKey}
    (h : ∀ key ∈ keys, Shows (key.expr.tokens d) (key.expr.mentions false)) :
    Shows (Token.commaSeparated (orderTokens d keys)) (orderMentions false keys) := by
  rw [orderMentions_eq]
  refine .commaSeparated ?_
  induction keys with
  | nil => exact .nil
  | cons key rest ih =>
    obtain ⟨e, direction⟩ := key
    have hkey : Shows (e.tokens d) (e.mentions false) := h ⟨e, direction⟩ List.mem_cons_self
    refine .cons ?_ (ih fun key hkey => h key (List.mem_cons_of_mem _ hkey))
    cases direction with
    | none =>
      rw [List.append_nil]
      exact hkey
    | some direction =>
      have hboth := hkey.append (Shows.nil.word direction.word).blank (by simp [Gapped, Token.isGap])
      rwa [List.append_nil] at hboth

theorem shows_armTokens : {arms : List (Expr × Expr)} →
    (∀ arm ∈ arms, Shows (arm.1.tokens d) (arm.1.mentions false) ∧ Shows (arm.2.tokens d) (arm.2.mentions false)) →
    Shows (armTokens d arms) (armMentions false arms) ∧ Gapped (armTokens d arms)
  | [], _ => ⟨.nil, by simp [armTokens, Gapped]⟩
  | (test, result) :: rest, h => by
    obtain ⟨htest, hresult⟩ := h (test, result) List.mem_cons_self
    obtain ⟨hrest, hgap⟩ := shows_armTokens fun arm harm => h arm (List.mem_cons_of_mem _ harm)
    refine ⟨?_, by simp [armTokens, Gapped, Token.isGap]⟩
    have hthen := hresult.append hrest hgap
    have harm := htest.append (hthen.blank.word .caseThen).blank (by simp [Gapped, Token.isGap])
    have hwhole := (harm.blank.word .caseWhen).blank
    simpa [armTokens, armMentions] using hwhole

theorem shows_joinTokens : {joins : List Join} → (∀ join ∈ joins, Shows (join.on.tokens d) (join.on.mentions false)) →
    Shows (joinTokens d joins) (joinMentions false joins) ∧ Gapped (joinTokens d joins)
  | [], _ => ⟨.nil, by simp [joinTokens, Gapped]⟩
  | ⟨kind, table, on⟩ :: rest, h => by
    obtain ⟨hrest, hgap⟩ := shows_joinTokens fun join hjoin => h join (List.mem_cons_of_mem _ hjoin)
    refine ⟨?_, by simp [joinTokens, Gapped, Token.isGap]⟩
    have hon := (h ⟨kind, table, on⟩ List.mem_cons_self).append hrest hgap
    have htable := table.shows.append (hon.blank.word .on).blank (by simp [Gapped, Token.isGap])
    have hwhole := (kind.shows.append (htable.blank.word .join).blank (by simp [Gapped, Token.isGap])).lineBreak
    simpa [joinTokens, joinMentions] using hwhole

end Lists

/-! ## Whole trees -/

section Trees

variable (d : Dialect)

theorem shows_param (v : Value) : Shows ((Expr.param v).tokens d) ((Expr.param v).mentions false) := by
  cases v with
  | null => exact Shows.nil.word .null
  | bool | int | real | text => exact .value rfl

theorem shows_binary (op : BinaryOp) {left right : Expr} (hleft : Shows (left.tokens d) (left.mentions false))
    (hright : Shows (right.tokens d) (right.mentions false)) :
    Shows ((Expr.binary op left right).tokens d) ((Expr.binary op left right).mentions false) := by
  rw [Expr.tokens, Expr.mentions]
  split
  · have hpair := hleft.append (hright.blank.sign .comma) (by simp [Gapped, Token.isGap])
    exact hpair.parenthesized.cons rfl fun f hf => Token.function.inj hf ▸ isPlainFunction_concat
  · refine (shows_operandTokens left hleft).append ((Shows.cons ?_ ?_ ?_).blank) (by simp [Gapped, Token.isGap])
    · exact (shows_operandTokens right hright).blank
    · cases op <;> rfl
    · cases op <;> simp [BinaryOp.token]

/-- a test of membership, whatever the members are written as -/
theorem shows_membership (negated : Bool) {e : Expr} (he : Shows (e.tokens d) (e.mentions false)) {inner : List Token}
    {ms : List Mention} (hinner : Shows inner ms) :
    Shows (operandTokens e (e.tokens d) ++ negationTokens negated
      ++ .blank :: .word .isIn :: .blank :: Token.parenthesized inner) (e.mentions false ++ ms) := by
  obtain ⟨hnegation, hgap⟩ := shows_negationTokens negated
  have hoperand := (shows_operandTokens e he).append hnegation hgap
  rw [List.append_nil] at hoperand
  exact hoperand.append (hinner.parenthesized.blank.word .isIn).blank (by simp [Gapped, Token.isGap])

theorem shows_case {arms : List (Expr × Expr)} {otherwise : Option Expr}
    (harms : ∀ arm ∈ arms, Shows (arm.1.tokens d) (arm.1.mentions false) ∧ Shows (arm.2.tokens d) (arm.2.mentions false))
    (hotherwise : ∀ e ∈ otherwise, Shows (e.tokens d) (e.mentions false)) :
    Shows ((Expr.case arms otherwise).tokens d) ((Expr.case arms otherwise).mentions false) := by
  have hend : Shows [.blank, .word .caseEnd] [] := (Shows.nil.word .caseEnd).blank
  obtain ⟨harms, -⟩ := shows_armTokens harms
  cases otherwise with
  | none =>
    have hall := (harms.append hend (by simp [Gapped, Token.isGap])).word .case
    simpa [Expr.tokens, Expr.mentions] using hall
  | some e =>
    have helse := (((hotherwise e rfl).append hend (by simp [Gapped, Token.isGap])).blank.word .caseElse).blank
    have hall := (harms.append helse (by simp [Gapped, Token.isGap])).word .case
    simpa [Expr.tokens, Expr.mentions] using hall

theorem shows_call {function : AggregateFunction} (distinct : Bool) {arg : Expr} {ms : List Mention}
    (harg : Shows (arg.tokens d) ms) :
    Shows ((Expr.call function.sqlName [arg] distinct).tokens d) ms := by
  have hinner : Shows ((if distinct then [.word .distinct, .blank] else []) ++ arg.tokens d) ms := by
    cases distinct with
    | false => exact harg
    | true => exact harg.blank.word .distinct
  exact hinner.parenthesized.cons rfl fun f hf => Token.function.inj hf ▸ isPlainFunction_aggregate function

theorem shows_clause (w : Word) {body : List Token} {ms : List Mention} (h : Shows body ms) :
    Shows (clause w body) ms ∧ Gapped (clause w body) :=
  ⟨(h.blank.word w).lineBreak, by simp [clause, Gapped, Token.isGap]⟩

theorem shows_optional (w : Word) {condition : Option Expr}
    (h : ∀ e ∈ condition, Shows (e.tokens d) (e.mentions false)) :
    Shows ((condition.map fun e => clause w (e.tokens d)).getD []) (conditionMentions false condition) ∧
      Gapped ((condition.map fun e => clause w (e.tokens d)).getD []) := by
  cases condition with
  | none => exact ⟨.nil, by simp [Gapped]⟩
  | some e => exact shows_clause w (h e rfl)

theorem shows_select {select : List SelectItem}
    (h : ∀ item ∈ select, Shows (item.expr.tokens d) (item.expr.mentions false)) :
    Shows (if select.isEmpty then [] else .blank :: Token.commaSeparated (itemTokens d select))
        (itemMentions false select) ∧
      Gapped (if select.isEmpty then [] else .blank :: Token.commaSeparated (itemTokens d select)) := by
  cases select with
  | nil => exact ⟨.nil, by simp [Gapped]⟩
  | cons item rest => exact ⟨(shows_itemTokens h).blank, by simp [Gapped, Token.isGap]⟩

theorem shows_source {source : Option Source}
    (h : ∀ inner name, source = some (.derived inner name) → Shows (inner.tokens d) (inner.mentions false)) :
    Shows ((source.map fun source => clause .fromSource (source.tokens d)).getD [])
        ((source.map (Source.mentions false)).getD []) ∧
      Gapped ((source.map fun source => clause .fromSource (source.tokens d)).getD []) := by
  cases source with
  | none => exact ⟨.nil, by simp [Gapped]⟩
  | some source =>
    refine shows_clause .fromSource ?_
    cases source with
    | table t => exact t.shows
    | derived inner name =>
      obtain ⟨halias, hgap⟩ := shows_aliasTokens (some name)
      exact (h inner name rfl).parenthesized.append halias hgap

theorem shows_groupBy {groupBy : List Expr} (h : ∀ e ∈ groupBy, Shows (e.tokens d) (e.mentions false)) :
    Shows (if groupBy.isEmpty then [] else clause .groupBy (Token.commaSeparated (exprTokens d groupBy)))
        (listMentions false groupBy) ∧
      Gapped (if groupBy.isEmpty then [] else clause .groupBy (Token.commaSeparated (exprTokens d groupBy))) := by
  cases groupBy with
  | nil => exact ⟨.nil, by simp [Gapped]⟩
  | cons e rest => exact shows_clause .groupBy (shows_exprTokens h)

/-- A page that needs an order has one that mentions nothing when there are no keys. -/
theorem shows_orderBy (paged : Bool) {orderBy : List OrderKey}
    (h : ∀ key ∈ orderBy, Shows (key.expr.tokens d) (key.expr.mentions false)) :
    Shows (if !orderBy.isEmpty then clause .orderBy (Token.commaSeparated (orderTokens d orderBy))
          else if paged then anyOrder else []) (orderMentions false orderBy) ∧
      Gapped (if !orderBy.isEmpty then clause .orderBy (Token.commaSeparated (orderTokens d orderBy))
          else if paged then anyOrder else []) := by
  cases orderBy with
  | nil =>
    simp only [List.isEmpty_nil, Bool.not_true, Bool.false_eq_true, if_false]
    cases paged with
    | false => exact ⟨.nil, by simp [Gapped]⟩
    | true =>
      exact ⟨.of_closed (by simp [anyOrder, clause, Token.parenthesized, Token.isOpenEnded]),
        by simp [anyOrder, clause, Gapped, Token.isGap]⟩
  | cons key rest => exact shows_clause .orderBy (shows_orderTokens h)

theorem shows_pageClause (page : Option Page) :
    Shows ((page.map fun page => .lineBreak :: d.page page.limit page.offset).getD []) [] ∧
      Gapped ((page.map fun page => .lineBreak :: d.page page.limit page.offset).getD []) := by
  cases page with
  | none => exact ⟨.nil, by simp [Gapped]⟩
  | some page => exact ⟨(shows_page d page.limit page.offset).lineBreak, by simp [Gapped, Token.isGap]⟩

theorem shows_query {q : Query} (hexpressions : ∀ e ∈ q.expressions, Shows (e.tokens d) (e.mentions false))
    (hderived : ∀ inner name, q.source = some (.derived inner name) → Shows (inner.tokens d) (inner.mentions false)) :
    Shows (q.tokens d) (q.mentions false) := by
  obtain ⟨select, distinct, source, joins, condition, groupBy, having, orderBy, page⟩ := q
  simp only [Query.expressions, List.mem_append, List.mem_map, Option.mem_toList, or_imp, forall_and,
    forall_exists_index, and_imp, forall_apply_eq_imp_iff₂] at hexpressions
  obtain ⟨⟨⟨⟨⟨hitems, hons⟩, hwhere⟩, hgroups⟩, hhavings⟩, hkeys⟩ := hexpressions
  have hhead : Shows (.word .select :: if distinct then [.blank, .word .distinct] else []) [] := by
    cases distinct <;> exact .of_closed (by simp [Token.isOpenEnded])
  have hselect := shows_select d hitems
  have hsource := shows_source d hderived
  have hjoins := shows_joinTokens hons
  have hcondition := shows_optional d .whereTrue hwhere
  have hgroup := shows_groupBy d hgroups
  have hhaving := shows_optional d .having hhavings
  have horder := shows_orderBy d (d.pageNeedsOrder && page.isSome) hkeys
  have hpage := shows_pageClause d page
  have hall := (((((((hhead.append hselect.1 hselect.2).append hsource.1 hsource.2).append hjoins.1 hjoins.2).append
    hcondition.1 hcondition.2).append hgroup.1 hgroup.2).append hhaving.1 hhaving.2).append horder.1 horder.2).append
    hpage.1 hpage.2
  rw [Query.tokens_eq, Query.mentions_eq]
  simpa using hall

/-- What is written for a compiled tree shows what the tree mentions. -/
theorem shows_hereditary : Hereditary (fun e => Shows (e.tokens d) (e.mentions false))
    fun q => Shows (q.tokens d) (q.mentions false) where
  column table name := shows_qualified table (.name name)
  int n := .of_closed (by simp [Expr.tokens, Token.isOpenEnded])
  param := shows_param d
  binary op := shows_binary d op
  not he := ((shows_operandTokens _ he).blank).word .not
  isNull negated e he := by
    have hboth := (shows_operandTokens e he).append (Shows.nil.word (if negated then .isNotNull else .isNull)).blank
      (by simp [Gapped, Token.isGap])
    rwa [List.append_nil] at hboth
  inList negated e values he hvalues := by
    cases values with
    | nil => cases negated <;> exact .of_closed (by simp [Expr.tokens, emptyMembership, Token.isOpenEnded])
    | cons v rest => exact shows_membership d negated he (shows_exprTokens hvalues)
  inQuery negated e q he hq := shows_membership d negated he hq
  case _ := shows_case d
  countRows function distinct := shows_call d distinct (.of_closed (by simp [Expr.tokens, qualifierTokens, Token.isOpenEnded]))
  call function distinct arg harg := by
    have hcall : Shows ((Expr.call function.sqlName [arg] distinct).tokens d) _ := shows_call d distinct harg
    simpa [Expr.mentions, listMentions] using hcall
  subquery hq := hq.parenthesized
  existsRow negated q hq := by
    cases negated with
    | false => exact (hq.parenthesized.blank).word .existsRow
    | true => exact (((hq.parenthesized.blank).word .existsRow).blank).word .not
  query := shows_query d

/-! ## Changes -/

variable {d}

theorem shows_conditionTokens {condition : Option Expr} (h : ∀ e ∈ condition, Shows (e.tokens d) (e.mentions false)) :
    Shows (conditionTokens d condition) (conditionMentions false condition) ∧ Gapped (conditionTokens d condition) := by
  cases condition with
  | none => exact ⟨.nil, by simp [conditionTokens, Gapped]⟩
  | some e => exact ⟨((h e rfl).blank.word .whereTrue).blank, by simp [conditionTokens, Gapped, Token.isGap]⟩

theorem shows_nameTokens (names : List String) : Shows (nameTokens names) (names.map Mention.name) := by
  have hall : List.Forall₂ Shows (names.map fun name => [.name name]) (names.map fun name => [Mention.name name]) := by
    induction names with
    | nil => exact .nil
    | cons name rest ih => exact .cons (.name name) ih
  have hshows := Shows.commaSeparated hall
  rwa [← List.flatMap_def, ← List.map_eq_flatMap] at hshows

theorem Delete.shows {s : Delete} (hcondition : ∀ e ∈ s.condition, Shows (e.tokens d) (e.mentions false)) :
    Shows (s.tokens d) (s.mentions false) := by
  obtain ⟨hshows, hgap⟩ := shows_conditionTokens hcondition
  exact ((((hshows.name_cons hgap).blank).word .fromSource).blank).word .delete

theorem shows_assignments {assignments : List (String × Expr)}
    (h : ∀ a ∈ assignments, Shows (a.2.tokens d) (a.2.mentions false)) :
    Shows (Token.commaSeparated (assignments.map (assignmentTokens d)))
      (assignments.flatMap fun a => .name a.1 :: a.2.mentions false) := by
  rw [List.flatMap_def]
  refine .commaSeparated ?_
  induction assignments with
  | nil => exact .nil
  | cons a rest ih =>
    have ha := ((h a List.mem_cons_self).blank.sign .eq).blank.name_cons (s := a.1) (by simp [Gapped, Token.isGap])
    exact .cons ha (ih fun a ha => h a (List.mem_cons_of_mem _ ha))

theorem Update.shows {s : Update} (hassignments : ∀ a ∈ s.assignments, Shows (a.2.tokens d) (a.2.mentions false))
    (hcondition : ∀ e ∈ s.condition, Shows (e.tokens d) (e.mentions false)) :
    Shows (s.tokens d) (s.mentions false) := by
  obtain ⟨hshows, hgap⟩ := shows_conditionTokens hcondition
  have hbody := ((shows_assignments hassignments).append hshows hgap).blank.word .set
  exact ((hbody.blank.name_cons (by simp [Gapped, Token.isGap])).blank).word .update

/-- An INSERT without columns has no values either. -/
theorem Insert.shows {s : Insert} (hcolumns : s.columns = [] → s.values = [])
    (hvalues : ∀ e ∈ s.values, Shows (e.tokens d) (e.mentions false)) : Shows (s.tokens d) (s.mentions false d) := by
  have hreturning : Shows (if s.returning.isEmpty || !d.hasReturning then []
        else .blank :: .word .returning :: .blank :: nameTokens s.returning)
        (if false || d.hasReturning then s.returning.map Mention.name else []) ∧
      Gapped (if s.returning.isEmpty || !d.hasReturning then []
        else .blank :: .word .returning :: .blank :: nameTokens s.returning) := by
    cases hreturns : d.hasReturning with
    | false => simpa using ⟨Shows.nil, by simp [Gapped]⟩
    | true =>
      cases hnames : s.returning with
      | nil => simpa using ⟨Shows.nil, by simp [Gapped]⟩
      | cons name rest =>
        exact ⟨((shows_nameTokens (name :: rest)).blank.word .returning).blank, by simp [Gapped, Token.isGap]⟩
  have hbody : Shows (if s.columns.isEmpty then [.blank, .word .defaultValues]
        else .blank :: Token.parenthesized (nameTokens s.columns)
          ++ .blank :: .word .values :: .blank :: Token.parenthesized (Token.commaSeparated (exprTokens d s.values)))
        (s.columns.map Mention.name ++ listMentions false s.values) ∧
      Gapped (if s.columns.isEmpty then [.blank, .word .defaultValues]
        else .blank :: Token.parenthesized (nameTokens s.columns)
          ++ .blank :: .word .values :: .blank :: Token.parenthesized (Token.commaSeparated (exprTokens d s.values))) := by
    cases hnames : s.columns with
    | nil =>
      rw [hcolumns hnames]
      exact ⟨(Shows.nil.word .defaultValues).blank, by simp [Gapped, Token.isGap]⟩
    | cons name rest =>
      have hlast := (((shows_exprTokens hvalues).parenthesized.blank.word .values).blank)
      exact ⟨((shows_nameTokens (name :: rest)).parenthesized.append hlast (by simp [Gapped, Token.isGap])).blank,
        by simp [Gapped, Token.isGap]⟩
  have hrest := hbody.1.append hreturning.1 hreturning.2
  have hgap : Gapped ((if s.columns.isEmpty then [.blank, .word .defaultValues]
        else .blank :: Token.parenthesized (nameTokens s.columns)
          ++ .blank :: .word .values :: .blank :: Token.parenthesized (Token.commaSeparated (exprTokens d s.values)))
        ++ (if s.returning.isEmpty || !d.hasReturning then []
          else .blank :: .word .returning :: .blank :: nameTokens s.returning)) := by
    cases s.columns <;> simp [Gapped, Token.isGap]
  have hall := (((hrest.name_cons (s := s.table) hgap).blank.word .into).blank).word .insert
  simpa [Insert.tokens, Insert.mentions] using hall

end Trees

end RelQuery.Sql
