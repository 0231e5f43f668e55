/-
How one part is written at two places of a statement.

A part of a statement, which is a stretch of its tokens, is written in a text that depends on the values bound before
it: the placeholders of some dialects count them. Written a second time further on, a part that binds values gets other
placeholders there, and the database has no way to tell that both were the same expression.
- `Stretch.In.sql`: the text of a stretch stands in the text of its statement.
- `Stretch.text_eq_iff`: the same tokens are written alike at two places exactly when they bind nothing or placeholders
  are not numbered.
- `Query.items_precede`, `Query.keys_in`: the stretches of a query's columns and group keys.
-/
import RelQuery.Proofs.Sql.Mentions

namespace RelQuery.Sql

open Token (boundValues textsFrom)

/-- whether placeholders tell which of the bound values they stand for -/
def Dialect.numbersPlaceholders : Dialect → Bool
  | postgres | tsql => true
  | sqlite | duckdb | mysql => false

theorem Dialect.placeholder_inj {d : Dialect} (hnumbers : d.numbersPlaceholders = true) {n m : Nat}
    (h : d.placeholder n = d.placeholder m) : n = m := by
  cases d with
  | sqlite | duckdb | mysql => cases hnumbers
  | postgres | tsql =>
    have hdigits : Nat.toDigits 10 n = Nat.toDigits 10 m := by simpa [placeholder] using congrArg String.toList h
    simpa only [Nat.ofDigitChars_ten_toDigits] using congrArg (fun cs => Nat.ofDigitChars 10 cs 0) hdigits

theorem Dialect.placeholder_eq {d : Dialect} (hnumbers : d.numbersPlaceholders = false) (n m : Nat) :
    d.placeholder n = d.placeholder m := by
  cases d with
  | sqlite | duckdb | mysql => rfl
  | postgres | tsql => cases hnumbers

/-- a part of a statement: its tokens, and all tokens before it -/
structure Stretch where
  before : List Token
  tokens : List Token

namespace Stretch

/-- what is written for the stretch -/
def text (d : Dialect) (s : Stretch) : String := String.join (textsFrom d (boundValues s.before).length s.tokens)

/-- the stretch in a statement that has more tokens before it -/
def after (around : List Token) (s : Stretch) : Stretch := ⟨around ++ s.before, s.tokens⟩

/-- The statement has the tokens of the stretch at its place. -/
def In (s : Stretch) (statement : List Token) : Prop := s.before ++ s.tokens <+: statement

/-- The stretch ends before the other one begins. -/
def Precedes (s other : Stretch) : Prop := s.In other.before

variable {d : Dialect} {s other : Stretch} {statement around : List Token}

theorem In.after (h : s.In statement) (around : List Token) : (s.after around).In (around ++ statement) := by
  rw [In, Stretch.after, List.append_assoc]
  exact (List.prefix_append_right_inj around).2 h

theorem In.widen {more : List Token} (h : s.In statement) (hmore : statement <+: more) : s.In more :=
  List.IsPrefix.trans h hmore

theorem Precedes.after (h : s.Precedes other) (around : List Token) : (s.after around).Precedes (other.after around) :=
  In.after h around

/-- A stretch is written in the text of its statement, after what is written for the tokens before it. -/
theorem In.sql (h : s.In statement) (d : Dialect) :
    ∃ rest, (Token.render d statement).sql = String.join (textsFrom d 0 s.before) ++ s.text d ++ rest := by
  obtain ⟨tokens, rfl⟩ := h
  refine ⟨String.join (textsFrom d (boundValues (s.before ++ s.tokens)).length tokens), ?_⟩
  rw [Token.render, Token.textsFrom_append, Token.textsFrom_append, Nat.zero_add, Nat.zero_add, text]
  simp only [String.ext_iff, String.toList_append, String.toList_join, List.flatMap_append]

/-! ## Equal texts -/

theorem textsFrom_unnumbered (hnumbers : d.numbersPlaceholders = false) (tokens : List Token) (n m : Nat) :
    textsFrom d n tokens = textsFrom d m tokens := by
  induction tokens generalizing n m with
  | nil => rfl
  | cons token rest ih =>
    cases token with
    | bound v => simp only [textsFrom, d.placeholder_eq hnumbers (n + 1) (m + 1), ih (n + 1) (m + 1)]
    | _ => simp only [textsFrom, ih n m]

theorem textsFrom_unbound {tokens : List Token} (hbound : boundValues tokens = []) (n m : Nat) :
    textsFrom d n tokens = textsFrom d m tokens := by
  induction tokens generalizing n m with
  | nil => rfl
  | cons token rest ih =>
    cases token with
    | bound v => simp [boundValues] at hbound
    | _ => simp only [textsFrom, ih (by simpa [boundValues] using hbound) n m]

/-- Numbered placeholders tell how many values were bound before. -/
theorem pieces_inj (hnumbers : d.numbersPlaceholders = true) {ms : List Mention}
    (hvalue : ms.filterMap Mention.value? ≠ []) {n m : Nat} (h : Mention.pieces d n ms = Mention.pieces d m ms) :
    n = m := by
  induction ms with
  | nil => exact absurd rfl hvalue
  | cons mention rest ih =>
    cases mention with
    | name text => exact ih (by simpa [Mention.value?] using hvalue) (List.cons.inj h).2
    | value v =>
      have hfirst := Piece.placeholder.inj (List.cons.inj h).1
      exact Nat.succ.inj (d.placeholder_inj hnumbers hfirst)

/-- The texts of the same tokens after different numbers of values differ when the placeholders show it. -/
theorem textsFrom_inj (hnumbers : d.numbersPlaceholders = true) {tokens : List Token} {ms : List Mention}
    (hshows : Token.Shows tokens ms) (hbound : boundValues tokens ≠ []) {n m : Nat}
    (h : String.join (textsFrom d n tokens) = String.join (textsFrom d m tokens)) : n = m := by
  have hscan : ∀ k, ((⟨[], .nothing⟩ : Scan).run d (String.join (textsFrom d k tokens)).toList).finish =
      some (Mention.pieces d k ms) := fun k => by
    have hrun : ((⟨[], .nothing⟩ : Scan).run d (String.join (textsFrom d k tokens)).toList).finish =
        some ([] ++ Mention.pieces d k (tokens.filterMap Token.mention?)) :=
      Scan.run_tokens tokens hshows.spaced hshows.functions rfl (.inl rfl)
    rwa [hshows.mentions] at hrun
  have hpieces : Mention.pieces d n ms = Mention.pieces d m ms :=
    Option.some.inj ((hscan n).symm.trans (h ▸ hscan m))
  refine pieces_inj hnumbers ?_ hpieces
  rwa [← hshows.mentions, ← Token.boundValues_eq]

/-- Tokens that come a second time are written as they were, unless they bind values that placeholders count. -/
theorem text_eq_iff {ms : List Mention} (hshows : Token.Shows s.tokens ms) (hsame : s.tokens = other.tokens)
    (hprecedes : s.Precedes other) :
    s.text d = other.text d ↔ d.numbersPlaceholders = false ∨ boundValues s.tokens = [] := by
  constructor
  · intro htexts
    by_contra hnot
    obtain ⟨hnumbers, hbound⟩ := not_or.1 hnot
    rw [text, text, ← hsame] at htexts
    have hcount := textsFrom_inj (by simpa using hnumbers) hshows hbound htexts
    -- the values of the first stretch are bound before the second
    obtain ⟨rest, hrest⟩ := hprecedes
    rw [← hrest, Token.boundValues_append, Token.boundValues_append, List.length_append, List.length_append] at hcount
    have hpositive := List.length_pos_of_ne_nil hbound
    omega
  · rw [text, text, ← hsame]
    rintro (hnumbers | hbound)
    · rw [textsFrom_unnumbered hnumbers]
    · rw [textsFrom_unbound hbound]

end Stretch

/-! ## Lists with commas -/

/-- the first parts of pieces that are written with commas between them -/
def stretches (before : List Token) : List (List Token × List Token) → List Stretch
  | [] => []
  | (own, more) :: rest => ⟨before, own⟩ :: stretches (before ++ own ++ more ++ [.sign .comma, .blank]) rest

theorem tokens_stretches (before : List Token) (pieces : List (List Token × List Token)) :
    (stretches before pieces).map (·.tokens) = pieces.map Prod.fst := by
  induction pieces generalizing before with
  | nil => rfl
  | cons piece rest ih => simp [stretches, ih]

/-- Each of them stands in the list, and the tokens before the list are before it. -/
theorem stretches_in {before : List Token} {pieces : List (List Token × List Token)} {s : Stretch}
    (h : s ∈ stretches before pieces) :
    s.In (before ++ Token.commaSeparated (pieces.map fun piece => piece.1 ++ piece.2)) ∧ before <+: s.before := by
  induction pieces generalizing before with
  | nil => cases h
  | cons piece rest ih =>
    obtain ⟨own, more⟩ := piece
    rcases List.mem_cons.1 h with rfl | h
    · refine ⟨?_, List.prefix_rfl⟩
      cases rest with
      | nil => simp [Stretch.In, Token.commaSeparated]
      | cons next rest => simp [Stretch.In, Token.commaSeparated]
    · obtain ⟨hin, hbefore⟩ := ih h
      cases rest with
      | nil => cases h
      | cons next rest =>
        refine ⟨?_, List.IsPrefix.trans (by simp) hbefore⟩
        simpa [Token.commaSeparated] using hin

/-! ## Columns and group keys -/

namespace Query

variable (d : Dialect) (q : Query)

/-- the part of a query before its rows are grouped -/
def ungrouped : Query := { q with groupBy := [], having := none, orderBy := [], page := none }

/-- the columns of a query, without their names -/
def itemStretches : List Stretch :=
  stretches (.word .select :: ((if q.distinct then [.blank, .word .distinct] else []) ++ [.blank]))
    (q.select.map fun item => (item.expr.tokens d, aliasTokens item.aliasName))

/-- the group keys of a query -/
def keyStretches : List Stretch :=
  stretches (q.ungrouped.tokens d ++ [.lineBreak, .word .groupBy, .blank]) (q.groupBy.map fun e => (e.tokens d, []))

variable {d q}

theorem exprTokens_eq (es : List Expr) : exprTokens d es = es.map (Expr.tokens d) := by
  induction es with
  | nil => rfl
  | cons e rest ih => rw [exprTokens, ih, List.map_cons]

theorem itemTokens_eq (items : List SelectItem) :
    itemTokens d items = items.map fun item => item.expr.tokens d ++ aliasTokens item.aliasName := by
  induction items with
  | nil => rfl
  | cons item rest ih =>
    obtain ⟨e, aliasName⟩ := item
    rw [itemTokens, ih, List.map_cons]

theorem tokens_itemStretches : (q.itemStretches d).map (·.tokens) = q.select.map fun item => item.expr.tokens d := by
  rw [itemStretches, tokens_stretches, List.map_map]
  rfl

theorem tokens_keyStretches : (q.keyStretches d).map (·.tokens) = q.groupBy.map (Expr.tokens d) := by
  rw [keyStretches, tokens_stretches, List.map_map]
  rfl

theorem items_in_ungrouped {s : Stretch} (h : s ∈ q.itemStretches d) : s.In (q.ungrouped.tokens d) := by
  refine (stretches_in h).1.widen ?_
  obtain ⟨select, distinct, source, joins, condition, groupBy, having, orderBy, page⟩ := q
  rw [ungrouped, tokens_eq]
  cases select with
  | nil => cases h
  | cons item rest =>
    simp only [List.map_map, Function.comp_def, itemTokens_eq, List.isEmpty_cons, Bool.false_eq_true, if_false,
      List.append_assoc, List.cons_append, List.nil_append]
    refine List.cons_prefix_cons.2 ⟨rfl, (List.prefix_append_right_inj _).2 (List.cons_prefix_cons.2 ⟨rfl, ?_⟩)⟩
    exact List.prefix_append _ _

/-- The keys follow what a query has before its rows are grouped. -/
theorem grouping_begins (hkeys : q.groupBy ≠ []) : q.ungrouped.tokens d ++ ([.lineBreak, .word .groupBy, .blank] ++
    Token.commaSeparated (q.groupBy.map (Expr.tokens d))) <+: q.tokens d := by
  obtain ⟨select, distinct, source, joins, condition, groupBy, having, orderBy, page⟩ := q
  have hsome : groupBy.isEmpty = false := by simpa using hkeys
  rw [ungrouped, tokens_eq, tokens_eq]
  simp only [hsome, exprTokens_eq, clause, List.isEmpty_nil, Option.isSome_none, Option.map_none, Option.getD_none,
    Bool.and_false, Bool.not_true, Bool.false_eq_true, if_true, if_false, List.append_nil, List.append_assoc,
    List.cons_append, List.nil_append]
  refine List.cons_prefix_cons.2 ⟨rfl, ?_⟩
  repeat refine (List.prefix_append_right_inj _).2 ?_
  simp

theorem keys_in {s : Stretch} (h : s ∈ q.keyStretches d) : s.In (q.tokens d) := by
  have hkeys : q.groupBy ≠ [] := by
    rintro hnone
    simp [keyStretches, hnone, stretches] at h
  refine (stretches_in h).1.widen ?_
  simpa [Function.comp_def] using grouping_begins (d := d) hkeys

/-- The columns of a query are written before its group keys. -/
theorem items_precede {item key : Stretch} (hitem : item ∈ q.itemStretches d) (hkey : key ∈ q.keyStretches d) :
    item.Precedes key :=
  (items_in_ungrouped hitem).widen ((List.prefix_append _ _).trans (stretches_in hkey).2)

end Query

end RelQuery.Sql
