/-
How the tokens of an expression are read back.

A reader takes the tokens from left to right by precedence. What is begun and not yet finished waits on a stack: NOT and
the infix operators with their left sides, and the parentheses, lists and arms around them. An operator, once read,
first settles what binds at least as tightly before it; the end of an enclosing part settles everything inside it.
From loosest to tightest the levels are OR, AND, NOT, comparisons with LIKE, IN and IS NULL, sums with `||`, products.
A nested query is passed over to the parenthesis that closes it. CONCAT of two operands is concatenation where there is
no operator for it, and where concatenation and addition are spelled alike both are read as addition.
- `Reader.settle_nots`: the NOTs in front of an operand are settled together, or all left waiting.
- `Reader.run_query`: a nested query is passed over whole.
-/
import RelQuery.Proofs.Sql.Balance

namespace RelQuery.Sql

/-- an expression as it is read: its operators, and nested queries as the tokens they are -/
inductive Reading where
  | column (table : Option String) (name : String)
  | star (table : Option String)
  | int (n : Int64)
  | null
  | bound (v : Value)
  | truth (b : Bool)
  | binary (op : BinaryOp) (left right : Reading)
  | not (e : Reading)
  | call (function : String) (args : List Reading) (distinct : Bool)
  | case (arms : List (Reading × Reading)) (otherwise : Option Reading)
  | query (inner : List Token)
  | existsRow (inner : List Token)
  | inList (e : Reading) (values : List Reading) (negated : Bool)
  | inQuery (e : Reading) (inner : List Token) (negated : Bool)
  | isNull (e : Reading) (negated : Bool)

/-! ## Levels -/

/-- the level of NOT -/
def notLevel : Nat := 3

/-- the level of comparisons, and of IN and IS NULL -/
def comparisonLevel : Nat := 4

/-- how tightly an operator binds -/
def BinaryOp.level : BinaryOp → Nat
  | .or => 1
  | .and => 2
  | .eq | .ne | .lt | .gt | .lte | .gte | .like => comparisonLevel
  | .plus | .minus | .concat => 5
  | .times | .divide => 6

/-- the operator a token stands for -/
def Token.operator? : Token → Option BinaryOp
  | .sign .eq => some .eq
  | .sign .ne => some .ne
  | .sign .lt => some .lt
  | .sign .gt => some .gt
  | .sign .lte => some .lte
  | .sign .gte => some .gte
  | .word .and => some .and
  | .word .or => some .or
  | .sign .plus => some .plus
  | .sign .minus => some .minus
  | .sign .times => some .times
  | .sign .divide => some .divide
  | .sign .concat => some .concat
  | .word .like => some .like
  | _ => none

namespace Dialect

/-- Concatenation spelled as addition is read as addition. -/
def readOperator (d : Dialect) (op : BinaryOp) : BinaryOp :=
  if op = .concat && Sign.concat.text d == Sign.plus.text d then .plus else op

/-- CONCAT of two operands stands for the operator a dialect lacks. -/
def readCall (d : Dialect) (function : String) (args : List Reading) (distinct : Bool) : Reading :=
  match args with
  | [left, right] =>
    if function = "CONCAT" && !distinct && !d.hasConcatOperator then .binary .concat left right
    else .call function [left, right] distinct
  | _ => .call function args distinct

end Dialect

/-! ## The reader -/

/-- what has been begun -/
inductive Pending where
  | not
  | binary (op : BinaryOp) (left : Reading)
  | paren
  | call (function : String) (args : List Reading) (distinct : Bool)
  | members (e : Reading) (values : List Reading) (negated : Bool)
  | existing
  | test (arms : List (Reading × Reading))
  | result (arms : List (Reading × Reading)) (test : Reading)
  | otherwise (arms : List (Reading × Reading))

/-- whether something begun is an operator -/
def Pending.isOperator : Pending → Bool
  | .not | .binary .. => true
  | _ => false

/-- what the last token leaves a reader with -/
inductive Position where
  /-- an operand is due -/
  | expects
  | holds (e : Reading)
  /-- after the dot of a qualified name -/
  | qualifies (table : String)
  /-- after a function's name -/
  | names (function : String)
  /-- after NOT behind an operand -/
  | negates (e : Reading)
  /-- after IN -/
  | lists (e : Reading) (negated : Bool)
  /-- after EXISTS -/
  | seeks
  /-- between the arms of a CASE -/
  | chooses (arms : List (Reading × Reading))
  /-- in a nested query, so many parentheses deep -/
  | skips (depth : Nat) (inner : List Token)

structure Reader where
  stack : List Pending
  position : Position

namespace Reader

/-- Operators that bind at least as tightly as `level` take what has been read for their right side. -/
def settle (level : Nat) : List Pending → Reading → List Pending × Reading
  | .not :: stack, e => if level ≤ notLevel then settle level stack (.not e) else (.not :: stack, e)
  | .binary op left :: stack, e =>
    if level ≤ op.level then settle level stack (.binary op left e) else (.binary op left :: stack, e)
  | stack, e => (stack, e)

/-- where an operand is due -/
def expect (d : Dialect) (stack : List Pending) : Token → Option Reader
  | .name name => some ⟨stack, .holds (.column none name)⟩
  | .sign .star => some ⟨stack, .holds (.star none)⟩
  | .int n => some ⟨stack, .holds (.int n)⟩
  | .word .null => some ⟨stack, .holds .null⟩
  | .bound v => some ⟨stack, .holds (.bound v)⟩
  | .truth b => some ⟨stack, .holds (.truth b)⟩
  | .word .not => some ⟨.not :: stack, .expects⟩
  | .word .case => some ⟨stack, .chooses []⟩
  | .word .existsRow => some ⟨stack, .seeks⟩
  | .function f => some ⟨stack, .names f⟩
  | .sign .open => some ⟨.paren :: stack, .expects⟩
  | .word .select => some ⟨stack, .skips 0 [.word .select]⟩
  | .word .distinct =>
    match stack with
    | .call f [] false :: stack => some ⟨.call f [] true :: stack, .expects⟩
    | _ => none
  | .sign .close =>
    match stack with
    | .call f [] distinct :: stack => some ⟨stack, .holds (d.readCall f [] distinct)⟩
    | _ => none
  | _ => none

/-- after an arm of a CASE, or at its beginning -/
def choose (stack : List Pending) (arms : List (Reading × Reading)) : Token → Option Reader
  | .word .caseWhen => some ⟨.test arms :: stack, .expects⟩
  | .word .caseElse => some ⟨.otherwise arms :: stack, .expects⟩
  | .word .caseEnd => some ⟨stack, .holds (.case arms none)⟩
  | _ => none

/-- the end of the part around a settled expression -/
def finish (d : Dialect) (stack : List Pending) (e : Reading) (token : Token) : Option Reader :=
  match stack, token with
  | .paren :: stack, .sign .close => some ⟨stack, .holds e⟩
  | .call f args distinct :: stack, .sign .comma => some ⟨.call f (args ++ [e]) distinct :: stack, .expects⟩
  | .call f args distinct :: stack, .sign .close => some ⟨stack, .holds (d.readCall f (args ++ [e]) distinct)⟩
  | .members x values negated :: stack, .sign .comma => some ⟨.members x (values ++ [e]) negated :: stack, .expects⟩
  | .members x values negated :: stack, .sign .close => some ⟨stack, .holds (.inList x (values ++ [e]) negated)⟩
  | .test arms :: stack, .word .caseThen => some ⟨.result arms e :: stack, .expects⟩
  | .result arms test :: stack, token => choose stack (arms ++ [(test, e)]) token
  | .otherwise arms :: stack, .word .caseEnd => some ⟨stack, .holds (.case arms (some e))⟩
  | _, _ => none

/-- after an operand -/
def follow (d : Dialect) (stack : List Pending) (e : Reading) (token : Token) : Option Reader :=
  match token with
  | .sign .dot =>
    match e with
    | .column none table => some ⟨stack, .qualifies table⟩
    | _ => none
  | .word .not => let (stack, e) := settle comparisonLevel stack e; some ⟨stack, .negates e⟩
  | .word .isIn => let (stack, e) := settle comparisonLevel stack e; some ⟨stack, .lists e false⟩
  | .word .isNull => let (stack, e) := settle comparisonLevel stack e; some ⟨stack, .holds (.isNull e false)⟩
  | .word .isNotNull => let (stack, e) := settle comparisonLevel stack e; some ⟨stack, .holds (.isNull e true)⟩
  | token =>
    match token.operator? with
    | some op => let (stack, e) := settle op.level stack e; some ⟨.binary (d.readOperator op) e :: stack, .expects⟩
    | none => let (stack, e) := settle 0 stack e; finish d stack e token

/-- the end of a nested query -/
def leave (stack : List Pending) (inner : List Token) : Option Reader :=
  match stack with
  | .paren :: stack => some ⟨stack, .holds (.query inner)⟩
  | .existing :: stack => some ⟨stack, .holds (.existsRow inner)⟩
  | .members e [] negated :: stack => some ⟨stack, .holds (.inQuery e inner negated)⟩
  | _ => none

/-- inside a nested query -/
def skip (stack : List Pending) (depth : Nat) (inner : List Token) (token : Token) : Option Reader :=
  match token, depth with
  | .sign .open, depth => some ⟨stack, .skips (depth + 1) (inner ++ [token])⟩
  | .sign .close, 0 => leave stack inner
  | .sign .close, depth + 1 => some ⟨stack, .skips depth (inner ++ [token])⟩
  | token, depth => some ⟨stack, .skips depth (inner ++ [token])⟩

/-- One token is read; between the parts of an expression blanks mean nothing. -/
def step (d : Dialect) (r : Reader) (token : Token) : Option Reader :=
  match r.position, token with
  | .skips depth inner, token => skip r.stack depth inner token
  | _, .blank => some r
  | .expects, token => expect d r.stack token
  | .holds e, token => follow d r.stack e token
  | .qualifies table, .name name => some ⟨r.stack, .holds (.column (some table) name)⟩
  | .qualifies table, .sign .star => some ⟨r.stack, .holds (.star (some table))⟩
  | .names f, .sign .open => some ⟨.call f [] false :: r.stack, .expects⟩
  | .negates e, .word .isIn => some ⟨r.stack, .lists e true⟩
  | .lists e negated, .sign .open => some ⟨.members e [] negated :: r.stack, .expects⟩
  | .seeks, .sign .open => some ⟨.existing :: r.stack, .expects⟩
  | .chooses arms, token => choose r.stack arms token
  | _, _ => none

def run (d : Dialect) (r : Reader) (tokens : List Token) : Option Reader := tokens.foldlM (step d) r

/-- the expression held when nothing is left open -/
def result? (r : Reader) : Option Reading :=
  match r.position with
  | .holds e =>
    match settle 0 r.stack e with
    | ([], e) => some e
    | _ => none
  | _ => none

end Reader

/-- the expression that tokens are read as -/
def read (d : Dialect) (tokens : List Token) : Option Reading := do
  let r ← Reader.run d ⟨[], .expects⟩ tokens
  r.result?

namespace Reader

/-! ## Settling -/

/-- a stack on which no operator waits since the last part was opened -/
def Sealed (stack : List Pending) : Prop := ∀ level e, settle level stack e = (stack, e)

theorem sealed_nil : Sealed [] := fun _ _ => rfl

theorem sealed_cons {pending : Pending} (stack : List Pending) (h : pending.isOperator = false) :
    Sealed (pending :: stack) := by
  intro level e
  cases pending <;> first | rfl | cases h

theorem settle_nots {level : Nat} (h : level ≤ notLevel) (k : Nat) (stack : List Pending) (e : Reading) :
    settle level (List.replicate k .not ++ stack) e = settle level stack (Reading.not^[k] e) := by
  induction k generalizing e with
  | zero => rfl
  | succ k ih => rw [List.replicate_succ, List.cons_append, settle, if_pos h, ih, Function.iterate_succ_apply]

/-- An operator that binds tighter than NOT leaves the NOTs in front of its left side waiting. -/
theorem settle_of_notLevel_lt {level : Nat} (h : notLevel < level) {stack : List Pending} (hstack : Sealed stack)
    (k : Nat) (e : Reading) :
    settle level (List.replicate k .not ++ stack) e = (List.replicate k .not ++ stack, e) := by
  cases k with
  | zero => exact hstack level e
  | succ k => rw [List.replicate_succ, List.cons_append, settle, if_neg (Nat.not_le.2 h)]

/-! ## Running -/

variable (d : Dialect)

theorem run_append (r : Reader) (a b : List Token) : run d r (a ++ b) = (run d r a).bind (run d · b) := by
  simp [run, List.foldlM_append]

theorem run_cons (r : Reader) (token : Token) (rest : List Token) :
    run d r (token :: rest) = (step d r token).bind (run d · rest) := rfl

theorem run_of_step {r r' : Reader} {token : Token} (h : step d r token = some r') (rest : List Token) :
    run d r (token :: rest) = run d r' rest := by
  rw [run_cons, h]
  rfl

theorem run_of_run {r r' : Reader} {a : List Token} (h : run d r a = some r') (b : List Token) :
    run d r (a ++ b) = run d r' b := by
  rw [run_append, h]
  rfl

theorem follow_operator (stack : List Pending) (e : Reading) (op : BinaryOp) :
    follow d stack e op.token
      = some ⟨.binary (d.readOperator op) (settle op.level stack e).2 :: (settle op.level stack e).1, .expects⟩ := by
  cases op <;> rfl

/-! ## Nested queries -/

theorem skip_of_not_parenthesis {token : Token} (h : token.isParenthesis = false) (stack : List Pending) (depth : Nat)
    (inner : List Token) : skip stack depth inner token = some ⟨stack, .skips depth (inner ++ [token])⟩ := by
  cases token with
  | sign s => cases s <;> first | rfl | cases h
  | _ => rfl

theorem run_skips {tokens : List Token} (h : Token.Balanced tokens) (stack : List Pending) (depth : Nat)
    (inner : List Token) :
    run d ⟨stack, .skips depth inner⟩ tokens = some ⟨stack, .skips depth (inner ++ tokens)⟩ := by
  induction h generalizing depth inner with
  | nil => rw [List.append_nil]; rfl
  | @one token htoken =>
    have hstep : step d ⟨stack, .skips depth inner⟩ token = some ⟨stack, .skips depth (inner ++ [token])⟩ :=
      skip_of_not_parenthesis htoken stack depth inner
    exact run_of_step d hstep []
  | append _ _ iha ihb => rw [run_of_run d (iha depth inner), ihb, List.append_assoc]
  | @inside body _ ih =>
    have hopen : step d ⟨stack, .skips depth inner⟩ (.sign .open)
        = some ⟨stack, .skips (depth + 1) (inner ++ [.sign .open])⟩ := rfl
    rw [Token.parenthesized, run_of_step d hopen, run_of_run d (ih _ _)]
    have hclose : step d ⟨stack, .skips (depth + 1) (inner ++ [.sign .open] ++ body)⟩ (.sign .close)
        = some ⟨stack, .skips depth (inner ++ [.sign .open] ++ body ++ [.sign .close])⟩ := rfl
    rw [run_of_step d hclose]
    simp [run]

theorem head_tokens (q : Query) : (q.tokens d).head? = some (.word .select) := by
  obtain ⟨select, distinct, source, joins, condition, groupBy, having, orderBy, page⟩ := q
  rw [Query.tokens_eq]
  rfl

/-- A nested query ends at the parenthesis that closes it. -/
theorem run_query (q : Query) (stack : List Pending) :
    run d ⟨stack, .expects⟩ (q.tokens d ++ [.sign .close]) = leave stack (q.tokens d) := by
  obtain ⟨rest, hrest⟩ := List.head?_eq_some_iff.1 (head_tokens d q)
  have henter : run d ⟨stack, .expects⟩ (q.tokens d ++ [.sign .close])
      = run d ⟨stack, .skips 0 []⟩ (q.tokens d ++ [.sign .close]) := by rw [hrest]; rfl
  rw [henter, run_of_run d (run_skips d (q.balanced d) stack 0 []), List.nil_append, run_cons]
  change (leave stack (q.tokens d)).bind some = _
  exact Option.bind_fun_some _

end Reader

end RelQuery.Sql
