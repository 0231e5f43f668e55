/-
How the operators of a written expression are grouped.

An operand is put in parentheses when it is an operation; a negation is not one. Read back by precedence
(`Sql.read`), NOT in front of the left side of an operator that binds tighter takes the whole operation for its operand,
so `heard` tells the tree that is read from the tree that is written (`outline`).
- `Expr.reads`: the reader, given the tokens of an expression anywhere, holds what is heard.
- `Expr.whole_eq_outline`: the two trees are the same exactly when no such operator has a negation on its left.
- `Expr.read_tokens_iff`: written and read back, these expressions and no others keep their groups.
-/
import RelQuery.Proofs.Sql.Reading

namespace RelQuery.Sql

open Reader

/-! ## The tree that is written -/

mutual

/-- the operators of an expression as they are nested -/
def Expr.outline (d : Dialect) : Expr → Reading
  | .column table name => .column table name
  | .int n => .int n
  | .param .null => .null
  | .param v => .bound v
  | .binary op left right => .binary (d.readOperator op) (left.outline d) (right.outline d)
  | .not e => .not (e.outline d)
  | .call function args distinct => d.readCall function (outlines d args) distinct
  | .case arms none => .case (armOutlines d arms) none
  | .case arms (some e) => .case (armOutlines d arms) (some (e.outline d))
  | .subquery q => .query (q.tokens d)
  | .existsRow q negated => if negated then .not (.existsRow (q.tokens d)) else .existsRow (q.tokens d)
  | .inList e values negated =>
    if values.isEmpty then .binary .eq (.truth negated) (.truth true)
    else .inList (e.outline d) (outlines d values) negated
  | .inQuery e q negated => .inQuery (e.outline d) (q.tokens d) negated
  | .isNull e negated => .isNull (e.outline d) negated
  | .star table => .star table
  | .paren e => e.outline d
termination_by structural e => e

def outlines (d : Dialect) : List Expr → List Reading
  | [] => []
  | e :: rest => e.outline d :: outlines d rest
termination_by structural es => es

def armOutlines (d : Dialect) : List (Expr × Expr) → List (Reading × Reading)
  | [] => []
  | (test, result) :: rest => (test.outline d, result.outline d) :: armOutlines d rest
termination_by structural arms => arms

end

/-! ## The tree that is read -/

/-- NOTs, and what stands behind them -/
structure Heard where
  nots : Nat
  core : Reading

def Heard.whole (h : Heard) : Reading := Reading.not^[h.nots] h.core

/-- an operand; the NOTs of an operation stay inside its parentheses -/
def Heard.operand (e : Expr) (h : Heard) : Heard := if e.isOperation then ⟨0, h.whole⟩ else h

@[simp] theorem Heard.whole_zero (core : Reading) : Heard.whole ⟨0, core⟩ = core := rfl

theorem Heard.operand_whole (e : Expr) (h : Heard) : (h.operand e).whole = h.whole := by
  unfold operand
  split <;> rfl

/-- whether a concatenation is written as a call -/
def Dialect.callsConcat (d : Dialect) (op : BinaryOp) : Bool := op = .concat && !d.hasConcatOperator

mutual

/-- An operator that binds tighter than NOT goes in behind the NOTs of its left side. -/
def Expr.heard (d : Dialect) : Expr → Heard
  | .column table name => ⟨0, .column table name⟩
  | .int n => ⟨0, .int n⟩
  | .param .null => ⟨0, .null⟩
  | .param v => ⟨0, .bound v⟩
  | .binary op left right =>
    if d.callsConcat op || op.level ≤ notLevel then
      ⟨0, .binary (d.readOperator op) (left.heard d).whole (right.heard d).whole⟩
    else
      ⟨((left.heard d).operand left).nots,
        .binary (d.readOperator op) ((left.heard d).operand left).core (right.heard d).whole⟩
  | .not e => ⟨((e.heard d).operand e).nots + 1, ((e.heard d).operand e).core⟩
  | .call function args distinct => ⟨0, d.readCall function (heardAll d args) distinct⟩
  | .case arms none => ⟨0, .case (heardArms d arms) none⟩
  | .case arms (some e) => ⟨0, .case (heardArms d arms) (some (e.heard d).whole)⟩
  | .subquery q => ⟨0, .query (q.tokens d)⟩
  | .existsRow q negated => ⟨if negated then 1 else 0, .existsRow (q.tokens d)⟩
  | .inList e values negated =>
    if values.isEmpty then ⟨0, .binary .eq (.truth negated) (.truth true)⟩
    else ⟨((e.heard d).operand e).nots, .inList ((e.heard d).operand e).core (heardAll d values) negated⟩
  | .inQuery e q negated => ⟨((e.heard d).operand e).nots, .inQuery ((e.heard d).operand e).core (q.tokens d) negated⟩
  | .isNull e negated => ⟨((e.heard d).operand e).nots, .isNull ((e.heard d).operand e).core negated⟩
  | .star table => ⟨0, .star table⟩
  | .paren e => ⟨0, (e.heard d).whole⟩
termination_by structural e => e

def heardAll (d : Dialect) : List Expr → List Reading
  | [] => []
  | e :: rest => (e.heard d).whole :: heardAll d rest
termination_by structural es => es

def heardArms (d : Dialect) : List (Expr × Expr) → List (Reading × Reading)
  | [] => []
  | (test, result) :: rest => ((test.heard d).whole, (result.heard d).whole) :: heardArms d rest
termination_by structural arms => arms

end

variable (d : Dialect)

/-- where a part begins, the reader comes to hold what is heard, up to what the end of the part settles -/
def Expr.ReadsPart (e : Expr) : Prop :=
  ∀ stack, Sealed stack → ∃ stack' x, run d ⟨stack, .expects⟩ (e.tokens d) = some ⟨stack', .holds x⟩ ∧
    settle 0 stack' x = (stack, (e.heard d).whole)

/-- wherever an operand is due, the reader comes to hold what is heard behind its NOTs -/
def Expr.ReadsOperand (e : Expr) : Prop :=
  ∀ stack, run d ⟨stack, .expects⟩ (operandTokens e (e.tokens d))
    = some ⟨List.replicate ((e.heard d).operand e).nots .not ++ stack, .holds ((e.heard d).operand e).core⟩

structure Expr.Reads (e : Expr) : Prop where
  part : e.ReadsPart d
  operand : e.ReadsOperand d

/-! ## The ends of parts -/

/-- whether a token ends a part of an expression -/
def Token.endsPart : Token → Bool
  | .sign .comma | .sign .close => true
  | .word .caseWhen | .word .caseThen | .word .caseElse | .word .caseEnd => true
  | _ => false

theorem step_endsPart {token : Token} (h : token.endsPart = true) (stack : List Pending) (x : Reading) :
    step d ⟨stack, .holds x⟩ token = finish d (settle 0 stack x).1 (settle 0 stack x).2 token := by
  cases token with
  | sign s => cases s <;> first | rfl | cases h
  | word w => cases w <;> first | rfl | cases h
  | _ => cases h

namespace Expr

variable {d}

section Part

variable {e : Expr} (h : e.ReadsPart d)

include h

theorem ReadsPart.run_end {stack : List Pending} (hstack : Sealed stack) {token : Token}
    (htoken : token.endsPart = true) (rest : List Token) :
    run d ⟨stack, .expects⟩ (e.tokens d ++ token :: rest)
      = (finish d stack (e.heard d).whole token).bind (run d · rest) := by
  obtain ⟨stack', x, hrun, hsettle⟩ := h stack hstack
  rw [run_of_run d hrun, run_cons, step_endsPart d htoken, hsettle]

theorem ReadsPart.run_blank_end {stack : List Pending} (hstack : Sealed stack) {token : Token}
    (htoken : token.endsPart = true) (rest : List Token) :
    run d ⟨stack, .expects⟩ (e.tokens d ++ .blank :: token :: rest)
      = (finish d stack (e.heard d).whole token).bind (run d · rest) := by
  obtain ⟨stack', x, hrun, hsettle⟩ := h stack hstack
  have hblank : step d ⟨stack', .holds x⟩ .blank = some ⟨stack', .holds x⟩ := rfl
  rw [run_of_run d hrun, run_of_step d hblank, run_cons, step_endsPart d htoken, hsettle]

/-- Parentheses turn a part into an operand. -/
theorem ReadsPart.run_parenthesized (stack : List Pending) :
    run d ⟨stack, .expects⟩ (Token.parenthesized (e.tokens d)) = some ⟨stack, .holds (e.heard d).whole⟩ := by
  have hopen : step d ⟨stack, .expects⟩ (.sign .open) = some ⟨.paren :: stack, .expects⟩ := rfl
  rw [Token.parenthesized, run_of_step d hopen, h.run_end (sealed_cons stack rfl) rfl]
  rfl

theorem ReadsPart.reads (hop : e.isOperation = true) : e.Reads d := by
  refine ⟨h, fun stack => ?_⟩
  rw [operandTokens, if_pos hop, Heard.operand, if_pos hop]
  exact h.run_parenthesized stack

end Part

/-- What is no operation is the same as an operand and as a part. -/
theorem reads_of_run {e : Expr} (hop : e.isOperation = false) (h : ∀ stack, run d ⟨stack, .expects⟩ (e.tokens d)
    = some ⟨List.replicate (e.heard d).nots .not ++ stack, .holds (e.heard d).core⟩) : e.Reads d := by
  refine ⟨fun stack hstack => ⟨_, _, h stack, ?_⟩, fun stack => ?_⟩
  · rw [settle_nots (Nat.zero_le _), hstack]
    rfl
  · rw [operandTokens, hop, Heard.operand, hop]
    exact h stack

end Expr

/-! ## Lists -/

/-- The items of a list in parentheses are read one after another; `frame` is what holds the list while it is open,
`done` what is made of it when it closes. -/
theorem run_list (frame : List Reading → Pending) (done : List Reading → Reading) (stack : List Pending)
    (hframe : ∀ values, (frame values).isOperator = false)
    (hcomma : ∀ values e, finish d (frame values :: stack) e (.sign .comma)
      = some ⟨frame (values ++ [e]) :: stack, .expects⟩)
    (hclose : ∀ values e, finish d (frame values :: stack) e (.sign .close)
      = some ⟨stack, .holds (done (values ++ [e]))⟩) :
    (es : List Expr) → es ≠ [] → (∀ e ∈ es, e.ReadsPart d) → ∀ before,
      run d ⟨frame before :: stack, .expects⟩ (Token.commaSeparated (exprTokens d es) ++ [.sign .close])
        = some ⟨stack, .holds (done (before ++ heardAll d es))⟩
  | [], hne, _, _ => absurd rfl hne
  | [e], _, hes, before => by
    have he : e.ReadsPart d := hes e (by simp)
    rw [exprTokens, exprTokens, Token.commaSeparated, he.run_end (sealed_cons stack (hframe before)) rfl, hclose]
    rfl
  | e :: next :: rest, _, hes, before => by
    have he : e.ReadsPart d := hes e (by simp)
    have hrest := run_list frame done stack hframe hcomma hclose (next :: rest) (by simp)
      (fun e hmem => hes e (List.mem_cons_of_mem _ hmem)) (before ++ [(e.heard d).whole])
    have hblank : step d ⟨frame (before ++ [(e.heard d).whole]) :: stack, .expects⟩ .blank
        = some ⟨frame (before ++ [(e.heard d).whole]) :: stack, .expects⟩ := rfl
    rw [exprTokens, exprTokens, Token.commaSeparated, List.append_assoc, List.cons_append, List.cons_append,
      he.run_end (sealed_cons stack (hframe before)) rfl, hcomma, Option.bind_some, run_of_step d hblank,
      ← exprTokens, hrest]
    simp [heardAll]

/-! ## The arms of a CASE -/

/-- a reader between two arms -/
structure BetweenArms (stack : List Pending) (arms : List (Reading × Reading)) (r : Reader) : Prop where
  blank : step d r .blank = some r
  arm : ∀ w ∈ [Word.caseWhen, .caseElse, .caseEnd], step d r (.word w) = choose stack arms (.word w)

theorem run_arms {stack : List Pending} : (arms : List (Expr × Expr)) →
    (∀ arm ∈ arms, arm.1.ReadsPart d ∧ arm.2.ReadsPart d) → ∀ before r, BetweenArms d stack before r →
      ∃ r', run d r (armTokens d arms) = some r' ∧ BetweenArms d stack (before ++ heardArms d arms) r'
  | [], _, before, r, hr => ⟨r, rfl, by rw [heardArms, List.append_nil]; exact hr⟩
  | (test, result) :: rest, harms, before, r, hr => by
    obtain ⟨htest, hresult⟩ := harms (test, result) (by simp)
    obtain ⟨stack', x, hrun, hsettle⟩ :=
      hresult (.result before (test.heard d).whole :: stack) (sealed_cons stack rfl)
    have hbetween : BetweenArms d stack (before ++ [((test.heard d).whole, (result.heard d).whole)])
        ⟨stack', .holds x⟩ := by
      refine ⟨rfl, fun w hw => ?_⟩
      have hends : (Token.word w).endsPart = true := by
        simp only [List.mem_cons, List.not_mem_nil, or_false] at hw
        rcases hw with rfl | rfl | rfl <;> rfl
      rw [step_endsPart d hends, hsettle]
      rfl
    obtain ⟨r', hrest, hr'⟩ := run_arms rest (fun arm hmem => harms arm (List.mem_cons_of_mem _ hmem)) _ _ hbetween
    refine ⟨r', ?_, by simpa [heardArms] using hr'⟩
    have hwhen : step d r (.word .caseWhen) = some ⟨.test before :: stack, .expects⟩ := hr.arm _ (by simp)
    have hblank (stack : List Pending) : step d ⟨stack, .expects⟩ .blank = some ⟨stack, .expects⟩ := rfl
    rw [armTokens, List.append_assoc]
    simp only [List.cons_append]
    rw [run_of_step d hr.blank, run_of_step d hwhen, run_of_step d (hblank _),
      htest.run_blank_end (sealed_cons stack rfl) rfl]
    change (some _).bind _ = _
    rw [Option.bind_some, run_of_step d (hblank _), run_of_run d hrun, hrest]

/-! ## One lemma for each kind of expression -/

theorem step_blank_expects (stack : List Pending) : step d ⟨stack, .expects⟩ .blank = some ⟨stack, .expects⟩ := rfl

theorem step_blank_holds (stack : List Pending) (x : Reading) :
    step d ⟨stack, .holds x⟩ .blank = some ⟨stack, .holds x⟩ := rfl

theorem run_qualified (table : Option String) (stack : List Pending) {token : Token} (leaf : Option String → Reading)
    (hplain : expect d stack token = some ⟨stack, .holds (leaf none)⟩)
    (hqualified : ∀ name, step d ⟨stack, .qualifies name⟩ token = some ⟨stack, .holds (leaf (some name))⟩)
    (htoken : token ≠ .blank) :
    run d ⟨stack, .expects⟩ (qualifierTokens table ++ [token]) = some ⟨stack, .holds (leaf table)⟩ := by
  cases table with
  | none =>
    have hstep : step d ⟨stack, .expects⟩ token = some ⟨stack, .holds (leaf none)⟩ := by
      rw [← hplain]
      cases token <;> first | rfl | exact absurd rfl htoken
    exact run_of_step d hstep []
  | some name =>
    change run d ⟨stack, .qualifies name⟩ [token] = _
    exact run_of_step d (hqualified name) []

theorem run_call (function : String) (args : List Expr) (distinct : Bool) (hargs : ∀ e ∈ args, e.ReadsPart d)
    (stack : List Pending) :
    run d ⟨stack, .expects⟩ (.function function :: Token.parenthesized
        ((if distinct then [.word .distinct, .blank] else []) ++ Token.commaSeparated (exprTokens d args)))
      = some ⟨stack, .holds (d.readCall function (heardAll d args) distinct)⟩ := by
  have hopen (inner : List Token) : run d ⟨stack, .expects⟩ (.function function :: Token.parenthesized
      ((if distinct then [.word .distinct, .blank] else []) ++ inner))
        = run d ⟨.call function [] distinct :: stack, .expects⟩ (inner ++ [.sign .close]) := by
    cases distinct <;> rfl
  rw [hopen]
  cases args with
  | nil => rfl
  | cons e rest =>
    exact run_list d (fun values => .call function values distinct)
      (fun values => d.readCall function values distinct) stack (fun _ => rfl) (fun _ _ => rfl) (fun _ _ => rfl)
      (e :: rest) (by simp) hargs []

namespace Expr

variable {d}

/-- After an operand that begins with NOTs, an operator settles them exactly when it is not tighter than NOT. -/
theorem ReadsOperand.run_operator {e : Expr} (h : e.ReadsOperand d) (op : BinaryOp) {stack : List Pending}
    (hstack : Sealed stack) (rest : List Token) :
    run d ⟨stack, .expects⟩ (operandTokens e (e.tokens d) ++ .blank :: op.token :: .blank :: rest)
      = run d (if op.level ≤ notLevel
          then ⟨.binary (d.readOperator op) (e.heard d).whole :: stack, .expects⟩
          else ⟨.binary (d.readOperator op) ((e.heard d).operand e).core
            :: (List.replicate ((e.heard d).operand e).nots .not ++ stack), .expects⟩) rest := by
  set heard := (e.heard d).operand e with hheard
  have hwhole : heard.whole = (e.heard d).whole := Heard.operand_whole e (e.heard d)
  have hop : step d ⟨List.replicate heard.nots .not ++ stack, .holds heard.core⟩ op.token
      = some (if op.level ≤ notLevel
          then ⟨.binary (d.readOperator op) heard.whole :: stack, .expects⟩
          else ⟨.binary (d.readOperator op) heard.core :: (List.replicate heard.nots .not ++ stack), .expects⟩) := by
    have hstep : step d ⟨List.replicate heard.nots .not ++ stack, .holds heard.core⟩ op.token
        = follow d (List.replicate heard.nots .not ++ stack) heard.core op.token := by
      cases op <;> rfl
    rw [hstep, follow_operator]
    split
    · next hlevel =>
      rw [settle_nots hlevel, hstack]
      rfl
    · next hlevel => rw [settle_of_notLevel_lt (Nat.not_le.1 hlevel) hstack]
  rw [run_of_run d (h stack), run_of_step d (step_blank_holds d _ _), run_of_step d hop, ← hwhole]
  split
  · exact run_of_step d (step_blank_expects d _) rest
  · exact run_of_step d (step_blank_expects d _) rest

/-- At the end of the part the NOTs that waited take what has been made of the operand behind them. -/
theorem settle_behind (k : Nat) {stack : List Pending} (hstack : Sealed stack) (core : Reading) :
    settle 0 (List.replicate k .not ++ stack) core = (stack, Heard.whole ⟨k, core⟩) := by
  rw [settle_nots (Nat.zero_le _), hstack]
  rfl

/-- At the end of the part the right side is settled first. -/
theorem settle_right (op : BinaryOp) (x : Reading) (e : Expr) (stack : List Pending) :
    settle 0 (List.replicate ((e.heard d).operand e).nots .not ++ .binary op x :: stack) ((e.heard d).operand e).core
      = settle 0 stack (.binary op x (e.heard d).whole) := by
  have hwhole : Reading.not^[((e.heard d).operand e).nots] ((e.heard d).operand e).core = (e.heard d).whole :=
    Heard.operand_whole e (e.heard d)
  rw [settle_nots (Nat.zero_le _), hwhole, settle, if_pos (Nat.zero_le _)]

theorem reads_concat {left right : Expr} (hd : d.hasConcatOperator = false) (hleft : left.Reads d)
    (hright : right.Reads d) : (Expr.binary .concat left right).Reads d := by
  refine ReadsPart.reads (fun stack hstack => ?_) rfl
  have hargs : ∀ e ∈ [left, right], e.ReadsPart d := by simp [hleft.part, hright.part]
  have hrun := run_call d "CONCAT" [left, right] false hargs stack
  have hcall : d.callsConcat .concat = true := by simp [Dialect.callsConcat, hd]
  refine ⟨stack, _, ?_, hstack 0 _⟩
  rw [Expr.tokens, Expr.heard, if_pos (by simp [hd]), if_pos (by simp [hcall])]
  refine Eq.trans hrun ?_
  cases d <;> first | rfl | cases hd

theorem reads_binary (op : BinaryOp) {left right : Expr} (hleft : left.Reads d) (hright : right.Reads d) :
    (Expr.binary op left right).Reads d := by
  by_cases hcall : d.callsConcat op = true
  · have hop : op = .concat ∧ d.hasConcatOperator = false := by simpa [Dialect.callsConcat] using hcall
    obtain ⟨rfl, hd⟩ := hop
    exact reads_concat hd hleft hright
  · refine ReadsPart.reads (fun stack hstack => ?_) rfl
    have hwritten : ¬ (op = .concat && !d.hasConcatOperator) = true := hcall
    rw [Expr.tokens, if_neg hwritten, Expr.heard]
    simp only [hcall, Bool.false_or, decide_eq_true_eq]
    have hrun := hleft.operand.run_operator op hstack (operandTokens right (right.tokens d))
    by_cases hlevel : op.level ≤ notLevel
    · rw [if_pos hlevel, hright.operand] at hrun
      refine ⟨_, _, hrun, ?_⟩
      rw [settle_right, hstack, if_pos hlevel]
      rfl
    · rw [if_neg hlevel, hright.operand] at hrun
      refine ⟨_, _, hrun, ?_⟩
      rw [settle_right, settle_behind _ hstack, if_neg hlevel]

theorem reads_not {e : Expr} (h : e.Reads d) : (Expr.not e).Reads d := by
  refine reads_of_run rfl fun stack => ?_
  have hnot : step d ⟨stack, .expects⟩ (.word .not) = some ⟨.not :: stack, .expects⟩ := rfl
  rw [Expr.tokens, Expr.heard, run_of_step d hnot, run_of_step d (step_blank_expects d _), h.operand,
    List.replicate_succ', List.append_assoc]
  rfl

/-- IN and IS NULL, as every operator tighter than NOT, leave the NOTs in front of their operand waiting. -/
theorem ReadsOperand.run_predicate {e : Expr} (h : e.ReadsOperand d) {stack : List Pending} (hstack : Sealed stack)
    {w : Word} (position : Reading → Position) (hw : ∀ stack x, follow d stack x (.word w)
      = some ⟨(settle comparisonLevel stack x).1, position (settle comparisonLevel stack x).2⟩) (rest : List Token) :
    run d ⟨stack, .expects⟩ (operandTokens e (e.tokens d) ++ .blank :: .word w :: rest)
      = run d ⟨List.replicate ((e.heard d).operand e).nots .not ++ stack, position ((e.heard d).operand e).core⟩
          rest := by
  have hlevel : notLevel < comparisonLevel := by decide
  have hstep (k : Nat) (x : Reading) : step d ⟨List.replicate k .not ++ stack, .holds x⟩ (.word w)
      = some ⟨List.replicate k .not ++ stack, position x⟩ := by
    have := hw (List.replicate k .not ++ stack) x
    rw [settle_of_notLevel_lt hlevel hstack] at this
    exact this
  rw [run_of_run d (h stack), run_of_step d (step_blank_holds d _ _), run_of_step d (hstep _ _)]

theorem reads_isNull {e : Expr} (h : e.Reads d) (negated : Bool) : (Expr.isNull e negated).Reads d := by
  refine ReadsPart.reads (fun stack hstack => ⟨_, _, ?_, settle_behind _ hstack _⟩) rfl
  rw [Expr.tokens, h.operand.run_predicate hstack fun x => .holds (.isNull x negated)]
  · rfl
  · cases negated <;> exact fun _ _ => rfl

/-- up to the parenthesis in which the members stand -/
theorem ReadsOperand.run_membership {e : Expr} (h : e.ReadsOperand d) {stack : List Pending} (hstack : Sealed stack)
    (negated : Bool) (rest : List Token) :
    run d ⟨stack, .expects⟩ (operandTokens e (e.tokens d) ++ negationTokens negated
        ++ .blank :: .word .isIn :: .blank :: .sign .open :: rest)
      = run d ⟨.members ((e.heard d).operand e).core [] negated
          :: (List.replicate ((e.heard d).operand e).nots .not ++ stack), .expects⟩ rest := by
  rw [List.append_assoc]
  cases negated with
  | false => exact h.run_predicate hstack (.lists · false) (fun _ _ => rfl) (.blank :: .sign .open :: rest)
  | true =>
    exact h.run_predicate hstack .negates (fun _ _ => rfl) (.blank :: .word .isIn :: .blank :: .sign .open :: rest)

theorem reads_inList {e : Expr} (h : e.Reads d) {values : List Expr} (hvalues : ∀ v ∈ values, v.ReadsPart d)
    (negated : Bool) : (Expr.inList e values negated).Reads d := by
  refine ReadsPart.reads (fun stack hstack => ?_) rfl
  cases values with
  | nil =>
    have heq : step d ⟨stack, .holds (.truth negated)⟩ (.sign .eq)
        = some ⟨.binary .eq (.truth negated) :: stack, .expects⟩ := by
      have hfollow := follow_operator d stack (.truth negated) .eq
      rw [hstack] at hfollow
      exact hfollow
    refine ⟨.binary .eq (.truth negated) :: stack, .truth true, ?_, ?_⟩
    · change run d ⟨stack, .holds (.truth negated)⟩ [.sign .eq, .blank, .truth true] = _
      rw [run_of_step d heq]
      rfl
    · rw [settle, if_pos (Nat.zero_le _), hstack]
      rfl
  | cons v rest =>
    refine ⟨_, _, ?_, settle_behind _ hstack _⟩
    have hlist := run_list d (.members ((e.heard d).operand e).core · negated)
      (.inList ((e.heard d).operand e).core · negated)
      (List.replicate ((e.heard d).operand e).nots .not ++ stack)
      (fun _ => rfl) (fun _ _ => rfl) (fun _ _ => rfl) (v :: rest) (by simp) hvalues []
    rw [Expr.tokens, if_neg (by simp), Token.parenthesized, h.operand.run_membership hstack, hlist]
    rfl

theorem reads_inQuery {e : Expr} (h : e.Reads d) (q : Query) (negated : Bool) :
    (Expr.inQuery e q negated).Reads d := by
  refine ReadsPart.reads (fun stack hstack => ⟨_, _, ?_, settle_behind _ hstack _⟩) rfl
  rw [Expr.tokens, Token.parenthesized, h.operand.run_membership hstack, run_query]
  rfl

theorem reads_subquery (q : Query) : (Expr.subquery q).Reads d := by
  refine reads_of_run rfl fun stack => ?_
  have hopen : step d ⟨stack, .expects⟩ (.sign .open) = some ⟨.paren :: stack, .expects⟩ := rfl
  rw [Expr.tokens, Token.parenthesized, run_of_step d hopen, run_query]
  rfl

theorem reads_existsRow (q : Query) (negated : Bool) : (Expr.existsRow q negated).Reads d := by
  refine reads_of_run rfl fun stack => ?_
  have hexists (stack : List Pending) : run d ⟨stack, .expects⟩
      (.word .existsRow :: .blank :: Token.parenthesized (q.tokens d))
        = some ⟨stack, .holds (.existsRow (q.tokens d))⟩ := by
    have hseek : run d ⟨stack, .expects⟩ (.word .existsRow :: .blank :: Token.parenthesized (q.tokens d))
        = run d ⟨.existing :: stack, .expects⟩ (q.tokens d ++ [.sign .close]) := rfl
    rw [hseek, run_query]
    rfl
  rw [Expr.tokens]
  cases negated with
  | false => exact hexists stack
  | true => exact hexists (.not :: stack)

theorem reads_call (function : String) {args : List Expr} (hargs : ∀ e ∈ args, e.ReadsPart d) (distinct : Bool) :
    (Expr.call function args distinct).Reads d :=
  reads_of_run rfl fun stack => run_call d function args distinct hargs stack

theorem reads_case {arms : List (Expr × Expr)} (harms : ∀ arm ∈ arms, arm.1.ReadsPart d ∧ arm.2.ReadsPart d)
    {otherwise : Option Expr} (hother : ∀ e ∈ otherwise, e.ReadsPart d) : (Expr.case arms otherwise).Reads d := by
  refine reads_of_run (by rfl) fun stack => ?_
  have hcase : step d ⟨stack, .expects⟩ (.word .case) = some ⟨stack, .chooses []⟩ := rfl
  obtain ⟨r, hrun, hr⟩ := run_arms d arms harms [] ⟨stack, .chooses []⟩ ⟨rfl, fun _ _ => rfl⟩
  cases otherwise with
  | none =>
    rw [Expr.tokens, run_of_step d hcase, List.append_nil, run_of_run d hrun, run_of_step d hr.blank, run_cons,
      hr.arm _ (by simp)]
    rfl
  | some e =>
    have helse : step d r (.word .caseElse) = some ⟨.otherwise (heardArms d arms) :: stack, .expects⟩ :=
      hr.arm _ (by simp)
    rw [Expr.tokens, run_of_step d hcase, List.append_assoc, run_of_run d hrun]
    simp only [List.cons_append]
    rw [run_of_step d hr.blank, run_of_step d helse, run_of_step d (step_blank_expects d _),
      (hother e rfl).run_blank_end (sealed_cons stack rfl) rfl]
    rfl

theorem reads_paren {e : Expr} (h : e.Reads d) : (Expr.paren e).Reads d :=
  reads_of_run rfl fun stack => h.part.run_parenthesized stack

theorem reads_param (v : Value) : (Expr.param v).Reads d :=
  reads_of_run rfl fun stack => by cases v <;> rfl

variable (d)

mutual

/-- **Wherever an expression stands, the reader holds what is heard of it.** -/
theorem reads : (e : Expr) → e.Reads d
  | .column table name =>
    reads_of_run rfl fun stack => run_qualified d table stack (.column · name) rfl (fun _ => rfl) nofun
  | .int _ => reads_of_run rfl fun _ => rfl
  | .param v => reads_param v
  | .binary op left right => reads_binary op left.reads right.reads
  | .not e => reads_not e.reads
  | .call function args distinct => reads_call function (fun e he => (reads_each args e he).part) distinct
  | .case arms none => reads_case (fun arm harm => reads_arms arms arm harm) nofun
  | .case arms (some e) =>
    reads_case (fun arm harm => reads_arms arms arm harm) fun _ h => Option.some.inj h ▸ e.reads.part
  | .subquery q => reads_subquery q
  | .existsRow q negated => reads_existsRow q negated
  | .inList e values negated => reads_inList e.reads (fun v hv => (reads_each values v hv).part) negated
  | .inQuery e q negated => reads_inQuery e.reads q negated
  | .isNull e negated => reads_isNull e.reads negated
  | .star table => reads_of_run rfl fun stack => run_qualified d table stack .star rfl (fun _ => rfl) nofun
  | .paren e => reads_paren e.reads
termination_by structural e => e

theorem reads_each : (es : List Expr) → ∀ e ∈ es, e.Reads d
  | [] => by simp
  | e :: rest => List.forall_mem_cons.mpr ⟨e.reads, reads_each rest⟩
termination_by structural es => es

theorem reads_arms : (arms : List (Expr × Expr)) → ∀ arm ∈ arms, arm.1.ReadsPart d ∧ arm.2.ReadsPart d
  | [] => by simp
  | (test, result) :: rest => List.forall_mem_cons.mpr ⟨⟨test.reads.part, result.reads.part⟩, reads_arms rest⟩
termination_by structural arms => arms

end

theorem read_tokens (e : Expr) : read d (e.tokens d) = some (e.heard d).whole := by
  obtain ⟨stack, x, hrun, hsettle⟩ := (e.reads d).part [] sealed_nil
  rw [read, hrun]
  change Reader.result? ⟨stack, .holds x⟩ = _
  simp only [result?, hsettle]

end Expr

/-! ## Where the trees agree -/

/-- whether an expression begins with NOT and is not put in parentheses for it -/
def Expr.opensWithNot : Expr → Bool
  | .not _ => true
  | .existsRow _ negated => negated
  | _ => false

mutual

/-- No operator that binds tighter than NOT has on its left an expression that begins with NOT. -/
def Expr.keepsGroups (d : Dialect) : Expr → Bool
  | .column .. | .int _ | .param _ | .subquery _ | .existsRow .. | .star _ => true
  | .binary op left right =>
    (d.callsConcat op || op.level ≤ notLevel || !left.opensWithNot) && left.keepsGroups d && right.keepsGroups d
  | .not e | .paren e => e.keepsGroups d
  | .call _ args _ => allKeepGroups d args
  | .case arms none => armsKeepGroups d arms
  | .case arms (some e) => armsKeepGroups d arms && e.keepsGroups d
  | .inList e values _ => values.isEmpty || (!e.opensWithNot && e.keepsGroups d && allKeepGroups d values)
  | .inQuery e _ _ | .isNull e _ => !e.opensWithNot && e.keepsGroups d
termination_by structural e => e

def allKeepGroups (d : Dialect) : List Expr → Bool
  | [] => true
  | e :: rest => e.keepsGroups d && allKeepGroups d rest
termination_by structural es => es

def armsKeepGroups (d : Dialect) : List (Expr × Expr) → Bool
  | [] => true
  | (test, result) :: rest => test.keepsGroups d && result.keepsGroups d && armsKeepGroups d rest
termination_by structural arms => arms

end

/-- the sides of an operator, or the arguments of a call -/
def Reading.operands : Reading → List Reading
  | .binary _ left right => [left, right]
  | .call _ args _ => args
  | _ => []

theorem operands_readCall (function : String) (args : List Reading) (distinct : Bool) :
    (d.readCall function args distinct).operands = args := by
  unfold Dialect.readCall
  split
  · split <;> rfl
  · rfl

theorem readCall_inj {function : String} {distinct : Bool} {args others : List Reading} :
    d.readCall function args distinct = d.readCall function others distinct ↔ args = others := by
  refine ⟨fun h => ?_, fun h => by rw [h]⟩
  have hoperands := congrArg Reading.operands h
  rwa [operands_readCall, operands_readCall] at hoperands

/-- NOTs in front of something else are seen. -/
theorem Heard.whole_eq_iff {k : Nat} {core y : Reading} (hy : ∀ z, y ≠ .not z) :
    Heard.whole ⟨k, core⟩ = y ↔ k = 0 ∧ core = y := by
  cases k with
  | zero => simp
  | succ k =>
    rw [Heard.whole, Function.iterate_succ_apply']
    exact ⟨fun h => absurd h.symm (hy _), fun h => absurd h.1 (Nat.succ_ne_zero k)⟩

theorem nots_operand_eq_zero {e : Expr} : ((e.heard d).operand e).nots = 0 ↔ e.opensWithNot = false := by
  cases e with
  | existsRow q negated => cases negated <;> simp [Expr.heard, Heard.operand, Expr.isOperation, Expr.opensWithNot]
  | param v => cases v <;> simp [Expr.heard, Heard.operand, Expr.isOperation, Expr.opensWithNot]
  | case arms otherwise => cases otherwise <;> simp [Expr.heard, Heard.operand, Expr.isOperation, Expr.opensWithNot]
  | _ => simp [Expr.heard, Heard.operand, Expr.isOperation, Expr.opensWithNot]

/-- the left side of an operator that goes in behind its NOTs -/
theorem core_eq_iff {e : Expr} {y : Reading} : ((e.heard d).operand e).nots = 0 ∧ ((e.heard d).operand e).core = y ↔
    e.opensWithNot = false ∧ (e.heard d).whole = y := by
  rw [nots_operand_eq_zero]
  refine and_congr_right fun h => ?_
  rw [← Heard.operand_whole e (e.heard d), Heard.whole, (nots_operand_eq_zero d).2 h]
  rfl

mutual

theorem Expr.whole_eq_outline : (e : Expr) → ((e.heard d).whole = e.outline d ↔ e.keepsGroups d = true)
  | .column .. | .int _ | .subquery _ | .star _ => by simp [Expr.heard, Expr.outline, Expr.keepsGroups]
  | .param v => by cases v <;> simp [Expr.heard, Expr.outline, Expr.keepsGroups]
  | .existsRow q negated => by cases negated <;> simp [Expr.heard, Heard.whole, Expr.outline, Expr.keepsGroups]
  | .binary op left right => by
    rw [Expr.heard, Expr.outline, Expr.keepsGroups]
    split
    · next h => simp [left.whole_eq_outline, right.whole_eq_outline, h]
    · next h =>
      refine (Heard.whole_eq_iff ?_).trans ?_
      · exact nofun
      rw [Reading.binary.injEq]
      simp only [true_and]
      rw [← and_assoc, core_eq_iff, left.whole_eq_outline, right.whole_eq_outline]
      simp [h]
  | .not e => by
    have hnot : (Expr.heard d (.not e)).whole = .not (e.heard d).whole := by
      rw [← Heard.operand_whole e (e.heard d), Expr.heard, Heard.whole, Function.iterate_succ_apply']
      rfl
    rw [hnot, Expr.outline, Expr.keepsGroups, Reading.not.injEq]
    exact e.whole_eq_outline
  | .call function args distinct => by
    rw [Expr.heard, Expr.outline, Expr.keepsGroups]
    exact (readCall_inj d).trans (wholes_eq_outlines args)
  | .case arms none => by simp [Expr.heard, Expr.outline, Expr.keepsGroups, armWholes_eq_outlines arms]
  | .case arms (some e) => by
    simp [Expr.heard, Expr.outline, Expr.keepsGroups, armWholes_eq_outlines arms, e.whole_eq_outline]
  | .inList e values negated => by
    rw [Expr.heard, Expr.outline, Expr.keepsGroups]
    split
    · next h => simp [h]
    · next h =>
      refine (Heard.whole_eq_iff ?_).trans ?_
      · exact nofun
      rw [Reading.inList.injEq]
      simp only [and_true]
      rw [← and_assoc, core_eq_iff, e.whole_eq_outline, wholes_eq_outlines values]
      simp [h]
  | .inQuery e q negated => by
    rw [Expr.heard, Expr.outline, Expr.keepsGroups]
    refine (Heard.whole_eq_iff ?_).trans ?_
    · exact nofun
    rw [Reading.inQuery.injEq]
    simp only [and_true]
    rw [core_eq_iff, e.whole_eq_outline]
    simp
  | .isNull e negated => by
    rw [Expr.heard, Expr.outline, Expr.keepsGroups]
    refine (Heard.whole_eq_iff ?_).trans ?_
    · exact nofun
    rw [Reading.isNull.injEq]
    simp only [and_true]
    rw [core_eq_iff, e.whole_eq_outline]
    simp
  | .paren e => e.whole_eq_outline
termination_by structural e => e

theorem wholes_eq_outlines : (es : List Expr) → (heardAll d es = outlines d es ↔ allKeepGroups d es = true)
  | [] => by simp [heardAll, outlines, allKeepGroups]
  | e :: rest => by simp [heardAll, outlines, allKeepGroups, e.whole_eq_outline, wholes_eq_outlines rest]
termination_by structural es => es

theorem armWholes_eq_outlines : (arms : List (Expr × Expr)) →
    (heardArms d arms = armOutlines d arms ↔ armsKeepGroups d arms = true)
  | [] => by simp [heardArms, armOutlines, armsKeepGroups]
  | (test, result) :: rest => by
    simp [heardArms, armOutlines, armsKeepGroups, test.whole_eq_outline, result.whole_eq_outline,
      armWholes_eq_outlines rest]
termination_by structural arms => arms

end

/-- **An expression, written and read back by precedence, is grouped as it was exactly when no operator that binds
tighter than NOT has a negation on its left.** -/
theorem Expr.read_tokens_iff (e : Expr) :
    read d (e.tokens d) = some (e.outline d) ↔ e.keepsGroups d = true := by
  rw [Expr.read_tokens, Option.some.injEq]
  exact e.whole_eq_outline d

/-- A negation tested for NULL is read as the negation of the test. -/
theorem Expr.read_isNull_not :
    read .sqlite ((Expr.isNull (.not (.column none "a")) false).tokens .sqlite)
        = some (.not (.isNull (.column none "a") false)) ∧
      read .sqlite ((Expr.isNull (.not (.column none "a")) false).tokens .sqlite)
        ≠ some ((Expr.isNull (.not (.column none "a")) false).outline .sqlite) := by
  have hread : read .sqlite ((Expr.isNull (.not (.column none "a")) false).tokens .sqlite)
      = some (.not (.isNull (.column none "a") false)) := rfl
  refine ⟨hread, fun h => ?_⟩
  rw [hread] at h
  cases h

end RelQuery.Sql
