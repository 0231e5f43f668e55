/-
The text of a statement taken apart again.

A scan goes over a text from left to right and knows no more of a dialect than how names are quoted and how a
placeholder begins. A name ends at a closing quote that is not followed by another, a placeholder at the first character
that is no letter or digit, so both end only at what follows them. Tokens are spaced (`Spaced`) when a blank, a line
break or a sign follows each name and each bound value; then a scan of their text finds the names and one placeholder for
each bound value, in order (`scan_render`), whatever characters the names are made of.
-/
import Mathlib.Tactic
import RelQuery.Sql.Write

namespace RelQuery.Sql

/-! ## Scanning -/

/-- what a scan finds -/
inductive Piece where
  | name (s : String)
  | placeholder (s : String)
deriving DecidableEq, Repr

/-- what a scan is in the middle of -/
inductive Lexeme where
  | nothing
  /-- between the quotes of a name -/
  | quoted (read : List Char)
  /-- behind a closing quote, which ends the name unless another follows -/
  | closing (read : List Char)
  | placeholder (read : List Char)
deriving DecidableEq, Repr

/-- the pieces found, and what is being read -/
structure Scan where
  found : List Piece
  reading : Lexeme
deriving DecidableEq, Repr

/-- the first character of a placeholder -/
def Dialect.marker : Dialect → Char
  | .sqlite | .duckdb | .mysql => '?'
  | .postgres => '$'
  | .tsql => '@'

namespace Scan

/-- a character outside of names and placeholders -/
def start (d : Dialect) (found : List Piece) (c : Char) : Scan :=
  if c = d.quotes.1 then ⟨found, .quoted []⟩
  else if c = d.marker then ⟨found, .placeholder [c]⟩
  else ⟨found, .nothing⟩

def step (d : Dialect) (s : Scan) (c : Char) : Scan :=
  match s.reading with
  | .nothing => start d s.found c
  | .quoted read => if c = d.quotes.2 then ⟨s.found, .closing read⟩ else ⟨s.found, .quoted (read ++ [c])⟩
  | .closing read =>
    if c = d.quotes.2 then ⟨s.found, .quoted (read ++ [c])⟩ else start d (s.found ++ [.name (String.ofList read)]) c
  | .placeholder read =>
    if c.isAlphanum then ⟨s.found, .placeholder (read ++ [c])⟩
    else start d (s.found ++ [.placeholder (String.ofList read)]) c

/-- what has been found when the text ends here; nothing when a name is still open -/
def finish (s : Scan) : Option (List Piece) :=
  match s.reading with
  | .nothing => some s.found
  | .quoted _ => none
  | .closing read => some (s.found ++ [.name (String.ofList read)])
  | .placeholder read => some (s.found ++ [.placeholder (String.ofList read)])

def run (d : Dialect) (s : Scan) (text : List Char) : Scan := text.foldl (step d) s

theorem run_append (d : Dialect) (s : Scan) (a b : List Char) : s.run d (a ++ b) = (s.run d a).run d b :=
  List.foldl_append

end Scan

/-- the names and placeholders of a text -/
def scan (d : Dialect) (text : String) : Option (List Piece) := (Scan.run d ⟨[], .nothing⟩ text.toList).finish

/-! ## Characters -/

namespace Dialect

variable (d : Dialect)

/-- whether a character begins neither a name nor a placeholder -/
def isPlain (c : Char) : Bool := c ≠ d.quotes.1 && c ≠ d.marker

/-- whether a character ends whatever is being read and begins nothing -/
def isGap (c : Char) : Bool := d.isPlain c && c ≠ d.quotes.2 && !c.isAlphanum

theorem isPlain_of_alphanum {c : Char} (h : c.isAlphanum) : d.isPlain c := by
  rw [isPlain, Bool.and_eq_true, decide_eq_true_iff, decide_eq_true_iff]
  constructor <;> (rintro rfl; revert h; cases d <;> decide)

end Dialect

namespace Scan

variable {d : Dialect} {s : Scan} {ps : List Piece}

theorem start_plain {c : Char} (h : d.isPlain c) (found : List Piece) : start d found c = ⟨found, .nothing⟩ := by
  simp only [Dialect.isPlain, Bool.and_eq_true, decide_eq_true_eq] at h
  rw [start, if_neg h.1, if_neg h.2]

/-- Characters that begin nothing are passed over. -/
theorem run_plain {text : List Char} (h : ∀ c ∈ text, d.isPlain c) (found : List Piece) :
    run d ⟨found, .nothing⟩ text = ⟨found, .nothing⟩ := by
  induction text with
  | nil => rfl
  | cons c rest ih =>
    have hstep : step d ⟨found, .nothing⟩ c = ⟨found, .nothing⟩ := start_plain (h c (by simp)) found
    rw [run, List.foldl_cons, hstep]
    exact ih fun c hc => h c (by simp [hc])

/-- A gap ends what is being read. -/
theorem run_gap {c : Char} {rest : List Char} (hc : d.isGap c) (hrest : ∀ c ∈ rest, d.isPlain c)
    (h : s.finish = some ps) : s.run d (c :: rest) = ⟨ps, .nothing⟩ := by
  simp only [Dialect.isGap, Bool.and_eq_true, decide_eq_true_eq, Bool.not_eq_true'] at hc
  obtain ⟨⟨hplain, hquote⟩, halphanum⟩ := hc
  have hstep : step d s c = ⟨ps, .nothing⟩ := by
    obtain ⟨found, reading⟩ := s
    cases reading with
    | nothing => exact Option.some.inj h ▸ start_plain hplain found
    | quoted read => cases h
    | closing read =>
      simp only [step, if_neg hquote]
      exact Option.some.inj h ▸ start_plain hplain _
    | placeholder read =>
      simp only [step, halphanum, Bool.false_eq_true, if_false]
      exact Option.some.inj h ▸ start_plain hplain _
  rw [run, List.foldl_cons, hstep]
  exact run_plain hrest ps

/-- The quotes around a name, and those doubled in it, give the name back. -/
theorem run_quoted (found : List Piece) (name : List Char) :
    run d ⟨found, .nothing⟩ (d.quoteChars name) = ⟨found, .closing name⟩ := by
  have hinside : ∀ (rest read : List Char),
      run d ⟨found, .quoted read⟩ (rest.flatMap fun c => if c = d.quotes.2 then [c, c] else [c]) =
        ⟨found, .quoted (read ++ rest)⟩ := by
    intro rest
    induction rest with
    | nil => simp [run]
    | cons c rest ih =>
      intro read
      have hstep : run d ⟨found, .quoted read⟩ (if c = d.quotes.2 then [c, c] else [c]) =
          ⟨found, .quoted (read ++ [c])⟩ := by
        by_cases hc : c = d.quotes.2 <;> simp [run, step, hc]
      rw [List.flatMap_cons, run_append, hstep, ih, List.append_assoc, List.singleton_append]
  have hopen : step d ⟨found, .nothing⟩ d.quotes.1 = ⟨found, .quoted []⟩ := by simp [step, start]
  rw [Dialect.quoteChars, run, List.foldl_cons, hopen]
  change run d _ (_ ++ _) = _
  rw [run_append, hinside]
  simp [run, step]

theorem run_marker (found : List Piece) {rest : List Char} (h : ∀ c ∈ rest, c.isAlphanum) :
    run d ⟨found, .nothing⟩ (d.marker :: rest) = ⟨found, .placeholder (d.marker :: rest)⟩ := by
  have hmore : ∀ read : List Char, run d ⟨found, .placeholder read⟩ rest = ⟨found, .placeholder (read ++ rest)⟩ := by
    induction rest with
    | nil => simp [run]
    | cons c rest ih =>
      intro read
      have hstep : step d ⟨found, .placeholder read⟩ c = ⟨found, .placeholder (read ++ [c])⟩ := by
        simp [step, h c (by simp)]
      rw [run, List.foldl_cons, hstep, ← run, ih fun c hc => h c (by simp [hc])]
      simp
  have hstart : step d ⟨found, .nothing⟩ d.marker = ⟨found, .placeholder [d.marker]⟩ := by
    cases d <;> rfl
  rw [run, List.foldl_cons, hstart]
  exact hmore [d.marker]

end Scan

/-! ## Tokens -/

/-- what a statement is read for: its names and its bound values -/
inductive Mention where
  | name (s : String)
  | value (v : Value)
deriving DecidableEq, Repr

namespace Mention

def name? : Mention → Option String
  | name s => some s
  | value _ => none

def value? : Mention → Option Value
  | name _ => none
  | value v => some v

/-- how mentions show in a text before which `n` values have been bound -/
def pieces (d : Dialect) : Nat → List Mention → List Piece
  | _, [] => []
  | n, .name s :: rest => .name s :: pieces d n rest
  | n, .value _ :: rest => .placeholder (d.placeholder (n + 1)) :: pieces d (n + 1) rest

end Mention

namespace Token

def mention? : Token → Option Mention
  | .name s => some (.name s)
  | .bound v => some (.value v)
  | _ => none

/-- whether the end of a token shows only in what follows -/
def isOpenEnded : Token → Bool
  | .name _ | .bound _ => true
  | _ => false

/-- whether a token begins with a character that ends everything before it -/
def isGap : Token → Bool
  | .blank | .lineBreak | .sign _ => true
  | _ => false

/-- a blank, a line break or a sign follows each name and each bound value -/
def Spaced (tokens : List Token) : Prop := tokens.IsChain fun a b => a.isOpenEnded → b.isGap

/-- whether the name of a function begins neither a name nor a placeholder anywhere -/
def IsPlainFunction (f : String) : Prop := ∀ d : Dialect, ∀ c ∈ (Text.upperCase f).toList, d.isPlain c

/-- the characters of a token before which `n` values have been bound -/
def charsAt (d : Dialect) (n : Nat) : Token → List Char
  | .bound _ => (d.placeholder (n + 1)).toList
  | token => (token.text d).toList

theorem toList_textsFrom (d : Dialect) (n : Nat) (token : Token) (rest : List Token) :
    (String.join (textsFrom d n (token :: rest))).toList =
      token.charsAt d n ++ (String.join (textsFrom d (n + (boundValues [token]).length) rest)).toList := by
  cases token <;> simp [textsFrom, charsAt, boundValues, String.toList_join]

theorem isAlphanum_of_mem_toString {n : Nat} {c : Char} (h : c ∈ (toString n).toList) : c.isAlphanum := by
  have hmem : c ∈ Nat.toDigits 10 n := by simpa using h
  have hdigit : c.isDigit := Nat.isDigit_of_mem_toDigits (by norm_num) (by norm_num) hmem
  simp [Char.isAlphanum, hdigit]

theorem eq_or_isDigit_of_mem_toString {k : Int} {c : Char} (h : c ∈ (toString k).toList) : c = '-' ∨ c.isDigit := by
  have hdigits : ∀ m : Nat, c ∈ (Nat.repr m).toList → c.isDigit := fun m hm => by
    have hmem : c ∈ Nat.toDigits 10 m := by simpa using hm
    exact Nat.isDigit_of_mem_toDigits (by norm_num) (by norm_num) hmem
  cases k with
  | ofNat m => exact .inr (hdigits m h)
  | negSucc m =>
    have h : c ∈ ("-" ++ Nat.repr (m + 1)).toList := h
    rw [String.toList_append, List.mem_append] at h
    rcases h with h | h
    · exact .inl (by simpa using h)
    · exact .inr (hdigits _ h)

theorem exists_placeholder (d : Dialect) (n : Nat) :
    ∃ rest, (d.placeholder n).toList = d.marker :: rest ∧ ∀ c ∈ rest, c.isAlphanum := by
  cases d with
  | sqlite | duckdb | mysql => exact ⟨[], by simp [Dialect.placeholder, Dialect.marker], by simp⟩
  | postgres =>
    refine ⟨(toString n).toList, by simp [Dialect.placeholder, Dialect.marker], fun c hc => isAlphanum_of_mem_toString hc⟩
  | tsql =>
    refine ⟨'p' :: (toString n).toList, by simp [Dialect.placeholder, Dialect.marker], ?_⟩
    intro c hc
    rcases List.mem_cons.1 hc with rfl | hc
    · rfl
    · exact isAlphanum_of_mem_toString hc

theorem isPlain_chars {d : Dialect} {n : Nat} {token : Token} (hopen : token.isOpenEnded = false)
    (hfunction : ∀ f, token = .function f → IsPlainFunction f) : ∀ c ∈ token.charsAt d n, d.isPlain c := by
  cases token with
  | name s | bound v => cases hopen
  | word w =>
    have hall : w.text.toList.all d.isPlain = true := by cases w <;> cases d <;> rfl
    exact List.all_eq_true.1 hall
  | sign s =>
    have hall : (s.text d).toList.all d.isPlain = true := by cases s <;> cases d <;> rfl
    exact List.all_eq_true.1 hall
  | blank | lineBreak =>
    intro c hc
    simp [charsAt, text] at hc
    subst hc
    cases d <;> rfl
  | int k =>
    intro c hc
    rcases eq_or_isDigit_of_mem_toString hc with rfl | hdigit
    · cases d <;> rfl
    · exact d.isPlain_of_alphanum (by simp [Char.isAlphanum, hdigit])
  | natural k => exact fun c hc => d.isPlain_of_alphanum (isAlphanum_of_mem_toString hc)
  | truth b =>
    have hall : (d.truthText b).toList.all d.isPlain = true := by cases b <;> cases d <;> rfl
    exact List.all_eq_true.1 hall
  | function f => exact hfunction f rfl d

theorem exists_gap {d : Dialect} {n : Nat} {token : Token} (h : token.isGap) :
    ∃ c rest, token.charsAt d n = c :: rest ∧ d.isGap c ∧ ∀ c ∈ rest, d.isPlain c := by
  cases token with
  | blank => exact ⟨' ', [], by simp [charsAt, text], by cases d <;> rfl, by simp⟩
  | lineBreak => exact ⟨'\n', [], by simp [charsAt, text], by cases d <;> rfl, by simp⟩
  | sign s =>
    have hall : (s.text d).toList.all d.isGap = true := by cases s <;> cases d <;> rfl
    have hne : (s.text d).toList ≠ [] := by cases s <;> cases d <;> simp [Sign.text, Dialect.concatText]
    obtain ⟨c, rest, heq⟩ := List.exists_cons_of_ne_nil hne
    rw [heq, List.all_cons, Bool.and_eq_true, List.all_eq_true] at hall
    refine ⟨c, rest, heq, hall.1, fun c hc => ?_⟩
    have hgap := hall.2 c hc
    simp only [Dialect.isGap, Bool.and_eq_true] at hgap
    exact hgap.1.1
  | _ => cases h

end Token

open Token (Spaced IsPlainFunction)

theorem Mention.pieces_append (d : Dialect) (n : Nat) (ms more : List Mention) :
    pieces d n (ms ++ more) = pieces d n ms ++ pieces d (n + (ms.filterMap value?).length) more := by
  induction ms generalizing n with
  | nil => rfl
  | cons m rest ih =>
    cases m with
    | name text => simp [pieces, ih, List.filterMap_cons, value?]
    | value v => simp [pieces, ih, value?, Nat.add_right_comm, Nat.add_assoc]

theorem Token.boundValues_eq (tokens : List Token) :
    boundValues tokens = (tokens.filterMap mention?).filterMap Mention.value? := by
  rw [boundValues, List.filterMap_filterMap]
  congr 1
  funext token
  cases token <;> rfl

section Run

variable {d : Dialect} {n : Nat} {s : Scan} {ps : List Piece}

/-- One token, read where nothing is open or where it ends what is. -/
theorem Scan.run_token {token : Token} (hfunction : ∀ f, token = .function f → IsPlainFunction f)
    (hs : s.finish = some ps) (hstart : s.reading = .nothing ∨ token.isGap) :
    (s.run d (token.charsAt d n)).finish = some (ps ++ Mention.pieces d n token.mention?.toList) ∧
      (token.isOpenEnded = false → (s.run d (token.charsAt d n)).reading = .nothing) := by
  rcases hstart with hnothing | hgap
  · obtain ⟨found, reading⟩ := s
    obtain rfl : reading = .nothing := hnothing
    obtain rfl : found = ps := Option.some.inj hs
    cases hopen : token.isOpenEnded with
    | false =>
      rw [run_plain (Token.isPlain_chars hopen hfunction)]
      have hnone : token.mention? = none := by cases token <;> first | rfl | cases hopen
      simp [finish, hnone, Mention.pieces]
    | true =>
      cases token with
      | name text =>
        have hchars : (Token.name text).charsAt d n = d.quoteChars text.toList := by
          simp [Token.charsAt, Token.text, Dialect.quote]
        rw [hchars, run_quoted]
        simp [finish, Token.mention?, Mention.pieces]
      | bound v =>
        obtain ⟨rest, hrest, halphanum⟩ := Token.exists_placeholder d (n + 1)
        have hchars : (Token.bound v).charsAt d n = d.marker :: rest := hrest
        rw [hchars, run_marker found halphanum]
        simp [finish, Token.mention?, Mention.pieces, ← hrest]
      | _ => cases hopen
  · obtain ⟨c, rest, hchars, hc, hrest⟩ := Token.exists_gap (d := d) (n := n) hgap
    rw [hchars, run_gap hc hrest hs]
    have hnone : token.mention? = none := by cases token <;> first | rfl | cases hgap
    simp [finish, hnone, Mention.pieces]

theorem Scan.run_tokens : (tokens : List Token) → Spaced tokens → (∀ f, .function f ∈ tokens → IsPlainFunction f) →
    ∀ {n : Nat} {s : Scan} {ps}, s.finish = some ps → (s.reading = .nothing ∨ ∀ token ∈ tokens.head?, token.isGap) →
    (s.run d (String.join (Token.textsFrom d n tokens)).toList).finish =
      some (ps ++ Mention.pieces d n (tokens.filterMap Token.mention?))
  | [], _, _, n, s, ps, hs, _ => by simpa [Token.textsFrom, run, Mention.pieces] using hs
  | token :: rest, hspaced, hfunctions, n, s, ps, hs, hstart => by
    obtain ⟨hnext, hrest⟩ := List.isChain_cons.1 hspaced
    obtain ⟨hfinish, hclosed⟩ := run_token (n := n) (fun f hf => hfunctions f (by simp [hf])) hs
      (hstart.imp_right fun h => h token rfl)
    have hmore := run_tokens rest hrest (fun f hf => hfunctions f (by simp [hf]))
      (n := n + (Token.boundValues [token]).length) hfinish (by
        cases hopen : token.isOpenEnded with
        | false => exact .inl (hclosed hopen)
        | true => exact .inr fun next hmem => hnext next hmem hopen)
    rw [Token.toList_textsFrom, run_append, hmore, List.append_assoc]
    have hcons : (token :: rest).filterMap Token.mention? = token.mention?.toList ++ rest.filterMap Token.mention? := by
      cases h : token.mention? <;> simp [h]
    have hcount : ((token.mention?.toList).filterMap Mention.value?).length = (Token.boundValues [token]).length := by
      cases token <;> rfl
    rw [hcons, Mention.pieces_append, hcount]

/-- A scan of spaced tokens finds their names, and a placeholder for each bound value. -/
theorem scan_render {tokens : List Token} (hspaced : Spaced tokens)
    (hfunctions : ∀ f, .function f ∈ tokens → IsPlainFunction f) :
    scan d (Token.render d tokens).sql = some (Mention.pieces d 0 (tokens.filterMap Token.mention?)) := by
  have hempty : Scan.finish ⟨[], .nothing⟩ = some [] := rfl
  exact Scan.run_tokens tokens hspaced hfunctions hempty (.inl rfl)

end Run

end RelQuery.Sql
