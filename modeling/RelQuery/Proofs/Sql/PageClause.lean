/-
Pages as they are written and read back.

The clause for a page asks for a window: so many rows are skipped, and so many of the next are given, or all of them.
`Dialect.readPage` reads a clause as the dialect does. A bound is written as a signed number, so the window comes back
when its bounds are below 2 ^ 63, and a larger bound is written with a minus sign: SQLite takes it for no bound at all,
the other dialects refuse it.
- `readInt_toString`: a written integer is read back.
- `Dialect.readPage_pageText`: a clause is read bound by bound.
- `Dialect.minusSigns_eq`: the minus signs of a clause.
- `Dialect.readPage_pageText_iff`: the window comes back if and only if its bounds are signed numbers.
-/
import RelQuery.Proofs.Sql.Params
import RelQuery.Proofs.Sql.Scanning

namespace RelQuery.Sql

/-- the rows of a page -/
structure Window where
  /-- rows before the first one given -/
  skipped : Nat
  /-- rows given at most; without a number, all that are left -/
  given : Option Nat
deriving DecidableEq, Repr

/-- the window that is asked for by a limit and an offset -/
def Window.asked (limit offset : Option UInt64) : Window := ⟨(offset.map (·.toNat)).getD 0, limit.map (·.toNat)⟩

/-! ## Reading a clause -/

/-- the number that decimal digits stand for -/
def readNat (digits : List Char) : Option Nat :=
  if digits ≠ [] ∧ digits.all Char.isDigit then some (Nat.ofDigitChars 10 digits 0) else none

/-- the number that decimal digits stand for, perhaps after a minus sign -/
def readInt : List Char → Option Int
  | '-' :: digits => (readNat digits).map fun n => -(n : Int)
  | digits => (readNat digits).map fun n => (n : Int)

namespace Dialect

/-- How many rows a number after LIMIT or NEXT lets through. A negative number is no limit to SQLite and an error
elsewhere; to MySQL the largest number is no limit. -/
def limitOf (d : Dialect) (n : Int) : Option (Option Nat) :=
  match d with
  | sqlite => some (if n < 0 then none else some n.toNat)
  | mysql => if n < 0 then none else some (if n = 18446744073709551615 then none else some n.toNat)
  | duckdb | postgres | tsql => if n < 0 then none else some (some n.toNat)

/-- How many rows a number after OFFSET skips. A negative number is none to SQLite and an error elsewhere. -/
def offsetOf (d : Dialect) (n : Int) : Option Nat :=
  match d with
  | sqlite => some n.toNat
  | duckdb | postgres | mysql | tsql => if n < 0 then none else some n.toNat

/-- the texts of the limit and of the offset in the words of a clause -/
def pageBounds (d : Dialect) (words : List String) : Option (Option String × Option String) :=
  match d, words with
  | sqlite, ["LIMIT", l] | mysql, ["LIMIT", l] | duckdb, ["LIMIT", l] | postgres, ["LIMIT", l] => some (some l, none)
  | sqlite, ["LIMIT", l, "OFFSET", o] | mysql, ["LIMIT", l, "OFFSET", o] | duckdb, ["LIMIT", l, "OFFSET", o]
  | postgres, ["LIMIT", l, "OFFSET", o] => some (some l, some o)
  | duckdb, ["OFFSET", o] | postgres, ["OFFSET", o] => some (none, some o)
  | tsql, ["OFFSET", o, "ROWS"] => some (none, some o)
  | tsql, ["OFFSET", o, "ROWS", "FETCH", "NEXT", l, "ROWS", "ONLY"] => some (some l, some o)
  | _, _ => none

/-- the rows that the limit of a clause lets through, one left out being no limit -/
def limitIn (d : Dialect) : Option String → Option (Option Nat)
  | none => some none
  | some text => (readInt text.toList).bind d.limitOf

/-- the rows that the offset of a clause skips, one left out being none -/
def offsetIn (d : Dialect) : Option String → Option Nat
  | none => some 0
  | some text => (readInt text.toList).bind d.offsetOf

/-- the words between the blanks of a text -/
def wordsOf (text : String) : List String := (text.toList.splitOn ' ').map String.ofList

/-- the window that a dialect reads in the text of a clause -/
def readPage (d : Dialect) (text : String) : Option Window := do
  let (limit, offset) ← d.pageBounds (wordsOf text)
  let given ← d.limitIn limit
  let skipped ← d.offsetIn offset
  return ⟨skipped, given⟩

/-- the text of the clause for a page -/
def pageText (d : Dialect) (limit offset : Option UInt64) : String := (Token.render d (d.page limit offset)).sql

end Dialect
/-! ## Written bounds -/

theorem readNat_repr (n : Nat) : readNat (Nat.repr n).toList = some n := by
  have hdigits : Nat.toDigits 10 n ≠ [] ∧ (Nat.toDigits 10 n).all Char.isDigit := by
    refine ⟨Nat.toDigits_ne_nil, List.all_eq_true.2 fun c hc => ?_⟩
    exact Nat.isDigit_of_mem_toDigits (by norm_num) (by norm_num) hc
  rw [Nat.toList_repr, readNat, if_pos hdigits, Nat.ofDigitChars_ten_toDigits]

/-- A written integer is read back. -/
theorem readInt_toString (k : Int) : readInt (toString k).toList = some k := by
  cases k with
  | ofNat n =>
    change readInt (Nat.repr n).toList = _
    have hread := readNat_repr n
    cases hchars : (Nat.repr n).toList with
    | nil => rw [hchars] at hread; cases hread
    | cons c rest =>
      have hdigit : c.isDigit := by
        have hmem : c ∈ Nat.toDigits 10 n := by rw [← Nat.toList_repr, hchars]; exact List.mem_cons_self
        exact Nat.isDigit_of_mem_toDigits (by norm_num) (by norm_num) hmem
      have hplain : readInt (c :: rest) = (readNat (c :: rest)).map fun n => (n : Int) := by
        unfold readInt
        split
        · next heq =>
          obtain ⟨rfl, -⟩ := List.cons.inj heq
          exact absurd hdigit (by decide)
        · rfl
      rw [hplain, ← hchars, hread]
      rfl
  | negSucc n =>
    have hchars : (toString (Int.negSucc n)).toList = '-' :: (Nat.repr (n + 1)).toList :=
      String.toList_append
    rw [hchars, readInt, readNat_repr]
    rfl

/-- whether a bound is below 2 ^ 63 -/
def IsSigned (n : UInt64) : Prop := n.toNat < 9223372036854775808

instance : DecidablePred IsSigned := fun n => inferInstanceAs (Decidable (n.toNat < 9223372036854775808))

/-- the number that a bound is written as -/
def boundNumber (n : UInt64) : Int := n.toInt64.toInt

theorem boundNumber_of_signed {n : UInt64} (h : IsSigned n) : boundNumber n = n.toNat := by
  have hmod : boundNumber n = (n.toNat : Int).bmod 18446744073709551616 := by
    simp [boundNumber, Int64.toInt, BitVec.toInt_eq_toNat_bmod]
  have hlt : n.toNat < 9223372036854775808 := h
  rw [hmod, Int.bmod]
  split <;> omega

/-- A bound is written with a minus sign when it is no signed number. -/
theorem boundNumber_neg {n : UInt64} : boundNumber n < 0 ↔ ¬IsSigned n := by
  have hmod : boundNumber n = (n.toNat : Int).bmod 18446744073709551616 := by
    simp [boundNumber, Int64.toInt, BitVec.toInt_eq_toNat_bmod]
  have hlt := n.toNat_lt
  rw [hmod, Int.bmod, IsSigned]
  split <;> omega

namespace Dialect

variable (d : Dialect)

/-- A written limit lets as many rows through as were asked for when it is a signed number. -/
theorem limitOf_bound (n : UInt64) : d.limitOf (boundNumber n) = some (some n.toNat) ↔ IsSigned n := by
  by_cases hsigned : IsSigned n
  · have hsmall : n.toNat < 9223372036854775808 := hsigned
    have hpos : ¬(n.toNat : Int) < 0 := by omega
    have hbelow : ¬(n.toNat : Int) = 18446744073709551615 := by omega
    rw [boundNumber_of_signed hsigned]
    cases d <;> simp [limitOf, hpos, hbelow, hsigned]
  · have hneg : boundNumber n < 0 := boundNumber_neg.2 hsigned
    cases d <;> simp [limitOf, hneg, hsigned]

/-- A written offset skips as many rows as were asked for when it is a signed number. -/
theorem offsetOf_bound (n : UInt64) : d.offsetOf (boundNumber n) = some n.toNat ↔ IsSigned n := by
  by_cases hsigned : IsSigned n
  · have hpos : ¬(n.toNat : Int) < 0 := by omega
    rw [boundNumber_of_signed hsigned]
    cases d <;> simp [offsetOf, hpos, hsigned]
  · have hneg : boundNumber n < 0 := boundNumber_neg.2 hsigned
    have hlarge : ¬n.toNat < 9223372036854775808 := hsigned
    have hzero : (boundNumber n).toNat = 0 := Int.toNat_of_nonpos (Int.le_of_lt hneg)
    cases d <;> simp only [offsetOf, hneg, hzero, hsigned, if_true, Option.some.injEq, reduceCtorEq, iff_false]
    omega

end Dialect

/-! ## The words of a clause -/

namespace Dialect

/-- the bounds of a clause, as tokens: the limit and the offset, where they are written -/
def writtenBounds (d : Dialect) (limit offset : Option UInt64) : Option Token × Option Token :=
  match d with
  | sqlite => (limit.elim (offset.map fun _ => .int (-1)) fun l => some (boundToken l), offset.map boundToken)
  | mysql =>
    (limit.elim (offset.map fun _ => .natural 18446744073709551615) fun l => some (boundToken l), offset.map boundToken)
  | duckdb | postgres => (limit.map boundToken, offset.map boundToken)
  | tsql => (limit.map boundToken, some (boundToken (offset.getD 0)))

/-- the tokens of a clause between which blanks stand -/
def pageWords (d : Dialect) (limit offset : Option UInt64) : List Token :=
  match d, d.writtenBounds limit offset with
  | tsql, (none, some o) => [.word .offset, o, .word .rows]
  | tsql, (some l, some o) =>
    [.word .offset, o, .word .rows, .word .fetch, .word .next, l, .word .rows, .word .only]
  | _, (some l, none) => [.word .limit, l]
  | _, (none, some o) => [.word .offset, o]
  | _, (some l, some o) => [.word .limit, l, .word .offset, o]
  | _, (none, none) => []

theorem page_eq (d : Dialect) (limit offset : Option UInt64) :
    d.page limit offset = (d.pageWords limit offset).intersperse .blank := by
  cases d <;> cases limit <;> cases offset <;> rfl

end Dialect

/-- a token of a clause: a keyword or a number -/
inductive IsPageToken : Token → Prop
  | word {w : Word} : w ∈ [.limit, .offset, .rows, .fetch, .next, .only] → IsPageToken (.word w)
  | int {n : Int64} : IsPageToken (.int n)
  | natural {n : UInt64} : IsPageToken (.natural n)

theorem Dialect.pageWords_tokens (d : Dialect) (limit offset : Option UInt64) :
    ∀ t ∈ d.pageWords limit offset, IsPageToken t := by
  cases d <;> cases limit <;> cases offset <;>
    simp [Dialect.pageWords, Dialect.writtenBounds, Dialect.boundToken, IsPageToken.int, IsPageToken.natural,
      IsPageToken.word]

theorem IsPageToken.blank_not_mem {d : Dialect} {t : Token} (h : IsPageToken t) : ' ' ∉ (t.text d).toList := by
  cases h with
  | @word w hw =>
    change ' ' ∉ w.text.toList
    revert w
    decide
  | int =>
    intro hblank
    rcases Token.eq_or_isDigit_of_mem_toString hblank with hsign | hdigit
    · cases hsign
    · cases hdigit
  | natural =>
    intro hblank
    cases Token.isAlphanum_of_mem_toString hblank

theorem textsFrom_of_unbound (d : Dialect) {tokens : List Token} (h : Token.Unbound tokens) (n : Nat) :
    Token.textsFrom d n tokens = tokens.map (Token.text d) := by
  induction tokens with
  | nil => rfl
  | cons t rest ih =>
    obtain ⟨ht, hrest⟩ := List.forall_mem_cons.1 h
    cases t with
    | bound v => exact absurd rfl (ht v)
    | _ => simp [Token.textsFrom, ih hrest]

theorem flatMap_intersperse {α β : Type} (f : α → List β) (sep : α) (xs : List α) :
    (xs.intersperse sep).flatMap f = (f sep).intercalate (xs.map f) := by
  match xs with
  | [] => rfl
  | [x] => simp [List.intercalate]
  | x :: y :: rest =>
    have ih := flatMap_intersperse f sep (y :: rest)
    simp only [List.intercalate, List.map_cons, List.intersperse_cons_cons, List.flatMap_cons,
      List.flatten_cons] at ih ⊢
    rw [ih]

namespace Dialect

theorem pageText_toList (d : Dialect) (limit offset : Option UInt64) :
    (d.pageText limit offset).toList =
      [' '].intercalate ((d.pageWords limit offset).map fun t => (t.text d).toList) := by
  have htexts := textsFrom_of_unbound d (page_unbound d limit offset) 0
  change (String.join (Token.textsFrom d 0 (d.page limit offset))).toList = _
  have hblank : (Token.text d .blank).toList = [' '] := by simp [Token.text]
  rw [htexts, String.toList_join, List.flatMap_map, page_eq, flatMap_intersperse, hblank]

/-- The words of a clause's text are the texts of its tokens. -/
theorem wordsOf_pageText {d : Dialect} {limit offset : Option UInt64} (h : d.pageWords limit offset ≠ []) :
    wordsOf (d.pageText limit offset) = (d.pageWords limit offset).map (Token.text d) := by
  have hblanks : ∀ word ∈ (d.pageWords limit offset).map fun t => (t.text d).toList, ' ' ∉ word := by
    intro word hword
    obtain ⟨t, ht, rfl⟩ := List.mem_map.1 hword
    exact (d.pageWords_tokens limit offset t ht).blank_not_mem
  rw [wordsOf, pageText_toList, List.splitOn_intercalate ' ' hblanks (by simpa using h), List.map_map]
  simp [Function.comp_def]

/-- A clause asks for a window when its written bounds let that many rows through and skip that many. -/
theorem readPage_pageText {d : Dialect} {limit offset : Option UInt64} (h : limit.isSome ∨ offset.isSome)
    {w : Window} :
    d.readPage (d.pageText limit offset) = some w ↔
      d.limitIn ((d.writtenBounds limit offset).1.map (Token.text d)) = some w.given ∧
        d.offsetIn ((d.writtenBounds limit offset).2.map (Token.text d)) = some w.skipped := by
  have hne : d.pageWords limit offset ≠ [] := by
    cases d <;> cases limit <;> cases offset <;> simp_all [pageWords, writtenBounds]
  have hbounds : d.pageBounds ((d.pageWords limit offset).map (Token.text d)) =
      some ((d.writtenBounds limit offset).1.map (Token.text d),
        (d.writtenBounds limit offset).2.map (Token.text d)) := by
    cases d <;> cases limit <;> cases offset <;> first | rfl | simp_all
  rw [readPage, wordsOf_pageText hne, hbounds]
  simp only [Option.bind_eq_bind, Option.bind_some, Option.pure_def, Option.bind_eq_some_iff, Option.some.injEq]
  constructor
  · rintro ⟨given, hgiven, skipped, hskipped, rfl⟩
    exact ⟨hgiven, hskipped⟩
  · rintro ⟨hgiven, hskipped⟩
    exact ⟨w.given, hgiven, w.skipped, hskipped, rfl⟩

theorem limitIn_bound (d : Dialect) (n : UInt64) :
    d.limitIn (some ((boundToken n).text d)) = some (some n.toNat) ↔ IsSigned n := by
  have hread : readInt ((boundToken n).text d).toList = some (boundNumber n) := readInt_toString _
  rw [limitIn, hread, Option.bind_some, limitOf_bound]

theorem offsetIn_bound (d : Dialect) (n : UInt64) :
    d.offsetIn (some ((boundToken n).text d)) = some n.toNat ↔ IsSigned n := by
  have hread : readInt ((boundToken n).text d).toList = some (boundNumber n) := readInt_toString _
  rw [offsetIn, hread, Option.bind_some, offsetOf_bound]

/-- The limit that is read is the limit asked for, what stands in for a limit being none, when it is a signed number. -/
theorem limitIn_written (d : Dialect) (limit offset : Option UInt64) :
    d.limitIn ((d.writtenBounds limit offset).1.map (Token.text d)) = some (limit.map (·.toNat)) ↔
      ∀ l ∈ limit, IsSigned l := by
  cases limit with
  | some l =>
    have hwritten : (d.writtenBounds (some l) offset).1 = some (boundToken l) := by cases d <;> rfl
    simpa [hwritten] using d.limitIn_bound l
  | none =>
    have hread : d.limitIn ((d.writtenBounds none offset).1.map (Token.text d)) = some none := by
      cases offset with
      | none => cases d <;> rfl
      | some o =>
        cases d
        case sqlite =>
          change sqlite.limitIn (some ((Token.int (-1)).text sqlite)) = some none
          decide +kernel
        case mysql =>
          change mysql.limitIn (some ((Token.natural 18446744073709551615).text mysql)) = some none
          decide +kernel
        all_goals rfl
    simp [hread]

/-- The offset that is read is the offset asked for when it is a signed number. -/
theorem offsetIn_written (d : Dialect) (limit offset : Option UInt64) :
    d.offsetIn ((d.writtenBounds limit offset).2.map (Token.text d)) = some ((offset.map (·.toNat)).getD 0) ↔
      ∀ o ∈ offset, IsSigned o := by
  cases offset with
  | some o =>
    have hwritten : (d.writtenBounds limit (some o)).2 = some (boundToken o) := by cases d <;> rfl
    simpa [hwritten] using d.offsetIn_bound o
  | none =>
    have hread : d.offsetIn ((d.writtenBounds limit none).2.map (Token.text d)) = some 0 := by cases d <;> rfl
    simp [hread]

/-! ## Minus signs -/

/-- the minus signs in a text -/
def minusSigns (text : String) : Nat := text.toList.count '-'

/-- the minus signs of a clause in which no bound asked for is negative: SQLite writes -1 for no limit -/
def sentinelSigns (d : Dialect) (limit : Option UInt64) : Nat := if d = sqlite ∧ limit = none then 1 else 0

/-- the minus signs of a bound: one if it is no signed number -/
def boundSigns : Option UInt64 → Nat
  | none => 0
  | some n => if IsSigned n then 0 else 1

theorem boundSigns_eq_zero {n : Option UInt64} : boundSigns n = 0 ↔ ∀ k ∈ n, IsSigned k := by
  cases n <;> simp [boundSigns]

theorem minusSigns_repr (n : Nat) : minusSigns (Nat.repr n) = 0 := by
  rw [minusSigns, List.count_eq_zero, Nat.toList_repr]
  intro hmem
  exact absurd (Nat.isDigit_of_mem_toDigits (by norm_num) (by norm_num) hmem) (by decide)

theorem minusSigns_boundToken (d : Dialect) (n : UInt64) :
    minusSigns ((boundToken n).text d) = if IsSigned n then 0 else 1 := by
  have hcount : minusSigns (toString (boundNumber n)) = if boundNumber n < 0 then 1 else 0 := by
    cases boundNumber n with
    | ofNat m => exact minusSigns_repr m
    | negSucc m =>
      have hchars : (toString (Int.negSucc m)).toList = '-' :: (Nat.repr (m + 1)).toList := String.toList_append
      have hrest := minusSigns_repr (m + 1)
      rw [minusSigns] at hrest ⊢
      rw [hchars, List.count_cons_self, hrest, if_pos (Int.negSucc_lt_zero m)]
  change minusSigns (toString (boundNumber n)) = _
  rw [hcount]
  by_cases hsigned : IsSigned n
  · rw [if_pos hsigned, if_neg fun hneg => boundNumber_neg.1 hneg hsigned]
  · rw [if_neg hsigned, if_pos (boundNumber_neg.2 hsigned)]

theorem minusSigns_word (d : Dialect) (w : Word) : minusSigns (Token.text d (.word w)) = 0 := by
  change minusSigns w.text = 0
  cases w <;> decide +kernel

theorem count_intercalate (xss : List (List Char)) :
    ([' '].intercalate xss).count '-' = (xss.map (List.count '-')).sum := by
  match xss with
  | [] => rfl
  | [xs] => simp [List.intercalate]
  | xs :: ys :: rest =>
    have ih := count_intercalate (ys :: rest)
    have hblank : [' '].count '-' = 0 := by decide
    simp only [List.intercalate, List.intersperse_cons_cons, List.flatten_cons, List.count_append, hblank, Nat.zero_add,
      List.map_cons, List.sum_cons] at ih ⊢
    rw [ih]

theorem minusSigns_pageText (d : Dialect) (limit offset : Option UInt64) :
    minusSigns (d.pageText limit offset) = ((d.pageWords limit offset).map fun t => minusSigns (t.text d)).sum := by
  rw [minusSigns, pageText_toList, count_intercalate, List.map_map]
  rfl

/-- A clause has one minus sign for each bound that is no signed number, besides the one of SQLite's missing limit. -/
theorem minusSigns_eq {limit offset : Option UInt64} (h : limit.isSome ∨ offset.isSome) (d : Dialect) :
    minusSigns (d.pageText limit offset) = d.sentinelSigns limit + (boundSigns limit + boundSigns offset) := by
  have hsentinel : minusSigns (Token.text sqlite (.int (-1))) = 1 := by decide +kernel
  have hlargest : minusSigns (Token.text mysql (.natural 18446744073709551615)) = 0 := minusSigns_repr _
  have hzero : IsSigned 0 := by decide
  rw [minusSigns_pageText]
  cases d <;> cases limit <;> cases offset <;>
    simp [pageWords, writtenBounds, minusSigns_boundToken, minusSigns_word, sentinelSigns, boundSigns, hsentinel,
      hlargest, hzero, Nat.add_comm] at h ⊢

/-- A page's clause asks for the rows that are asked for, and shows no minus sign but SQLite's for no limit, if and only
if both bounds are signed numbers. -/
theorem readPage_pageText_iff (d : Dialect) {limit offset : Option UInt64} (h : limit.isSome ∨ offset.isSome) :
    (d.readPage (d.pageText limit offset) = some (.asked limit offset) ↔
        (∀ l ∈ limit, IsSigned l) ∧ ∀ o ∈ offset, IsSigned o) ∧
      (minusSigns (d.pageText limit offset) = d.sentinelSigns limit ↔
        (∀ l ∈ limit, IsSigned l) ∧ ∀ o ∈ offset, IsSigned o) := by
  constructor
  · rw [readPage_pageText h]
    exact and_congr (d.limitIn_written limit offset) (d.offsetIn_written limit offset)
  · rw [minusSigns_eq h, Nat.add_eq_left, Nat.add_eq_zero_iff]
    exact and_congr boundSigns_eq_zero boundSigns_eq_zero

theorem mysql_largest_signed_offset :
    ((none : Option UInt64).isSome ∨ (some (9223372036854775807 : UInt64)).isSome) ∧
      mysql.readPage (mysql.pageText none (some 9223372036854775807)) = some ⟨9223372036854775807, none⟩ := by
  have hgiven : (none : Option UInt64).isSome ∨ (some (9223372036854775807 : UInt64)).isSome := .inr rfl
  have hread := (mysql.readPage_pageText_iff hgiven).1
  exact ⟨hgiven, hread.2 ⟨by simp, by simp [IsSigned]⟩⟩

/-- An offset of 2 ^ 63 is refused by MySQL, skips nothing in SQLite, and is written with a minus sign by both. -/
theorem offset_not_signed :
    mysql.readPage (mysql.pageText none (some 9223372036854775808)) = none ∧
      sqlite.readPage (sqlite.pageText none (some 9223372036854775808)) = some ⟨0, none⟩ ∧
      minusSigns (mysql.pageText none (some 9223372036854775808)) = 1 ∧
      minusSigns (sqlite.pageText none (some 9223372036854775808)) = 2 := by
  decide +kernel

end Dialect

end RelQuery.Sql
