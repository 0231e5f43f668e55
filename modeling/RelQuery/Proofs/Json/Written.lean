/-
Documents told apart by their text.

All that the text of a document does not tell is which infinity or NaN stands in it: these are written `null`, as
`Json.plain` has them. Two documents of one text are the same up to that (`Json.write_eq_iff`). The first
character of a text tells what kind of document it is (`mark`), a scalar ends where a comma or a closing bracket comes,
and a string at its first bare quote, so a document is also told from what follows it.
-/
import RelQuery.Json
import RelQuery.Proofs.Decimal.Numerals

namespace RelQuery

/-! ## Strings -/

namespace Text

/-- the characters that are not written as they are -/
def escaped : List Char := '"' :: '\\' :: (List.range 32).map Char.ofNat

theorem documentEscape_eq_or (c : Char) : documentEscape c = [c] ∧ c ≠ '"' ∧ c ≠ '\\' ∨ c ∈ escaped := by
  by_cases hc : c ∈ escaped
  · exact .inr hc
  · have hquote : c ≠ '"' := fun h => hc (by rw [h]; decide)
    have hslash : c ≠ '\\' := fun h => hc (by rw [h]; decide)
    have hcontrol : ¬c.toNat < 32 := fun h => by
      have hmem : c ∈ (List.range 32).map Char.ofNat :=
        List.mem_map.2 ⟨c.toNat, List.mem_range.2 h, Char.ofNat_toNat c⟩
      rw [escaped, List.mem_cons, List.mem_cons] at hc
      exact hc (.inr (.inr hmem))
    have hnamed : c ≠ '\n' ∧ c ≠ '\r' ∧ c ≠ '\t' := by
      have hne : ∀ x : Char, x.toNat < 32 → c ≠ x := fun x hx h => hcontrol (h ▸ hx)
      exact ⟨hne _ (by decide), hne _ (by decide), hne _ (by decide)⟩
    have hplain : documentEscape c = [c] := by
      simp only [documentEscape, hquote, hslash, hnamed, if_false]
      rw [if_neg (by omega), if_neg (by omega), if_neg hcontrol]
    exact .inl ⟨hplain, hquote, hslash⟩

theorem escaped_eq_cons {c : Char} (h : c ∈ escaped) : ∃ es, documentEscape c = '\\' :: es := by
  have hhead : escaped.all (fun c => (documentEscape c).head? = some '\\') := by decide
  exact List.head?_eq_some_iff.1 (of_decide_eq_true (List.all_eq_true.1 hhead c h))

/-- No escape begins another one. -/
theorem eq_of_escape_begins {c c' : Char} (hc : c ∈ escaped) (hc' : c' ∈ escaped)
    (h : documentEscape c <+: documentEscape c') : c = c' := by
  have hall : escaped.all (fun c => escaped.all (fun c' => documentEscape c <+: documentEscape c' → c = c')) := by
    decide
  exact of_decide_eq_true (List.all_eq_true.1 (List.all_eq_true.1 hall c hc) c' hc') h

/-- A character is told from the text that follows it. -/
theorem documentEscape_split {c c' : Char} {x x' : List Char} (h : documentEscape c ++ x = documentEscape c' ++ x') :
    c = c' ∧ x = x' := by
  have hmixed : ∀ {a b : Char} {y z : List Char}, documentEscape a = [a] → a ≠ '\\' → b ∈ escaped →
      documentEscape a ++ y ≠ documentEscape b ++ z := by
    intro a b y z ha hslash hb heq
    obtain ⟨es, hes⟩ := escaped_eq_cons hb
    rw [ha, hes] at heq
    exact hslash (List.cons.inj heq).1
  rcases documentEscape_eq_or c with ⟨hc, -, hslash⟩ | hc <;>
    rcases documentEscape_eq_or c' with ⟨hc', -, hslash'⟩ | hc'
  · rw [hc, hc'] at h
    exact List.cons.inj h
  · exact absurd h (hmixed hc hslash hc')
  · exact absurd h.symm (hmixed hc' hslash' hc)
  · have heq : c = c' := by
      rcases List.prefix_or_prefix_of_prefix (List.prefix_append _ x) (h ▸ List.prefix_append _ x') with hp | hp
      · exact eq_of_escape_begins hc hc' hp
      · exact (eq_of_escape_begins hc' hc hp).symm
    subst heq
    exact ⟨rfl, List.append_cancel_left h⟩

/-- A closing quote is no character of the string. -/
theorem documentEscape_ne_quote (c : Char) (x rest : List Char) : documentEscape c ++ x ≠ '"' :: rest := by
  intro h
  rcases documentEscape_eq_or c with ⟨hc, hquote, -⟩ | hc
  · rw [hc] at h
    exact hquote (List.cons.inj h).1
  · obtain ⟨es, hes⟩ := escaped_eq_cons hc
    rw [hes] at h
    exact absurd (List.cons.inj h).1 (by decide)

theorem flatMap_documentEscape_split {cs cs' rest rest' : List Char}
    (h : cs.flatMap documentEscape ++ '"' :: rest = cs'.flatMap documentEscape ++ '"' :: rest') :
    cs = cs' ∧ rest = rest' := by
  induction cs generalizing cs' with
  | nil =>
    cases cs' with
    | nil => exact ⟨rfl, (List.cons.inj h).2⟩
    | cons c' cs' =>
      rw [List.flatMap_cons, List.append_assoc] at h
      exact absurd h.symm (documentEscape_ne_quote _ _ _)
  | cons c cs ih =>
    rw [List.flatMap_cons, List.append_assoc] at h
    cases cs' with
    | nil => exact absurd h (documentEscape_ne_quote _ _ _)
    | cons c' cs' =>
      rw [List.flatMap_cons, List.append_assoc] at h
      obtain ⟨rfl, hrest⟩ := documentEscape_split h
      obtain ⟨rfl, heq⟩ := ih hrest
      exact ⟨rfl, heq⟩

/-- A string is told from the text that follows it. -/
theorem documentQuote_split {s s' : String} {rest rest' : List Char}
    (h : (documentQuote s).toList ++ rest = (documentQuote s').toList ++ rest') : s = s' ∧ rest = rest' := by
  simp only [documentQuote, String.toList_ofList, List.cons_append, List.append_assoc, List.nil_append,
    List.cons.injEq, true_and] at h
  obtain ⟨hs, hrest⟩ := flatMap_documentEscape_split h
  exact ⟨String.toList_inj.1 hs, hrest⟩

end Text

/-! ## Documents -/

namespace Json

open Decimal (Numeral)

mutual

/-- the document without what its text does not tell: a real that is no number is `null` -/
def plain : Json → Json
  | .real d => if d.isFinite then .real d else .null
  | .array items => .array (plainItems items)
  | .object members => .object (plainMembers members)
  | .null => .null
  | .bool b => .bool b
  | .int n => .int n
  | .text s => .text s

def plainItems : List Json → List Json
  | [] => []
  | item :: rest => item.plain :: plainItems rest

def plainMembers : List (String × Json) → List (String × Json)
  | [] => []
  | (key, value) :: rest => (key, value.plain) :: plainMembers rest

end

mutual

/-- The text is that of the plain document. -/
theorem write_plain (j : Json) : j.plain.write = j.write := by
  cases j with
  | real d =>
    rw [plain]
    split
    · rfl
    · rename_i hd
      rw [write, write, realText, if_neg hd]
  | array items => rw [plain, write, write, writeItems_plain items]
  | object members => rw [plain, write, write, writeMembers_plain members]
  | _ => rfl
termination_by structural j

theorem writeItems_plain (items : List Json) : writeItems (plainItems items) = writeItems items := by
  match items with
  | [] => rfl
  | [item] => rw [plainItems, plainItems, writeItems, writeItems, write_plain item]
  | item :: next :: rest =>
    have hrest := writeItems_plain (next :: rest)
    rw [plainItems] at hrest
    rw [plainItems, plainItems, writeItems, writeItems, write_plain item, hrest]
termination_by structural items

theorem writeMembers_plain (members : List (String × Json)) :
    writeMembers (plainMembers members) = writeMembers members := by
  match members with
  | [] => rfl
  | [(key, value)] => rw [plainMembers, plainMembers, writeMembers, writeMembers, write_plain value]
  | (key, value) :: (key', value') :: rest =>
    have hrest := writeMembers_plain ((key', value') :: rest)
    rw [plainMembers] at hrest
    rw [plainMembers, plainMembers, writeMembers, writeMembers, write_plain value, hrest]
termination_by structural members

end

/-- the kind of document that a first character tells -/
def lead (c : Char) : Char := if c.isDigit || c = '-' then '0' else c

/-- the kind of a document, by its first character -/
def mark : Json → Char
  | .null => 'n'
  | .bool b => if b then 't' else 'f'
  | .int _ => '0'
  | .real d => if d.isFinite then '0' else 'n'
  | .text _ => '"'
  | .array _ => '['
  | .object _ => '\x7b'

theorem lead_of_digit {c : Char} (h : c.isDigit ∨ c = '-') : lead c = '0' := by
  rw [lead, if_pos (by simpa using h)]

/-! ### Numbers -/

/-- an integer as a numeral -/
def intNumeral (n : ℤ) : Numeral := ⟨Nat.toDigits 10 n.natAbs, none, none⟩

theorem intNumeral_wellformed (n : ℤ) : (intNumeral n).Wellformed :=
  ⟨Nat.toDigits_ne_nil, fun _ hc => Decimal.isDigit_of_mem hc, by simp [intNumeral], by simp [intNumeral]⟩

theorem int_signed (n : ℤ) : (toString n).toList = (intNumeral n).signed (n < 0) := by
  rw [Int.toString_eq_repr, Int.repr_eq_if]
  by_cases hn : 0 ≤ n
  · rw [if_pos hn, decide_eq_false (not_lt.2 hn), Nat.repr_eq_ofList_toDigits, String.toList_ofList,
      show n.toNat = n.natAbs by omega]
    simp [Numeral.signed, Numeral.text, intNumeral, Numeral.fractionText, Numeral.exponentText]
  · rw [if_neg hn, decide_eq_true (not_le.1 hn), String.toList_append, Nat.repr_eq_ofList_toDigits,
      String.toList_ofList, show (-n).toNat = n.natAbs by omega]
    simp [Numeral.signed, Numeral.text, intNumeral, Numeral.fractionText, Numeral.exponentText]

theorem int_eq_of_text {n n' : ℤ} (h : (toString n).toList = (toString n').toList) : n = n' := by
  rw [int_signed, int_signed] at h
  obtain ⟨hsign, hnumeral⟩ := Numeral.signed_injective (intNumeral_wellformed n) (intNumeral_wellformed n') h
  have habs : n.natAbs = n'.natAbs := by
    have hdigits : Nat.toDigits 10 n.natAbs = Nat.toDigits 10 n'.natAbs := congrArg Numeral.whole hnumeral
    rw [← Nat.ofDigitChars_ten_toDigits (n := n.natAbs), hdigits, Nat.ofDigitChars_ten_toDigits]
  rw [decide_eq_decide] at hsign
  omega

/-- A real has a point or an exponent, which no integer has. -/
theorem int_ne_real (n : ℤ) (d : Double) : (toString n).toList ≠ (Decimal.Layout.document.write d).toList := by
  intro h
  obtain ⟨m, hm, hparts, -, htext⟩ := Decimal.document_numeral d
  rw [int_signed, htext] at h
  obtain ⟨-, rfl⟩ := Numeral.signed_injective (intNumeral_wellformed n) hm h
  simp [intNumeral] at hparts

/-! ### Scalars -/

/-- documents without parts -/
def isScalar : Json → Bool
  | .text _ | .array _ | .object _ => false
  | .null | .bool _ | .int _ | .real _ => true

/-- what does not end a value -/
def inner (c : Char) : Bool := c ≠ ',' && c ≠ ']' && c ≠ '\x7d'

theorem inner_signed {negative : Bool} {n : Numeral} (hn : n.Wellformed) : ∀ c ∈ n.signed negative, inner c := by
  intro c hc
  rcases Numeral.mem_signed negative hn c hc with hdigit | hmem
  · by_contra hinner
    have hends : c = ',' ∨ c = ']' ∨ c = '\x7d' := by
      simp only [inner, Bool.and_eq_true, decide_eq_true_eq] at hinner
      tauto
    rcases hends with rfl | rfl | rfl <;> exact absurd hdigit (by decide)
  · have hall : ['-', '+', '.', 'e'].all inner := by decide
    exact List.all_eq_true.1 hall c hmem

theorem inner_write {j : Json} (hj : j.isScalar) : ∀ c ∈ j.write.toList, inner c := by
  have hnull : "null".toList.all inner := by decide
  have hbool : ∀ b : Bool, (Json.bool b).write.toList.all inner := by decide
  cases j with
  | null => exact List.all_eq_true.1 hnull
  | bool b => exact List.all_eq_true.1 (hbool b)
  | int n =>
    rw [write, int_signed]
    exact inner_signed (intNumeral_wellformed n)
  | real d =>
    rw [write, realText]
    split
    · obtain ⟨m, hm, -, -, htext⟩ := Decimal.document_numeral d
      rw [htext]
      exact inner_signed hm
    · exact List.all_eq_true.1 hnull
  | text s => cases hj
  | array items => cases hj
  | object members => cases hj

theorem write_array (items : List Json) : (array items).write.toList = '[' :: ((writeItems items).toList ++ [']']) := by
  simp [write]

theorem write_object (members : List (String × Json)) :
    (object members).write.toList = '\x7b' :: ((writeMembers members).toList ++ ['\x7d']) := by
  simp [write]

/-- The first character tells the kind. -/
theorem write_eq_cons (j : Json) : ∃ c cs, j.write.toList = c :: cs ∧ lead c = j.mark := by
  have hnumber : ∀ (negative : Bool) {m : Numeral}, m.Wellformed →
      ∃ c cs, m.signed negative = c :: cs ∧ lead c = '0' := by
    intro negative m hm
    obtain ⟨c, cs, hcs, hc⟩ := Numeral.signed_eq_cons negative hm
    exact ⟨c, cs, hcs, lead_of_digit hc⟩
  cases j with
  | null => exact ⟨_, _, rfl, rfl⟩
  | bool b => cases b <;> exact ⟨_, _, rfl, rfl⟩
  | int n =>
    rw [write, int_signed]
    exact hnumber _ (intNumeral_wellformed n)
  | real d =>
    rw [write, realText, mark]
    split
    · obtain ⟨m, hm, -, -, htext⟩ := Decimal.document_numeral d
      rw [htext]
      exact hnumber _ hm
    · exact ⟨_, _, rfl, rfl⟩
  | text s => exact ⟨_, _, String.toList_ofList, rfl⟩
  | array items => exact ⟨_, _, write_array items, rfl⟩
  | object members => exact ⟨_, _, write_object members, rfl⟩

theorem mark_eq {j k : Json} {rest rest' : List Char} (h : j.write.toList ++ rest = k.write.toList ++ rest') :
    j.mark = k.mark := by
  obtain ⟨c, cs, hcs, hc⟩ := write_eq_cons j
  obtain ⟨c', cs', hcs', hc'⟩ := write_eq_cons k
  rw [hcs, hcs'] at h
  rw [← hc, ← hc', (List.cons.inj h).1]

/-- the scalar of a kind that is no number's -/
def ofMark (c : Char) : Json := if c = 't' then .bool true else if c = 'f' then .bool false else .null

theorem plain_of_mark {j : Json} (hj : j.isScalar) (h : j.mark ≠ '0') : j.plain = ofMark j.mark := by
  cases j with
  | null => rfl
  | bool b => cases b <;> rfl
  | int n => exact absurd rfl h
  | real d =>
    by_cases hd : d.isFinite
    · exact absurd (if_pos hd) h
    · rw [mark, if_neg hd, plain, if_neg hd]
      rfl
  | _ => cases hj

theorem number_of_mark {j : Json} (hj : j.isScalar) (h : j.mark = '0') :
    (∃ n, j = .int n) ∨ ∃ d, j = .real d ∧ d.isFinite := by
  cases j with
  | null => cases h
  | bool b => cases b <;> cases h
  | int n => exact .inl ⟨n, rfl⟩
  | real d =>
    by_cases hd : d.isFinite
    · exact .inr ⟨d, rfl, hd⟩
    · rw [mark, if_neg hd] at h
      cases h
  | _ => cases hj

theorem write_real {d : Double} (hd : d.isFinite) : (real d).write = Decimal.Layout.document.write d := by
  rw [write, realText, if_pos hd]

/-- Scalars of one text are one, up to what is written `null`. -/
theorem scalar_eq {j k : Json} (hj : j.isScalar) (hk : k.isScalar) (h : j.write.toList = k.write.toList) :
    j.plain = k.plain := by
  have hmark : j.mark = k.mark := mark_eq (by rw [h] : j.write.toList ++ [] = k.write.toList ++ [])
  by_cases hnumber : j.mark = '0'
  · rcases number_of_mark hj hnumber with ⟨n, rfl⟩ | ⟨d, rfl, hd⟩ <;>
      rcases number_of_mark hk (hmark ▸ hnumber) with ⟨n', rfl⟩ | ⟨d', rfl, hd'⟩
    · rw [int_eq_of_text h]
    · exact absurd (write_real hd' ▸ h) (int_ne_real n d')
    · exact absurd (write_real hd ▸ h.symm) (int_ne_real n' d)
    · rw [write_real hd, write_real hd'] at h
      rw [Decimal.Layout.document_write_injective (String.toList_inj.1 h)]
  · rw [plain_of_mark hj hnumber, plain_of_mark hk (hmark ▸ hnumber), hmark]

/-! ### Whole documents -/

/-- what can follow a value -/
def Ends (rest : List Char) : Prop := ∀ c ∈ rest.head?, ¬inner c

/-- the text after the first of several parts -/
def afterFirst (text : String) (more : Bool) : List Char := if more then ',' :: text.toList else []

theorem writeItems_cons (item : Json) (rest : List Json) :
    (writeItems (item :: rest)).toList = item.write.toList ++ afterFirst (writeItems rest) (!rest.isEmpty) := by
  cases rest with
  | nil => simp [writeItems, afterFirst]
  | cons next rest => simp [writeItems, afterFirst]

theorem writeMembers_cons (key : String) (value : Json) (rest : List (String × Json)) :
    (writeMembers ((key, value) :: rest)).toList = (Text.documentQuote key).toList ++
      ':' :: (value.write.toList ++ afterFirst (writeMembers rest) (!rest.isEmpty)) := by
  cases rest with
  | nil => simp [writeMembers, afterFirst]
  | cons next rest => simp [writeMembers, afterFirst]

/-- What follows the first of several parts is a comma or the closing bracket. -/
theorem ends_afterFirst {close : Char} (hclose : ¬inner close) (text : String) (more : Bool) (rest : List Char) :
    Ends (afterFirst text more ++ close :: rest) := by
  cases more with
  | false =>
    rintro c ⟨⟩
    exact hclose
  | true =>
    rintro c ⟨⟩
    decide

/-- Either both have more parts or neither. -/
theorem afterFirst_split {close : Char} (hcomma : close ≠ ',') {text text' : String} {more more' : Bool}
    {rest rest' : List Char}
    (h : afterFirst text more ++ close :: rest = afterFirst text' more' ++ close :: rest') :
    more = more' ∧ (more = false → rest = rest') ∧
      (more = true → text.toList ++ close :: rest = text'.toList ++ close :: rest') := by
  cases more <;> cases more'
  · exact ⟨rfl, fun _ => (List.cons.inj h).2, nofun⟩
  · exact absurd (List.cons.inj h).1 hcomma
  · exact absurd (List.cons.inj h).1.symm hcomma
  · exact ⟨rfl, nofun, fun _ => (List.cons.inj h).2⟩

theorem scalar_split {j k : Json} (hj : j.isScalar) (hk : k.isScalar) {rest rest' : List Char}
    (hrest : Ends rest) (hrest' : Ends rest') (h : j.write.toList ++ rest = k.write.toList ++ rest') :
    j.plain = k.plain ∧ rest = rest' := by
  obtain ⟨hwrite, hends⟩ := append_inj_of_forall (inner_write hj) (inner_write hk) hrest hrest' h
  exact ⟨scalar_eq hj hk hwrite, hends⟩

theorem isScalar_iff (j : Json) : j.isScalar ↔ j.mark ≠ '"' ∧ j.mark ≠ '[' ∧ j.mark ≠ '\x7b' := by
  cases j with
  | bool b => cases b <;> simp [isScalar, mark]
  | real d =>
    rw [mark]
    split <;> simp [isScalar]
  | _ => simp [isScalar, mark]

/-- No value begins with a closing bracket. -/
theorem write_ne_close (j : Json) (x rest : List Char) : j.write.toList ++ x ≠ ']' :: rest := by
  intro h
  obtain ⟨c, cs, hcs, hc⟩ := write_eq_cons j
  rw [hcs] at h
  have hclose : j.mark = ']' := by
    rw [← hc, (List.cons.inj h).1]
    rfl
  cases j with
  | bool b => cases b <;> cases hclose
  | real d =>
    rw [mark] at hclose
    split at hclose <;> cases hclose
  | _ => cases hclose

mutual

/-- A document is told from what follows it. -/
theorem write_split (j k : Json) (rest rest' : List Char) (hrest : Ends rest) (hrest' : Ends rest')
    (h : j.write.toList ++ rest = k.write.toList ++ rest') : j.plain = k.plain ∧ rest = rest' := by
  have hmark := mark_eq h
  have hscalar : j.isScalar ↔ k.isScalar := by rw [isScalar_iff, isScalar_iff, hmark]
  cases j with
  | text s =>
    cases k with
    | text s' =>
      rw [write, write] at h
      obtain ⟨rfl, hends⟩ := Text.documentQuote_split h
      exact ⟨rfl, hends⟩
    | array items => cases hmark
    | object members => cases hmark
    | _ => exact absurd (hscalar.2 rfl) Bool.false_ne_true
  | array items =>
    cases k with
    | array items' =>
      rw [write_array, write_array, List.cons_append, List.cons_append, List.append_assoc, List.append_assoc] at h
      obtain ⟨hitems, hends⟩ := writeItems_split items items' rest rest' (List.cons.inj h).2
      exact ⟨by rw [plain, plain, hitems], hends⟩
    | text s => cases hmark
    | object members => cases hmark
    | _ => exact absurd (hscalar.2 rfl) Bool.false_ne_true
  | object members =>
    cases k with
    | object members' =>
      rw [write_object, write_object, List.cons_append, List.cons_append, List.append_assoc, List.append_assoc] at h
      obtain ⟨hmembers, hends⟩ := writeMembers_split members members' rest rest' (List.cons.inj h).2
      exact ⟨by rw [plain, plain, hmembers], hends⟩
    | text s => cases hmark
    | array items => cases hmark
    | _ => exact absurd (hscalar.2 rfl) Bool.false_ne_true
  | null => exact scalar_split rfl (hscalar.1 rfl) hrest hrest' h
  | bool b => exact scalar_split rfl (hscalar.1 rfl) hrest hrest' h
  | int n => exact scalar_split rfl (hscalar.1 rfl) hrest hrest' h
  | real d => exact scalar_split rfl (hscalar.1 rfl) hrest hrest' h
termination_by structural j

theorem writeItems_split (items items' : List Json) (rest rest' : List Char)
    (h : (writeItems items).toList ++ ']' :: rest = (writeItems items').toList ++ ']' :: rest') :
    plainItems items = plainItems items' ∧ rest = rest' := by
  cases items with
  | nil =>
    cases items' with
    | nil => exact ⟨rfl, (List.cons.inj h).2⟩
    | cons item' items' =>
      rw [writeItems_cons, List.append_assoc] at h
      exact absurd h.symm (write_ne_close _ _ _)
  | cons item items =>
    cases items' with
    | nil =>
      rw [writeItems_cons, List.append_assoc] at h
      exact absurd h (write_ne_close _ _ _)
    | cons item' items' =>
      rw [writeItems_cons, writeItems_cons, List.append_assoc, List.append_assoc] at h
      have hclose : ¬inner ']' := by decide
      obtain ⟨hitem, htail⟩ :=
        write_split item item' _ _ (ends_afterFirst hclose _ _ _) (ends_afterFirst hclose _ _ _) h
      obtain ⟨hmore, hlast, hnext⟩ := afterFirst_split (by decide) htail
      have hothers : plainItems items = plainItems items' ∧ rest = rest' := by
        cases hempty : items.isEmpty with
        | true =>
          have hempty' : items'.isEmpty = true := by rw [← Bool.not_inj hmore, hempty]
          rw [List.isEmpty_iff.1 hempty, List.isEmpty_iff.1 hempty']
          exact ⟨rfl, hlast (by rw [hempty]; rfl)⟩
        | false => exact writeItems_split items items' rest rest' (hnext (by rw [hempty]; rfl))
      exact ⟨by rw [plainItems, plainItems, hitem, hothers.1], hothers.2⟩
termination_by structural items

theorem writeMembers_split (members members' : List (String × Json)) (rest rest' : List Char)
    (h : (writeMembers members).toList ++ '\x7d' :: rest = (writeMembers members').toList ++ '\x7d' :: rest') :
    plainMembers members = plainMembers members' ∧ rest = rest' := by
  cases members with
  | nil =>
    cases members' with
    | nil => exact ⟨rfl, (List.cons.inj h).2⟩
    | cons member' members' =>
      rw [writeMembers_cons, List.append_assoc, Text.documentQuote, String.toList_ofList] at h
      exact absurd (List.cons.inj h).1 (by decide)
  | cons member members =>
    obtain ⟨key, value⟩ := member
    cases members' with
    | nil =>
      rw [writeMembers_cons, List.append_assoc, Text.documentQuote, String.toList_ofList] at h
      exact absurd (List.cons.inj h).1 (by decide)
    | cons member' members' =>
      obtain ⟨key', value'⟩ := member'
      rw [writeMembers_cons, writeMembers_cons, List.append_assoc, List.append_assoc] at h
      obtain ⟨rfl, hvalues⟩ := Text.documentQuote_split h
      rw [List.cons_append, List.cons_append, List.append_assoc, List.append_assoc] at hvalues
      have hclose : ¬inner '\x7d' := by decide
      obtain ⟨hvalue, htail⟩ :=
        write_split value value' _ _ (ends_afterFirst hclose _ _ _) (ends_afterFirst hclose _ _ _)
          (List.cons.inj hvalues).2
      obtain ⟨hmore, hlast, hnext⟩ := afterFirst_split (by decide) htail
      have hothers : plainMembers members = plainMembers members' ∧ rest = rest' := by
        cases hempty : members.isEmpty with
        | true =>
          have hempty' : members'.isEmpty = true := by rw [← Bool.not_inj hmore, hempty]
          rw [List.isEmpty_iff.1 hempty, List.isEmpty_iff.1 hempty']
          exact ⟨rfl, hlast (by rw [hempty]; rfl)⟩
        | false => exact writeMembers_split members members' rest rest' (hnext (by rw [hempty]; rfl))
      exact ⟨by rw [plainMembers, plainMembers, hvalue, hothers.1], hothers.2⟩
termination_by structural members

end

/-- Documents have one text when they are the same up to the reals that are no number. -/
theorem write_eq_iff {j k : Json} : j.write = k.write ↔ j.plain = k.plain := by
  constructor
  · intro h
    exact (write_split j k [] [] nofun nofun (by rw [h])).1
  · intro h
    rw [← write_plain j, ← write_plain k, h]

end Json

end RelQuery
