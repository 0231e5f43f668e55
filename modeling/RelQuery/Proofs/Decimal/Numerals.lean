/-
Doubles told apart by their text.

`Numeral` is a number as it is written, by its parts; the parts are seen in the text, and the digits before and after
the point with the exponent give its value. What `Layout.document` writes for a double is the text of a numeral whose
value are the shortest digits, so two doubles of one text are one (`Layout.document_write_injective`).
-/
import RelQuery.Proofs.Decimal.Spacing
import RelQuery.Proofs.Lists

namespace RelQuery.Decimal

/-- a number without its sign, as it is written -/
structure Numeral where
  /-- the digits before the point -/
  whole : List Char
  /-- the digits after the point -/
  fraction : Option (List Char)
  /-- the sign and the digits of the exponent; `true` is negative -/
  exponent : Option (Bool × List Char)

namespace Numeral

/-- a point and the digits after it -/
def fractionText : Option (List Char) → List Char
  | none => []
  | some digits => '.' :: digits

/-- an exponent with its sign -/
def exponentText : Option (Bool × List Char) → List Char
  | none => []
  | some (negative, digits) => 'e' :: (if negative then '-' else '+') :: digits

def text (n : Numeral) : List Char := n.whole ++ (fractionText n.fraction ++ exponentText n.exponent)

/-- every part is digits -/
structure Wellformed (n : Numeral) : Prop where
  nonempty : n.whole ≠ []
  whole : ∀ c ∈ n.whole, c.isDigit
  fraction : ∀ c ∈ n.fraction.getD [], c.isDigit
  exponent : ∀ x ∈ n.exponent, ∀ c ∈ x.2, c.isDigit

def exponentValue : Option (Bool × List Char) → ℤ
  | none => 0
  | some (true, digits) => -(Nat.ofDigitChars 10 digits 0 : ℤ)
  | some (false, digits) => Nat.ofDigitChars 10 digits 0

/-- the rational that is written -/
def value (n : Numeral) : ℚ :=
  Nat.ofDigitChars 10 (n.whole ++ n.fraction.getD []) 0 *
    10 ^ (exponentValue n.exponent - (n.fraction.getD []).length)

theorem exponentText_injective {x y : Option (Bool × List Char)} (h : exponentText x = exponentText y) : x = y := by
  rcases x with _ | ⟨negative, digits⟩ <;> rcases y with _ | ⟨negative', digits'⟩
  · rfl
  · cases h
  · cases h
  · simp only [exponentText, List.cons.injEq, true_and] at h
    obtain ⟨hsign, rfl⟩ := h
    cases negative <;> cases negative' <;> simp_all

theorem exponentText_head (x : Option (Bool × List Char)) : ∀ c ∈ (exponentText x).head?, c = 'e' := by
  rcases x with _ | ⟨negative, digits⟩ <;> simp [exponentText]

theorem tail_head (f : Option (List Char)) (x : Option (Bool × List Char)) :
    ∀ c ∈ (fractionText f ++ exponentText x).head?, ¬c.isDigit := by
  rcases f with _ | digits
  · intro c hc
    rw [exponentText_head x c hc]
    decide
  · intro c hc
    simp only [fractionText, List.cons_append, List.head?_cons, Option.mem_def, Option.some.injEq] at hc
    rw [← hc]
    decide

/-- The parts are seen in the text. -/
theorem eq_of_text_eq {n n' : Numeral} (hn : n.Wellformed) (hn' : n'.Wellformed) (h : n.text = n'.text) : n = n' := by
  obtain ⟨whole, fraction, exponent⟩ := n
  obtain ⟨whole', fraction', exponent'⟩ := n'
  obtain ⟨rfl, htail⟩ := append_inj_of_forall hn.whole hn'.whole (tail_head _ _) (tail_head _ _) h
  have hfe : fraction = fraction' ∧ exponentText exponent = exponentText exponent' := by
    rcases fraction with _ | digits <;> rcases fraction' with _ | digits'
    · exact ⟨rfl, htail⟩
    · exact absurd (exponentText_head exponent '.' (by rw [show exponentText exponent = _ from htail]; rfl)) (by decide)
    · exact absurd (exponentText_head exponent' '.' (by rw [show exponentText exponent' = _ from htail.symm]; rfl))
        (by decide)
    · simp only [fractionText, List.cons_append, List.cons.injEq, true_and] at htail
      have hhead : ∀ x, ∀ c ∈ (exponentText x).head?, ¬c.isDigit := fun x => tail_head none x
      obtain ⟨rfl, he⟩ := append_inj_of_forall hn.fraction hn'.fraction (hhead _) (hhead _) htail
      exact ⟨rfl, he⟩
  obtain ⟨rfl, he⟩ := hfe
  rw [exponentText_injective he]

theorem Wellformed.text_eq_cons {n : Numeral} (hn : n.Wellformed) : ∃ c cs, n.text = c :: cs ∧ c.isDigit := by
  obtain ⟨whole, fraction, exponent⟩ := n
  cases whole with
  | nil => exact absurd rfl hn.nonempty
  | cons c cs => exact ⟨c, _, rfl, hn.whole c List.mem_cons_self⟩

/-- a numeral after its sign -/
def signed (negative : Bool) (n : Numeral) : List Char := (if negative then ['-'] else []) ++ n.text

theorem signed_eq_cons (negative : Bool) {n : Numeral} (hn : n.Wellformed) :
    ∃ c cs, n.signed negative = c :: cs ∧ (c.isDigit ∨ c = '-') := by
  obtain ⟨c, cs, hcs, hc⟩ := hn.text_eq_cons
  cases negative
  · exact ⟨c, cs, hcs, .inl hc⟩
  · exact ⟨'-', n.text, rfl, .inr rfl⟩

theorem mem_signed (negative : Bool) {n : Numeral} (hn : n.Wellformed) :
    ∀ c ∈ n.signed negative, c.isDigit ∨ c ∈ ['-', '+', '.', 'e'] := by
  obtain ⟨whole, fraction, exponent⟩ := n
  intro c hc
  simp only [signed, text, List.mem_append] at hc
  rcases hc with hsign | hwhole | hfraction | hexponent
  · cases negative <;> simp_all
  · exact .inl (hn.whole c hwhole)
  · rcases fraction with _ | digits
    · cases hfraction
    · rcases List.mem_cons.1 hfraction with rfl | hdigit
      · decide
      · exact .inl (hn.fraction c hdigit)
  · rcases exponent with _ | ⟨negative, digits⟩
    · cases hexponent
    · rcases List.mem_cons.1 hexponent with rfl | hrest
      · decide
      · rcases List.mem_cons.1 hrest with rfl | hdigit
        · cases negative <;> decide
        · exact .inl (hn.exponent _ rfl c hdigit)

/-- Sign and parts are seen in the text. -/
theorem signed_injective {negative negative' : Bool} {n n' : Numeral} (hn : n.Wellformed) (hn' : n'.Wellformed)
    (h : n.signed negative = n'.signed negative') : negative = negative' ∧ n = n' := by
  obtain ⟨c, cs, hcs, hc⟩ := hn.text_eq_cons
  obtain ⟨c', cs', hcs', hc'⟩ := hn'.text_eq_cons
  have hminus : ∀ x : Char, x.isDigit → x ≠ '-' := fun x hx hminus => by rw [hminus] at hx; exact absurd hx (by decide)
  cases negative <;> cases negative'
  · exact ⟨rfl, eq_of_text_eq hn hn' h⟩
  · have hcons : c :: cs = '-' :: n'.text := hcs ▸ h
    exact absurd (List.cons.inj hcons).1 (hminus c hc)
  · have hcons : '-' :: n.text = c' :: cs' := hcs' ▸ h
    exact absurd (List.cons.inj hcons).1.symm (hminus c' hc')
  · exact ⟨rfl, eq_of_text_eq hn hn' (List.cons.inj h).2⟩

end Numeral

/-! ## The text of a double -/

section Written

variable {n : ℕ} {scale : ℤ}

theorem isDigit_of_mem {c : Char} (h : c ∈ Nat.toDigits 10 n) : c.isDigit :=
  Nat.isDigit_of_mem_toDigits (by norm_num) (by norm_num) h

theorem forall_isDigit_append {xs ys : List Char} (hx : ∀ c ∈ xs, c.isDigit) (hy : ∀ c ∈ ys, c.isDigit) :
    ∀ c ∈ xs ++ ys, c.isDigit := fun c hc => (List.mem_append.1 hc).elim (hx c) (hy c)

theorem forall_isDigit_zeros (k : ℕ) : ∀ c ∈ List.replicate k '0', c.isDigit :=
  fun c hc => by rw [List.eq_of_mem_replicate hc]; decide

/-- Positional notation writes the number. -/
theorem positional_numeral (n : ℕ) (scale : ℤ) :
    ∃ m : Numeral, m.Wellformed ∧ m.fraction.isSome ∧ m.value = n * 10 ^ scale ∧
      (positional (Nat.toDigits 10 n) ((Nat.toDigits 10 n).length - 1 + scale)).toList = m.text := by
  have hdigits : ∀ c ∈ Nat.toDigits 10 n, c.isDigit := fun c hc => isDigit_of_mem hc
  have hvalue : Nat.ofDigitChars 10 (Nat.toDigits 10 n) 0 = n := Nat.ofDigitChars_ten_toDigits
  have hne : Nat.toDigits 10 n ≠ [] := Nat.toDigits_ne_nil
  generalize Nat.toDigits 10 n = text at hdigits hvalue hne
  have hpos : 0 < text.length := List.length_pos_iff.2 hne
  generalize hlead : (text.length : ℤ) - 1 + scale = leading
  unfold positional
  split
  · rename_i hneg
    refine ⟨⟨['0'], some (List.replicate (leading.natAbs - 1) '0' ++ text), none⟩,
      ⟨List.cons_ne_nil _ _, forall_isDigit_zeros 1, forall_isDigit_append (forall_isDigit_zeros _) hdigits,
        by simp⟩, rfl, ?_, ?_⟩
    · have hlen : (0 : ℤ) - (List.replicate (leading.natAbs - 1) '0' ++ text).length = scale := by
        rw [List.length_append, List.length_replicate]
        omega
      simp only [Numeral.value, Numeral.exponentValue, Option.getD_some, hlen]
      rw [Nat.ofDigitChars_append, Nat.ofDigitChars_append, Nat.ofDigitChars_replicate_zero]
      simp [Nat.ofDigitChars_cons, Nat.ofDigitChars_nil, hvalue]
    · simp [Numeral.text, Numeral.fractionText, Numeral.exponentText]
  · rename_i hneg
    dsimp only
    split
    · rename_i hshort
      refine ⟨⟨text ++ List.replicate (leading.toNat + 1 - text.length) '0', some ['0'], none⟩,
        ⟨List.append_ne_nil_of_left_ne_nil hne _, forall_isDigit_append hdigits (forall_isDigit_zeros _),
          forall_isDigit_zeros 1, by simp⟩, rfl, ?_, ?_⟩
      · obtain ⟨k, hk⟩ : ∃ k : ℕ, scale = k := ⟨scale.toNat, by omega⟩
        have hzeros : leading.toNat + 1 - text.length = k := by omega
        simp only [Numeral.value, Numeral.exponentValue, Option.getD_some, hzeros, hk, zpow_natCast]
        rw [Nat.ofDigitChars_append, Nat.ofDigitChars_append, hvalue, Nat.ofDigitChars_replicate_zero]
        simp [Nat.ofDigitChars_cons, Nat.ofDigitChars_nil]
        ring
      · simp [Numeral.text, Numeral.fractionText, Numeral.exponentText]
    · rename_i hlong
      refine ⟨⟨text.take (leading.toNat + 1), some (text.drop (leading.toNat + 1)), none⟩,
        ⟨mt List.take_eq_nil_iff.1 (by simp [hne]), fun c hc => hdigits c (List.mem_of_mem_take hc),
          fun c hc => hdigits c (List.mem_of_mem_drop hc), by simp⟩, rfl, ?_, ?_⟩
      · have hlen : (0 : ℤ) - (text.drop (leading.toNat + 1)).length = scale := by
          rw [List.length_drop]
          omega
        simp only [Numeral.value, Numeral.exponentValue, Option.getD_some, List.take_append_drop, hvalue, hlen]
      · simp [Numeral.text, Numeral.fractionText, Numeral.exponentText]

/-- Scientific notation writes the number. -/
theorem scientific_numeral (n : ℕ) (scale : ℤ) :
    ∃ m : Numeral, m.Wellformed ∧ m.exponent.isSome ∧ m.value = n * 10 ^ scale ∧
      (scientific "+" (Nat.toDigits 10 n) ((Nat.toDigits 10 n).length - 1 + scale)).toList = m.text := by
  have hdigits : ∀ c ∈ Nat.toDigits 10 n, c.isDigit := fun c hc => isDigit_of_mem hc
  have hvalue : Nat.ofDigitChars 10 (Nat.toDigits 10 n) 0 = n := Nat.ofDigitChars_ten_toDigits
  have hne : Nat.toDigits 10 n ≠ [] := Nat.toDigits_ne_nil
  generalize Nat.toDigits 10 n = text at hdigits hvalue hne
  generalize hlead : (text.length : ℤ) - 1 + scale = leading
  have hexp : ∃ x : Option (Bool × List Char), x.isSome ∧ (∀ y ∈ x, ∀ c ∈ y.2, c.isDigit) ∧
      Numeral.exponentValue x = leading ∧
      'e' :: (if leading < 0 then "-" ++ toString leading.natAbs else "+" ++ toString leading.natAbs).toList =
        Numeral.exponentText x := by
    refine ⟨some (decide (leading < 0), Nat.toDigits 10 leading.natAbs), rfl, ?_, ?_, ?_⟩
    · rintro _ ⟨⟩ c hc
      exact isDigit_of_mem hc
    · by_cases hneg : leading < 0
      · rw [decide_eq_true hneg, Numeral.exponentValue, Nat.ofDigitChars_ten_toDigits]
        omega
      · rw [decide_eq_false hneg, Numeral.exponentValue, Nat.ofDigitChars_ten_toDigits]
        omega
    · split <;> simp_all [Numeral.exponentText]
  obtain ⟨x, hx, hxdigits, hxvalue, hxtext⟩ := hexp
  cases text with
  | nil => exact absurd rfl hne
  | cons c rest =>
    have hc : ∀ x ∈ [c], x.isDigit := fun x hx => hdigits x (by rw [List.mem_singleton.1 hx]; exact List.mem_cons_self)
    have hrest : ∀ x ∈ rest, x.isDigit := fun x hx => hdigits x (List.mem_cons_of_mem _ hx)
    cases rest with
    | nil =>
      refine ⟨⟨[c], none, x⟩, ⟨List.cons_ne_nil _ _, hc, (fun _ h => by cases h), hxdigits⟩, hx, ?_, ?_⟩
      · have hscale : leading = scale := by simpa using hlead.symm
        simp [Numeral.value, hvalue, hxvalue, hscale]
      · rw [Numeral.text, ← hxtext]
        simp [scientific, Numeral.fractionText]
    | cons next rest =>
      refine ⟨⟨[c], some (next :: rest), x⟩, ⟨List.cons_ne_nil _ _, hc, hrest, hxdigits⟩, hx, ?_, ?_⟩
      · have hscale : leading - (next :: rest).length = scale := by
          rw [List.length_cons] at hlead
          omega
        simp only [Numeral.value, Option.getD_some, List.singleton_append, hvalue, hxvalue, hscale]
      · rw [Numeral.text, ← hxtext]
        simp [scientific, Numeral.fractionText]

theorem trimmed_value (fuel : ℕ) (d : Digits) :
    ((d.trimmed fuel).digits : ℚ) * 10 ^ (d.trimmed fuel).scale = d.digits * 10 ^ d.scale := by
  induction fuel generalizing d with
  | zero => rfl
  | succ fuel ih =>
    rw [Digits.trimmed]
    split
    · rename_i h
      simp only [Bool.and_eq_true, bne_iff_ne, ne_eq, decide_eq_true_eq] at h
      have hten : d.digits = d.digits / 10 * 10 := by omega
      rw [ih, zpow_add_one₀ (by norm_num)]
      conv_rhs => rw [hten]
      push_cast
      ring
    · rfl

/-- Both notations write the number, with a point or an exponent. -/
theorem body_numeral (n : ℕ) (scale : ℤ) {leading : ℤ} (hlead : (Nat.toDigits 10 n).length - 1 + scale = leading) :
    ∃ m : Numeral, m.Wellformed ∧ (m.fraction.isSome ∨ m.exponent.isSome) ∧ m.value = n * 10 ^ scale ∧
      (if Layout.document.positionalFrom ≤ leading ∧ leading ≤ Layout.document.positionalTo
        then positional (Nat.toDigits 10 n) leading
        else scientific Layout.document.positiveSign (Nat.toDigits 10 n) leading).toList = m.text := by
  subst hlead
  split
  · obtain ⟨m, hm, hsome, hvalue, htext⟩ := positional_numeral n scale
    exact ⟨m, hm, .inl hsome, hvalue, htext⟩
  · obtain ⟨m, hm, hsome, hvalue, htext⟩ := scientific_numeral n scale
    exact ⟨m, hm, .inr hsome, hvalue, htext⟩

/-- A double is written as a numeral after its sign; its value are the shortest digits. -/
theorem document_numeral (d : Double) :
    ∃ m : Numeral, m.Wellformed ∧ (m.fraction.isSome ∨ m.exponent.isSome) ∧
      m.value = (shortest d).digits * 10 ^ (shortest d).scale ∧
      (Layout.document.write d).toList = m.signed d.isNegative := by
  have hvalue := trimmed_value 20 (shortest d)
  unfold Layout.write
  generalize (shortest d).trimmed 20 = digits at hvalue
  obtain ⟨m, hm, hsome, hmvalue, htext⟩ := body_numeral digits.digits digits.scale rfl
  refine ⟨m, hm, hsome, hmvalue.trans hvalue, ?_⟩
  rw [Numeral.signed, ← htext]
  cases d.isNegative
  · rfl
  · exact String.toList_append

/-- No two doubles are written alike. -/
theorem Layout.document_write_injective : Function.Injective Layout.document.write := by
  intro d d' h
  obtain ⟨m, hm, -, hvalue, htext⟩ := document_numeral d
  obtain ⟨m', hm', -, hvalue', htext'⟩ := document_numeral d'
  obtain ⟨hsign, rfl⟩ := Numeral.signed_injective hm hm' (by rw [← htext, ← htext', h])
  have hheld := shortest_holds d
  have hheld' := shortest_holds d'
  rw [← hvalue, hvalue'] at hheld
  exact Double.eq_of_pattern_eq hsign (pattern_eq_of_holds hheld hheld')

end Written

end RelQuery.Decimal
