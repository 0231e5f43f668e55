/-
How doubles lie among the rationals.

Without its sign a finite double is its pattern, a number below `2047 * 2 ^ 52`, and patterns lie in the order of the
values they stand for. `Magnitude.ofPattern` is that value: the next pattern is one gap `2 ^ exponent` further, and the
gap doubles after a full binade.
- `shortest_contained`: the shortest digits of a finite double lie in the interval that reads back as it, so the
  seventeen grids that are searched suffice.
- `pattern_eq_of_contained`: no rational lies in the intervals of two patterns, the ends being closed on even ones.
-/
import Mathlib.Algebra.Order.Floor.Semifield
import Mathlib.Tactic
import RelQuery.Decimal.Layout

namespace RelQuery

namespace Double

/-- the bits without the sign -/
def pattern (d : Double) : ℕ := d.bits.toNat % Nat.pow 2 63

theorem exponentField_eq (d : Double) : d.exponentField = d.pattern / Nat.pow 2 52 := by
  have := d.bits.toNat_lt
  simp only [exponentField, pattern, show Nat.pow 2 52 = 4503599627370496 from rfl,
    show Nat.pow 2 63 = 9223372036854775808 from rfl, show Nat.pow 2 11 = 2048 from rfl]
  omega

theorem fractionField_eq (d : Double) : d.fractionField = d.pattern % Nat.pow 2 52 := by
  simp only [fractionField, pattern, show Nat.pow 2 52 = 4503599627370496 from rfl,
    show Nat.pow 2 63 = 9223372036854775808 from rfl]
  omega

/-- a double is its sign and its pattern -/
theorem eq_of_pattern_eq {d d' : Double} (hs : d.isNegative = d'.isNegative) (hp : d.pattern = d'.pattern) :
    d = d' := by
  have h := d.bits.toNat_lt
  have h' := d'.bits.toNat_lt
  simp only [isNegative, pattern, show Nat.pow 2 63 = 9223372036854775808 from rfl, decide_eq_decide] at hs hp
  have hbits : d.bits = d'.bits := UInt64.toNat_inj.1 (by omega)
  cases d
  cases d'
  exact congrArg Double.mk hbits

namespace Magnitude

/-- the value of a pattern -/
def ofPattern (b : ℕ) : Magnitude :=
  if b / Nat.pow 2 52 = 0 then ⟨b % Nat.pow 2 52, -1074⟩
  else ⟨Nat.pow 2 52 + b % Nat.pow 2 52, (b / Nat.pow 2 52 : ℕ) - 1075⟩

/-- the rational it stands for -/
def value (m : Magnitude) : ℚ := m.mantissa * 2 ^ m.exponent

/-- the gap to the next pattern -/
def gap (m : Magnitude) : ℚ := 2 ^ m.exponent

theorem gap_pos (m : Magnitude) : 0 < m.gap := by unfold gap; positivity

theorem value_eq (m : Magnitude) : m.value = m.mantissa * m.gap := rfl

end Magnitude

/-- the first pattern of a binade whose gaps are twice those before it -/
def startsWider (b : ℕ) : Prop := b % Nat.pow 2 52 = 0 ∧ 1 < b / Nat.pow 2 52

instance (b : ℕ) : Decidable (startsWider b) := inferInstanceAs (Decidable (_ ∧ _))

theorem magnitude_eq (d : Double) : d.magnitude = .ofPattern d.pattern := by
  simp only [magnitude, Magnitude.ofPattern, exponentField_eq, fractionField_eq]

theorem hasNarrowLowerGap_iff (d : Double) : d.hasNarrowLowerGap ↔ startsWider d.pattern := by
  simp [hasNarrowLowerGap, startsWider, exponentField_eq, fractionField_eq]

namespace Magnitude

variable (b : ℕ)

theorem mantissa_lt : (ofPattern b).mantissa < 9007199254740992 := by
  unfold ofPattern
  simp only [show Nat.pow 2 52 = 4503599627370496 from rfl]
  split <;> simp only <;> omega

variable {b} in
theorem mantissa_pos (h : 0 < b) : 0 < (ofPattern b).mantissa := by
  unfold ofPattern
  simp only [show Nat.pow 2 52 = 4503599627370496 from rfl]
  split <;> simp only <;> omega

theorem mantissa_of_startsWider (h : startsWider b) : (ofPattern b).mantissa = 4503599627370496 := by
  unfold ofPattern startsWider at *
  simp only [show Nat.pow 2 52 = 4503599627370496 from rfl] at *
  split <;> simp only <;> omega

theorem exponent_ge : -1074 ≤ (ofPattern b).exponent := by
  unfold ofPattern
  simp only [show Nat.pow 2 52 = 4503599627370496 from rfl]
  split <;> simp only <;> omega

theorem mantissa_mod_two : (ofPattern b).mantissa % 2 = b % 2 := by
  unfold ofPattern
  simp only [show Nat.pow 2 52 = 4503599627370496 from rfl]
  split <;> simp only <;> omega

/-- The exponent grows by one into a wider binade and stays else. -/
theorem exponent_succ :
    (ofPattern (b + 1)).exponent = (ofPattern b).exponent + if startsWider (b + 1) then 1 else 0 := by
  unfold ofPattern startsWider
  simp only [show Nat.pow 2 52 = 4503599627370496 from rfl]
  split_ifs <;> simp only <;> omega

/-- The mantissa counts on, and is halved into a wider binade. -/
theorem mantissa_succ :
    (ofPattern b).mantissa + 1 =
      (if startsWider (b + 1) then 2 else 1) * (ofPattern (b + 1)).mantissa := by
  unfold ofPattern startsWider
  simp only [show Nat.pow 2 52 = 4503599627370496 from rfl]
  split_ifs <;> simp only <;> omega

theorem gap_succ : (ofPattern (b + 1)).gap = (if startsWider (b + 1) then 2 else 1) * (ofPattern b).gap := by
  unfold gap
  rw [exponent_succ]
  split
  · rw [zpow_add₀ two_ne_zero, zpow_one, mul_comm]
  · rw [add_zero, one_mul]

/-- The next pattern is one gap further. -/
theorem value_succ : (ofPattern (b + 1)).value = (ofPattern b).value + (ofPattern b).gap := by
  have hm : ((ofPattern b).mantissa : ℚ) + 1 =
      (if startsWider (b + 1) then 2 else 1) * (ofPattern (b + 1)).mantissa := by
    have := mantissa_succ b
    split_ifs at this ⊢ <;> exact_mod_cast this
  rw [value_eq, value_eq, gap_succ]
  linear_combination -(ofPattern b).gap * hm

theorem value_strictMono : StrictMono fun b => (ofPattern b).value :=
  strictMono_nat_of_lt_succ fun b => by
    have := gap_pos (ofPattern b)
    rw [value_succ]
    linarith

/-- halfway to the next pattern -/
def middle : ℚ := (ofPattern b).value + (ofPattern b).gap / 2

theorem middle_strictMono : StrictMono middle :=
  strictMono_nat_of_lt_succ fun b => by
    have := gap_pos (ofPattern b)
    have := gap_pos (ofPattern (b + 1))
    rw [middle, middle, value_succ]
    linarith

end Magnitude

end Double

namespace Decimal

open Double (Magnitude)
open Double.Magnitude (ofPattern)

/-! ## Ratios -/

namespace Ratio

def toRat (r : Ratio) : ℚ := r.num / r.den

variable {r s : Ratio}

theorem lt_iff (hr : 0 < r.den) (hs : 0 < s.den) : r.lt s ↔ r.toRat < s.toRat := by
  have hr' : (0 : ℚ) < r.den := by exact_mod_cast hr
  have hs' : (0 : ℚ) < s.den := by exact_mod_cast hs
  rw [toRat, toRat, div_lt_div_iff₀ hr' hs']
  simp only [lt, decide_eq_true_eq]
  exact_mod_cast Iff.rfl

theorem le_iff (hr : 0 < r.den) (hs : 0 < s.den) : r.le s ↔ r.toRat ≤ s.toRat := by
  have hr' : (0 : ℚ) < r.den := by exact_mod_cast hr
  have hs' : (0 : ℚ) < s.den := by exact_mod_cast hs
  rw [toRat, toRat, div_le_div_iff₀ hr' hs']
  simp only [le, decide_eq_true_eq]
  exact_mod_cast Iff.rfl

variable (m : ℕ) {b : ℕ} (hb : 0 < b) (e : ℤ)
include hb

theorem scaled_den : 0 < (scaled m b e).den := by
  unfold scaled
  split
  · exact Nat.pow_pos hb
  · exact Nat.one_pos

theorem scaled_toRat : (scaled m b e).toRat = m * (b : ℚ) ^ e := by
  have hb' : (b : ℚ) ≠ 0 := by exact_mod_cast hb.ne'
  unfold scaled toRat
  split
  · rename_i h
    have he : e = -(e.natAbs : ℤ) := by omega
    conv_rhs => rw [he, zpow_neg, zpow_natCast]
    simp [div_eq_mul_inv]
  · rename_i h
    have he : e = (e.natAbs : ℤ) := by omega
    conv_rhs => rw [he, zpow_natCast]
    simp

end Ratio

/-! ## Intervals -/

/-- containment, among the rationals -/
def Interval.Holds (i : Interval) (q : ℚ) : Prop :=
  if i.closed then i.low.toRat ≤ q ∧ q ≤ i.high.toRat else i.low.toRat < q ∧ q < i.high.toRat

theorem Interval.Holds.bounds {i : Interval} {q : ℚ} (h : i.Holds q) : i.low.toRat ≤ q ∧ q ≤ i.high.toRat := by
  unfold Interval.Holds at h
  split at h
  · exact h
  · exact ⟨h.1.le, h.2.le⟩

theorem Interval.holds_of_lt {i : Interval} {q : ℚ} (hl : i.low.toRat < q) (hh : q < i.high.toRat) : i.Holds q := by
  unfold Interval.Holds
  split
  · exact ⟨hl.le, hh.le⟩
  · exact ⟨hl, hh⟩

section OfDouble

variable (d : Double)

theorem contains_iff {r : Ratio} (hr : 0 < r.den) : (intervalOf d).contains r ↔ (intervalOf d).Holds r.toRat := by
  have hl : 0 < (intervalOf d).low.den := Ratio.scaled_den _ two_pos _
  have hh : 0 < (intervalOf d).high.den := Ratio.scaled_den _ two_pos _
  unfold Interval.contains Interval.Holds
  split
  · rw [Bool.and_eq_true, Ratio.le_iff hl hr, Ratio.le_iff hr hh]
  · rw [Bool.and_eq_true, Ratio.lt_iff hl hr, Ratio.lt_iff hr hh]

theorem closed_iff : (intervalOf d).closed ↔ d.pattern % 2 = 0 := by
  simp [intervalOf, Double.magnitude_eq, Magnitude.mantissa_mod_two]

theorem valueOf_toRat : (valueOf d).toRat = (ofPattern d.pattern).value := by
  rw [valueOf, Ratio.scaled_toRat _ two_pos, Double.magnitude_eq]
  rfl

theorem quarter (e : ℤ) : (2 : ℚ) ^ (e - 2) = 2 ^ e / 4 := by
  rw [zpow_sub₀ two_ne_zero]
  norm_num

theorem high_toRat :
    (intervalOf d).high.toRat = (ofPattern d.pattern).value + (ofPattern d.pattern).gap / 2 := by
  simp only [intervalOf, Double.magnitude_eq]
  rw [Ratio.scaled_toRat _ two_pos, Magnitude.value_eq, Magnitude.gap]
  push_cast
  rw [quarter]
  ring

theorem low_toRat (h : 0 < (ofPattern d.pattern).mantissa) :
    (intervalOf d).low.toRat = (ofPattern d.pattern).value -
      (ofPattern d.pattern).gap / (if Double.startsWider d.pattern then 4 else 2) := by
  simp only [intervalOf, Double.magnitude_eq, Double.hasNarrowLowerGap_iff]
  rw [Ratio.scaled_toRat _ two_pos, Magnitude.value_eq, Magnitude.gap, Nat.cast_sub (by split <;> omega)]
  push_cast
  rw [quarter]
  split <;> ring

/-- The interval of a double begins where that of the pattern before it ends. -/
theorem low_toRat_succ {b : ℕ} (h : d.pattern = b + 1) : (intervalOf d).low.toRat = Magnitude.middle b := by
  rw [low_toRat d (by rw [h]; exact Magnitude.mantissa_pos b.succ_pos), h, Magnitude.value_succ, Magnitude.gap_succ,
    Magnitude.middle]
  split <;> ring

variable {d} {d' : Double} {q : ℚ}

theorem not_holds_of_lt (hlt : d.pattern < d'.pattern) (h : (intervalOf d).Holds q) : ¬(intervalOf d').Holds q := by
  intro h'
  obtain ⟨b, hb⟩ : ∃ b, d'.pattern = b + 1 := ⟨d'.pattern - 1, by omega⟩
  have hmono : Magnitude.middle d.pattern ≤ Magnitude.middle b := Magnitude.middle_strictMono.monotone (by omega)
  have hhigh : (intervalOf d).high.toRat = Magnitude.middle d.pattern := high_toRat d
  have hlow := low_toRat_succ d' hb
  have hq := h.bounds.2
  have hq' := h'.bounds.1
  -- both intervals hold `q`, so it is their common end, which closes the even one of two neighbours only
  have hnext : d.pattern = b := Magnitude.middle_strictMono.injective (by linarith)
  have hclosed : (intervalOf d).closed := by
    by_contra hopen
    rw [Interval.Holds, if_neg hopen] at h
    linarith [h.2]
  have hclosed' : (intervalOf d').closed := by
    by_contra hopen
    rw [Interval.Holds, if_neg hopen] at h'
    linarith [h'.1]
  have := (closed_iff d).1 hclosed
  have := (closed_iff d').1 hclosed'
  omega

/-- No rational reads back as two patterns. -/
theorem pattern_eq_of_holds (h : (intervalOf d).Holds q) (h' : (intervalOf d').Holds q) : d.pattern = d'.pattern := by
  rcases lt_trichotomy d.pattern d'.pattern with hlt | heq | hgt
  · exact absurd h' (not_holds_of_lt hlt h)
  · exact heq
  · exact absurd h (not_holds_of_lt hgt h')

end OfDouble

/-! ## The grids -/

section Grids

variable (r : Ratio) (scale : ℤ)

theorem floorAt_eq : floorAt r scale = ⌊r.toRat / (10 : ℚ) ^ scale⌋₊ := by
  unfold floorAt Ratio.toRat
  split
  · obtain ⟨k, rfl⟩ : ∃ k : ℕ, scale = -k := ⟨scale.natAbs, by omega⟩
    rw [← Nat.floor_div_eq_div (K := ℚ), zpow_neg, zpow_natCast, Int.natAbs_neg, Int.natAbs_natCast]
    congr 1
    simp [div_eq_mul_inv, mul_right_comm]
  · obtain ⟨k, rfl⟩ : ∃ k : ℕ, scale = k := ⟨scale.natAbs, by omega⟩
    rw [← Nat.floor_div_eq_div (K := ℚ), zpow_natCast, Int.natAbs_natCast]
    congr 1
    simp [div_div]

theorem floorAt_le : floorAt r scale * (10 : ℚ) ^ scale ≤ r.toRat := by
  have hpow : (0 : ℚ) < 10 ^ scale := by positivity
  rw [floorAt_eq, ← le_div_iff₀ hpow]
  exact Nat.floor_le (div_nonneg (div_nonneg (by positivity) (by positivity)) hpow.le)

theorem lt_floorAt_succ : r.toRat < (floorAt r scale + 1) * (10 : ℚ) ^ scale := by
  have hpow : (0 : ℚ) < 10 ^ scale := by positivity
  rw [floorAt_eq, ← div_lt_iff₀ hpow]
  exact Nat.lt_floor_add_one _

theorem floorAt_pos (h : (10 : ℚ) ^ scale ≤ r.toRat) : floorAt r scale ≠ 0 := by
  have hpow : (0 : ℚ) < 10 ^ scale := by positivity
  rw [floorAt_eq]
  exact (Nat.floor_pos.2 ((one_le_div hpow).2 h)).ne'

theorem floorAt_neg {k : ℕ} (hk : 0 < k) : floorAt r (-k) = r.num * Nat.pow 10 k / r.den := by
  rw [floorAt, if_pos (by omega), Int.natAbs_neg, Int.natAbs_natCast]

theorem leadingExponent_eq : leadingExponent r = digitCount (floorAt r (-(400 : ℕ))) - 401 := by
  delta leadingExponent
  generalize hk : 400 = k
  rw [floorAt_neg r (by omega)]

/-- No more is cut off than there is: the leading digit of a ratio is one of its digits. -/
theorem leadingExponent_le (h : (10 : ℚ) ^ (-(400 : ℕ) : ℤ) ≤ r.toRat) : (10 : ℚ) ^ leadingExponent r ≤ r.toRat := by
  have hpos : 0 < floorAt r (-(400 : ℕ)) := Nat.pos_of_ne_zero (floorAt_pos r _ h)
  obtain ⟨k, hk⟩ : ∃ k, digitCount (floorAt r (-(400 : ℕ))) = k + 1 :=
    Nat.exists_eq_succ_of_ne_zero (Nat.length_toDigits_pos).ne'
  have hdigits : 10 ^ k ≤ floorAt r (-(400 : ℕ)) := by
    by_contra hlt
    rcases Nat.eq_zero_or_pos k with rfl | hkpos
    · omega
    · have := (Nat.length_toDigits_le_iff (by norm_num) hkpos).2 (not_le.1 hlt)
      rw [digitCount] at hk
      omega
  rw [leadingExponent_eq, hk]
  calc (10 : ℚ) ^ (((k + 1 : ℕ) : ℤ) - 401) = ((10 ^ k : ℕ) : ℚ) * 10 ^ (-(400 : ℕ) : ℤ) := by
        rw [Nat.cast_pow, ← zpow_natCast, Nat.cast_ofNat, ← zpow_add₀ (by norm_num)]
        congr 1
        push_cast
        ring
    _ ≤ floorAt r (-(400 : ℕ)) * 10 ^ (-(400 : ℕ) : ℤ) := by gcongr
    _ ≤ r.toRat := floorAt_le r _

end Grids

/-! ## The search -/

variable {i : Interval} {r : Ratio}

/-- What is found on a grid lies in the interval. -/
theorem pointOn_contained {scale : ℤ} {n : ℕ} (h : pointOn i r scale = some n) :
    n ≠ 0 ∧ i.contains (.scaled n 10 scale) := by
  simp only [pointOn] at h
  generalize floorAt r scale = k at h
  split at h
  · rename_i hboth
    simp only [Bool.and_eq_true, bne_iff_ne, ne_eq] at hboth
    obtain ⟨⟨hk, hbelow⟩, habove⟩ := hboth
    have hn : n = k ∨ n = k + 1 := by
      cases h
      unfold nearer
      dsimp only
      split_ifs <;> omega
    rcases hn with rfl | rfl
    · exact ⟨hk, hbelow⟩
    · exact ⟨k.succ_ne_zero, habove⟩
  · split at h
    · rename_i hbelow
      simp only [Bool.and_eq_true, bne_iff_ne, ne_eq] at hbelow
      cases h
      exact hbelow
    · split at h
      · rename_i habove
        cases h
        exact ⟨k.succ_ne_zero, habove⟩
      · cases h

/-- A grid finer than the interval has a point in it. -/
theorem pointOn_isSome {d : Double} {scale : ℤ} (hr : r.toRat < (intervalOf d).high.toRat)
    (hl : (intervalOf d).low.toRat < r.toRat) (hcoarse : (10 : ℚ) ^ scale ≤ r.toRat)
    (hfine : (10 : ℚ) ^ scale < (intervalOf d).high.toRat - (intervalOf d).low.toRat) :
    (pointOn (intervalOf d) r scale).isSome := by
  have hpoint : ∀ n : ℕ, (intervalOf d).low.toRat < n * (10 : ℚ) ^ scale →
      n * (10 : ℚ) ^ scale < (intervalOf d).high.toRat → (intervalOf d).contains (.scaled n 10 scale) = true := by
    intro n hlow hhigh
    have hn := Ratio.scaled_toRat n (show 0 < 10 by norm_num) scale
    push_cast at hn
    rw [contains_iff d (Ratio.scaled_den n (by norm_num) scale), hn]
    exact Interval.holds_of_lt hlow hhigh
  have hne := floorAt_pos r scale hcoarse
  have hle := floorAt_le r scale
  have hlt := lt_floorAt_succ r scale
  rw [add_mul, one_mul] at hlt
  simp only [pointOn]
  by_cases hlow : (intervalOf d).low.toRat < floorAt r scale * (10 : ℚ) ^ scale
  · have hbelow := hpoint (floorAt r scale) hlow (by linarith)
    simp only [hbelow, bne_iff_ne.2 hne, Bool.and_self, Bool.true_and, if_true]
    split <;> rfl
  · have habove := hpoint (floorAt r scale + 1) (by push_cast; linarith) (by push_cast; linarith)
    simp only [habove, Bool.and_true, if_true]
    split <;> rfl

/-- The search ends on a point if one of its grids has one. -/
theorem search_contained {n k : ℕ} {scale : ℤ} (hk : k < n) (h : (pointOn i r (scale - k)).isSome) :
    (search i r n scale).digits ≠ 0 ∧
      i.contains (.scaled (search i r n scale).digits 10 (search i r n scale).scale) := by
  induction n generalizing k scale with
  | zero => omega
  | succ n ih =>
    rw [search]
    cases hp : pointOn i r scale with
    | some digits => exact pointOn_contained hp
    | none =>
      cases k with
      | zero => simp [hp] at h
      | succ k => exact ih (k := k) (by omega) (by rwa [sub_sub, add_comm 1, ← Nat.cast_succ])

/-! ## The shortest digits -/

variable (d : Double)

/-- The seventeenth grid is finer than the interval of a double. -/
theorem grid_lt_interval {scale : ℤ} (hpos : 0 < d.pattern)
    (h : (10 : ℚ) ^ (scale + 16) ≤ (ofPattern d.pattern).value) :
    (10 : ℚ) ^ scale < (intervalOf d).high.toRat - (intervalOf d).low.toRat := by
  have hgap := Magnitude.gap_pos (ofPattern d.pattern)
  rw [zpow_add₀ (by norm_num), Magnitude.value_eq] at h
  norm_num at h
  rw [high_toRat, low_toRat d (Magnitude.mantissa_pos hpos)]
  split
  · rename_i hwide
    rw [Magnitude.mantissa_of_startsWider _ hwide] at h
    push_cast at h
    linarith
  · have hm : ((ofPattern d.pattern).mantissa : ℚ) ≤ 9007199254740992 := by
      exact_mod_cast (Magnitude.mantissa_lt d.pattern).le
    have : (10 : ℚ) ^ scale * 10000000000000000 ≤ 9007199254740992 * (ofPattern d.pattern).gap :=
      h.trans (mul_le_mul_of_nonneg_right hm hgap.le)
    linarith

/-- No double but zero is smaller than what is cut off before its digits are counted. -/
theorem cut_le_value (hpos : 0 < d.pattern) : (10 : ℚ) ^ (-(400 : ℕ) : ℤ) ≤ (ofPattern d.pattern).value := by
  have hm : (1 : ℚ) ≤ (ofPattern d.pattern).mantissa := by exact_mod_cast Magnitude.mantissa_pos hpos
  calc (10 : ℚ) ^ (-(400 : ℕ) : ℤ) ≤ 8 ^ (-(400 : ℕ) : ℤ) := by
        rw [zpow_neg, zpow_neg, zpow_natCast, zpow_natCast]
        gcongr
        norm_num
    _ = 2 ^ (-1200 : ℤ) := by
        rw [show (8 : ℚ) = 2 ^ (3 : ℤ) by norm_num, ← zpow_mul]
        norm_num
    _ ≤ 2 ^ (ofPattern d.pattern).exponent :=
        zpow_le_zpow_right₀ (by norm_num) (by have := Magnitude.exponent_ge d.pattern; omega)
    _ ≤ (ofPattern d.pattern).value := le_mul_of_one_le_left (by positivity) hm

theorem low_lt_value (hpos : 0 < d.pattern) : (intervalOf d).low.toRat < (valueOf d).toRat := by
  have := Magnitude.gap_pos (ofPattern d.pattern)
  rw [low_toRat d (Magnitude.mantissa_pos hpos), valueOf_toRat]
  split <;> linarith

theorem value_lt_high : (valueOf d).toRat < (intervalOf d).high.toRat := by
  have := Magnitude.gap_pos (ofPattern d.pattern)
  rw [high_toRat, valueOf_toRat]
  linarith

/-- Of the patterns only zero has the value zero. -/
theorem num_eq_zero_iff : (valueOf d).num = 0 ↔ d.pattern = 0 := by
  have hnum : (valueOf d).num = 0 ↔ (ofPattern d.pattern).mantissa = 0 := by
    rw [valueOf, Double.magnitude_eq, Ratio.scaled]
    split <;> simp
  rw [hnum]
  constructor
  · intro h
    by_contra hne
    exact (Magnitude.mantissa_pos (Nat.pos_of_ne_zero hne)).ne' h
  · intro h
    rw [h]
    rfl

theorem zero_holds (h : d.pattern = 0) : (intervalOf d).Holds 0 := by
  have hm : (ofPattern d.pattern).mantissa = 0 := by
    rw [h]
    rfl
  have hlow : (intervalOf d).low.toRat = 0 := by
    simp only [intervalOf, Double.magnitude_eq]
    rw [Ratio.scaled_toRat _ two_pos, hm]
    simp
  have hgap := Magnitude.gap_pos (ofPattern d.pattern)
  rw [Interval.Holds, if_pos ((closed_iff d).2 (by rw [h])), hlow, high_toRat, Magnitude.value_eq, hm]
  refine ⟨le_rfl, ?_⟩
  rw [Nat.cast_zero, zero_mul, zero_add]
  linarith

/-- Seventeen digits suffice: what is written for a finite double reads back as it. -/
theorem shortest_holds : (intervalOf d).Holds ((shortest d).digits * (10 : ℚ) ^ (shortest d).scale) := by
  by_cases hzero : d.pattern = 0
  · rw [shortest, if_pos ((num_eq_zero_iff d).2 hzero)]
    simpa using zero_holds d hzero
  · have hpos : 0 < d.pattern := Nat.pos_of_ne_zero hzero
    rw [shortest, if_neg ((num_eq_zero_iff d).not.2 hzero)]
    have hlead : (10 : ℚ) ^ leadingExponent (valueOf d) ≤ (valueOf d).toRat :=
      leadingExponent_le _ (by rw [valueOf_toRat]; exact cut_le_value d hpos)
    set lead := leadingExponent (valueOf d)
    have hcoarse : (10 : ℚ) ^ (lead - (16 : ℕ)) ≤ (valueOf d).toRat :=
      (zpow_le_zpow_right₀ (by norm_num) (by omega)).trans hlead
    have hfine : (10 : ℚ) ^ (lead - (16 : ℕ)) < (intervalOf d).high.toRat - (intervalOf d).low.toRat := by
      refine grid_lt_interval d hpos ?_
      rw [← valueOf_toRat]
      simpa using hlead
    have hsome := pointOn_isSome (value_lt_high d) (low_lt_value d hpos) hcoarse hfine
    obtain ⟨-, hheld⟩ := search_contained (show 16 < 17 by norm_num) hsome
    rw [contains_iff d (Ratio.scaled_den _ (by norm_num) _), Ratio.scaled_toRat _ (by norm_num)] at hheld
    exact_mod_cast hheld

end Decimal

end RelQuery
