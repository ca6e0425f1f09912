import Mathlib.Algebra.Order.Field.Power
import Mathlib.Data.Rat.Cast.Order
import Mathlib.Tactic.FieldSimp
import Mathlib.Tactic.Linarith
import Mathlib.Tactic.Positivity
import Mathlib.Tactic.Ring
import SoyTree.Number.Binary64

/-! # Rounding to binary64

A quotient that lies between the midpoints to the next binary64 numbers is read as the number
between them. The gap below a power of two is half the gap above it, so lengths are measured in
quarters of the last binary place.
-/

namespace SoyTree.Number

section Scales

/-- Brings `num / den / base ^ e` into the form of a quotient. -/
def scaleBy (base num den : Nat) (e : Int) : Nat × Nat :=
  if 0 ≤ e then (num, den * base ^ e.toNat) else (num * base ^ (-e).toNat, den)

theorem scaleBy_fst_pos {base num : Nat} (hbase : 0 < base) (hnum : 0 < num) (den : Nat) (e : Int) :
    0 < (scaleBy base num den e).1 := by
  unfold scaleBy
  split
  · exact hnum
  · exact Nat.mul_pos hnum (Nat.pow_pos hbase)

theorem scaleBy_snd_pos {base den : Nat} (hbase : 0 < base) (num : Nat) (hden : 0 < den) (e : Int) :
    0 < (scaleBy base num den e).2 := by
  unfold scaleBy
  split
  · exact Nat.mul_pos hden (Nat.pow_pos hbase)
  · exact hden

theorem scaleBy_div {base : Nat} (hbase : 0 < base) (num den : Nat) (e : Int) :
    ((scaleBy base num den e).1 : ℚ) / (scaleBy base num den e).2 = num / den / (base : ℚ) ^ e := by
  have hb : (base : ℚ) ≠ 0 := by positivity
  unfold scaleBy
  split
  · next he =>
    obtain ⟨n, rfl⟩ := Int.eq_ofNat_of_zero_le he
    simp [div_div]
  · next he =>
    obtain ⟨n, hn⟩ := Int.eq_ofNat_of_zero_le (show 0 ≤ -e by omega)
    obtain rfl : e = -n := by omega
    simp [div_mul_eq_mul_div]

theorem scaleBinary_eq : scaleBinary = scaleBy 2 := rfl

end Scales

section Orders

variable {num den : Nat}

theorem zpow_lt_quotient {base a b : Nat} (hbase : 0 < base) (hnum : base ^ a ≤ num)
    (hden : 0 < den) (hden' : den < base ^ b) :
    (base : ℚ) ^ ((a : Int) - b) < num / den := by
  have hb : (0 : ℚ) < base := by exact_mod_cast hbase
  rw [zpow_sub₀ hb.ne', zpow_natCast, zpow_natCast, div_lt_div_iff₀ (by positivity) (by positivity)]
  have h1 : (base : ℚ) ^ a ≤ num := by exact_mod_cast hnum
  have h2 : (den : ℚ) < (base : ℚ) ^ b := by exact_mod_cast hden'
  exact mul_lt_mul' h1 h2 (by positivity) (lt_of_lt_of_le (by positivity) h1)

theorem quotient_lt_zpow {base a b : Nat} (hbase : 0 < base) (hnum : num < base ^ a)
    (hden : base ^ b ≤ den) : (num : ℚ) / den < (base : ℚ) ^ ((a : Int) - b) := by
  have hb : (0 : ℚ) < base := by exact_mod_cast hbase
  have hd : (0 : ℚ) < den := by exact_mod_cast Nat.lt_of_lt_of_le (Nat.pow_pos hbase) hden
  rw [zpow_sub₀ hb.ne', zpow_natCast, zpow_natCast, div_lt_div_iff₀ (by positivity) (by positivity)]
  have h1 : (num : ℚ) < (base : ℚ) ^ a := by exact_mod_cast hnum
  have h2 : (base : ℚ) ^ b ≤ den := by exact_mod_cast hden
  exact mul_lt_mul h1 h2 (by positivity) (by positivity)

theorem scaleBy_le_iff {base : Nat} (hbase : 0 < base) (num : Nat) (hden : 0 < den) (e : Int) :
    (scaleBy base num den e).2 ≤ (scaleBy base num den e).1 ↔ (base : ℚ) ^ e ≤ num / den := by
  have hb : (0 : ℚ) < (base : ℚ) ^ e := zpow_pos (by exact_mod_cast hbase) e
  have hd : (0 : ℚ) < (scaleBy base num den e).2 := by
    exact_mod_cast scaleBy_snd_pos hbase num hden e
  rw [← one_le_div₀ hb, ← scaleBy_div hbase, one_le_div₀ hd, Nat.cast_le]

theorem binaryOrder_spec (hnum : 0 < num) (hden : 0 < den) :
    (2 : ℚ) ^ binaryOrder num den ≤ num / den ∧ (num : ℚ) / den < 2 ^ (binaryOrder num den + 1) := by
  have hlow := zpow_lt_quotient (by decide) (Nat.log2_self_le hnum.ne') hden Nat.lt_log2_self
  have hhigh := quotient_lt_zpow (by decide) (Nat.lt_log2_self (n := num))
    (Nat.log2_self_le hden.ne')
  have hscale := scaleBy_le_iff (by decide : 0 < 2) num hden ((num.log2 : Int) - den.log2)
  rw [binaryOrder, scaleBinary_eq]
  push_cast at hlow hhigh hscale
  simp only
  split
  · next h =>
    refine ⟨hscale.1 h, ?_⟩
    rwa [show (num.log2 : Int) - den.log2 + 1 = num.log2 + 1 - den.log2 by ring]
  · next h =>
    constructor
    · rw [show (num.log2 : Int) - den.log2 - 1 = num.log2 - (den.log2 + 1) by ring]
      exact hlow.le
    · rw [sub_add_cancel]
      exact not_le.1 fun hle => h (hscale.2 hle)

end Orders

section HalfEven

/-- The whole number within half a unit of a quotient, where a half is met the even one. -/
theorem divideHalfEven_eq {n d m : Nat} (hd : 0 < d) (hlow : 2 * (m * d) ≤ 2 * n + d)
    (hhigh : 2 * n ≤ 2 * (m * d) + d)
    (heven : m % 2 = 0 ∨ 2 * (m * d) < 2 * n + d ∧ 2 * n < 2 * (m * d) + d) :
    divideHalfEven n d = m := by
  have hn : n = d * (n / d) + n % d := (Nat.div_add_mod n d).symm
  have hr : n % d < d := Nat.mod_lt n hd
  unfold divideHalfEven
  simp only
  generalize n / d = q at *
  generalize n % d = r at *
  subst hn
  rw [Nat.mul_comm d q] at hlow hhigh heven
  -- the quotient is the number or its predecessor
  have hq : q ≤ m := by
    by_contra h
    have := Nat.mul_le_mul_right d (show m + 1 ≤ q by omega)
    rw [Nat.add_mul] at this
    omega
  have hm : m ≤ q + 1 := by
    by_contra h
    have := Nat.mul_le_mul_right d (show q + 2 ≤ m by omega)
    rw [Nat.add_mul] at this
    omega
  rcases Nat.lt_or_ge q m with h | h
  · obtain rfl : m = q + 1 := by omega
    rw [Nat.add_mul] at *
    split <;> [omega; split <;> [rfl; split <;> omega]]
  · obtain rfl : m = q := by omega
    split <;> [rfl; split <;> [omega; split <;> omega]]

end HalfEven

section Representable

/-- Mantissas and exponents of binary64 numbers: the mantissa has 53 bits, or fewer at the least
exponent. -/
structure Representable (mantissa : Nat) (exponent : Int) : Prop where
  mantissa_lt : mantissa < 2 ^ 53
  least : leastExponent ≤ exponent
  largest : exponent ≤ largestExponent
  normal : 2 ^ 52 ≤ mantissa ∨ exponent = leastExponent

/-- The distance to the midpoint below a number, in quarters of its last place. -/
def gapBelow (mantissa : Nat) (exponent : Int) : Nat :=
  if mantissa = 2 ^ 52 ∧ leastExponent < exponent then 1 else 2

/-- The value lies between the midpoints around a number; a midpoint belongs to the even one. -/
structure RoundsTo (mantissa : Nat) (exponent : Int) (q : ℚ) : Prop where
  low : (4 * mantissa - gapBelow mantissa exponent) * 2 ^ (exponent - 2) ≤ q
  high : q ≤ (4 * mantissa + 2) * 2 ^ (exponent - 2)
  odd : mantissa % 2 = 1 →
    (4 * mantissa - gapBelow mantissa exponent) * 2 ^ (exponent - 2) < q ∧
      q < (4 * mantissa + 2) * 2 ^ (exponent - 2)

end Representable

section Nearest

variable {num den m : Nat} {e : Int} {q : ℚ}

theorem gapBelow_le (m : Nat) (e : Int) : gapBelow m e ≤ 2 := by
  unfold gapBelow
  split <;> decide

theorem gapBelow_mul_le (m : Nat) (e : Int) : (gapBelow m e : ℚ) * 2 ^ e ≤ 2 * 2 ^ e :=
  mul_le_mul_of_nonneg_right (by exact_mod_cast gapBelow_le m e) (by positivity)

theorem zpow_quarter (e : Int) : (2 : ℚ) ^ (e - 2) = 2 ^ e / 4 := by
  rw [zpow_sub₀ two_ne_zero]
  norm_num

theorem zpow_half (e : Int) : (2 : ℚ) ^ (e - 1) = 2 ^ e / 2 := by
  rw [zpow_sub₀ two_ne_zero, zpow_one]

theorem zpow_add_natCast (e : Int) (n : Nat) : (2 : ℚ) ^ (e + n) = 2 ^ n * 2 ^ e := by
  rw [zpow_add₀ two_ne_zero, zpow_natCast, mul_comm]

namespace RoundsTo

theorem low_le (h : RoundsTo m e q) : (2 * m - 1) * 2 ^ e ≤ 2 * q := by
  have hgap := gapBelow_mul_le m e
  have hlow := h.low
  rw [zpow_quarter] at hlow
  linarith

theorem le_high (h : RoundsTo m e q) : 2 * q ≤ (2 * m + 1) * 2 ^ e := by
  have hhigh := h.high
  rw [zpow_quarter] at hhigh
  linarith

theorem even_or_lt (h : RoundsTo m e q) :
    m % 2 = 0 ∨ (2 * m - 1) * 2 ^ e < 2 * q ∧ 2 * q < (2 * m + 1) * 2 ^ e := by
  have hgap := gapBelow_mul_le m e
  rcases Nat.mod_two_eq_zero_or_one m with heven | hone
  · exact Or.inl heven
  · obtain ⟨hlow, hhigh⟩ := h.odd hone
    rw [zpow_quarter] at hlow hhigh
    exact Or.inr ⟨by linarith, by linarith⟩

theorem pos (h : RoundsTo m e q) (hm : 0 < m) : 0 < q := by
  have hm1 : (1 : ℚ) ≤ m := by exact_mod_cast hm
  have hpos : (0 : ℚ) < (2 * m - 1) * 2 ^ e :=
    mul_pos (by linarith) (by positivity)
  linarith [h.low_le]

theorem lt_zpow (h : RoundsTo m e q) (hm : m < 2 ^ 53) : q < 2 ^ (e + 53) := by
  have hE : (0 : ℚ) < 2 ^ e := by positivity
  have hmE : ((m : ℚ) + 1) * 2 ^ e ≤ 2 ^ 53 * 2 ^ e :=
    mul_le_mul_of_nonneg_right (by exact_mod_cast hm) hE.le
  have hshift : (2 : ℚ) ^ (e + 53) = 2 ^ 53 * 2 ^ e := by exact_mod_cast zpow_add_natCast e 53
  rw [hshift]
  linarith [h.le_high]

theorem eq_power (h : RoundsTo m e q) (hm : 2 ^ 52 ≤ m) (hlt : q < 2 ^ (e + 52)) : m = 2 ^ 52 := by
  have hE : (0 : ℚ) < 2 ^ e := by positivity
  have hshift : (2 : ℚ) ^ (e + 52) = 2 ^ 52 * 2 ^ e := by exact_mod_cast zpow_add_natCast e 52
  by_contra hne
  have hnext : ((2 : ℚ) ^ 52 + 1) * 2 ^ e ≤ m * 2 ^ e := by
    refine mul_le_mul_of_nonneg_right ?_ hE.le
    exact_mod_cast (by omega : 2 ^ 52 + 1 ≤ m)
  linarith [h.low_le]

end RoundsTo

/-- The exponent of the number nearest to a value, found from the order of the value. -/
theorem exponent_eq {k : Int} (hk : (2 : ℚ) ^ k ≤ q ∧ q < 2 ^ (k + 1)) (he : leastExponent ≤ e)
    (hlt : q < 2 ^ (e + 53)) (hge : 2 ^ (e + 52) ≤ q ∨ e = leastExponent) :
    max (k - 52) leastExponent = e := by
  have hupper : k < e + 53 := (zpow_lt_zpow_iff_right₀ one_lt_two).1 (hk.1.trans_lt hlt)
  rcases hge with hge | rfl
  · have hlower : e + 52 < k + 1 := (zpow_lt_zpow_iff_right₀ one_lt_two).1 (hge.trans_lt hk.2)
    rw [show k - 52 = e by omega]
    exact max_eq_left he
  · exact max_eq_right (by omega)

theorem divideHalfEven_scaled (hden : 0 < den) (hlow : (2 * m - 1) * 2 ^ e ≤ 2 * ((num : ℚ) / den))
    (hhigh : 2 * ((num : ℚ) / den) ≤ (2 * m + 1) * 2 ^ e)
    (heven : m % 2 = 0 ∨ (2 * m - 1) * 2 ^ e < 2 * ((num : ℚ) / den) ∧
      2 * ((num : ℚ) / den) < (2 * m + 1) * 2 ^ e) :
    divideHalfEven (scaleBinary num den e).1 (scaleBinary num den e).2 = m := by
  rw [scaleBinary_eq]
  have hE : (0 : ℚ) < 2 ^ e := by positivity
  have hd := scaleBy_snd_pos (by decide : 0 < 2) num hden e
  have hdiv := scaleBy_div (by decide : 0 < 2) num den e
  generalize (scaleBy 2 num den e).1 = n at *
  generalize (scaleBy 2 num den e).2 = d at *
  have hd' : (0 : ℚ) < d := by exact_mod_cast hd
  have hq : 2 * ((num : ℚ) / den) = 2 * n / d * 2 ^ e := by
    rw [mul_div_assoc, hdiv]
    push_cast
    field_simp
  -- both bounds, in whole numbers
  have hle : ∀ a : ℚ, a * 2 ^ e ≤ 2 * ((num : ℚ) / den) ↔ a * d ≤ 2 * n := fun a => by
    rw [hq, mul_le_mul_iff_left₀ hE, le_div_iff₀ hd']
  have hge : ∀ a : ℚ, 2 * ((num : ℚ) / den) ≤ a * 2 ^ e ↔ 2 * n ≤ a * d := fun a => by
    rw [hq, mul_le_mul_iff_left₀ hE, div_le_iff₀ hd']
  rw [← not_le, ← not_le, hle, hge, not_le, not_le] at heven
  rw [hle] at hlow
  rw [hge] at hhigh
  refine divideHalfEven_eq hd ?_ ?_ (heven.imp_right fun ⟨h, h'⟩ => ⟨?_, ?_⟩)
  · exact_mod_cast (by linarith : 2 * ((m : ℚ) * d) ≤ 2 * n + d)
  · exact_mod_cast (by linarith : 2 * (n : ℚ) ≤ 2 * (m * d) + d)
  · exact_mod_cast (by linarith : 2 * ((m : ℚ) * d) < 2 * n + d)
  · exact_mod_cast (by linarith : 2 * (n : ℚ) < 2 * (m * d) + d)

/-- The number with this mantissa and exponent, once a full mantissa is carried over. -/
theorem ofQuotient_of_exponent (hnum : num ≠ 0) (hden : 0 < den)
    (he : max (binaryOrder num den - 52) leastExponent = e)
    (hlow : (2 * m - 1) * 2 ^ e ≤ 2 * ((num : ℚ) / den))
    (hhigh : 2 * ((num : ℚ) / den) ≤ (2 * m + 1) * 2 ^ e)
    (heven : m % 2 = 0 ∨ (2 * m - 1) * 2 ^ e < 2 * ((num : ℚ) / den) ∧
      2 * ((num : ℚ) / den) < (2 * m + 1) * 2 ^ e)
    (hlargest : m ≠ 2 ^ 53 → e ≤ largestExponent) (hcarry : m = 2 ^ 53 → e < largestExponent) :
    Magnitude.ofQuotient num den = if m = 2 ^ 53 then .finite (2 ^ 52) (e + 1) else .finite m e := by
  have hdivide := divideHalfEven_scaled hden hlow hhigh heven
  simp only [Magnitude.ofQuotient, if_neg hnum, he, hdivide, Nat.pow_eq]
  split
  · next h =>
    have := hcarry h
    simp only
    rw [if_neg (by omega)]
  · next h =>
    have := hlargest h
    simp only
    rw [if_neg (by omega)]

theorem ofQuotient_of_reached (hnum : 0 < num) (hden : 0 < den) (h : Representable m e)
    (hq : RoundsTo m e (num / den)) (hge : 2 ^ (e + 52) ≤ (num : ℚ) / den ∨ e = leastExponent) :
    Magnitude.ofQuotient num den = .finite m e := by
  have hexp := exponent_eq (binaryOrder_spec hnum hden) h.least (hq.lt_zpow h.mantissa_lt) hge
  have hround := ofQuotient_of_exponent hnum.ne' hden hexp hq.low_le hq.le_high hq.even_or_lt
    (fun _ => h.largest) (fun hfull => absurd hfull h.mantissa_lt.ne)
  rwa [if_neg h.mantissa_lt.ne] at hround

/-- Below a power of two the numbers are twice as dense, and the mantissa is carried over. -/
theorem ofQuotient_below_power (hnum : 0 < num) (hden : 0 < den) (hleast : leastExponent < e)
    (hlargest : e ≤ largestExponent) (hq : RoundsTo (2 ^ 52) e (num / den))
    (hlt : (num : ℚ) / den < 2 ^ (e + 52)) :
    Magnitude.ofQuotient num den = .finite (2 ^ 52) e := by
  have hE : (0 : ℚ) < 2 ^ e := by positivity
  have hshift : (2 : ℚ) ^ (e + 52) = 2 ^ 52 * 2 ^ e := by exact_mod_cast zpow_add_natCast e 52
  have hgap : gapBelow (2 ^ 52) e = 1 := by simp [gapBelow, hleast]
  have hlow := hq.low
  rw [hgap, zpow_quarter] at hlow
  push_cast at hlow
  have hexp : max (binaryOrder num den - 52) leastExponent = e - 1 := by
    refine exponent_eq (binaryOrder_spec hnum hden) (by omega) ?_ (Or.inl ?_)
    · rwa [show e - 1 + 53 = e + 52 by ring]
    · rw [show e - 1 + 52 = (e + 52) - 1 by ring, zpow_half, hshift]
      linarith
  rw [hshift] at hlt
  have hround := ofQuotient_of_exponent (m := 2 ^ 53) hnum.ne' hden hexp
    (by push_cast; rw [zpow_half]; linarith) (by push_cast; rw [zpow_half]; linarith)
    (Or.inl (by norm_num)) (fun hfull => absurd rfl hfull) (fun _ => by omega)
  rwa [if_pos rfl, sub_add_cancel] at hround

/-- A quotient between the midpoints around a binary64 number is read as that number. -/
theorem ofQuotient_eq (hden : 0 < den) (hm : 0 < m) (h : Representable m e)
    (hq : RoundsTo m e (num / den)) : Magnitude.ofQuotient num den = .finite m e := by
  have hnum : 0 < num := by
    refine Nat.pos_of_ne_zero fun hzero => ?_
    have hpos := hq.pos hm
    simp [hzero] at hpos
  by_cases hge : (2 : ℚ) ^ (e + 52) ≤ num / den ∨ e = leastExponent
  · exact ofQuotient_of_reached hnum hden h hq hge
  · rw [not_or, not_le] at hge
    obtain ⟨hlt, hne⟩ := hge
    obtain rfl := hq.eq_power (h.normal.resolve_right hne) hlt
    exact ofQuotient_below_power hnum hden (lt_of_le_of_ne h.least (Ne.symm hne)) h.largest hq hlt

end Nearest

end SoyTree.Number
