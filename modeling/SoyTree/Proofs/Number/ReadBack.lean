import Mathlib.Data.List.TakeWhile
import SoyTree.Number.Layout
import SoyTree.Proofs.Number.Shortest

/-! # Written numbers read back

A decimal written without exponent is read as the number nearest to its value, whichever way the
digits stand around the point. With the law of the shortest decimal, every finite binary64 number is
read back from its text.
-/

namespace SoyTree.Number

section Digits

variable {n : Nat} {c : Char}

theorem ofDigits_eq (digits : List Char) : ofDigits digits = Nat.ofDigitChars 10 digits 0 := rfl

theorem ofDigits_toDigits (n : Nat) : ofDigits (Nat.toDigits 10 n) = n := by
  rw [ofDigits_eq, Nat.ofDigitChars_ten_toDigits]

theorem ofDigits_append_zeros (digits : List Char) (n : Nat) :
    ofDigits (digits ++ List.replicate n '0') = ofDigits digits * 10 ^ n := by
  rw [ofDigits_eq, Nat.ofDigitChars_append, Nat.ofDigitChars_replicate_zero, Nat.mul_comm,
    ofDigits_eq]

theorem ofDigits_zeros_append (digits : List Char) (n : Nat) :
    ofDigits (List.replicate n '0' ++ digits) = ofDigits digits := by
  rw [ofDigits_eq, Nat.ofDigitChars_append, Nat.ofDigitChars_replicate_zero, Nat.mul_zero,
    ofDigits_eq]

theorem isDigit_of_mem_zeros (h : c ∈ List.replicate n '0') : c.isDigit = true := by
  rw [List.eq_of_mem_replicate h]
  rfl

theorem isDigit_of_mem_toDigits (h : c ∈ Nat.toDigits 10 n) : c.isDigit = true :=
  Nat.isDigit_of_mem_toDigits (by decide) (by decide) h

end Digits

section Reading

variable {text : List Char} {magnitude : Magnitude}

theorem Magnitude.read?_whole (whole : List Char) (hwhole : ∀ c ∈ whole, c.isDigit = true)
    (hne : whole ≠ []) : Magnitude.read? whole = some (.ofQuotient (ofDigits whole) 1) := by
  have htake : whole.takeWhile Char.isDigit = whole := List.takeWhile_eq_self_iff.2 hwhole
  have hdrop : whole.dropWhile Char.isDigit = [] := List.dropWhile_eq_nil_iff.2 hwhole
  simp [Magnitude.read?, htake, hdrop, hne]

theorem Magnitude.read?_places (whole places : List Char) (hwhole : ∀ c ∈ whole, c.isDigit = true)
    (hne : whole ≠ []) (hplaces : ∀ c ∈ places, c.isDigit = true) :
    Magnitude.read? (whole ++ '.' :: places) =
      some (.ofQuotient (ofDigits (whole ++ places)) (10 ^ places.length)) := by
  have htake : (whole ++ '.' :: places).takeWhile Char.isDigit = whole := by
    rw [List.takeWhile_append_of_pos hwhole]
    simp
  have hdrop : (whole ++ '.' :: places).dropWhile Char.isDigit = '.' :: places := by
    rw [List.dropWhile_append_of_pos hwhole]
    simp
  have hall : places.all Char.isDigit = true := List.all_eq_true.2 hplaces
  simp [Magnitude.read?, htake, hdrop, hne, hall]

theorem Binary64.read?_unsigned (h : Magnitude.read? text = some magnitude) :
    Binary64.read? text = some ⟨false, magnitude⟩ := by
  unfold Binary64.read?
  split
  · simp [Magnitude.read?] at h
  · simp [Magnitude.read?] at h
  · rw [h, Option.map_some]

theorem Binary64.read?_negative (h : Magnitude.read? text = some magnitude) :
    Binary64.read? ('-' :: text) = some ⟨true, magnitude⟩ := by
  rw [Binary64.read?, h, Option.map_some]

end Reading

section Positional

variable {c : Nat} {k : Int}

theorem toList_toString (n : Nat) : (toString n).toList = Nat.toDigits 10 n := Nat.toList_repr

theorem length_toString (n : Nat) : (toString n).length = (Nat.toDigits 10 n).length := by
  rw [← String.length_toList, toList_toString]

theorem Layout.toList_zeros (n : Nat) : (Layout.zeros n).toList = List.replicate n '0' :=
  String.toList_ofList

theorem Magnitude.read?_positional_whole (hk : 0 ≤ k) :
    Magnitude.read? (Layout.positional "" (toString c) k).toList =
      some (.ofQuotient (c * 10 ^ k.toNat) 1) := by
  have hread := Magnitude.read?_whole (Nat.toDigits 10 c ++ List.replicate k.toNat '0')
    (fun x hx => (List.mem_append.1 hx).elim isDigit_of_mem_toDigits isDigit_of_mem_zeros)
    (by simp)
  rw [ofDigits_append_zeros, ofDigits_toDigits] at hread
  simpa [Layout.positional, hk, toList_toString, Layout.toList_zeros] using hread

theorem Magnitude.read?_positional_places (hk : k < 0) :
    Magnitude.read? (Layout.positional "" (toString c) k).toList =
      some (.ofQuotient c (10 ^ (-k).toNat)) := by
  simp only [Layout.positional, if_neg (Int.not_le.2 hk), length_toString, toList_toString]
  split
  · -- the point stands among the digits
    have hread := Magnitude.read?_places
      ((Nat.toDigits 10 c).take ((Nat.toDigits 10 c).length - (-k).toNat))
      ((Nat.toDigits 10 c).drop ((Nat.toDigits 10 c).length - (-k).toNat))
      (fun x hx => isDigit_of_mem_toDigits (List.mem_of_mem_take hx))
      (List.ne_nil_of_length_pos (by rw [List.length_take]; omega))
      (fun x hx => isDigit_of_mem_toDigits (List.mem_of_mem_drop hx))
    rw [List.take_append_drop, ofDigits_toDigits, List.length_drop,
      Nat.sub_sub_self (by omega)] at hread
    simpa using hread
  · -- zeros stand between the point and the digits
    have hread := Magnitude.read?_places (List.replicate 1 '0')
      (List.replicate ((-k).toNat - (Nat.toDigits 10 c).length) '0' ++ Nat.toDigits 10 c)
      (fun x => isDigit_of_mem_zeros) (by simp)
      (fun x hx => (List.mem_append.1 hx).elim isDigit_of_mem_zeros isDigit_of_mem_toDigits)
    rw [← List.append_assoc, List.replicate_append_replicate, ofDigits_zeros_append,
      ofDigits_toDigits, List.length_append, List.length_replicate,
      Nat.sub_add_cancel (by omega)] at hread
    simpa [toList_toString, Layout.toList_zeros] using hread

/-- A decimal written without exponent is read as the number nearest to its value. -/
theorem Magnitude.read?_positional (d : Decimal) :
    ∃ num den : Nat, 0 < den ∧ (num : ℚ) / den = d.value ∧
      Magnitude.read? (Layout.positional "" (toString d.coefficient) d.exponent).toList =
        some (.ofQuotient num den) := by
  rcases lt_or_ge d.exponent 0 with hk | hk
  · refine ⟨d.coefficient, 10 ^ (-d.exponent).toNat, by positivity, ?_,
      Magnitude.read?_positional_places hk⟩
    obtain ⟨n, hn⟩ := Int.eq_ofNat_of_zero_le (show 0 ≤ -d.exponent by omega)
    rw [Decimal.value, show d.exponent = -n by omega]
    simp [div_eq_mul_inv]
  · refine ⟨d.coefficient * 10 ^ d.exponent.toNat, 1, Nat.one_pos, ?_,
      Magnitude.read?_positional_whole hk⟩
    obtain ⟨n, hn⟩ := Int.eq_ofNat_of_zero_le hk
    rw [Decimal.value, hn]
    simp

end Positional

section Written

variable {layout : Layout} {m : Nat} {e : Int} {x : Binary64}

/-- The numbers other than the infinities. -/
def Binary64.Finite (x : Binary64) : Prop :=
  ∃ m e, x.magnitude = .finite m e ∧ Representable m e

/-- The nearest number to the shortest decimal of a number is that number. -/
theorem Magnitude.ofQuotient_shortest {num den : Nat} {tie : Tie} (h : Representable m e)
    (hden : 0 < den) (hvalue : (num : ℚ) / den = (shortest tie m e).value) :
    Magnitude.ofQuotient num den = .finite m e := by
  rcases Nat.eq_zero_or_pos m with rfl | hm
  · obtain rfl : e = leastExponent := h.normal.resolve_left (by decide)
    have hzero : (num : ℚ) / den = 0 := by simp [hvalue, shortest, Decimal.value]
    have hnum : num = 0 := by
      rcases div_eq_zero_iff.1 hzero with hnum | hden'
      · exact_mod_cast hnum
      · exact absurd hden' (by exact_mod_cast hden.ne')
    rw [hnum]
    rfl
  · refine ofQuotient_eq hden hm h ?_
    rw [hvalue]
    exact shortest_roundsTo tie hm h.mantissa_lt

/-- A layout without exponents, and without a mark for whole numbers, writes every finite number so
that it is read back. -/
theorem Binary64.read?_write (hexponential : ∀ order, layout.exponential order = false)
    (hwhole : layout.whole = "") (h : x.Finite) :
    Binary64.read? (layout.write x).toList = some x := by
  obtain ⟨negative, magnitude⟩ := x
  obtain ⟨m, e, rfl, hfinite⟩ := h
  have hread : Magnitude.read? (layout.writeDecimal (shortest layout.tie m e)).toList =
      some (.finite m e) := by
    obtain ⟨num, den, hden, hvalue, hread⟩ := Magnitude.read?_positional (shortest layout.tie m e)
    rw [Magnitude.ofQuotient_shortest hfinite hden hvalue] at hread
    simpa [Layout.writeDecimal, hexponential, hwhole] using hread
  cases negative with
  | false => simpa [Layout.write] using Binary64.read?_unsigned hread
  | true => simpa [Layout.write] using Binary64.read?_negative hread

end Written

end SoyTree.Number
