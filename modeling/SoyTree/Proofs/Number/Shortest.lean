import SoyTree.Number.Shortest
import SoyTree.Proofs.Number.Rounding

/-! # Shortest decimals read back

Every decimal that the search for the shortest one can return lies between the midpoints around
the number it starts from, and on the seventeenth grid the nearer neighbour always does.
-/

namespace SoyTree.Number

theorem scaleDecimal_eq : scaleDecimal = scaleBy 10 := rfl

def Decimal.value (d : Decimal) : ℚ :=
  d.coefficient * 10 ^ d.exponent

section Grid

variable {tie : Tie} {m c unit grid below : Nat} {e k : Int}

/-- A quarter of the last binary place of a number, and the step of the grid, in a common unit. -/
def gridScale (exponent k : Int) : Nat × Nat :=
  scaleDecimal (scaleBinary 1 1 (2 - exponent)).1 (scaleBinary 1 1 (2 - exponent)).2 k

theorem gridScale_fst_pos (e k : Int) : 0 < (gridScale e k).1 :=
  scaleBy_fst_pos (by decide) (scaleBy_fst_pos (by decide) (by decide) _ _) _ _

theorem gridScale_snd_pos (e k : Int) : 0 < (gridScale e k).2 :=
  scaleBy_snd_pos (by decide) _ (scaleBy_snd_pos (by decide) _ (by decide) _) _

theorem gridScale_div (e k : Int) :
    ((gridScale e k).1 : ℚ) / (gridScale e k).2 = 2 ^ (e - 2) / 10 ^ k := by
  rw [gridScale, scaleDecimal_eq, scaleBy_div (by decide), scaleBinary_eq, scaleBy_div (by decide)]
  push_cast
  rw [div_one, one_div, ← zpow_neg, neg_sub]

/-- The grid point `c` lies between the midpoints around a number; a midpoint belongs to the even
one. -/
def Fits (m below unit grid c : Nat) : Prop :=
  (4 * m - below) * unit ≤ c * grid ∧ c * grid ≤ (4 * m + 2) * unit ∧
    (m % 2 = 1 → (4 * m - below) * unit < c * grid ∧ c * grid < (4 * m + 2) * unit)

theorem fits_lower_iff (hunit : 0 < unit) :
    Fits m below unit grid (4 * m * unit / grid) ↔
      if m % 2 = 0 then (4 * m - below) * unit ≤ 4 * m * unit / grid * grid
      else (4 * m - below) * unit < 4 * m * unit / grid * grid := by
  have hle : 4 * m * unit / grid * grid ≤ 4 * m * unit := Nat.div_mul_le_self _ _
  have hlt : 4 * m * unit < (4 * m + 2) * unit := Nat.mul_lt_mul_of_pos_right (by omega) hunit
  unfold Fits
  generalize 4 * m * unit / grid * grid = point at *
  split <;> omega

theorem fits_upper_iff (hgrid : 0 < grid) :
    Fits m below unit grid (4 * m * unit / grid + 1) ↔
      if m % 2 = 0 then (4 * m * unit / grid + 1) * grid ≤ (4 * m + 2) * unit
      else (4 * m * unit / grid + 1) * grid < (4 * m + 2) * unit := by
  have hle : (4 * m - below) * unit ≤ 4 * m * unit := Nat.mul_le_mul_right _ (Nat.sub_le _ _)
  have hlt : 4 * m * unit < (4 * m * unit / grid + 1) * grid := by
    rw [Nat.mul_comm _ grid]
    exact Nat.lt_mul_div_succ _ hgrid
  unfold Fits
  generalize (4 * m * unit / grid + 1) * grid = point at *
  split <;> omega

/-- The search on one grid gives a neighbour that fits, and gives none only if neither does. -/
theorem gridNeighbour?_cases (tie : Tie) (m : Nat) (e k : Int) :
    (∃ c, gridNeighbour? tie m e k = some c ∧
      Fits m (gapBelow m e) (gridScale e k).1 (gridScale e k).2 c) ∨
    gridNeighbour? tie m e k = none ∧
      ∀ c, c = 4 * m * (gridScale e k).1 / (gridScale e k).2 ∨
        c = 4 * m * (gridScale e k).1 / (gridScale e k).2 + 1 →
        ¬ Fits m (gapBelow m e) (gridScale e k).1 (gridScale e k).2 c := by
  have hunit := gridScale_fst_pos e k
  have hgrid := gridScale_snd_pos e k
  have hscale : scaleDecimal (scaleBinary 1 1 (2 - e)).1 (scaleBinary 1 1 (2 - e)).2 k =
    gridScale e k := rfl
  have hbelow : (if m = Nat.pow 2 52 ∧ leastExponent < e then 1 else 2) = gapBelow m e := rfl
  unfold gridNeighbour?
  simp only [hscale, hbelow]
  generalize (gridScale e k).1 = unit at *
  generalize (gridScale e k).2 = grid at *
  by_cases hlower : Fits m (gapBelow m e) unit grid (4 * m * unit / grid) <;>
    by_cases hupper : Fits m (gapBelow m e) unit grid (4 * m * unit / grid + 1)
  · left
    rw [if_pos ((fits_lower_iff hunit).1 hlower), if_pos ((fits_upper_iff hgrid).1 hupper)]
    split
    · exact ⟨_, rfl, hlower⟩
    · split
      · exact ⟨_, rfl, hupper⟩
      · split
        · exact ⟨_, rfl, hlower⟩
        · exact ⟨_, rfl, hupper⟩
  · rw [if_pos ((fits_lower_iff hunit).1 hlower), if_neg (mt (fits_upper_iff hgrid).2 hupper)]
    exact Or.inl ⟨_, rfl, hlower⟩
  · rw [if_neg (mt (fits_lower_iff hunit).2 hlower), if_pos ((fits_upper_iff hgrid).1 hupper)]
    exact Or.inl ⟨_, rfl, hupper⟩
  · rw [if_neg (mt (fits_lower_iff hunit).2 hlower), if_neg (mt (fits_upper_iff hgrid).2 hupper)]
    right
    refine ⟨rfl, ?_⟩
    rintro c (rfl | rfl)
    · exact hlower
    · exact hupper

/-- Neighbours that both miss are further apart than the midpoints. -/
theorem gap_le_grid (hunit : 0 < unit) (hgrid : 0 < grid) (hbelow : below ≤ 4 * m)
    (hlower : ¬ Fits m below unit grid (4 * m * unit / grid))
    (hupper : ¬ Fits m below unit grid (4 * m * unit / grid + 1)) :
    (below + 2) * unit ≤ grid := by
  rw [fits_lower_iff hunit] at hlower
  rw [fits_upper_iff hgrid] at hupper
  rw [Nat.add_mul, Nat.one_mul] at hupper
  have hvalue : (4 * m - below) * unit + below * unit = 4 * m * unit := by
    rw [← Nat.add_mul, Nat.sub_add_cancel hbelow]
  rw [Nat.add_mul] at hupper ⊢
  split at hlower <;> split at hupper <;> omega

theorem exists_gridNeighbour? (tie : Tie) (hm : 0 < m) (hm53 : m < 2 ^ 53)
    (hfine : (10 : ℚ) ^ (k + 16) ≤ m * 2 ^ e) : ∃ c, gridNeighbour? tie m e k = some c := by
  rcases gridNeighbour?_cases tie m e k with ⟨c, hc, -⟩ | ⟨-, hnone⟩
  · exact ⟨c, hc⟩
  exfalso
  have hunit := gridScale_fst_pos e k
  have hgrid := gridScale_snd_pos e k
  have hgap := gap_le_grid hunit hgrid ((gapBelow_le m e).trans (by omega))
    (hnone _ (Or.inl rfl)) (hnone _ (Or.inr rfl))
  have hgrid' : (0 : ℚ) < (gridScale e k).2 := by exact_mod_cast hgrid
  have hdiv := gridScale_div e k
  have hsteps : 10 ^ 16 * (gridScale e k).2 ≤ 4 * m * (gridScale e k).1 := by
    have hvalue : (4 * m * (gridScale e k).1 : ℚ) / (gridScale e k).2 = m * 2 ^ e / 10 ^ k := by
      rw [mul_div_assoc, hdiv, zpow_quarter]
      ring
    have hle : (10 : ℚ) ^ 16 ≤ 4 * m * (gridScale e k).1 / (gridScale e k).2 := by
      rw [hvalue, le_div_iff₀ (by positivity)]
      rwa [zpow_add₀ (by norm_num), mul_comm] at hfine
    rw [le_div_iff₀ hgrid'] at hle
    exact_mod_cast hle
  have hm17 : 10 ^ 16 * (gapBelow m e + 2) ≤ 4 * m := by
    refine Nat.le_of_mul_le_mul_right ?_ hunit
    rw [Nat.mul_assoc]
    exact (Nat.mul_le_mul_left _ hgap).trans hsteps
  unfold gapBelow at hm17
  split at hm17 <;> omega

theorem fits_iff_roundsTo (hm : 0 < m) :
    Fits m (gapBelow m e) (gridScale e k).1 (gridScale e k).2 c ↔ RoundsTo m e (c * 10 ^ k) := by
  have hgrid : (0 : ℚ) < (gridScale e k).2 := by exact_mod_cast gridScale_snd_pos e k
  have hten : (0 : ℚ) < 10 ^ k := by positivity
  have hgap : gapBelow m e ≤ 4 * m := (gapBelow_le m e).trans (by omega)
  have hunit : ((gridScale e k).1 : ℚ) = 2 ^ (e - 2) / 10 ^ k * (gridScale e k).2 := by
    rw [← gridScale_div, div_mul_cancel₀ _ hgrid.ne']
  -- both orders between quarters of the last place and grid points, in whole numbers
  have hle : ∀ a : Nat, a * (gridScale e k).1 ≤ c * (gridScale e k).2 ↔
      (a : ℚ) * 2 ^ (e - 2) ≤ c * 10 ^ k := fun a => by
    rw [← Nat.cast_le (α := ℚ)]
    push_cast
    rw [hunit, ← mul_assoc, mul_le_mul_iff_left₀ hgrid, ← mul_div_assoc, div_le_iff₀ hten]
  have hge : ∀ a : Nat, c * (gridScale e k).2 ≤ a * (gridScale e k).1 ↔
      (c : ℚ) * 10 ^ k ≤ a * 2 ^ (e - 2) := fun a => by
    rw [← Nat.cast_le (α := ℚ)]
    push_cast
    rw [hunit, ← mul_assoc, mul_le_mul_iff_left₀ hgrid, ← mul_div_assoc, le_div_iff₀ hten]
  have hlow := hle (4 * m - gapBelow m e)
  have hhigh := hge (4 * m + 2)
  have hlow' := (hge (4 * m - gapBelow m e)).not
  have hhigh' := (hle (4 * m + 2)).not
  push_cast [Nat.cast_sub hgap] at hlow hhigh hlow' hhigh'
  rw [not_le, not_le] at hlow' hhigh'
  unfold Fits
  rw [hlow, hhigh, hlow', hhigh']
  exact ⟨fun ⟨h1, h2, h3⟩ => ⟨h1, h2, h3⟩, fun ⟨h1, h2, h3⟩ => ⟨h1, h2, h3⟩⟩

end Grid

section Search

variable {m num den : Nat} {e k : Int}

theorem lt_pow_digitCount (n : Nat) : n < 10 ^ digitCount n :=
  (Nat.length_toDigits_le_iff (by decide) Nat.length_toDigits_pos).1 le_rfl

theorem pow_digitCount_le {n : Nat} (hn : 0 < n) : 10 ^ (digitCount n - 1) ≤ n := by
  rcases Nat.eq_zero_or_pos (digitCount n - 1) with h | h
  · rwa [h]
  · refine Nat.le_of_not_lt fun hlt => ?_
    have hle : digitCount n ≤ digitCount n - 1 :=
      (Nat.length_toDigits_le_iff (by decide) h).2 hlt
    omega

theorem zpow_decimalOrder_le (hnum : 0 < num) (hden : 0 < den) :
    (10 : ℚ) ^ (decimalOrder num den - 1) ≤ num / den := by
  have hscale := scaleBy_le_iff (by decide : 0 < 10) num hden
    ((digitCount num : Int) - digitCount den)
  rw [decimalOrder, scaleDecimal_eq]
  push_cast at hscale
  simp only
  split
  · next h =>
    rw [add_sub_cancel_right]
    exact hscale.1 h
  · have hcount : 0 < digitCount num := Nat.length_toDigits_pos
    have hlow := zpow_lt_quotient (by decide) (pow_digitCount_le hnum) hden (lt_pow_digitCount den)
    rw [show (digitCount num : Int) - digitCount den - 1 =
      ((digitCount num - 1 : Nat) : Int) - digitCount den by omega]
    exact hlow.le

/-- The search ends with a decimal that rounds to the number if its last grid is fine enough. -/
theorem firstNeighbour_roundsTo (tie : Tie) (hm : 0 < m) (hm53 : m < 2 ^ 53) :
    ∀ (count : Nat) (k : Int), 0 < count → (10 : ℚ) ^ (k - count + 17) ≤ m * 2 ^ e →
      RoundsTo m e (firstNeighbour tie m e count k).value
  | count + 1, k, _, hfine => by
    rw [firstNeighbour]
    rcases gridNeighbour?_cases tie m e k with ⟨c, hc, hfits⟩ | ⟨hnone, -⟩
    · rw [hc]
      exact (fits_iff_roundsTo hm).1 hfits
    · rw [hnone]
      refine firstNeighbour_roundsTo tie hm hm53 count (k - 1) (Nat.pos_of_ne_zero ?_) ?_
      · rintro rfl
        rw [show k - ((0 + 1 : Nat) : Int) + 17 = k + 16 by push_cast; ring] at hfine
        obtain ⟨c, hc⟩ := exists_gridNeighbour? tie hm hm53 hfine
        rw [hnone] at hc
        cases hc
      · rwa [show k - 1 - (count : Int) + 17 = k - ((count + 1 : Nat) : Int) + 17 by push_cast; ring]

theorem Decimal.value_normalize : ∀ (steps : Nat) (d : Decimal), (d.normalize steps).value = d.value
  | 0, _ => rfl
  | steps + 1, d => by
    rw [Decimal.normalize]
    split
    · next h =>
      rw [value_normalize steps]
      have hten : (d.coefficient : ℚ) = 10 * (d.coefficient / 10 : Nat) := by
        exact_mod_cast (by omega : d.coefficient = 10 * (d.coefficient / 10))
      rw [Decimal.value, Decimal.value, hten, zpow_add₀ (by norm_num), zpow_one]
      ring
    · rfl

/-- The shortest decimal of a number other than zero lies between the midpoints around it. -/
theorem shortest_roundsTo (tie : Tie) (hm : 0 < m) (hm53 : m < 2 ^ 53) :
    RoundsTo m e (shortest tie m e).value := by
  rw [shortest, if_neg hm.ne']
  simp only
  rw [Decimal.value_normalize]
  refine firstNeighbour_roundsTo tie hm hm53 17 _ (by decide) ?_
  have hdiv := scaleBy_div (by decide : 0 < 2) m 1 (-e)
  have horder := zpow_decimalOrder_le (scaleBy_fst_pos (by decide : 0 < 2) hm 1 (-e))
    (scaleBy_snd_pos (by decide : 0 < 2) m (by decide : 0 < 1) (-e))
  push_cast at hdiv
  rw [hdiv, div_one, zpow_neg, div_inv_eq_mul, ← scaleBinary_eq] at horder
  push_cast
  rwa [sub_add_cancel]

end Search

end SoyTree.Number
