import Mathlib.Algebra.Order.Field.Power
import Mathlib.Data.Int.ConditionallyCompleteOrder
import NeuroMap.Number.Fixed
import NeuroMap.Proofs.Number.Exact

/-!
# Rounding toward zero

What is left of a rational without its digits after the point lies between zero and the rational, less than one away.
Shifting a mantissa does this to the number that it stands for (`truncate_eq`), and so does the conversion of floats to
integers, which then saturates (`clamp`).
-/

namespace NeuroMap

/-- A rational without what stands after the point. -/
def towardZero (q : ℚ) : ℤ :=
  if 0 ≤ q then ⌊q⌋ else ⌈q⌉

section TowardZero

variable {q : ℚ}

theorem towardZero_of_nonneg (hq : 0 ≤ q) : towardZero q = ⌊q⌋ :=
  if_pos hq

theorem towardZero_of_nonpos (hq : q ≤ 0) : towardZero q = ⌈q⌉ := by
  rcases hq.lt_or_eq with hneg | rfl
  · exact if_neg (not_le.mpr hneg)
  · rw [towardZero_of_nonneg le_rfl, Int.floor_zero, Int.ceil_zero]

theorem towardZero_intCast (i : ℤ) : towardZero i = i := by
  unfold towardZero
  rw [Int.floor_intCast, Int.ceil_intCast, ite_self]

theorem towardZero_neg (q : ℚ) : towardZero (-q) = -towardZero q := by
  rcases le_total 0 q with hq | hq
  · rw [towardZero_of_nonneg hq, towardZero_of_nonpos (neg_nonpos.mpr hq), Int.ceil_neg]
  · rw [towardZero_of_nonpos hq, towardZero_of_nonneg (neg_nonneg.mpr hq), Int.floor_neg]

theorem towardZero_mono : Monotone towardZero := by
  intro p q hpq
  rcases le_total 0 p with hp | hp
  · rw [towardZero_of_nonneg hp, towardZero_of_nonneg (hp.trans hpq)]
    exact Int.floor_mono hpq
  rcases le_total 0 q with hq | hq
  · have hceil : ⌈p⌉ ≤ 0 := Int.ceil_le.mpr (by exact_mod_cast hp)
    rw [towardZero_of_nonpos hp, towardZero_of_nonneg hq]
    exact hceil.trans (Int.floor_nonneg.mpr hq)
  · rw [towardZero_of_nonpos hp, towardZero_of_nonpos hq]
    exact Int.ceil_mono hpq

/-- The result is no longer than the number, not on the other side of zero, and less than one away. -/
theorem towardZero_spec (q : ℚ) :
    |(towardZero q : ℚ)| ≤ |q| ∧ 0 ≤ q * towardZero q ∧ |q - towardZero q| < 1 := by
  rcases le_total 0 q with hq | hq
  · have hfloor : (0 : ℚ) ≤ ⌊q⌋ := by exact_mod_cast Int.floor_nonneg.mpr hq
    rw [towardZero_of_nonneg hq, abs_of_nonneg hfloor, abs_of_nonneg hq]
    refine ⟨Int.floor_le q, mul_nonneg hq hfloor, ?_⟩
    rw [abs_of_nonneg (sub_nonneg.mpr (Int.floor_le q))]
    linarith [Int.lt_floor_add_one q]
  · have hceil : (⌈q⌉ : ℚ) ≤ 0 := by exact_mod_cast Int.ceil_le.mpr (by exact_mod_cast hq)
    rw [towardZero_of_nonpos hq, abs_of_nonpos hceil, abs_of_nonpos hq]
    refine ⟨neg_le_neg (Int.le_ceil q), mul_nonneg_of_nonpos_of_nonpos hq hceil, ?_⟩
    rw [abs_of_nonpos (sub_nonpos.mpr (Int.le_ceil q))]
    linarith [Int.ceil_lt_add_one q]

end TowardZero

/-! ## Shifted mantissas -/

namespace Reading

open Float.Model Float.Model.UnpackedFloat

theorem floorShift_eq (m : Nat) (e : Int) : (floorShift m e : ℤ) = ⌊(m * 2 ^ e : ℚ)⌋ := by
  unfold floorShift
  by_cases he : 0 ≤ e
  · lift e to ℕ using he
    rw [if_pos (Int.natCast_nonneg e), Int.toNat_natCast, Nat.shiftLeft_eq, zpow_natCast]
    exact_mod_cast (Int.floor_natCast (m * 2 ^ e)).symm
  · obtain ⟨k, rfl⟩ : ∃ k : ℕ, e = -k := ⟨(-e).toNat, by omega⟩
    have hfloor := Rat.floor_intCast_div_natCast m (2 ^ k)
    rw [if_neg he, neg_neg, Int.toNat_natCast, Nat.shiftRight_eq_div_pow, zpow_neg, zpow_natCast, ← div_eq_mul_inv]
    push_cast at hfloor ⊢
    exact hfloor.symm

theorem truncate_eq (negative : Bool) (m : Nat) (e : Int) :
    truncate negative m e = towardZero (value (.finite negative m e)) := by
  have hnonneg : (0 : ℚ) ≤ m * 2 ^ e := by positivity
  cases negative with
  | false =>
    rw [value_positive, towardZero_of_nonneg hnonneg, ← floorShift_eq]
    rfl
  | true =>
    rw [value_negative, towardZero_neg, towardZero_of_nonneg hnonneg, ← floorShift_eq]
    rfl

theorem mantissa_shiftRight (em : ExtendedMantissa) (k : Nat) : (em >>> k).mantissa = em.mantissa / 2 ^ k := by
  induction k with
  | zero =>
    rw [Nat.pow_zero, Nat.div_one]
    rfl
  | succ k ih =>
    show (em >>> k).mantissa / 2 = _
    rw [ih, Nat.div_div_eq_div_mul, ← Nat.pow_succ]

/-- Converting a float to an integer is truncating it. -/
theorem roundToInt_eq (s : Sign) (m : Nat) (e : Int) : roundToInt s m e = truncate (isNegative s) m e := by
  have hmantissa : (shiftToExponent (m <<< (e - 0).toNat) (e - (e - 0).toNat) .exact 0).1.mantissa = floorShift m e := by
    unfold shiftToExponent floorShift
    dsimp only
    rw [mantissa_shiftRight, Int.sub_zero]
    show m <<< e.toNat / _ = _
    by_cases he : 0 ≤ e
    · have hamount : (0 - (e - (e.toNat : Int))).toNat = 0 := by omega
      rw [if_pos he, hamount, Nat.pow_zero, Nat.div_one]
    · have hamount : (0 - (e - (e.toNat : Int))).toNat = (-e).toNat := by omega
      have hzero : e.toNat = 0 := by omega
      rw [if_neg he, hamount, hzero, Nat.shiftLeft_zero, Nat.shiftRight_eq_div_pow]
  unfold roundToInt decreaseExponent
  dsimp only
  rw [hmantissa]
  cases s with
  | negative => rfl
  | positive => rfl

end Reading

/-! ## Saturation -/

namespace Fixed

open Reading Float.Model Float.Model.UnpackedFloat

/-- An integer held inside the 32-bit range. -/
def clamp (i : ℤ) : ℤ :=
  max (-2 ^ 31) (min i (2 ^ 31 - 1))

theorem clamp_mono : Monotone clamp := by
  intro i j hij
  unfold clamp
  omega

theorem clamp_toInt (i : Int32) : clamp i.toInt = i.toInt := by
  have hlow : -2 ^ 31 ≤ i.toInt := i.le_toInt
  have hhigh : i.toInt < 2 ^ 31 := i.toInt_lt
  unfold clamp
  omega

theorem toInt_ofIntClamp (i : ℤ) : (Int32.ofIntClamp i).toInt = clamp i := by
  have hmin : Int32.minValue.toInt = -2 ^ 31 := rfl
  have hmax : Int32.maxValue.toInt = 2 ^ 31 - 1 := rfl
  unfold clamp
  by_cases hlow : Int32.minValue.toInt ≤ i
  · by_cases hhigh : i ≤ Int32.maxValue.toInt
    · rw [Int32.toInt_ofIntClamp hlow hhigh]
      omega
    · unfold Int32.ofIntClamp
      rw [dif_pos hlow, dif_neg hhigh]
      omega
  · unfold Int32.ofIntClamp
    rw [dif_neg hlow]
    omega

/-- Beyond the range only the sign counts, as if the number were infinite. -/
theorem ofIntClamp_of_overflow {m : Nat} {e : Int} (hm : 0 < m) (he : 31 ≤ e) (s : Sign) :
    Int32.ofIntClamp (truncate (isNegative s) m e) = UnpackedFloat.toInt32 (.infinity s) := by
  have hshift : 2 ^ 31 ≤ floorShift m e := by
    unfold floorShift
    rw [if_pos (by omega), Nat.shiftLeft_eq]
    calc 2 ^ 31 ≤ 2 ^ e.toNat := Nat.pow_le_pow_right (by decide) (by omega)
      _ ≤ m * 2 ^ e.toNat := Nat.le_mul_of_pos_left _ hm
  apply Int32.toInt_inj.mp
  unfold UnpackedFloat.toInt32
  rw [toInt_ofIntClamp, toInt_ofIntClamp]
  cases s with
  | negative =>
    show clamp (-(floorShift m e : ℤ)) = clamp (-2 ^ 31)
    unfold clamp
    omega
  | positive =>
    show clamp (floorShift m e : ℤ) = clamp (2 ^ 31 - 1)
    unfold clamp
    omega

end Fixed

end NeuroMap
