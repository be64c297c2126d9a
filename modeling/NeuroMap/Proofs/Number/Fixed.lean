import NeuroMap.Proofs.Number.Truncation

/-!
# Fixed point numbers of floats

The fixed point form of a float is its exact value times `2 ^ 15`, rounded toward zero and held inside the 32-bit range;
the way back is exact. Float arithmetic comes to the same: a product with `2 ^ 15` only moves the exponent, and where it
leaves the range of floats it has left that of the fixed point numbers long before.
-/

namespace NeuroMap.Fixed

open Reading Float.Model Float.Model.UnpackedFloat

/-! ## Exact values -/

theorem toInt_ofFloat {x : Float} (hx : x.isFinite = true) :
    (ofFloat x).toInt = clamp (towardZero (floatValue x * 2 ^ 15)) := by
  obtain ⟨negative, m, e, h⟩ := exists_finite hx
  unfold ofFloat floatValue
  rw [h]
  show (Int32.ofIntClamp (truncate negative m (e + 15))).toInt = _
  rw [toInt_ofIntClamp, truncate_eq, value_shift]
  norm_cast

theorem natAbs_toInt_lt (i : Int32) : i.toInt.natAbs < 2 ^ 53 := by
  have hlow : -2 ^ 31 ≤ i.toInt := i.le_toInt
  have hhigh : i.toInt < 2 ^ 31 := i.toInt_lt
  omega

theorem exact_toFloat (i : Int32) : (toFloat i).isFinite = true ∧ floatValue (toFloat i) * 2 ^ 15 = i.toInt := by
  obtain ⟨hfinite, hvalue⟩ := @floatValue_toFloat i.toInt (-15) (natAbs_toInt_lt i) (by omega) (by decide)
  refine ⟨hfinite, ?_⟩
  show floatValue (Reading.toFloat i.toInt (-15)) * 2 ^ 15 = _
  rw [hvalue, mul_assoc]
  norm_num

theorem ofFloat_toFloat (i : Int32) : ofFloat (toFloat i) = i := by
  obtain ⟨hfinite, hvalue⟩ := exact_toFloat i
  apply Int32.toInt_inj.mp
  rw [toInt_ofFloat hfinite, hvalue, towardZero_intCast, clamp_toInt]

theorem ofFloat_mono {x y : Float} (hx : x.isFinite = true) (hy : y.isFinite = true) (h : floatValue x ≤ floatValue y) :
    ofFloat x ≤ ofFloat y := by
  have hscaled : floatValue x * 2 ^ 15 ≤ floatValue y * 2 ^ 15 := mul_le_mul_of_nonneg_right h (by positivity)
  rw [Int32.le_iff_toInt_le, toInt_ofFloat hx, toInt_ofFloat hy]
  exact clamp_mono (towardZero_mono hscaled)

/-- Inside the range the way there and back only drops what stands after the last fixed point digit. -/
theorem floatValue_back {x : Float} (hx : x.isFinite = true) (hlow : -2 ^ 31 ≤ floatValue x * 2 ^ 15)
    (hhigh : floatValue x * 2 ^ 15 ≤ 2 ^ 31 - 1) :
    floatValue (toFloat (ofFloat x)) = towardZero (floatValue x * 2 ^ 15) / 2 ^ 15 := by
  have hlow' : -2 ^ 31 ≤ towardZero (floatValue x * 2 ^ 15) := by
    rw [← towardZero_intCast (-2 ^ 31)]
    exact towardZero_mono (by exact_mod_cast hlow)
  have hhigh' : towardZero (floatValue x * 2 ^ 15) ≤ 2 ^ 31 - 1 := by
    rw [← towardZero_intCast (2 ^ 31 - 1)]
    exact towardZero_mono (by exact_mod_cast hhigh)
  have hclamp : clamp (towardZero (floatValue x * 2 ^ 15)) = towardZero (floatValue x * 2 ^ 15) := by
    unfold clamp
    omega
  rw [eq_div_iff (by positivity), (exact_toFloat (ofFloat x)).2, toInt_ofFloat hx, hclamp]

/-! ## Float arithmetic -/

theorem unpack_scale : (32768 : Float).toModel.unpack = .finite .positive (2 ^ 52) (-37) (by decide) := rfl

theorem sign_mul_positive (s : Sign) : s * .positive = s := by
  cases s with
  | negative => rfl
  | positive => rfl

theorem sign_div_positive (s : Sign) : s / .positive = s := by
  cases s with
  | negative => rfl
  | positive => rfl

/-- Fifteen places up a canonical pair is canonical again once its mantissa is filled as far as the places go. -/
theorem exists_canonical_up {m : Nat} {e : Int} (h : Canonical m e) :
    ∃ j : Nat, j ≤ 15 ∧ Canonical (m * 2 ^ j) (e + 15 - j) := by
  have hlog := h.log2_le
  have hleast := h.least_le
  have hfull := h.log2_eq_or
  refine ⟨min 15 (52 - m.log2), by omega, ?_⟩
  generalize hj : min 15 (52 - m.log2) = j
  have hpos : 0 < m * 2 ^ j := Nat.mul_pos h.pos (Nat.two_pow_pos j)
  have hlog' : (m * 2 ^ j).log2 = m.log2 + j := log2_mul_two_pow h.pos j
  have hlt : m * 2 ^ j < 2 ^ 53 := (Nat.log2_lt hpos.ne').mp (by omega)
  refine { pos := hpos, lt := hlt, least_le := by omega, full := ?_ }
  by_cases htop : m.log2 + j = 52
  · left
    exact ((Nat.log2_eq_iff hpos.ne').mp (hlog'.trans htop)).1
  · right
    omega

theorem mul_scale {m j : Nat} {e : Int} (hm : 0 < m) (hj : j ≤ 15) (h : Canonical (m * 2 ^ j) (e + 15 - j)) (s : Sign) :
    UnpackedFloat.mul Format.binary64 (.finite s m e hm) (.finite .positive (2 ^ 52) (-37) (by decide)) =
      .finite s (m * 2 ^ j) (e + 15 - j) h.pos := by
  have hmantissa : m * 2 ^ 52 = m * 2 ^ j * 2 ^ (52 - j) := by
    rw [Nat.mul_assoc, ← Nat.pow_add, Nat.add_sub_cancel' (by omega)]
  have hexponent : e + -37 = e + 15 - j - (52 - j : Nat) := by omega
  show roundWithAccuracy Format.binary64 (s * .positive) (m * 2 ^ 52) (e + -37) .exact = _
  rw [sign_mul_positive, hmantissa, hexponent]
  exact round_of_canonical h s (52 - j)

/-- **The product.** Multiplying by `2 ^ 15` and converting gives the fixed point form, for every float. -/
theorem ofFloat_eq_product (x : Float) : ofFloat x = (x * 32768).toModel.toInt32 := by
  show _ = (Float.Model.pack (UnpackedFloat.mul Format.binary64 x.toModel.unpack
    (32768 : Float).toModel.unpack)).unpack.toInt32
  unfold ofFloat Reading.ofFloat
  rw [unpack_scale]
  cases hx : x.toModel.unpack with
  | notANumber => decide +kernel
  | infinity s => cases s <;> decide +kernel
  | zero s => cases s <;> decide +kernel
  | finite s m e hm =>
    obtain ⟨j, hj, h⟩ := exists_canonical_up (canonical_of_unpack hx).1
    show Int32.ofIntClamp (truncate (isNegative s) m (e + 15)) = _
    rw [mul_scale hm hj h]
    rcases le_or_gt (e + 15 - j) greatestExponent with hle | hgt
    · rw [unpack_pack_of_canonical h hle]
      show _ = Int32.ofIntClamp (roundToInt s (m * 2 ^ j) (e + 15 - j))
      rw [roundToInt_eq, truncate_eq, truncate_eq, value_spelling]
    · have he : 31 ≤ e + 15 := by
        unfold greatestExponent at hgt
        omega
      rw [unpack_pack_of_overflow _ hgt]
      exact ofIntClamp_of_overflow hm he s

theorem round_natural {n : Nat} (hn : 0 < n) (hlt : n < 2 ^ 53) (s : Sign) :
    ∃ hpos, round Format.binary64 s n 0 = .finite s (lifted n) (-places n) hpos := by
  have hlog : n.log2 < 53 := (Nat.log2_lt hn.ne').mpr hlt
  have hplaces : places n = 52 - n.log2 := rfl
  have h : Canonical (lifted n) (-places n) := canonical_lifted hn hlt (by omega)
  have htarget : Format.binary64.targetExponent (totalExponent n 0) = -places n := by
    show max ((n.log2 : Int) + 1 + 0 - 53) (-1074) = _
    omega
  have hround := round_of_canonical h s 0
  rw [Nat.pow_zero, Nat.mul_one, Int.natCast_zero, Int.sub_zero] at hround
  refine ⟨h.pos, ?_⟩
  unfold UnpackedFloat.round decreaseExponent
  dsimp only
  rw [htarget, Int.sub_neg, Int.zero_add, Int.toNat_natCast, Int.zero_sub]
  exact hround

theorem normalize_eq {i : Int} (hi : i ≠ 0) :
    UnpackedFloat.normalize Format.binary64 i 0 .positive = round Format.binary64 (signOf i) i.natAbs 0 := by
  unfold UnpackedFloat.normalize signOf
  rcases Int.lt_or_gt_of_ne hi with hneg | hpos
  · rw [Int.compare_eq_lt.mpr hneg, if_pos hneg, show i.natAbs = (-i).toNat by omega]
  · rw [Int.compare_eq_gt.mpr hpos, if_neg (by omega), show i.natAbs = i.toNat by omega]

theorem unpack_ofInt32 {i : Int32} (hi : 0 < i.toInt.natAbs) :
    ∃ hpos, (Float.Model.ofInt32 i).unpack =
      .finite (signOf i.toInt) (lifted i.toInt.natAbs) (-places i.toInt.natAbs) hpos := by
  have hplaces : places i.toInt.natAbs ≤ 52 := Nat.sub_le _ _
  have h : Canonical (lifted i.toInt.natAbs) (-places i.toInt.natAbs) :=
    canonical_lifted hi (natAbs_toInt_lt i) (by omega)
  obtain ⟨_, hround⟩ := round_natural hi (natAbs_toInt_lt i) (signOf i.toInt)
  refine ⟨h.pos, ?_⟩
  show (Float.Model.pack (UnpackedFloat.normalize Format.binary64 i.toInt 0 .positive)).unpack = _
  rw [normalize_eq (Int.natAbs_pos.mp hi), hround]
  exact unpack_pack_of_canonical h (by unfold greatestExponent; omega) _

theorem div_scale {m : Nat} {e : Int} (h : Canonical m e) (hfull : m.log2 = 52) (he : -1058 ≤ e) (s : Sign) :
    UnpackedFloat.div Format.binary64 (.finite s m e h.pos) (.finite .positive (2 ^ 52) (-37) (by decide)) =
      .finite s m (e - 15) h.pos := by
  have hresult : Canonical m (e - 15) :=
    { pos := h.pos, lt := h.lt, least_le := by omega, full := Or.inl ((Nat.log2_eq_iff h.pos.ne').mp hfull).1 }
  have htarget : Format.binary64.targetExponent (totalExponent m e - totalExponent (2 ^ 52) (-37)) = e - 16 := by
    unfold totalExponent
    rw [hfull, Nat.log2_two_pow]
    show max ((52 : Int) + 1 + e - (52 + 1 + -37) - 53) (-1074) = e - 16
    omega
  -- the quotient has one bit more than the mantissa, and that bit is zero
  have hcore : divCore Format.binary64 m e (2 ^ 52) (-37) = (m * 2 ^ 1, e - 15 - (1 : Nat), .exact) := by
    have hleast : min (e - -37) (e - 16) = e - 16 := by omega
    have hamount : (e - -37 - (e - 16)).toNat = 53 := by omega
    have hshifted : m <<< 53 = m * 2 * 2 ^ 52 := by rw [Nat.shiftLeft_eq, Nat.mul_assoc, ← Nat.pow_succ']
    have hexponent : e - 15 - (1 : Nat) = e - 16 := by omega
    unfold divCore
    dsimp only
    rw [htarget, hleast, hamount, hshifted, hexponent, Nat.mul_div_cancel _ (Nat.two_pow_pos 52), Nat.mul_mod_left,
      Nat.pow_one]
    rfl
  unfold UnpackedFloat.div
  dsimp only
  rw [hcore, sign_div_positive]
  exact round_of_canonical hresult s 1

/-- **The quotient.** Converting a fixed point number and dividing by `2 ^ 15` gives the float that it stands for. -/
theorem toFloat_eq_quotient (i : Int32) : toFloat i = Float.ofModel (.ofInt32 i) / 32768 := by
  rcases Nat.eq_zero_or_pos i.toInt.natAbs with hi | hi
  · obtain rfl : i = 0 := Int32.toInt_inj.mp (Int.natAbs_eq_zero.mp hi)
    decide +kernel
  · have hplaces : places i.toInt.natAbs ≤ 52 := Nat.sub_le _ _
    have h : Canonical (lifted i.toInt.natAbs) (-places i.toInt.natAbs) :=
      canonical_lifted hi (natAbs_toInt_lt i) (by omega)
    obtain ⟨_, hunpack⟩ := unpack_ofInt32 hi
    show _ = Float.ofModel (Float.Model.pack (UnpackedFloat.div Format.binary64 (Float.Model.ofInt32 i).unpack
      (32768 : Float).toModel.unpack))
    rw [hunpack, unpack_scale, div_scale h (log2_lifted hi (natAbs_toInt_lt i)) (by omega)]
    unfold toFloat Reading.toFloat
    rw [dif_neg hi.ne']
    show Float.ofModel (Float.Model.pack (.finite (signOf i.toInt) (lifted i.toInt.natAbs)
      (-15 - places i.toInt.natAbs) _)) = _
    congr 3
    omega

/-! ## Both ways together -/

/-- **Conversion is a truncating, saturating retraction.** The fixed point form of a float is its exact value times
`2 ^ 15`, rounded toward zero and held inside the 32-bit range; a greater value has no smaller form; every fixed point
number comes back as itself; and inside the range a float comes back no longer, not on the other side of zero and less
than `2 ^ -15` away. All this is what float arithmetic computes, with a product that may overflow and a quotient. -/
theorem truncating_retraction :
    (∀ x : Float, x.isFinite = true → (ofFloat x).toInt = clamp (towardZero (floatValue x * 2 ^ 15))) ∧
      (∀ x y : Float, x.isFinite = true → y.isFinite = true → floatValue x ≤ floatValue y → ofFloat x ≤ ofFloat y) ∧
      (∀ i, ofFloat (toFloat i) = i) ∧
      (∀ x : Float, x.isFinite = true → -2 ^ 31 ≤ floatValue x * 2 ^ 15 → floatValue x * 2 ^ 15 ≤ 2 ^ 31 - 1 →
        (toFloat (ofFloat x)).isFinite = true ∧ |floatValue (toFloat (ofFloat x))| ≤ |floatValue x| ∧
          0 ≤ floatValue x * floatValue (toFloat (ofFloat x)) ∧
          |floatValue x - floatValue (toFloat (ofFloat x))| < 1 / 2 ^ 15) ∧
      (∀ x, ofFloat x = (x * 32768).toModel.toInt32) ∧ ∀ i, toFloat i = Float.ofModel (.ofInt32 i) / 32768 := by
  refine ⟨fun x => toInt_ofFloat, fun x y => ofFloat_mono, ofFloat_toFloat, fun x hx hlow hhigh => ?_,
    ofFloat_eq_product, toFloat_eq_quotient⟩
  obtain ⟨hlength, hside, haway⟩ := towardZero_spec (floatValue x * 2 ^ 15)
  have hscale : (0 : ℚ) < 2 ^ 15 := by positivity
  refine ⟨(exact_toFloat (ofFloat x)).1, ?_, ?_, ?_⟩
  all_goals rw [floatValue_back hx hlow hhigh]
  · rw [abs_div, abs_of_pos hscale, div_le_iff₀ hscale]
    rwa [abs_mul, abs_of_pos hscale] at hlength
  · rw [← mul_div_assoc]
    refine div_nonneg (nonneg_of_mul_nonneg_left ?_ hscale) hscale.le
    rwa [mul_right_comm]
  · rw [lt_div_iff₀ hscale, ← abs_of_pos hscale, ← abs_mul, abs_of_pos hscale, sub_mul, div_mul_cancel₀ _ hscale.ne']
    exact haway

/-- Half a step above the lowest fixed point number. -/
def nearLowest : Float :=
  -(4294967295 / 65536)

theorem floatValue_nearLowest : floatValue nearLowest = -(4294967295 / 65536) := by
  have hread : Reading.ofFloat nearLowest = .finite true (4294967295 * 2 ^ 21) (-16 - (21 : Nat)) := by decide +kernel
  unfold floatValue
  rw [hread, value_spelling, value_negative]
  norm_num

theorem truncating_retraction_nearLowest :
    (ofFloat nearLowest).toInt = -2 ^ 31 + 1 ∧
      |floatValue nearLowest - floatValue (toFloat (ofFloat nearLowest))| < 1 / 2 ^ 15 := by
  have hfinite : nearLowest.isFinite = true := by decide +kernel
  obtain ⟨htruncates, -, -, hclose, -⟩ := truncating_retraction
  have hlow : -2 ^ 31 ≤ floatValue nearLowest * 2 ^ 15 := by
    rw [floatValue_nearLowest]
    norm_num
  have hhigh : floatValue nearLowest * 2 ^ 15 ≤ 2 ^ 31 - 1 := by
    rw [floatValue_nearLowest]
    norm_num
  refine ⟨?_, (hclose nearLowest hfinite hlow hhigh).2.2.2⟩
  rw [htruncates nearLowest hfinite, floatValue_nearLowest]
  decide +kernel

end NeuroMap.Fixed
