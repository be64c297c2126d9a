import Mathlib.Data.Rat.Floor
import Mathlib.Tactic.Ring
import NeuroMap.Number.Reading

/-!
# Exact values of floats

A finite float stands for the rational `± m * 2 ^ e`. A 64-bit float holds a mantissa of at most 53 bits and an exponent
from -1074 to 971, and the mantissa is full unless the exponent is the least one (`Canonical`). Packing keeps such
a pair, and rounding finds it again from every longer spelling `(m * 2 ^ k) * 2 ^ (e - k)` of the same number
(`round_of_canonical`). So an operation whose exact result is canonical is exact.
-/

namespace NeuroMap

namespace Reading

open Float.Model Float.Model.UnpackedFloat

/-- The number that a reading stands for; zero if it stands for none. -/
def value : Reading → ℚ
  | .finite negative m e => (if negative then -1 else 1) * (m * 2 ^ e)
  | _ => 0

theorem value_positive (m : Nat) (e : Int) : value (.finite false m e) = m * 2 ^ e :=
  one_mul _

theorem value_negative (m : Nat) (e : Int) : value (.finite true m e) = -(m * 2 ^ e) :=
  neg_one_mul _

theorem value_shift (negative : Bool) (m : Nat) (e k : Int) :
    value (.finite negative m (e + k)) = value (.finite negative m e) * 2 ^ k := by
  show _ * ((m : ℚ) * 2 ^ (e + k)) = _ * (m * 2 ^ e) * 2 ^ k
  rw [zpow_add₀ two_ne_zero]
  ring

/-- A longer spelling stands for the same number. -/
theorem value_spelling (negative : Bool) (m : Nat) (e : Int) (k : Nat) :
    value (.finite negative (m * 2 ^ k) (e - k)) = value (.finite negative m e) := by
  show _ * (((m * 2 ^ k : ℕ) : ℚ) * 2 ^ (e - k)) = _ * (m * 2 ^ e)
  rw [zpow_sub₀ two_ne_zero, zpow_natCast]
  push_cast
  field_simp

/-! ## Canonical pairs -/

/-- A mantissa and an exponent as a float holds them, but for the bound above the exponent. -/
structure Canonical (m : Nat) (e : Int) : Prop where
  pos : 0 < m
  lt : m < 2 ^ 53
  least_le : -1074 ≤ e
  full : 2 ^ 52 ≤ m ∨ e = -1074

/-- The greatest exponent of a float. -/
def greatestExponent : Int := 971

namespace Canonical

variable {m : Nat} {e : Int}

theorem log2_le (h : Canonical m e) : m.log2 ≤ 52 := by
  have hlt : m.log2 < 53 := (Nat.log2_lt h.pos.ne').mpr h.lt
  omega

theorem log2_eq (h : Canonical m e) (hfull : 2 ^ 52 ≤ m) : m.log2 = 52 :=
  (Nat.log2_eq_iff h.pos.ne').mpr ⟨hfull, h.lt⟩

theorem log2_eq_or (h : Canonical m e) : m.log2 = 52 ∨ e = -1074 := by
  rcases h.full with hfull | hleast
  · exact Or.inl (h.log2_eq hfull)
  · exact Or.inr hleast

/-- The exponent of a canonical pair is the one that rounding aims at. -/
theorem targetExponent_eq (h : Canonical m e) : Format.binary64.targetExponent (m.log2 + 1 + e) = e := by
  have hlog := h.log2_le
  have hleast := h.least_le
  have hfull := h.log2_eq_or
  show max ((m.log2 : Int) + 1 + e - 53) (-1074) = e
  omega

end Canonical

theorem log2_mul_two_pow {m : Nat} (hm : 0 < m) (k : Nat) : (m * 2 ^ k).log2 = m.log2 + k := by
  have hne : m * 2 ^ k ≠ 0 := (Nat.mul_pos hm (Nat.two_pow_pos k)).ne'
  obtain ⟨hlow, hhigh⟩ := (Nat.log2_eq_iff hm.ne').mp rfl
  rw [Nat.log2_eq_iff hne]
  constructor
  · rw [Nat.pow_add]
    exact Nat.mul_le_mul_right _ hlow
  · rw [Nat.add_right_comm, Nat.pow_add]
    exact Nat.mul_lt_mul_of_pos_right hhigh (Nat.two_pow_pos k)

/-! ## Packing -/

theorem toNat_one_append (fraction : BitVec 52) : (1#1 ++ fraction).toNat = 2 ^ 52 + fraction.toNat := by
  rw [BitVec.toNat_append]
  exact (Nat.two_pow_add_eq_or_of_lt fraction.isLt 1).symm

/-- The sign is read back from the parts. -/
theorem sign_of_parts (s : Sign) (exponent : BitVec 11) (fraction : BitVec 52) :
    Sign.ofBitVec (unpackSign (packComponents Format.binary64 s exponent fraction)) = s := by
  have hbit : unpackSign (packComponents Format.binary64 s exponent fraction) = s.toBitVec := by
    show BitVec.extractLsb' 63 1 (s.toBitVec ++ exponent ++ fraction) = s.toBitVec
    ext i hi
    obtain rfl : i = 0 := by omega
    rw [BitVec.getElem_extractLsb', BitVec.getLsbD_append, BitVec.getLsbD_append]
    rfl
  rw [hbit]
  cases s with
  | positive => rfl
  | negative => rfl

/-- The parts of a word make up the word. -/
theorem parts_of_bits (b : BitVec 64) :
    packComponents Format.binary64 (Sign.ofBitVec (@unpackSign Format.binary64 b)) (@unpackExponent Format.binary64 b)
      (@unpackMantissa Format.binary64 b) = b := by
  have hbit (bit : BitVec 1) : (Sign.ofBitVec bit).toBitVec = bit := by decide +revert
  unfold packComponents
  rw [hbit]
  show BitVec.extractLsb' 63 1 b ++ BitVec.extractLsb' 52 11 b ++ BitVec.extractLsb' 0 52 b = b
  rw [BitVec.extractLsb'_append_extractLsb'_eq_extractLsb' (by decide),
    BitVec.extractLsb'_append_extractLsb'_eq_extractLsb' (by decide)]
  exact BitVec.extractLsb'_eq_self

theorem finite_congr {s t : Sign} {m n : Nat} {e f : Int} {hm : 0 < m} {hn : 0 < n} (hst : s = t) (hmn : m = n)
    (hef : e = f) : UnpackedFloat.finite s m e hm = .finite t n f hn := by
  subst hst hmn hef
  rfl

theorem unpack_normal (s : Sign) {exponent : BitVec 11} (fraction : BitVec 52) (hgreatest : exponent ≠ -1#11)
    (hleast : exponent ≠ 0#11) :
    UnpackedFloat.unpack Format.binary64 (packComponents Format.binary64 s exponent fraction) =
      .finite s (2 ^ 52 + fraction.toNat) (exponent.toNat - 1075) (Nat.add_pos_left (by decide) _) := by
  unfold UnpackedFloat.unpack
  dsimp only
  rw [if_neg (by rwa [unpackExponent_packComponents]), if_neg (by rwa [unpackExponent_packComponents])]
  exact finite_congr (sign_of_parts s exponent fraction) (by rw [unpackMantissa_packComponents, toNat_one_append])
    (by rw [unpackExponent_packComponents]; rfl)

theorem unpack_subnormal (s : Sign) {fraction : BitVec 52} (hpos : 0 < fraction.toNat) :
    UnpackedFloat.unpack Format.binary64 (packComponents Format.binary64 s 0#11 fraction) =
      .finite s fraction.toNat (-1074) hpos := by
  have hne : fraction ≠ 0#52 := by
    rintro rfl
    exact absurd hpos (by decide)
  unfold UnpackedFloat.unpack
  dsimp only
  rw [if_neg (by rw [unpackExponent_packComponents]; decide), if_pos unpackExponent_packComponents,
    dif_neg (by rwa [unpackMantissa_packComponents])]
  exact finite_congr (sign_of_parts s 0#11 fraction) (by rw [unpackMantissa_packComponents])
    (by rw [unpackExponent_packComponents]; rfl)

theorem unpack_packedInfinity (s : Sign) :
    UnpackedFloat.unpack Format.binary64 (packedInfinity Format.binary64 s) = .infinity s := by
  unfold UnpackedFloat.unpack packedInfinity
  dsimp only
  rw [if_pos unpackExponent_packComponents]
  exact (if_pos unpackMantissa_packComponents).trans (congrArg _ (sign_of_parts s _ _))

theorem unpack_zero (s : Sign) :
    UnpackedFloat.unpack Format.binary64 (packComponents Format.binary64 s 0#11 0#52) = .zero s := by
  unfold UnpackedFloat.unpack
  dsimp only
  rw [if_neg (by rw [unpackExponent_packComponents]; decide), if_pos unpackExponent_packComponents,
    dif_pos unpackMantissa_packComponents, sign_of_parts]

/-- A float that is a number other than zero holds a canonical pair. -/
theorem canonical_of_unpack {x : Float} {s : Sign} {m : Nat} {e : Int} {hm : 0 < m}
    (h : x.toModel.unpack = .finite s m e hm) : Canonical m e ∧ e ≤ greatestExponent := by
  unfold Float.Model.unpack at h
  rw [← parts_of_bits x.toModel.toBits.toBitVec] at h
  generalize @unpackExponent Format.binary64 x.toModel.toBits.toBitVec = exponent at h
  generalize @unpackMantissa Format.binary64 x.toModel.toBits.toBitVec = fraction at h
  generalize Sign.ofBitVec (@unpackSign Format.binary64 x.toModel.toBits.toBitVec) = t at h
  have hfraction : fraction.toNat < 2 ^ 52 := fraction.isLt
  by_cases hgreatest : exponent = -1#11
  · -- an infinity, or no number
    unfold UnpackedFloat.unpack at h
    dsimp only at h
    rw [if_pos (by rw [unpackExponent_packComponents, hgreatest])] at h
    by_cases hzero : @unpackMantissa Format.binary64 (packComponents Format.binary64 t exponent fraction) = 0#52
    · rw [if_pos hzero] at h
      cases h
    · rw [if_neg hzero] at h
      cases h
  by_cases hleast : exponent = 0#11
  · subst hleast
    by_cases hzero : fraction = 0#52
    · rw [hzero, unpack_zero] at h
      cases h
    · have hpos : 0 < fraction.toNat := by simpa [BitVec.toNat_pos, BitVec.pos_iff_ne_zero]
      rw [unpack_subnormal _ hpos] at h
      obtain ⟨-, rfl, rfl⟩ := UnpackedFloat.finite.inj h
      exact ⟨⟨hm, by omega, by omega, Or.inr rfl⟩, by decide⟩
  · rw [unpack_normal _ _ hgreatest hleast] at h
    obtain ⟨-, rfl, rfl⟩ := UnpackedFloat.finite.inj h
    have hpos : exponent.toNat ≠ 0 := fun hzero => hleast (BitVec.toNat_inj.mp hzero)
    have hlt : exponent.toNat ≠ 2047 := fun htop => hgreatest (BitVec.toNat_inj.mp htop)
    have hexponent : exponent.toNat < 2 ^ 11 := exponent.isLt
    unfold greatestExponent
    exact ⟨⟨hm, by omega, by omega, Or.inl (by omega)⟩, by omega⟩

theorem biased_eq (e : Int) : e + (Format.binary64.exponentBias : Int) + ((52 : Nat) : Int) = e + 1075 := by
  show e + 1023 + 52 = e + 1075
  omega

/-- A number is packed according to its exponent and to the length of its mantissa. -/
theorem pack_finite (s : Sign) {m : Nat} (e : Int) (hm : 0 < m) :
    UnpackedFloat.pack Format.binary64 (.finite s m e hm) =
      if 2 ^ 11 ≤ (e + 1075).toNat + 1 then packedInfinity Format.binary64 s
      else if m.log2 + 1 = 53 then
        packComponents Format.binary64 s (BitVec.ofNat 11 (e + 1075).toNat) (BitVec.ofNat 52 m)
      else packComponents Format.binary64 s 0#11 (BitVec.ofNat 52 m) := by
  rw [← biased_eq]
  rfl

/-- Of a full mantissa the leading bit is not stored. -/
theorem unpack_pack_of_full {m : Nat} {e : Int} (h : Canonical m e) (hfull : 2 ^ 52 ≤ m) (he : e ≤ greatestExponent)
    (s : Sign) : (Float.Model.pack (.finite s m e h.pos)).unpack = .finite s m e h.pos := by
  have hleast := h.least_le
  have hlt := h.lt
  have hrange : ¬ 2 ^ 11 ≤ (e + 1075).toNat + 1 := by
    unfold greatestExponent at he
    omega
  have hexponent : (BitVec.ofNat 11 (e + 1075).toNat).toNat = (e + 1075).toNat := by
    rw [BitVec.toNat_ofNat, Nat.mod_eq_of_lt (by omega)]
  have hfraction : (BitVec.ofNat 52 m).toNat = m - 2 ^ 52 := by
    rw [BitVec.toNat_ofNat]
    omega
  show UnpackedFloat.unpack Format.binary64 (UnpackedFloat.pack Format.binary64 (.finite s m e h.pos)) = _
  rw [pack_finite, if_neg hrange, if_pos (by rw [h.log2_eq hfull]), unpack_normal]
  · exact finite_congr rfl (by omega) (by omega)
  · intro htop
    have htoNat : (e + 1075).toNat = 2047 := hexponent.symm.trans (congrArg BitVec.toNat htop)
    omega
  · intro hzero
    have htoNat : (e + 1075).toNat = 0 := hexponent.symm.trans (congrArg BitVec.toNat hzero)
    omega

/-- A mantissa that is not full is stored as it is, under the least exponent. -/
theorem unpack_pack_of_least {m : Nat} (hm : 0 < m) (hsmall : m < 2 ^ 52) (s : Sign) :
    (Float.Model.pack (.finite s m (-1074) hm)).unpack = .finite s m (-1074) hm := by
  have hlog : m.log2 < 52 := (Nat.log2_lt hm.ne').mpr hsmall
  have hfraction : (BitVec.ofNat 52 m).toNat = m := by
    rw [BitVec.toNat_ofNat, Nat.mod_eq_of_lt hsmall]
  have hpos : 0 < (BitVec.ofNat 52 m).toNat := by
    rw [hfraction]
    exact hm
  show UnpackedFloat.unpack Format.binary64 (UnpackedFloat.pack Format.binary64 (.finite s m (-1074) hm)) = _
  rw [pack_finite, if_neg (by decide), if_neg (by omega), unpack_subnormal _ hpos]
  exact finite_congr rfl hfraction rfl

/-- **Packing keeps** a canonical pair. -/
theorem unpack_pack_of_canonical {m : Nat} {e : Int} (h : Canonical m e) (he : e ≤ greatestExponent) (s : Sign) :
    (Float.Model.pack (.finite s m e h.pos)).unpack = .finite s m e h.pos := by
  by_cases hfull : 2 ^ 52 ≤ m
  · exact unpack_pack_of_full h hfull he s
  · rcases h.full with hfull' | rfl
    · exact absurd hfull' hfull
    · exact unpack_pack_of_least h.pos (not_le.mp hfull) s

/-- A number beyond the greatest exponent becomes infinite. -/
theorem unpack_pack_of_overflow {m : Nat} {e : Int} (hm : 0 < m) (he : greatestExponent < e) (s : Sign) :
    (Float.Model.pack (.finite s m e hm)).unpack = .infinity s := by
  have hrange : 2 ^ 11 ≤ (e + 1075).toNat + 1 := by
    unfold greatestExponent at he
    omega
  show UnpackedFloat.unpack Format.binary64 (UnpackedFloat.pack Format.binary64 (.finite s m e hm)) = _
  rw [pack_finite, if_pos hrange, unpack_packedInfinity]

/-! ## Rounding -/

/-- Shifting out zeros loses nothing. -/
theorem shiftRight_two_pow (m k : Nat) : (⟨m * 2 ^ k, false, false⟩ : ExtendedMantissa) >>> k = ⟨m, false, false⟩ := by
  induction k generalizing m with
  | zero =>
    rw [Nat.pow_zero, Nat.mul_one]
    rfl
  | succ k ih =>
    have hrest : (⟨m * 2 ^ (k + 1), false, false⟩ : ExtendedMantissa) >>> k = ⟨m * 2, false, false⟩ := by
      rw [Nat.pow_succ', ← Nat.mul_assoc]
      exact ih (m * 2)
    show ((⟨m * 2 ^ (k + 1), false, false⟩ : ExtendedMantissa) >>> k).shiftRightOne = ⟨m, false, false⟩
    rw [hrest]
    simp [ExtendedMantissa.shiftRightOne]

/-- The first step of rounding takes a longer spelling back to the canonical pair. -/
theorem shiftToTarget_of_canonical {m : Nat} {e : Int} (h : Canonical m e) (k : Nat) :
    shiftToTargetExponent Format.binary64 (m * 2 ^ k) (e - k) .exact = (⟨m, false, false⟩, e) := by
  have htotal : totalExponent (m * 2 ^ k) (e - k) = m.log2 + 1 + e := by
    unfold totalExponent
    rw [log2_mul_two_pow h.pos]
    push_cast
    omega
  have hamount : (e - (e - k)).toNat = k := by omega
  unfold shiftToTargetExponent shiftToExponent
  rw [htotal, h.targetExponent_eq]
  dsimp only
  rw [hamount]
  show ((⟨m * 2 ^ k, false, false⟩ : ExtendedMantissa) >>> k, e - k + k) = _
  rw [shiftRight_two_pow, Int.sub_add_cancel]

/-- **Rounding is exact** on every spelling of a canonical pair. -/
theorem round_of_canonical {m : Nat} {e : Int} (h : Canonical m e) (s : Sign) (k : Nat) :
    roundWithAccuracy Format.binary64 s (m * 2 ^ k) (e - k) .exact = .finite s m e h.pos := by
  have hagain := shiftToTarget_of_canonical h 0
  rw [Nat.pow_zero, Nat.mul_one, Int.natCast_zero, Int.sub_zero] at hagain
  unfold roundWithAccuracy
  rw [shiftToTarget_of_canonical h k]
  dsimp only [ExtendedMantissa.roundedMantissa, ExtendedMantissa.accuracy, Accuracy.roundToNearestEven]
  rw [hagain]
  dsimp only
  rw [dif_neg h.pos.ne']

/-! ## Whole numbers -/

/-- The places by which the leading bit of a mantissa is moved to the top. -/
def places (n : Nat) : Nat :=
  52 - n.log2

/-- A mantissa with its leading bit at the top. -/
def lifted (n : Nat) : Nat :=
  n <<< places n

theorem lifted_eq (n : Nat) : lifted n = n * 2 ^ places n :=
  Nat.shiftLeft_eq n (places n)

theorem log2_lifted {n : Nat} (hn : 0 < n) (hlt : n < 2 ^ 53) : (lifted n).log2 = 52 := by
  have hlog : n.log2 < 53 := (Nat.log2_lt hn.ne').mpr hlt
  rw [lifted_eq, log2_mul_two_pow hn]
  unfold places
  omega

theorem canonical_lifted {n : Nat} {e : Int} (hn : 0 < n) (hlt : n < 2 ^ 53) (he : -1074 ≤ e) :
    Canonical (lifted n) e := by
  have hpos : 0 < lifted n := by
    rw [lifted_eq]
    exact Nat.mul_pos hn (Nat.two_pow_pos _)
  obtain ⟨hlow, hhigh⟩ := (Nat.log2_eq_iff hpos.ne').mp (log2_lifted hn hlt)
  exact { pos := hpos, lt := hhigh, least_le := he, full := Or.inl hlow }

/-- The sign of an integer, that of zero being positive. -/
def signOf (i : Int) : Sign :=
  if i < 0 then .negative else .positive

theorem value_signOf (i e : Int) : value (.finite (isNegative (signOf i)) i.natAbs e) = i * 2 ^ e := by
  unfold signOf
  by_cases hneg : i < 0
  · have habs : ((i.natAbs : ℤ) : ℚ) = -i := by
      rw [Int.ofNat_natAbs_of_nonpos hneg.le, Int.cast_neg]
    rw [if_pos hneg]
    show value (.finite true _ _) = _
    rw [value_negative, ← Int.cast_natCast, habs]
    ring
  · have habs : ((i.natAbs : ℤ) : ℚ) = i := by
      rw [Int.natAbs_of_nonneg (not_lt.mp hneg)]
    rw [if_neg hneg]
    show value (.finite false _ _) = _
    rw [value_positive, ← Int.cast_natCast, habs]

/-- An integer of at most 53 bits times a power of two is held as it is. -/
theorem unpack_toFloat {i e : Int} (hi : 0 < i.natAbs) (hlt : i.natAbs < 2 ^ 53) (hlow : -1022 ≤ e)
    (hhigh : e ≤ greatestExponent) :
    ∃ hpos, (toFloat i e).toModel.unpack = .finite (signOf i) (lifted i.natAbs) (e - places i.natAbs) hpos := by
  have hplaces : places i.natAbs ≤ 52 := Nat.sub_le _ _
  have h : Canonical (lifted i.natAbs) (e - places i.natAbs) := canonical_lifted hi hlt (by omega)
  refine ⟨h.pos, ?_⟩
  unfold toFloat
  rw [dif_neg hi.ne']
  exact unpack_pack_of_canonical h (by omega) _

end Reading

/-- The exact value of a finite float. -/
def floatValue (x : Float) : ℚ :=
  (Reading.ofFloat x).value

theorem exists_finite {x : Float} (hx : x.isFinite = true) :
    ∃ negative m e, Reading.ofFloat x = .finite negative m e := by
  have hunpack : x.toModel.unpack.isFinite = true := hx
  unfold Reading.ofFloat
  cases h : x.toModel.unpack with
  | notANumber =>
    rw [h] at hunpack
    cases hunpack
  | infinity s =>
    rw [h] at hunpack
    cases hunpack
  | zero s => exact ⟨_, _, _, rfl⟩
  | finite s m e hm => exact ⟨_, _, _, rfl⟩

theorem floatValue_toFloat {i e : Int} (hlt : i.natAbs < 2 ^ 53) (hlow : -1022 ≤ e)
    (hhigh : e ≤ Reading.greatestExponent) :
    (Reading.toFloat i e).isFinite = true ∧ floatValue (Reading.toFloat i e) = i * 2 ^ e := by
  unfold floatValue
  rcases Nat.eq_zero_or_pos i.natAbs with hi | hi
  · obtain rfl := Int.natAbs_eq_zero.mp hi
    have hread : Reading.ofFloat 0 = .finite false 0 0 := by decide +kernel
    rw [show Reading.toFloat 0 e = 0 from dif_pos rfl, hread, Reading.value_positive]
    refine ⟨by decide +kernel, ?_⟩
    rw [Nat.cast_zero, zero_mul, Int.cast_zero, zero_mul]
  · obtain ⟨hpos, hunpack⟩ := Reading.unpack_toFloat hi hlt hlow hhigh
    have hread : Reading.ofFloat (Reading.toFloat i e) =
        .finite (Reading.isNegative (Reading.signOf i)) (Reading.lifted i.natAbs) (e - Reading.places i.natAbs) := by
      unfold Reading.ofFloat
      rw [hunpack]
    constructor
    · show (Reading.toFloat i e).toModel.unpack.isFinite = true
      rw [hunpack]
      rfl
    · rw [hread, Reading.lifted_eq, Reading.value_spelling, Reading.value_signOf]

end NeuroMap
