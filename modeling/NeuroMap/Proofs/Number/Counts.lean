import NeuroMap.Partition.Usage
import NeuroMap.Proofs.Number.Fixed

/-!
# Numbers of atoms as floats

The cost of a range is the float product of the cost of an atom and the number of atoms. A number below `2 ^ 53` is kept
as a float, and a factor that is a power of two only moves its exponent. So if the cost of one atom is a power of two,
the cost of two or more has a greater exponent, and every limit with the exponent of one atom lies below it.
-/

namespace NeuroMap

namespace Reading

open Float.Model Float.Model.UnpackedFloat

/-! ## Products with a power of two -/

theorem mul_power {m : Nat} {e k : Int} (hm : 0 < m) (h : Canonical m (e + 52 + k)) :
    UnpackedFloat.mul Format.binary64 (.finite .positive m e hm) (.finite .positive (2 ^ 52) k (by decide)) =
      .finite .positive m (e + 52 + k) h.pos := by
  have hexponent : e + k = e + 52 + k - (52 : Nat) := by omega
  show roundWithAccuracy Format.binary64 .positive (m * 2 ^ 52) (e + k) .exact = _
  rw [hexponent]
  exact round_of_canonical h .positive 52

theorem power_mul {m : Nat} {e k : Int} (hm : 0 < m) (h : Canonical m (e + 52 + k)) :
    UnpackedFloat.mul Format.binary64 (.finite .positive (2 ^ 52) k (by decide)) (.finite .positive m e hm) =
      .finite .positive m (e + 52 + k) h.pos := by
  rw [← mul_power hm h]
  show roundWithAccuracy Format.binary64 .positive (2 ^ 52 * m) (k + e) .exact =
    roundWithAccuracy Format.binary64 .positive (m * 2 ^ 52) (e + k) .exact
  rw [Nat.mul_comm, Int.add_comm]

/-! ## Numbers -/

theorem unpack_toFloat_toUInt64 {n : Nat} (hn : 0 < n) (hlt : n < 2 ^ 53) :
    ∃ hpos, n.toUInt64.toFloat.toModel.unpack = .finite .positive (lifted n) (-places n) hpos := by
  have hplaces : places n ≤ 52 := Nat.sub_le _ _
  have h : Canonical (lifted n) (-places n) := canonical_lifted hn hlt (by omega)
  obtain ⟨_, hround⟩ := Fixed.round_natural hn hlt .positive
  have hword : n.toUInt64.toNat = n := UInt64.toNat_ofNat_of_lt' (Nat.lt_trans hlt (by decide))
  have hsign : signOf (n : Int) = .positive := if_neg (by omega)
  refine ⟨h.pos, ?_⟩
  show (Float.Model.pack (UnpackedFloat.normalize Format.binary64 (n.toUInt64.toNat : Int) 0 .positive)).unpack = _
  rw [hword, Fixed.normalize_eq (by omega), hsign, Int.natAbs_natCast, hround]
  exact unpack_pack_of_canonical h (by unfold greatestExponent; omega) _

theorem unpack_ofNat {n : Nat} (hn : 0 < n) (hlt : n < 2 ^ 53) :
    ∃ hpos, (Float.ofNat n).toModel.unpack = .finite .positive (lifted n) (-places n) hpos := by
  have hplaces : places n ≤ 52 := Nat.sub_le _ _
  have h : Canonical (lifted n) (-places n) := canonical_lifted hn hlt (by omega)
  have hsame : (-places n + 52 + -52 : Int) = -places n := by omega
  obtain ⟨_, hcast⟩ := unpack_toFloat_toUInt64 hn hlt
  -- A number is read as a decimal, which is a product with a power of ten: here with one.
  have hproduct : Float.ofNat n = n.toUInt64.toFloat * 1 := dif_pos ⟨hlt, by decide⟩
  have hone : (1 : Float).toModel.unpack = .finite .positive (2 ^ 52) (-52) (by decide) := rfl
  have hmul : UnpackedFloat.mul Format.binary64 (.finite .positive (lifted n) (-places n) h.pos)
      (.finite .positive (2 ^ 52) (-52) (by decide)) = .finite .positive (lifted n) (-places n) h.pos :=
    (mul_power h.pos (hsame.symm ▸ h)).trans (finite_congr rfl rfl hsame)
  refine ⟨h.pos, ?_⟩
  rw [hproduct]
  show (Float.Model.pack (UnpackedFloat.mul Format.binary64 n.toUInt64.toFloat.toModel.unpack
    (1 : Float).toModel.unpack)).unpack = _
  rw [hcast, hone, hmul]
  exact unpack_pack_of_canonical h (by unfold greatestExponent; omega) _

/-- Of two positive floats the one with the greater exponent is greater. -/
theorem not_le_of_exponent_lt {x y : Float} {m m' : Nat} {e e' : Int} {hm : 0 < m} {hm' : 0 < m'}
    (hx : x.toModel.unpack = .finite .positive m e hm) (hy : y.toModel.unpack = .finite .positive m' e' hm')
    (hlt : e' < e) : ¬ x ≤ y := by
  have hcompare : x.toModel.unpack.compare y.toModel.unpack = some .gt := by
    rw [hx, hy]
    show some ((compare e e').then (compare m m')) = _
    rw [Int.compare_eq_gt.mpr hlt]
    rfl
  have hle : x.toModel.unpack.le y.toModel.unpack = false := by
    show Option.any _ _ = _
    rw [hcompare]
    rfl
  show ¬ decide (x.toModel.unpack.le y.toModel.unpack = true) = true
  rw [hle]
  decide

end Reading

open Reading

/-- Two or more atoms cost more than a limit that has the exponent of the cost of one, which is a power of two. -/
theorem Usage.not_perAtom_le {cost limit : Float} {m : Nat} {k : Int} {hm : 0 < m}
    (hcost : cost.toModel.unpack = .finite .positive (2 ^ 52) k (by decide))
    (hlimit : limit.toModel.unpack = .finite .positive m k hm) (hlow : -1074 ≤ k) (hhigh : k ≤ 900) {r : AtomRange}
    (htwo : 2 ≤ r.stop - r.start) (hlt : r.stop - r.start < 2 ^ 53) : ¬ perAtom cost r ≤ limit := by
  generalize hn : r.stop - r.start = n at htwo hlt
  have hplaces : places n ≤ 51 := by
    have hlog : 1 ≤ n.log2 := (Nat.le_log2 (by omega)).mpr htwo
    unfold places
    omega
  have h : Canonical (lifted n) (-places n + 52 + k) := canonical_lifted (by omega) hlt (by omega)
  obtain ⟨hpos, hcount⟩ := unpack_ofNat (by omega) hlt
  have hproduct : (perAtom cost r).toModel.unpack = .finite .positive (lifted n) (-places n + 52 + k) h.pos := by
    unfold perAtom count
    rw [hn]
    show (Float.Model.pack (Float.Model.UnpackedFloat.mul Float.Model.Format.binary64 cost.toModel.unpack
      (Float.ofNat n).toModel.unpack)).unpack = _
    rw [hcost, hcount, power_mul hpos h]
    exact unpack_pack_of_canonical h (by unfold greatestExponent; omega) _
  exact not_le_of_exponent_lt hproduct hlimit (by omega)

end NeuroMap
