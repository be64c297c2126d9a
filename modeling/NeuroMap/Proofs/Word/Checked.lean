import Mathlib.Data.Nat.Basic

/-!
# Operations that may leave the word

Sums, differences, quotients and shifts of words, which have no result where the number does not fit a word or is not
defined. An algorithm in words that has a result with these operations never wraps around.
-/

namespace NeuroMap.Word

/-- The sum of two words; none if it does not fit one. -/
def add? (a b : UInt32) : Option UInt32 :=
  if a.toNat + b.toNat < UInt32.size then some (a + b) else none

/-- The difference of two words; none if it is below zero. -/
def sub? (a b : UInt32) : Option UInt32 :=
  if b ≤ a then some (a - b) else none

/-- The quotient of two words rounded up; none if the divisor is zero. -/
def divUp? (a b : UInt32) : Option UInt32 :=
  if b = 0 then none
  else if 0 < a % b then add? (a / b) 1 else some (a / b)

/-- A word moved to the left; none for a distance of its width or more. -/
def shiftLeft? (a distance : UInt32) : Option UInt32 :=
  if distance < 32 then some (a <<< distance) else none

/-- The sum of two long words; none if it does not fit one. -/
def addLong? (a b : UInt64) : Option UInt64 :=
  if a.toNat + b.toNat < UInt64.size then some (a + b) else none

theorem exists_add? {a b : UInt32} (h : a.toNat + b.toNat < UInt32.size) :
    ∃ sum, add? a b = some sum ∧ sum.toNat = a.toNat + b.toNat := by
  refine ⟨a + b, if_pos h, ?_⟩
  rw [UInt32.toNat_add]
  exact Nat.mod_eq_of_lt h

theorem exists_sub? {a b : UInt32} (h : b.toNat ≤ a.toNat) :
    ∃ difference, sub? a b = some difference ∧ difference.toNat = a.toNat - b.toNat := by
  have hle : b ≤ a := UInt32.le_iff_toNat_le.mpr h
  exact ⟨a - b, if_pos hle, UInt32.toNat_sub_of_le _ _ hle⟩

/-- Half of a word rounded up always fits a word. -/
theorem exists_divUp?_two (a : UInt32) : ∃ half, divUp? a 2 = some half ∧ half.toNat = (a.toNat + 1) / 2 := by
  have hquotient : (a / 2).toNat = a.toNat / 2 := UInt32.toNat_div a 2
  have hremainder : (a % 2).toNat = a.toNat % 2 := UInt32.toNat_mod a 2
  have hlt : a.toNat < UInt32.size := a.toNat_lt
  unfold divUp?
  rw [if_neg (by decide)]
  by_cases hodd : 0 < a % 2
  · have hodd' : 0 < (a % 2).toNat := UInt32.lt_iff_toNat_lt.mp hodd
    have hroom : (a / 2).toNat + (1 : UInt32).toNat < UInt32.size := by
      rw [hquotient, UInt32.toNat_one]
      omega
    obtain ⟨half, hhalf, hval⟩ := exists_add? hroom
    rw [if_pos hodd]
    refine ⟨half, hhalf, ?_⟩
    rw [hval, hquotient, UInt32.toNat_one]
    omega
  · have heven : ¬ 0 < (a % 2).toNat := fun h => hodd (UInt32.lt_iff_toNat_lt.mpr h)
    rw [if_neg hodd]
    refine ⟨a / 2, rfl, ?_⟩
    omega

theorem addLong?_toUInt64 (a b : UInt32) :
    ∃ sum, addLong? a.toUInt64 b.toUInt64 = some sum ∧ sum.toNat = a.toNat + b.toNat := by
  have ha : a.toNat < 2 ^ 32 := a.toNat_lt
  have hb : b.toNat < 2 ^ 32 := b.toNat_lt
  have hfits : a.toUInt64.toNat + b.toUInt64.toNat < UInt64.size := by
    rw [UInt32.toNat_toUInt64, UInt32.toNat_toUInt64]
    exact Nat.lt_trans (Nat.add_lt_add ha hb) (by decide)
  refine ⟨a.toUInt64 + b.toUInt64, if_pos hfits, ?_⟩
  rw [UInt64.toNat_add, Nat.mod_eq_of_lt hfits, UInt32.toNat_toUInt64, UInt32.toNat_toUInt64]

end NeuroMap.Word
