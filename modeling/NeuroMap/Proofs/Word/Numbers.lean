import Mathlib.Data.Fintype.Card
import Mathlib.Data.List.Nodup

/-!
# Numbers cut to words

A number below `UInt32.size` is kept when it is cut to a word, and `UInt32.size` itself becomes zero. So the first
`UInt32.size` numbers have different words, and no list of different words is longer than that.
-/

namespace NeuroMap.Word

theorem ofNat_size : UInt32.ofNat UInt32.size = 0 := by decide

theorem toNat_ofNat_le (n : Nat) : (UInt32.ofNat n).toNat ≤ n := by
  rw [UInt32.toNat_ofNat']
  exact Nat.mod_le _ _

theorem ofNat_injective_of_lt {a b : Nat} (ha : a < UInt32.size) (hb : b < UInt32.size)
    (h : UInt32.ofNat a = UInt32.ofNat b) : a = b := by
  rw [← UInt32.toNat_ofNat_of_lt' ha, h, UInt32.toNat_ofNat_of_lt' hb]

theorem one_lt_ofNat_iff {n : Nat} (h : n ≤ UInt32.size) : 1 < UInt32.ofNat n ↔ 1 < n ∧ n < UInt32.size := by
  rw [UInt32.lt_iff_toNat_lt, UInt32.toNat_one]
  rcases Nat.lt_or_eq_of_le h with hlt | rfl
  · rw [UInt32.toNat_ofNat_of_lt' hlt]
    exact (and_iff_left hlt).symm
  · rw [UInt32.toNat_ofNat', Nat.mod_self]
    exact iff_of_false (by decide) fun h => Nat.lt_irrefl _ h.2

theorem length_le_size_of_nodup {words : List UInt32} (h : words.Nodup) : words.length ≤ UInt32.size := by
  have hfins : (words.map UInt32.toFin).Nodup := h.map fun _ _ => UInt32.toFin_inj.mp
  simpa using hfins.length_le_card

/-- Consecutive numbers below `UInt32.size` are kept. -/
theorem map_toNat_ofNat_range' {start length : Nat} (h : start + length ≤ UInt32.size) :
    ((List.range' start length).map UInt32.ofNat).map UInt32.toNat = List.range' start length := by
  rw [List.map_map]
  refine (List.map_congr_left fun i hi => ?_).trans (List.map_id _)
  obtain ⟨-, hlt⟩ := List.mem_range'_1.mp hi
  exact UInt32.toNat_ofNat_of_lt' (Nat.lt_of_lt_of_le hlt h)

/-- The words of the first numbers are different exactly as long as there are enough words. -/
theorem nodup_map_ofNat_range_iff {length : Nat} :
    ((List.range length).map UInt32.ofNat).Nodup ↔ length ≤ UInt32.size := by
  constructor
  · intro h
    simpa using length_le_size_of_nodup h
  · intro h
    refine List.Nodup.map_on (fun a ha b hb heq => ?_) List.nodup_range
    rw [List.mem_range] at ha hb
    exact ofNat_injective_of_lt (Nat.lt_of_lt_of_le ha h) (Nat.lt_of_lt_of_le hb h) heq

end NeuroMap.Word
