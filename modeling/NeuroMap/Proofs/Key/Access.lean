import Mathlib.Data.List.Basic
import NeuroMap.Key.Basic

/-!
# Reading and writing the fields of a key

A field that was written reads as the value written, all other fields read as before, and the format stays. Whether a
write succeeds depends on the format alone.
-/

namespace NeuroMap

namespace Slot

theorem read_write {s : Slot} {v : UInt32} (h : v ≤ s.field.maxValue) : (s.write v).read = v := by
  unfold write
  rw [dif_pos h]
  rfl

end Slot

namespace Key

variable {k k' : Key} {name other : String} {v : Nat}

/-- The slot of the given name. -/
def slot? (k : Key) (name : String) : Option Slot :=
  k.slots.find? (·.field.name = name)

theorem get_of_slot {s : Slot} (h : k.slot? name = some s) : k.get name = .ok s.read := by
  unfold slot? at h
  rw [get, h]

theorem get_of_slot_none (h : k.slot? name = none) : k.get name = .error (.unavailableField name k.formatName) := by
  unfold slot? at h
  rw [get, h]

theorem field?_format (k : Key) (name : String) : k.format.field? name = (k.slot? name).map (·.field) := by
  show (k.slots.map (·.field)).find? _ = _
  rw [List.find?_map]
  rfl

@[simp] theorem format_new (format : Format) : (Key.new format).format = format := by
  have h : (·.field) ∘ Slot.unset = id := rfl
  simp [new, Key.format, List.map_map, h]

theorem format_write (k : Key) (name : String) (v : UInt32) : (k.write name v).format = k.format := by
  simp only [format, write, Format.mk.injEq, List.map_map, true_and]
  refine List.map_congr_left fun s _ => ?_
  by_cases hs : s.field.name = name <;> simp [hs]

theorem slot?_write (k : Key) (name other : String) (v : UInt32) :
    (k.write name v).slot? other = (k.slot? other).map fun s => if other = name then s.write v else s := by
  unfold slot? write
  dsimp only
  rw [List.find?_map]
  have hname : ((fun s : Slot => decide (s.field.name = other)) ∘
      fun s => if s.field.name = name then s.write v else s) = fun s => decide (s.field.name = other) := by
    funext s
    by_cases hs : s.field.name = name <;> simp [hs]
  rw [hname]
  cases hfind : k.slots.find? (fun s => decide (s.field.name = other)) with
  | none => rfl
  | some s =>
    have hs : s.field.name = other := by simpa using List.find?_some hfind
    simp only [Option.map_some, hs]

/-- A write succeeds exactly when the format declares the field and the value fits it. -/
theorem set_eq_ok_iff :
    k.set name v = .ok k' ↔
      ∃ f, k.format.field? name = some f ∧ v ≤ f.maxValue.toNat ∧ k' = k.write name (UInt32.ofNat v) := by
  unfold set Format.require
  cases hf : k.format.field? name with
  | none => simp
  | some f =>
    by_cases hv : v ≤ f.maxValue.toNat
    · simp [hv, eq_comm]
    · simp [hv]

/-- A write to a declared field fails exactly when the value does not fit it. -/
theorem set_eq_error_iff {f : Field} {e : KeyError} (hf : k.format.field? name = some f) :
    k.set name v = .error e ↔ f.maxValue.toNat < v ∧ e = .valueTooLarge name v f.length.toNat := by
  unfold set Format.require
  rw [hf]
  dsimp only
  by_cases hv : v ≤ f.maxValue.toNat
  · rw [if_pos hv]
    exact iff_of_false (by simp) fun h => absurd h.1 (by omega)
  · rw [if_neg hv, Except.error.injEq, eq_comm]
    exact (and_iff_right (by omega)).symm

theorem format_of_set (h : k.set name v = .ok k') : k'.format = k.format := by
  obtain ⟨f, -, -, rfl⟩ := set_eq_ok_iff.mp h
  exact format_write k name _

theorem get_of_set (h : k.set name v = .ok k') : ∃ w : UInt32, k'.get name = .ok w ∧ w.toNat = v := by
  obtain ⟨f, hf, hv, rfl⟩ := set_eq_ok_iff.mp h
  rw [field?_format] at hf
  obtain ⟨s, hs, rfl⟩ := Option.map_eq_some_iff.mp hf
  have hsize : v < UInt32.size := Nat.lt_of_le_of_lt hv s.field.maxValue.toNat_lt
  have hslot : (k.write name (UInt32.ofNat v)).slot? name = some (s.write (UInt32.ofNat v)) := by
    simp [slot?_write, hs]
  have hfit : UInt32.ofNat v ≤ s.field.maxValue := by
    rw [UInt32.le_iff_toNat_le, UInt32.toNat_ofNat_of_lt' hsize]
    exact hv
  refine ⟨UInt32.ofNat v, ?_, UInt32.toNat_ofNat_of_lt' hsize⟩
  rw [get_of_slot hslot, Slot.read_write hfit]

theorem get_of_set_of_ne (h : k.set name v = .ok k') (hne : other ≠ name) : k'.get other = k.get other := by
  obtain ⟨f, -, -, rfl⟩ := set_eq_ok_iff.mp h
  have hslot : (k.write name (UInt32.ofNat v)).slot? other = k.slot? other := by
    rw [slot?_write]
    simp [hne]
  cases hs : k.slot? other with
  | none =>
    rw [get_of_slot_none hs, get_of_slot_none (hslot.trans hs)]
    rfl
  | some s => rw [get_of_slot hs, get_of_slot (hslot.trans hs)]

theorem has_iff : k.has name = true ↔ ∃ f, k.format.field? name = some f := by
  unfold has Format.has
  exact Option.isSome_iff_exists

theorem fieldMask_eq_ok_iff {mask : UInt32} :
    k.fieldMask name = .ok mask ↔ ∃ f, k.format.field? name = some f ∧ mask = f.mask := by
  unfold fieldMask Format.require
  cases k.format.field? name with
  | none => simp
  | some f => simp [eq_comm]

/-- The mask of a field is refused exactly when the format does not declare the field. -/
theorem fieldMask_eq_error_iff {e : KeyError} :
    k.fieldMask name = .error e ↔ k.has name = false ∧ e = .unavailableField name k.formatName := by
  unfold fieldMask Format.require has Format.has
  cases k.format.field? name with
  | none => simp [format, eq_comm]
  | some f => simp

end Key

end NeuroMap
