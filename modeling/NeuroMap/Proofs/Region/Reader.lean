import Mathlib.Data.List.Basic
import NeuroMap.Region.Basic

/-!
# Reading tables

The readers here know the layout of a table and nothing about how it was written: words with the least significant byte
first, a leading count, then so many items, each of which says itself where it ends, and nothing after the last.
-/

namespace NeuroMap

namespace Word

/-- The word of four bytes, least significant first. -/
def ofBytes (a b c d : UInt8) : UInt32 :=
  UInt32.ofNat (a.toNat + 256 * (b.toNat + 256 * (c.toNat + 256 * d.toNat)))

/-- The words of a block that is made of whole words. -/
def read : List UInt8 → Option (List UInt32)
  | [] => some []
  | a :: b :: c :: d :: rest => (read rest).map (ofBytes a b c d :: ·)
  | _ => none

theorem ofBytes_bytes (w : UInt32) :
    ofBytes w.toUInt8 (w >>> 8).toUInt8 (w >>> 16).toUInt8 (w >>> 24).toUInt8 = w := by
  have hw : w.toNat < 4294967296 := w.toNat_lt
  rw [← UInt32.toNat_inj, ofBytes, UInt32.toNat_ofNat']
  simp only [UInt32.toNat_toUInt8, UInt32.toNat_shiftRight, UInt32.reduceToNat, Nat.reduceMod, Nat.reducePow,
    Nat.shiftRight_eq_div_pow]
  omega

theorem read_flatten (ws : List UInt32) : read (flatten ws) = some ws := by
  induction ws with
  | nil => rfl
  | cons w ws ih =>
    show (read (flatten ws)).map _ = _
    rw [ih, Option.map_some, ofBytes_bytes]

theorem length_flatten (ws : List UInt32) : (flatten ws).length = 4 * ws.length := by
  induction ws with
  | nil => rfl
  | cons w ws ih =>
    show (flatten ws).length + 4 = _
    rw [ih, List.length_cons]
    omega

/-- The word at position `i` of a block, counted in words. -/
def nth (bytes : List UInt8) (i : Nat) : Option UInt32 :=
  match bytes.drop (size * i) with
  | a :: b :: c :: d :: _ => some (ofBytes a b c d)
  | _ => none

theorem nth_flatten_append {ws : List UInt32} {i : Nat} (hi : i < ws.length) (rest : List UInt8) :
    nth (flatten ws ++ rest) i = ws[i]? := by
  induction ws generalizing i with
  | nil => simp at hi
  | cons w ws ih =>
    cases i with
    | zero =>
      show some (ofBytes _ _ _ _) = some w
      rw [ofBytes_bytes]
    | succ i =>
      rw [List.getElem?_cons_succ, ← ih (Nat.lt_of_succ_lt_succ hi)]
      have hdrop : (flatten (w :: ws) ++ rest).drop (size * (i + 1)) = (flatten ws ++ rest).drop (size * i) := by
        have hindex : size * (i + 1) = (bytes w).length + size * i := by
          show 4 * (i + 1) = 4 + 4 * i
          omega
        rw [hindex]
        show (bytes w ++ flatten ws ++ rest).drop _ = _
        rw [List.append_assoc, List.drop_length_add_append]
      rw [nth, nth, hdrop]

end Word

theorem countWord_eq_ok_iff {what : Quantity} {n : Nat} {w : UInt32} :
    countWord what n = .ok w ↔ n < UInt32.size ∧ w = UInt32.ofNat n := by
  unfold countWord
  by_cases h : n < UInt32.size <;> simp [h, eq_comm]

theorem countWord_eq_error_iff {what : Quantity} {n : Nat} {e : RegionError} :
    countWord what n = .error e ↔ UInt32.size ≤ n ∧ e = .overflow what n := by
  unfold countWord
  by_cases h : n < UInt32.size
  · rw [if_pos h]
    exact iff_of_false (by simp) fun hle => absurd hle.1 (by omega)
  · rw [if_neg h, Except.error.injEq, eq_comm]
    exact (and_iff_right (by omega)).symm

section Table

variable {α : Type} (read : List UInt32 → Option (α × List UInt32))

/-- Reads `n` items one after the other; what is left comes second. -/
def readItems : Nat → List UInt32 → Option (List α × List UInt32)
  | 0, ws => some ([], ws)
  | n + 1, ws =>
    match read ws with
    | none => none
    | some (x, ws) => (readItems n ws).map fun (xs, ws) => (x :: xs, ws)

/-- Reads a table of counted items; nothing may be left. -/
def readTable (bytes : List UInt8) : Option (List α) :=
  match Word.read bytes with
  | some (count :: ws) =>
    match readItems read count.toNat ws with
    | some (xs, []) => some xs
    | _ => none
  | _ => none

variable {read} {words : α → List UInt32} {xs : List α}

theorem readItems_flatMap (h : ∀ x ∈ xs, ∀ rest, read (words x ++ rest) = some (x, rest)) (rest : List UInt32) :
    readItems read xs.length (xs.flatMap words ++ rest) = some (xs, rest) := by
  induction xs with
  | nil => rfl
  | cons x xs ih =>
    obtain ⟨hx, hxs⟩ := List.forall_mem_cons.mp h
    rw [List.length_cons, readItems, List.flatMap_cons, List.append_assoc, hx]
    dsimp only
    rw [ih hxs]
    rfl

/-- **Reading undoes writing** for a table, if it does so for its items wherever they stand. -/
theorem readTable_flatten (hcount : xs.length < UInt32.size)
    (h : ∀ x ∈ xs, ∀ rest, read (words x ++ rest) = some (x, rest)) :
    readTable read (Word.flatten (UInt32.ofNat xs.length :: xs.flatMap words)) = some xs := by
  have hitems := readItems_flatMap h []
  rw [List.append_nil] at hitems
  rw [readTable, Word.read_flatten]
  dsimp only
  rw [UInt32.toNat_ofNat_of_lt' hcount, hitems]

/-- The size of a table whose items all have `k` words. -/
theorem length_flatten_table {k : Nat} (h : ∀ x, (words x).length = k) (xs : List α) :
    (Word.flatten (UInt32.ofNat xs.length :: xs.flatMap words)).length = 4 * (1 + k * xs.length) := by
  have hwords : (xs.flatMap words).length = k * xs.length := by
    induction xs with
    | nil => rfl
    | cons x xs ih =>
      rw [List.flatMap_cons, List.length_append, ih, h, List.length_cons, Nat.mul_succ, Nat.add_comm]
  rw [Word.length_flatten, List.length_cons, hwords, Nat.add_comm]

end Table

end NeuroMap
