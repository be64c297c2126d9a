import NeuroMap.Fingerprint.Hasher
import Mathlib.Data.List.Basic

/-!
# Streamed and whole fingerprints agree

A hasher cuts what it has seen into stripes of 64 bytes and keeps the rest waiting, always at least one byte unless it has
seen none. `Hasher.Holds` says so; one more byte keeps it true (`Holds.push`), hence any piece does. A whole input is
cut in the same places, because a stripe is taken in only when more input follows it, and so the two ways of
hashing end alike (`Holds.finish_eq`).
-/

namespace NeuroMap

namespace Fingerprint

theorem Stripes.feedAll_flatten (s : Stripes) {stripes : List (List UInt8)} {last : List UInt8}
    (hsize : ∀ stripe ∈ stripes, stripe.length = stripeSize) (hle : last.length ≤ stripeSize) (hne : last ≠ []) :
    s.feedAll (stripes.flatten ++ last) = stripes.foldl feed s := by
  have hpos : 0 < last.length := List.length_pos_iff.mpr hne
  induction stripes generalizing s with
  | nil =>
    rw [List.flatten_nil, List.nil_append, feedAll, if_neg (by omega)]
    rfl
  | cons stripe stripes ih =>
    obtain ⟨hstripe, hrest⟩ := List.forall_mem_cons.mp hsize
    have hlt : stripeSize < ((stripe :: stripes).flatten ++ last).length := by
      simp only [List.flatten_cons, List.length_append, hstripe]
      omega
    have htake : ((stripe :: stripes).flatten ++ last).take stripeSize = stripe := by
      rw [List.flatten_cons, List.append_assoc, ← hstripe, List.take_left]
    have hdrop : ((stripe :: stripes).flatten ++ last).drop stripeSize = stripes.flatten ++ last := by
      rw [List.flatten_cons, List.append_assoc, ← hstripe, List.drop_left]
    rw [feedAll, if_pos hlt, htake, hdrop, ih _ hrest, List.foldl_cons]

/-- The last bytes of an input are the last bytes of any end of it that has as many. -/
theorem drop_length_sub {front back : List UInt8} {k : Nat} (h : k ≤ back.length) :
    (front ++ back).drop ((front ++ back).length - k) = back.drop (back.length - k) := by
  have hlength : (front ++ back).length - k = front.length + (back.length - k) := by
    rw [List.length_append]
    omega
  rw [hlength, List.drop_length_add_append]

end Fingerprint

namespace Hasher

open Fingerprint

/-- What the hasher keeps of the bytes it has seen. -/
structure Holds (h : Hasher) (seen : List UInt8) : Prop where
  length : h.length = seen.length
  head : h.head = seen.take briefLimit
  waiting_le : h.waiting.length ≤ stripeSize
  waiting_ne : seen ≠ [] → h.waiting ≠ []
  /-- The bytes seen are the stripes taken in and those that wait. -/
  cut : ∃ stripes : List (List UInt8), (∀ stripe ∈ stripes, stripe.length = stripeSize) ∧
    seen = stripes.flatten ++ h.waiting ∧ h.stripes = stripes.foldl Stripes.feed .start ∧
    h.previous = stripes.getLast?.getD []

theorem holds_new : new.Holds [] where
  length := rfl
  head := rfl
  waiting_le := Nat.zero_le _
  waiting_ne := fun h => absurd rfl h
  cut := ⟨[], by simp, rfl, rfl, rfl⟩

variable {h : Hasher} {seen : List UInt8}

theorem Holds.head_push (hh : h.Holds seen) (b : UInt8) :
    (if h.length < briefLimit then h.head ++ [b] else h.head) = (seen ++ [b]).take briefLimit := by
  by_cases hlt : h.length < briefLimit
  · have hlength := hh.length
    rw [if_pos hlt, hh.head, List.take_of_length_le (by omega), List.take_of_length_le]
    rw [List.length_append, List.length_singleton]
    omega
  · have hlength := hh.length
    rw [if_neg hlt, hh.head, List.take_append_of_le_length (by omega)]

/-- **One byte.** -/
theorem Holds.push (hh : h.Holds seen) (b : UInt8) : (h.push b).Holds (seen ++ [b]) := by
  obtain ⟨stripes, hsize, hseen, hstripes, hprevious⟩ := hh.cut
  have hle := hh.waiting_le
  have hlength : h.length + 1 = (seen ++ [b]).length := by
    rw [hh.length, List.length_append, List.length_singleton]
  unfold Hasher.push
  by_cases hlt : h.waiting.length < stripeSize
  · simp only [if_pos hlt]
    refine
      { length := hlength
        head := hh.head_push b
        waiting_le := ?_
        waiting_ne := fun _ => by simp
        cut := ⟨stripes, hsize, ?_, hstripes, hprevious⟩ }
    · show (h.waiting ++ [b]).length ≤ stripeSize
      rw [List.length_append, List.length_singleton]
      omega
    · rw [hseen, List.append_assoc]
  · -- The waiting stripe is full, and `b` follows it.
    have hfull : h.waiting.length = stripeSize := by omega
    simp only [if_neg hlt]
    refine
      { length := hlength
        head := hh.head_push b
        waiting_le := ?_
        waiting_ne := fun _ => by simp
        cut := ⟨stripes ++ [h.waiting], ?_, ?_, ?_, ?_⟩ }
    · show 1 ≤ stripeSize
      decide
    · intro stripe hstripe
      rcases List.mem_append.mp hstripe with hstripe | hstripe
      · exact hsize stripe hstripe
      · rw [List.mem_singleton.mp hstripe, hfull]
    · rw [hseen, List.flatten_append, List.flatten_singleton]
    · rw [List.foldl_append, hstripes]
      rfl
    · rw [List.getLast?_concat]
      rfl

/-- **A piece.** -/
theorem Holds.bytes (hh : h.Holds seen) (piece : List UInt8) : (h.bytes piece).Holds (seen ++ piece) := by
  induction piece generalizing h seen with
  | nil =>
    rw [List.append_nil]
    exact hh
  | cons b piece ih =>
    have hnext := ih (hh.push b)
    rw [List.append_assoc, List.singleton_append] at hnext
    exact hnext

theorem Holds.words (hh : h.Holds seen) (piece : List UInt32) : (h.words piece).Holds (seen ++ Word.flatten piece) := by
  induction piece generalizing h seen with
  | nil =>
    show h.Holds (seen ++ [])
    rw [List.append_nil]
    exact hh
  | cons w piece ih =>
    have hnext := ih (hh.bytes (Word.bytes w))
    rw [List.append_assoc] at hnext
    exact hnext

/-- The bytes kept for the end hold the last stripe's length of the input, if more than one stripe was seen. -/
theorem Holds.last (hh : h.Holds seen) (hlong : stripeSize < seen.length) :
    (h.previous ++ h.waiting).drop ((h.previous ++ h.waiting).length - stripeSize) =
      seen.drop (seen.length - stripeSize) := by
  obtain ⟨stripes, hsize, hseen, -, hprevious⟩ := hh.cut
  rcases List.eq_nil_or_concat stripes with rfl | ⟨front, stripe, rfl⟩
  · -- Without a stripe taken in, the input would not be longer than one.
    have hle := hh.waiting_le
    rw [hseen, List.flatten_nil, List.nil_append] at hlong
    omega
  · have hstripe : stripe.length = stripeSize := hsize stripe (by simp)
    have hkept : h.previous = stripe := by
      rw [hprevious, List.concat_eq_append, List.getLast?_concat]
      rfl
    have hfront : seen = front.flatten ++ (stripe ++ h.waiting) := by
      rw [hseen, List.concat_eq_append, List.flatten_append, List.flatten_singleton, List.append_assoc]
    have hlast : stripeSize ≤ (stripe ++ h.waiting).length := by
      rw [List.length_append]
      omega
    rw [hkept, hfront, drop_length_sub hlast]

/-- **The end.** The fingerprint of what was seen is that of the bytes taken as a whole. -/
theorem Holds.finish_eq (hh : h.Holds seen) : h.finish = Fingerprint.ofBytes seen := by
  unfold finish Fingerprint.ofBytes
  rw [hh.length]
  by_cases hle : seen.length ≤ briefLimit
  · rw [if_pos hle, if_pos hle, hh.head, List.take_of_length_le hle]
  · have hlong : stripeSize < seen.length := by
      have hsizes : stripeSize ≤ briefLimit := by decide
      omega
    obtain ⟨stripes, hsize, hseen, hstripes, -⟩ := hh.cut
    have hne : seen ≠ [] := by
      rintro rfl
      simp at hlong
    have hfed : h.stripes = Stripes.start.feedAll seen := by
      rw [hstripes, hseen, Stripes.feedAll_flatten _ hsize hh.waiting_le (hh.waiting_ne hne)]
    rw [if_neg hle, if_neg hle, long, hfed]
    dsimp only
    rw [hh.last hlong]

end Hasher

end NeuroMap
