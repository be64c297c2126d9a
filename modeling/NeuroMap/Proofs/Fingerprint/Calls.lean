import NeuroMap.Proofs.Fingerprint.Streaming

/-!
# Sequences of calls of a hasher

A hasher is given the pieces of an image, as bytes or as words, and may be asked for the fingerprint at any time. What
the hasher holds after a sequence of calls is the image made of all pieces (`Holds.calls`), so every answer is the
fingerprint of the image so far, taken as a whole. Where the image was split, and what was asked before, cannot be seen.
-/

namespace NeuroMap.Hasher

/-- A call of a hasher. -/
inductive Call where
  | bytes (piece : List UInt8)
  | words (piece : List UInt32)
  | finish
deriving DecidableEq, Repr

/-- The bytes that a call adds to the image. -/
def Call.piece : Call → List UInt8
  | bytes piece => piece
  | words piece => Word.flatten piece
  | finish => []

/-- The image that a sequence of calls makes: its pieces one after the other. -/
def image (calls : List Call) : List UInt8 :=
  calls.flatMap Call.piece

/-- What a call returns, and the hasher after it. -/
def call (h : Hasher) : Call → Option Fingerprint × Hasher
  | .bytes piece => (none, h.bytes piece)
  | .words piece => (none, h.words piece)
  | .finish => (some h.finish, h)

/-- What a sequence of calls returns, and the hasher after it. -/
def calls (h : Hasher) : List Call → List (Option Fingerprint) × Hasher
  | [] => ([], h)
  | c :: rest =>
    let (answer, next) := h.call c
    let (answers, last) := next.calls rest
    (answer :: answers, last)

theorem image_cons (c : Call) (rest : List Call) : image (c :: rest) = c.piece ++ image rest :=
  List.flatMap_cons

variable {h : Hasher} {seen : List UInt8}

/-- **One call** adds its piece to what the hasher has seen. -/
theorem Holds.call (hh : h.Holds seen) (c : Call) : (h.call c).2.Holds (seen ++ c.piece) := by
  cases c with
  | bytes piece => exact hh.bytes piece
  | words piece => exact hh.words piece
  | finish =>
    show h.Holds (seen ++ [])
    rw [List.append_nil]
    exact hh

/-- **All calls** add the image that they make. -/
theorem Holds.calls (hh : h.Holds seen) (cs : List Call) : (h.calls cs).2.Holds (seen ++ image cs) := by
  induction cs generalizing h seen with
  | nil =>
    show h.Holds (seen ++ [])
    rw [List.append_nil]
    exact hh
  | cons c rest ih =>
    rw [image_cons, ← List.append_assoc]
    exact ih (hh.call c)

/-- A question inside the sequence is answered for the pieces before it. -/
theorem Holds.answer (hh : h.Holds seen) {cs : List Call} {k : Nat} (hk : cs[k]? = some .finish) :
    (h.calls cs).1[k]? = some (some (Fingerprint.ofBytes (seen ++ image (cs.take k)))) := by
  induction cs generalizing h seen k with
  | nil => simp at hk
  | cons c rest ih =>
    cases k with
    | zero =>
      obtain rfl : c = .finish := by simpa using hk
      show some (some h.finish) = some (some (Fingerprint.ofBytes (seen ++ [])))
      rw [hh.finish_eq, List.append_nil]
    | succ k =>
      rw [List.take_succ_cons, image_cons, ← List.append_assoc]
      exact ih (hh.call c) hk

/-- **Streaming is seamless.** After any calls the fingerprint is that of the image so far taken as a whole, and so is
every fingerprint that was asked for on the way, however often and wherever. Hence calls that make the same image give
the same fingerprint, in whatever pieces they bring it. -/
theorem finish_of_calls (cs : List Call) :
    (∀ k, (new.calls (cs.take k)).2.finish = Fingerprint.ofBytes (image (cs.take k))) ∧
      (∀ k, cs[k]? = some .finish → (new.calls cs).1[k]? = some (some (Fingerprint.ofBytes (image (cs.take k))))) ∧
      ∀ cs', image cs' = image cs → (new.calls cs').2.finish = (new.calls cs).2.finish := by
  have hfinish (cs : List Call) : (new.calls cs).2.finish = Fingerprint.ofBytes (image cs) :=
    (holds_new.calls cs).finish_eq
  refine ⟨fun k => hfinish (cs.take k), fun k hk => holds_new.answer hk, fun cs' himage => ?_⟩
  rw [hfinish, hfinish, himage]

end NeuroMap.Hasher
