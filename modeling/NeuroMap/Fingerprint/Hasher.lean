import NeuroMap.Fingerprint.Basic

/-!
# Streamed fingerprints

A hasher takes an image piece by piece and never holds more than a few hundred bytes of it: the first 240 bytes,
in case there are no more, the accumulators, the stripe taken in last, and up to one stripe still waiting. A waiting
stripe is taken in when the byte after it arrives.
-/

namespace NeuroMap

/-- The state of a fingerprint in the making. -/
structure Hasher where
  /-- The number of bytes so far. -/
  length : Nat
  /-- The first bytes, at most 240. -/
  head : List UInt8
  /-- The accumulators after all stripes taken in. -/
  stripes : Fingerprint.Stripes
  /-- The stripe taken in last. -/
  previous : List UInt8
  /-- The bytes not yet taken in, at most one stripe. -/
  waiting : List UInt8
deriving DecidableEq, Repr

namespace Hasher

/-- A hasher that has seen nothing. -/
def new : Hasher where
  length := 0
  head := []
  stripes := .start
  previous := []
  waiting := []

/-- Takes one byte. -/
def push (h : Hasher) (b : UInt8) : Hasher :=
  let head := if h.length < Fingerprint.briefLimit then h.head ++ [b] else h.head
  if h.waiting.length < Fingerprint.stripeSize then
    { h with length := h.length + 1, head, waiting := h.waiting ++ [b] }
  else
    { length := h.length + 1, head, stripes := h.stripes.feed h.waiting, previous := h.waiting, waiting := [b] }

/-- Takes a piece of the image. -/
def bytes (h : Hasher) (piece : List UInt8) : Hasher :=
  piece.foldl push h

/-- Takes a piece of the image given as words. -/
def words (h : Hasher) (piece : List UInt32) : Hasher :=
  piece.foldl (fun h w => h.bytes (Word.bytes w)) h

/-- The fingerprint of all bytes so far. -/
def finish (h : Hasher) : Fingerprint :=
  ⟨if h.length ≤ Fingerprint.briefLimit then Fingerprint.brief h.head
   else
    let tail := h.previous ++ h.waiting
    h.stripes.close (tail.drop (tail.length - Fingerprint.stripeSize)) h.length⟩

end Hasher

end NeuroMap
