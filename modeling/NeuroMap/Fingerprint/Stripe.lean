import NeuroMap.Fingerprint.Mix

/-!
# Stripes

Inputs of more than 240 bytes are hashed in stripes of 64 bytes. Eight accumulators, held as four pairs, take in one
stripe after the other; the key of a stripe is a window of the secret that moves on by eight bytes, and after sixteen
stripes the accumulators are scrambled and the window starts again. A stripe is taken in only when more input
follows it. The last 64 bytes of the input, which may overlap the stripe before, are taken in at the end.
-/

namespace NeuroMap.Fingerprint

/-- The number of bytes in a stripe. -/
def stripeSize : Nat := 64

/-- Two accumulators. Each takes the product made from its own eight bytes and the plain eight bytes of the other. -/
structure Lane where
  even : UInt64
  odd : UInt64
deriving DecidableEq, Repr

/-- Takes in sixteen bytes under sixteen bytes of key. -/
def Lane.absorb (l : Lane) (data key : List UInt8) : Lane :=
  let a := Word.double data
  let b := Word.double (data.drop 8)
  let ka := a ^^^ Word.double key
  let kb := b ^^^ Word.double (key.drop 8)
  ⟨l.even + b + lowHalf ka * (ka >>> 32), l.odd + a + lowHalf kb * (kb >>> 32)⟩

/-- Mixes the upper bits of both accumulators down, under sixteen bytes of key. -/
def Lane.scramble (l : Lane) (key : List UInt8) : Lane :=
  ⟨(xorShift l.even 47 ^^^ Word.double key) * prime32₁,
   (xorShift l.odd 47 ^^^ Word.double (key.drop 8)) * prime32₁⟩

/-- Takes in one stripe, sixteen bytes to a lane. -/
def absorbStripe : List Lane → List UInt8 → List UInt8 → List Lane
  | [], _, _ => []
  | l :: ls, data, key => l.absorb data key :: absorbStripe ls (data.drop 16) (key.drop 16)

/-- Scrambles all lanes. -/
def scrambleLanes : List Lane → List UInt8 → List Lane
  | [], _ => []
  | l :: ls, key => l.scramble key :: scrambleLanes ls (key.drop 16)

/-- Combines the lanes to one double word. -/
def mergeLanes : List Lane → List UInt8 → UInt64 → UInt64
  | [], _, h => avalanche h
  | l :: ls, key, h =>
    mergeLanes ls (key.drop 16)
      (h + foldProduct (l.even ^^^ Word.double key) (l.odd ^^^ Word.double (key.drop 8)))

/-- The accumulators and the number of stripes since they were last scrambled. -/
structure Stripes where
  lanes : List Lane
  count : Nat
deriving DecidableEq, Repr

namespace Stripes

/-- Before the first stripe. -/
def start : Stripes where
  lanes := [⟨prime32₃, prime64₁⟩, ⟨prime64₂, prime64₃⟩, ⟨prime64₄, prime32₂⟩, ⟨prime64₅, prime32₁⟩]
  count := 0

/-- The number of stripes between two scramblings. -/
def perBlock : Nat := 16

/-- Takes in one stripe. -/
def feed (s : Stripes) (stripe : List UInt8) : Stripes :=
  let lanes := absorbStripe s.lanes stripe (secret.drop (8 * s.count))
  if s.count + 1 = perBlock then ⟨scrambleLanes lanes (secret.drop 128), 0⟩
  else ⟨lanes, s.count + 1⟩

/-- Takes in all stripes of the input that are followed by more input. -/
def feedAll (s : Stripes) (bytes : List UInt8) : Stripes :=
  if stripeSize < bytes.length then feedAll (s.feed (bytes.take stripeSize)) (bytes.drop stripeSize) else s
termination_by bytes.length
decreasing_by simp [stripeSize] at *; omega

/-- Takes in the last 64 bytes of an input of `n` bytes and combines the lanes. -/
def close (s : Stripes) (last : List UInt8) (n : Nat) : Wide :=
  let lanes := absorbStripe s.lanes last (secret.drop 121)
  ⟨mergeLanes lanes (secret.drop 11) (UInt64.ofNat n * prime64₁),
   mergeLanes lanes (secret.drop 117) (~~~(UInt64.ofNat n * prime64₂))⟩

end Stripes

/-- The hash of an input of more than 240 bytes. -/
def long (bytes : List UInt8) : Wide :=
  (Stripes.start.feedAll bytes).close (bytes.drop (bytes.length - stripeSize)) bytes.length

end NeuroMap.Fingerprint
