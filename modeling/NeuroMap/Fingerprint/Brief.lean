import NeuroMap.Fingerprint.Mix

/-!
# Fingerprints of brief inputs

Inputs of at most 240 bytes are hashed in one of six ways, by their length. `brief` chooses the way.
-/

namespace NeuroMap.Fingerprint

/-- No bytes. -/
def ofNone : Wide where
  low := strongAvalanche (secretAt 64 ^^^ secretAt 72)
  high := strongAvalanche (secretAt 80 ^^^ secretAt 88)

/-- One to three bytes: the first, the middle and the last, and the length. -/
def ofOneToThree (bytes : List UInt8) : Wide :=
  let byte (i : Nat) : UInt64 := (bytes.getD i 0).toUInt64
  let n := bytes.length
  let low := (byte 0 <<< 16) ||| (byte (n / 2) <<< 24) ||| byte (n - 1) ||| (UInt64.ofNat n <<< 8)
  let high := rotateSingle (swapSingle low) 13
  ⟨strongAvalanche (low ^^^ (Word.single secret ^^^ Word.single (secret.drop 4))),
   strongAvalanche (high ^^^ (Word.single (secret.drop 8) ^^^ Word.single (secret.drop 12)))⟩

/-- Four to eight bytes: the first and the last word, which may overlap. -/
def ofFourToEight (bytes : List UInt8) : Wide :=
  let n := bytes.length
  let both := Word.single bytes + (Word.single (bytes.drop (n - 4)) <<< 32)
  let p := product (both ^^^ (secretAt 16 ^^^ secretAt 24)) (prime64₁ + (UInt64.ofNat n <<< 2))
  let high := p.high + (p.low <<< 1)
  let low := p.low ^^^ (high >>> 3)
  ⟨xorShift (xorShift low 35 * primeMix₂) 28, avalanche high⟩

/-- Nine to sixteen bytes: the first and the last double word. -/
def ofNineToSixteen (bytes : List UInt8) : Wide :=
  let n := bytes.length
  let first := Word.double bytes
  let last := Word.double (bytes.drop (n - 8))
  let p := product (first ^^^ last ^^^ (secretAt 32 ^^^ secretAt 40)) prime64₁
  let keyed := last ^^^ (secretAt 48 ^^^ secretAt 56)
  let high := p.high + (keyed + lowHalf keyed * (prime32₂ - 1))
  let low := (p.low + (UInt64.ofNat (n - 1) <<< 54)) ^^^ swapDouble high
  let r := product low prime64₂
  ⟨avalanche r.low, avalanche (r.high + high * prime64₂)⟩

/-- Sixteen bytes combined with sixteen bytes of the secret. -/
def mixSixteen (bytes : List UInt8) (offset : Nat) : UInt64 :=
  foldProduct (Word.double bytes ^^^ secretAt offset) (Word.double (bytes.drop 8) ^^^ secretAt (offset + 8))

/-- Two pieces of sixteen bytes combined into the running value, each also read by the other half. -/
def mixPair (acc : Wide) (a b : List UInt8) (offset : Nat) : Wide where
  low := (acc.low + mixSixteen a offset) ^^^ (Word.double b + Word.double (b.drop 8))
  high := (acc.high + mixSixteen b (offset + 16)) ^^^ (Word.double a + Word.double (a.drop 8))

/-- The last step for inputs of 17 to 240 bytes. -/
def closePairs (n : Nat) (acc : Wide) : Wide where
  low := avalanche (acc.low + acc.high)
  high := 0 - avalanche (acc.low * prime64₁ + acc.high * prime64₄ + UInt64.ofNat n * prime64₂)

/-- Seventeen to 128 bytes: pairs of pieces from both ends, the innermost first. -/
def ofSeventeenTo128 (bytes : List UInt8) : Wide :=
  let n := bytes.length
  let pair (i : Nat) (acc : Wide) : Wide :=
    if 32 * i < n then mixPair acc (bytes.drop (16 * i)) (bytes.drop (n - 16 * (i + 1))) (32 * i) else acc
  closePairs n (pair 0 (pair 1 (pair 2 (pair 3 ⟨UInt64.ofNat n * prime64₁, 0⟩))))

/-- The pair of pieces at position `i` combined into the running value. -/
def mixPairAt (bytes : List UInt8) (acc : Wide) (i offset : Nat) : Wide :=
  mixPair acc (bytes.drop (32 * i)) (bytes.drop (32 * i + 16)) offset

/-- One hundred twenty-nine to 240 bytes: consecutive pieces, and the last 32 bytes once more. -/
def of129To240 (bytes : List UInt8) : Wide :=
  let n := bytes.length
  let start := (List.range 4).foldl (fun acc i => mixPairAt bytes acc i (32 * i)) ⟨UInt64.ofNat n * prime64₁, 0⟩
  let middle := (List.range' 4 (n / 32 - 4)).foldl (fun acc i => mixPairAt bytes acc i (32 * (i - 4) + 3))
    ⟨avalanche start.low, avalanche start.high⟩
  closePairs n (mixPair middle (bytes.drop (n - 16)) (bytes.drop (n - 32)) 103)

/-- The longest input that is hashed in one go. -/
def briefLimit : Nat := 240

/-- The hash of an input of at most 240 bytes. -/
def brief (bytes : List UInt8) : Wide :=
  let n := bytes.length
  if n = 0 then ofNone
  else if n ≤ 3 then ofOneToThree bytes
  else if n ≤ 8 then ofFourToEight bytes
  else if n ≤ 16 then ofNineToSixteen bytes
  else if n ≤ 128 then ofSeventeenTo128 bytes
  else of129To240 bytes

end NeuroMap.Fingerprint
