import NeuroMap.Word.Bytes

/-!
# Mixing for fingerprints

The constants of the XXH3 hash and the mixing steps on double words that all its length classes share.
-/

namespace NeuroMap.Fingerprint

/-! ## Constants -/

def prime32₁ : UInt64 := 0x9E3779B1
def prime32₂ : UInt64 := 0x85EBCA77
def prime32₃ : UInt64 := 0xC2B2AE3D
def prime64₁ : UInt64 := 0x9E3779B185EBCA87
def prime64₂ : UInt64 := 0xC2B2AE3D27D4EB4F
def prime64₃ : UInt64 := 0x165667B19E3779F9
def prime64₄ : UInt64 := 0x85EBCA77C2B2AE63
def prime64₅ : UInt64 := 0x27D4EB2F165667C5
def primeMix₁ : UInt64 := 0x165667919E3779F9
def primeMix₂ : UInt64 := 0x9FB21C651E98DF25

/-- The 192 bytes that key the hash. -/
def secret : List UInt8 :=
  [0xb8, 0xfe, 0x6c, 0x39, 0x23, 0xa4, 0x4b, 0xbe, 0x7c, 0x01, 0x81, 0x2c, 0xf7, 0x21, 0xad, 0x1c,
   0xde, 0xd4, 0x6d, 0xe9, 0x83, 0x90, 0x97, 0xdb, 0x72, 0x40, 0xa4, 0xa4, 0xb7, 0xb3, 0x67, 0x1f,
   0xcb, 0x79, 0xe6, 0x4e, 0xcc, 0xc0, 0xe5, 0x78, 0x82, 0x5a, 0xd0, 0x7d, 0xcc, 0xff, 0x72, 0x21,
   0xb8, 0x08, 0x46, 0x74, 0xf7, 0x43, 0x24, 0x8e, 0xe0, 0x35, 0x90, 0xe6, 0x81, 0x3a, 0x26, 0x4c,
   0x3c, 0x28, 0x52, 0xbb, 0x91, 0xc3, 0x00, 0xcb, 0x88, 0xd0, 0x65, 0x8b, 0x1b, 0x53, 0x2e, 0xa3,
   0x71, 0x64, 0x48, 0x97, 0xa2, 0x0d, 0xf9, 0x4e, 0x38, 0x19, 0xef, 0x46, 0xa9, 0xde, 0xac, 0xd8,
   0xa8, 0xfa, 0x76, 0x3f, 0xe3, 0x9c, 0x34, 0x3f, 0xf9, 0xdc, 0xbb, 0xc7, 0xc7, 0x0b, 0x4f, 0x1d,
   0x8a, 0x51, 0xe0, 0x4b, 0xcd, 0xb4, 0x59, 0x31, 0xc8, 0x9f, 0x7e, 0xc9, 0xd9, 0x78, 0x73, 0x64,
   0xea, 0xc5, 0xac, 0x83, 0x34, 0xd3, 0xeb, 0xc3, 0xc5, 0x81, 0xa0, 0xff, 0xfa, 0x13, 0x63, 0xeb,
   0x17, 0x0d, 0xdd, 0x51, 0xb7, 0xf0, 0xda, 0x49, 0xd3, 0x16, 0x55, 0x26, 0x29, 0xd4, 0x68, 0x9e,
   0x2b, 0x16, 0xbe, 0x58, 0x7d, 0x47, 0xa1, 0xfc, 0x8f, 0xf8, 0xb8, 0xd1, 0x7a, 0xd0, 0x31, 0xce,
   0x45, 0xcb, 0x3a, 0x8f, 0x95, 0x16, 0x04, 0x28, 0xaf, 0xd7, 0xfb, 0xca, 0xbb, 0x4b, 0x40, 0x7e]

/-- The double word of the secret at a byte offset. -/
def secretAt (offset : Nat) : UInt64 :=
  Word.double (secret.drop offset)

/-! ## Mixing -/

/-- A 128-bit value as two double words. -/
structure Wide where
  low : UInt64
  high : UInt64
deriving DecidableEq, Repr

/-- The full product of two double words. -/
def product (a b : UInt64) : Wide :=
  let p := a.toNat * b.toNat
  ⟨UInt64.ofNat p, UInt64.ofNat (p >>> 64)⟩

/-- The two halves of the full product, combined. -/
def foldProduct (a b : UInt64) : UInt64 :=
  let p := product a b
  p.low ^^^ p.high

/-- `x` with its upper bits, shifted down by `n`, mixed in. -/
def xorShift (x n : UInt64) : UInt64 :=
  x ^^^ (x >>> n)

/-- Spreads every input bit over the double word. -/
def avalanche (h : UInt64) : UInt64 :=
  xorShift (xorShift h 37 * primeMix₁) 32

/-- The stronger spreading that the shortest inputs need. -/
def strongAvalanche (h : UInt64) : UInt64 :=
  xorShift (xorShift (xorShift h 33 * prime64₂) 29 * prime64₃) 32

/-- The low four bytes of a double word in reverse order. -/
def swapSingle (x : UInt64) : UInt64 :=
  Word.single (Word.bytes x.toUInt32).reverse

/-- The eight bytes of a double word in reverse order. -/
def swapDouble (x : UInt64) : UInt64 :=
  Word.double (Word.doubleBytes x).reverse

/-- The low four bytes of a double word rotated left by `n` bits. -/
def rotateSingle (x n : UInt64) : UInt64 :=
  ((x <<< n) ||| (x >>> (32 - n))) &&& 0xFFFFFFFF

/-- The low half of a double word. -/
def lowHalf (x : UInt64) : UInt64 :=
  x &&& 0xFFFFFFFF

end NeuroMap.Fingerprint
