import NeuroMap.Fingerprint.Brief
import NeuroMap.Fingerprint.Stripe
import NeuroMap.Number.Text

/-!
# Fingerprints

The fingerprint of an image is the 128-bit XXH3 hash of its bytes, written least significant byte first.
-/

namespace NeuroMap

/-- A 128-bit content hash. -/
structure Fingerprint where
  hash : Fingerprint.Wide
deriving DecidableEq, Repr

namespace Fingerprint

/-- The fingerprint of a whole image. -/
def ofBytes (bytes : List UInt8) : Fingerprint :=
  ⟨if bytes.length ≤ briefLimit then brief bytes else long bytes⟩

/-- The sixteen bytes of a fingerprint. -/
def toBytes (f : Fingerprint) : List UInt8 :=
  Word.doubleBytes f.hash.low ++ Word.doubleBytes f.hash.high

/-- The fingerprint with the given sixteen bytes. -/
def ofHashBytes (bytes : List UInt8) : Fingerprint :=
  ⟨⟨Word.double bytes, Word.double (bytes.drop 8)⟩⟩

/-- The first word of a fingerprint. -/
def short (f : Fingerprint) : UInt32 :=
  f.hash.low.toUInt32

/-- The full text of a fingerprint. -/
def text (f : Fingerprint) : String :=
  bytesHex f.toBytes

/-- The abbreviated text of a fingerprint. -/
def summary (f : Fingerprint) : String :=
  "ContentHash(" ++ wordHex f.short ++ "..)"

end Fingerprint

end NeuroMap
