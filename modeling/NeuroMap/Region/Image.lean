import NeuroMap.Fingerprint.Hasher
import NeuroMap.Region.Basic

/-!
# Images

The image of a core is the block that is loaded into its memory: the number of regions, the offset of each region from
the start of the image, and the regions in order. An image is named by the fingerprint of its bytes.
-/

namespace NeuroMap

/-- A block ready to be loaded. -/
structure Image where
  offsets : List UInt32
  bytes : List UInt8
  fingerprint : Fingerprint
deriving DecidableEq

namespace Image

/-- The offsets and the bytes of regions of which the first starts at `start`. -/
def layout (start : Nat) : List Region → Except RegionError (List UInt32 × List UInt8)
  | [] => .ok ([], [])
  | r :: rs => do
    let offset ← countWord .regionOffset start
    let encoded ← r.encoding
    r.checkSize encoded.length
    let (offsets, body) ← layout (start + encoded.length) rs
    return (offset :: offsets, encoded ++ body)

/-- The size of the table of offsets for `n` regions. -/
def headerSize (n : Nat) : Nat :=
  Word.size * (1 + n)

/-- The image of the given regions. -/
def build (regions : List Region) : Except RegionError Image := do
  let (offsets, body) ← layout (headerSize regions.length) regions
  let count ← countWord .regionCount regions.length
  let table := count :: offsets
  return {
    offsets
    bytes := Word.flatten table ++ body
    fingerprint := ((Hasher.new.words table).bytes body).finish }

/-- Writes an image. -/
def write (i : Image) (b : Buffer) : Except RegionError Unit × Buffer :=
  b.write i.bytes

end Image

end NeuroMap
