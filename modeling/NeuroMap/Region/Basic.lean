import NeuroMap.Region.Error
import NeuroMap.Word.Bytes

/-!
# Memory regions

A region declares its size before it is encoded, so that memory can be laid out first. Regions are written to buffers,
which either grow or have a fixed size.
-/

namespace NeuroMap

/-- A quantity as a word, if it fits. -/
def countWord (what : Quantity) (value : Nat) : Except RegionError UInt32 :=
  if value < UInt32.size then .ok (UInt32.ofNat value) else .error (.overflow what value)

/-- A block of memory: the size it declares, and its bytes or why it has none. -/
structure Region where
  size : Nat
  encoding : Except RegionError (List UInt8)

/-- The bytes written so far, and the size of the buffer unless it grows. -/
structure Buffer where
  written : List UInt8
  capacity : Option Nat
deriving DecidableEq, Repr

namespace Buffer

/-- A buffer to which nothing was written. -/
def empty (capacity : Option Nat) : Buffer :=
  ⟨[], capacity⟩

/-- Writes bytes. A buffer of fixed size takes what fits and reports the rest. -/
def write (b : Buffer) (bytes : List UInt8) : Except RegionError Unit × Buffer :=
  let all := b.written ++ bytes
  match b.capacity with
  | none => (.ok (), { b with written := all })
  | some n =>
    if all.length ≤ n then (.ok (), { b with written := all })
    else (.error .bufferFull, { b with written := all.take n })

/-- The bytes of the buffer; what was not written is zero. -/
def contents (b : Buffer) : List UInt8 :=
  match b.capacity with
  | none => b.written
  | some n => b.written ++ List.replicate (n - b.written.length) 0

end Buffer

namespace Region

/-- Writes a region; nothing is written if it cannot be encoded. -/
def write (r : Region) (b : Buffer) : Except RegionError Unit × Buffer :=
  match r.encoding with
  | .error e => (.error e, b)
  | .ok bytes => b.write bytes

/-- Whether a region of this size was encoded to `encoded` bytes, all of them in whole words. -/
def checkSize (r : Region) (encoded : Nat) : Except RegionError Unit :=
  if encoded ≠ r.size then
    .error (.internal ⟨s!"region encoded to {encoded} bytes but declares " ++ toString r.size⟩)
  else if encoded % Word.size ≠ 0 then
    .error (.internal ⟨s!"region size {encoded} is not a whole number of words"⟩)
  else .ok ()

end Region

end NeuroMap
