/-!
# Words and their bytes

Cores load memory as 32-bit words, least significant byte first.
-/

namespace NeuroMap.Word

/-- The four bytes of a word, least significant first. -/
def bytes (w : UInt32) : List UInt8 :=
  [w.toUInt8, (w >>> 8).toUInt8, (w >>> 16).toUInt8, (w >>> 24).toUInt8]

/-- The bytes of a list of words. -/
def flatten (ws : List UInt32) : List UInt8 :=
  ws.flatMap bytes

/-- The size of a word in bytes. -/
def size : Nat := 4

/-- The eight bytes of a double word, least significant first. -/
def doubleBytes (w : UInt64) : List UInt8 :=
  bytes w.toUInt32 ++ bytes (w >>> 32).toUInt32

/-- The double word in the first eight bytes of a list; missing bytes count as zero. -/
def double (bytes : List UInt8) : UInt64 :=
  (bytes.take 8).foldr (fun b w => w <<< 8 ||| b.toUInt64) 0

/-- The word in the first four bytes of a list, in the low half of a double word. -/
def single (bytes : List UInt8) : UInt64 :=
  (bytes.take 4).foldr (fun b w => w <<< 8 ||| b.toUInt64) 0

end NeuroMap.Word
