/-!
# Bit streams

The bits of a sequence of bytes, each byte's least significant bit first.
-/

namespace FieldPath

namespace Gzip

abbrev BitReader (α : Type) := List Bool → Option (α × List Bool)

def bitsOfByte (byte : UInt8) : List Bool :=
  (List.range 8).map byte.toNat.testBit

def bitsOfBytes (bytes : List UInt8) : List Bool := bytes.flatMap bitsOfByte

/-- Reads a number of as many bits, the least significant first. -/
def readBits : Nat → BitReader Nat
  | 0, bits => some (0, bits)
  | _ + 1, [] => none
  | width + 1, bit :: rest => do
      let (high, rest) ← readBits width rest
      some (bit.toNat + 2 * high, rest)

end Gzip

end FieldPath
