import FieldPath.Gzip.Crc32
import FieldPath.Gzip.Inflate

/-!
# Gzip members

A member is a header, a deflate stream, and a trailer with the check and the
length of what the stream holds. Only the first member of a file counts.
-/

namespace FieldPath

namespace Gzip

def magic : List UInt8 := [0x1f, 0x8b]

def isGzip (bytes : List UInt8) : Bool := magic.isPrefixOf bytes

/-- The number that bytes make, the least significant first. -/
def ofBytes : List UInt8 → Nat
  | [] => 0
  | b :: bs => b.toNat + 256 * ofBytes bs

def takeBytes (count : Nat) (bytes : List UInt8) : Option (List UInt8 × List UInt8) :=
  if bytes.length < count then none else some (bytes.splitAt count)

def hasFlag (flags : UInt8) (bit : Nat) : Bool := flags.toNat.testBit bit

def skipExtra (bytes : List UInt8) : Option (List UInt8) := do
  let (size, bytes) ← takeBytes 2 bytes
  let (_, bytes) ← takeBytes (ofBytes size) bytes
  some bytes

def skipText : List UInt8 → Option (List UInt8)
  | [] => none
  | b :: rest => if b = 0 then some rest else skipText rest

/-- Passes a header. The check that may end it covers all of it. -/
def skipHeader (bytes : List UInt8) : Option (List UInt8) := do
  let (fixed, rest) ← takeBytes 10 bytes
  match fixed with
  | 0x1f :: 0x8b :: 8 :: flags :: _ =>
      if 0x20 ≤ flags then none
      else
        let rest ← if hasFlag flags 2 then skipExtra rest else some rest
        let rest ← if hasFlag flags 3 then skipText rest else some rest
        let rest ← if hasFlag flags 4 then skipText rest else some rest
        if hasFlag flags 1 then do
          let (check, rest') ← takeBytes 2 rest
          let covered := bytes.take (bytes.length - rest.length)
          if ofBytes check = (crc32 covered).toNat % UInt16.size then some rest' else none
        else some rest
  | _ => none

/-- What the first member holds. -/
def decompress (bytes : List UInt8) : Option (List UInt8) := do
  let rest ← skipHeader bytes
  let (out, bits) ← inflate (bitsOfBytes rest)
  let (trailer, _) ← takeBytes 8 (rest.drop (rest.length - bits.length / 8))
  let content := out.toList
  if ofBytes (trailer.take 4) = (crc32 content).toNat
      ∧ ofBytes (trailer.drop 4) = content.length % UInt32.size then some content
  else none

end Gzip

end FieldPath
