import FieldPath.Gzip.Huffman

/-!
# Deflate streams

A stream is a sequence of blocks: bytes as they are, or symbols of a fixed or of a
described Huffman code, which stand for bytes and for copies of what came
before.
-/

namespace FieldPath

namespace Gzip

/-- Base and number of extra bits for the symbols of copy lengths, from 257 on. -/
def lengthTable : Array (Nat × Nat) := #[
  (3, 0), (4, 0), (5, 0), (6, 0), (7, 0), (8, 0), (9, 0), (10, 0), (11, 1), (13, 1),
  (15, 1), (17, 1), (19, 2), (23, 2), (27, 2), (31, 2), (35, 3), (43, 3), (51, 3),
  (59, 3), (67, 4), (83, 4), (99, 4), (115, 4), (131, 5), (163, 5), (195, 5), (227, 5),
  (258, 0)]

/-- Base and number of extra bits for the symbols of copy distances. -/
def distanceTable : Array (Nat × Nat) := #[
  (1, 0), (2, 0), (3, 0), (4, 0), (5, 1), (7, 1), (9, 2), (13, 2), (17, 3), (25, 3),
  (33, 4), (49, 4), (65, 5), (97, 5), (129, 6), (193, 6), (257, 7), (385, 7), (513, 8),
  (769, 8), (1025, 9), (1537, 9), (2049, 10), (3073, 10), (4097, 11), (6145, 11),
  (8193, 12), (12289, 12), (16385, 13), (24577, 13)]

def lengthCodeOrder : List Nat :=
  [16, 17, 18, 0, 8, 7, 9, 6, 10, 5, 11, 4, 12, 3, 13, 2, 14, 1, 15]

structure BlockCodes where
  literals : Huffman
  distances : Huffman

def fixedCodes : BlockCodes where
  literals := .ofLengths (List.replicate 144 8 ++ List.replicate 112 9
    ++ List.replicate 24 7 ++ List.replicate 8 8)
  distances := .ofLengths (List.replicate 30 5)

def readExtra (table : Array (Nat × Nat)) (symbol : Nat) : BitReader Nat := fun bits => do
  let (base, extra) ← table[symbol]?
  let (offset, bits) ← readBits extra bits
  some (base + offset, bits)

/-- Appends `length` bytes from `distance` bytes back, one after the other. -/
def copyBack (distance : Nat) : Nat → Array UInt8 → Array UInt8
  | 0, out => out
  | length + 1, out => copyBack distance length (out.push (out.getD (out.size - distance) 0))

/-- Reads the symbols of a block up to its end. Each symbol takes a bit at least. -/
def inflateSymbols (codes : BlockCodes) :
    Nat → Array UInt8 → List Bool → Option (Array UInt8 × List Bool)
  | 0, _, _ => none
  | fuel + 1, out, bits => do
      let (symbol, bits) ← codes.literals.decode bits
      if symbol < 256 then inflateSymbols codes fuel (out.push (UInt8.ofNat symbol)) bits
      else if symbol = 256 then some (out, bits)
      else
        let (length, bits) ← readExtra lengthTable (symbol - 257) bits
        let (symbol, bits) ← codes.distances.decode bits
        let (distance, bits) ← readExtra distanceTable symbol bits
        if out.size < distance then none
        else inflateSymbols codes fuel (copyBack distance length out) bits

def readMany (count : Nat) (read : BitReader Nat) : BitReader (List Nat) := fun bits =>
  match count with
  | 0 => some ([], bits)
  | count + 1 => do
      let (n, bits) ← read bits
      let (ns, bits) ← readMany count read bits
      some (n :: ns, bits)

/-- Bytes as they are, from the next byte boundary on: their number, its complement,
and the bytes. -/
def inflateStored (out : Array UInt8) (bits : List Bool) :
    Option (Array UInt8 × List Bool) := do
  let bits := bits.drop (bits.length % 8)
  let (length, bits) ← readBits 16 bits
  let (complement, bits) ← readBits 16 bits
  if length + complement ≠ 0xFFFF then none
  else
    let (bytes, bits) ← readMany length (readBits 8) bits
    some (out ++ (bytes.map UInt8.ofNat).toArray, bits)

def readLengths (code : Huffman) (total : Nat) :
    Nat → List Nat → List Bool → Option (List Nat × List Bool)
  | 0, _, _ => none
  | fuel + 1, lengths, bits =>
      if lengths.length = total then some (lengths, bits)
      else if total < lengths.length then none
      else do
        let (symbol, bits) ← code.decode bits
        if symbol < 16 then readLengths code total fuel (lengths ++ [symbol]) bits
        else if symbol = 16 then
          let last ← lengths.getLast?
          let (extra, bits) ← readBits 2 bits
          readLengths code total fuel (lengths ++ List.replicate (3 + extra) last) bits
        else if symbol = 17 then
          let (extra, bits) ← readBits 3 bits
          readLengths code total fuel (lengths ++ List.replicate (3 + extra) 0) bits
        else
          let (extra, bits) ← readBits 7 bits
          readLengths code total fuel (lengths ++ List.replicate (11 + extra) 0) bits

def readCodes (bits : List Bool) : Option (BlockCodes × List Bool) := do
  let (literals, bits) ← readBits 5 bits
  let (distances, bits) ← readBits 5 bits
  let (described, bits) ← readBits 4 bits
  let literals := literals + 257
  let distances := distances + 1
  if 286 < literals ∨ 30 < distances then none
  else
    let (lengths, bits) ← readMany (described + 4) (readBits 3) bits
    let lengthOf symbol := ((lengthCodeOrder.zip lengths).lookup symbol).getD 0
    let lengthCode := Huffman.ofLengths ((List.range 19).map lengthOf)
    if !lengthCode.isComplete then none
    else
      let total := literals + distances
      let (lengths, bits) ← readLengths lengthCode total (total + 1) [] bits
      let codes : BlockCodes :=
        ⟨.ofLengths (lengths.take literals), .ofLengths (lengths.drop literals)⟩
      if codes.literals.isUsable && codes.distances.isUsable then some (codes, bits)
      else none

def inflateBlocks : Nat → Array UInt8 → List Bool → Option (Array UInt8 × List Bool)
  | 0, _, _ => none
  | fuel + 1, out, bits => do
      let (isLast, bits) ← readBits 1 bits
      let (kind, bits) ← readBits 2 bits
      let (out, bits) ←
        if kind = 0 then inflateStored out bits
        else if kind = 1 then inflateSymbols fixedCodes bits.length out bits
        else if kind = 2 then do
          let (codes, bits) ← readCodes bits
          inflateSymbols codes bits.length out bits
        else none
      if isLast = 1 then some (out, bits) else inflateBlocks fuel out bits

def inflate (bits : List Bool) : Option (Array UInt8 × List Bool) :=
  inflateBlocks bits.length #[] bits

end Gzip

end FieldPath
