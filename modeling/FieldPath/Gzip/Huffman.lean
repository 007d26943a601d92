import FieldPath.Gzip.Bits

/-!
# Canonical Huffman codes

A code is known by the lengths of its code words: shorter words come first, and
words of one length stand in the order of their symbols.
-/

namespace FieldPath

namespace Gzip

structure Huffman where
  /-- How many words there are of each length from 1 to 15. -/
  counts : List Nat
  /-- The symbols in the order of their words. -/
  symbols : Array Nat

namespace Huffman

def maxLength : Nat := 15

def symbolsOfLength (lengths : List Nat) (length : Nat) : List Nat :=
  (lengths.zipIdx.filter (·.1 == length)).map (·.2)

def ofLengths (lengths : List Nat) : Huffman :=
  let classes := (List.range maxLength).map fun i => symbolsOfLength lengths (i + 1)
  ⟨classes.map List.length, classes.flatten.toArray⟩

/-- How many words of the greatest length the words of the code take the place of. -/
def weight (h : Huffman) : Nat :=
  h.counts.zipIdx.foldl (fun total (count, i) => total + count <<< (maxLength - (i + 1))) 0

def isComplete (h : Huffman) : Bool := h.weight == 1 <<< maxLength

/-- Whether the code may be used: it is complete or has one word at most. -/
def isUsable (h : Huffman) : Bool := h.isComplete || h.symbols.size ≤ 1

/-- Follows a word bit by bit. Words of the present length begin at `first`, and
`index` symbols have shorter ones. -/
def decodeAux (symbols : Array Nat) (code first index : Nat) : List Nat → BitReader Nat
  | [], _ => none
  | _ :: _, [] => none
  | count :: counts, bit :: rest =>
      let code := code + bit.toNat
      if code < first + count then
        symbols[index + (code - first)]?.map (·, rest)
      else
        decodeAux symbols (2 * code) (2 * (first + count)) (index + count) counts rest

def decode (h : Huffman) : BitReader Nat := decodeAux h.symbols 0 0 0 h.counts

end Huffman

end Gzip

end FieldPath
