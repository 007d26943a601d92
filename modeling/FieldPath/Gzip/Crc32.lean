/-!
# Cyclic redundancy check

The 32-bit check of gzip members, computed bit by bit.
-/

namespace FieldPath

namespace Gzip

namespace Crc32

def polynomial : UInt32 := 0xEDB88320

def shift (crc : UInt32) : UInt32 :=
  if crc &&& 1 = 1 then (crc >>> 1) ^^^ polynomial else crc >>> 1

def addByte (crc : UInt32) (byte : UInt8) : UInt32 :=
  Nat.repeat shift 8 (crc ^^^ byte.toUInt32)

end Crc32

def crc32 (bytes : List UInt8) : UInt32 :=
  bytes.foldl Crc32.addByte 0xFFFFFFFF ^^^ 0xFFFFFFFF

end Gzip

end FieldPath
