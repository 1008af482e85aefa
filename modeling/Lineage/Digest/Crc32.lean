import Lineage.Bytes

/-! The cyclic redundancy check of 32 bits, as archives use it. -/

namespace Lineage
namespace Crc32

def polynomial : UInt32 := 0xEDB88320

def bitStep (crc : UInt32) : UInt32 :=
  if crc &&& 1 = 1 then crc >>> 1 ^^^ polynomial else crc >>> 1

/-- What eight steps make of a byte. -/
def entry (byte : UInt32) : UInt32 := Nat.repeat bitStep 8 byte

def table : Vector UInt32 256 := Vector.ofFn fun i => entry (UInt32.ofNat i)

def update (crc : UInt32) (byte : UInt8) : UInt32 :=
  crc >>> 8 ^^^ table[(crc.toUInt8 ^^^ byte).toFin]

def checksum (b : Bytes) : UInt32 := b.foldl update 0xFFFFFFFF ^^^ 0xFFFFFFFF

end Crc32
end Lineage
