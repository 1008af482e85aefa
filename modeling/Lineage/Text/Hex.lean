import Lineage.Bytes

/-! Bytes as lower-case hexadecimal digits, two for each. -/

namespace Lineage
namespace Hex

def digits (b : UInt8) : List Char :=
  [Nat.digitChar (b.toNat / 16), Nat.digitChar (b.toNat % 16)]

def encode (b : Bytes) : String := String.ofList (b.flatMap digits)

end Hex
end Lineage
