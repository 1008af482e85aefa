/-! Byte strings and the big-endian words that class files are made of. -/

namespace Lineage

abbrev Bytes := List UInt8

namespace Bytes

def ofUInt16 (w : UInt16) : Bytes :=
  [UInt8.ofNat (w.toNat / 256), UInt8.ofNat (w.toNat % 256)]

def ofUInt32 (w : UInt32) : Bytes :=
  [UInt8.ofNat (w.toNat / 16777216), UInt8.ofNat (w.toNat / 65536 % 256),
    UInt8.ofNat (w.toNat / 256 % 256), UInt8.ofNat (w.toNat % 256)]

/-- A count or an index as a 16-bit word.  Above 65535 it wraps. -/
def ofNat16 (n : Nat) : Bytes := ofUInt16 (UInt16.ofNat n)

def ofNat32 (n : Nat) : Bytes := ofUInt32 (UInt32.ofNat n)

def toUInt16 (hi lo : UInt8) : UInt16 :=
  UInt16.ofNat (hi.toNat * 256 + lo.toNat)

def toUInt32 (a b c d : UInt8) : UInt32 :=
  UInt32.ofNat (a.toNat * 16777216 + b.toNat * 65536 + c.toNat * 256 + d.toNat)

@[simp]
theorem length_ofUInt16 (w : UInt16) : (ofUInt16 w).length = 2 := rfl

@[simp]
theorem length_ofUInt32 (w : UInt32) : (ofUInt32 w).length = 4 := rfl

theorem toUInt16_ofUInt16 (w : UInt16) :
    toUInt16 (UInt8.ofNat (w.toNat / 256)) (UInt8.ofNat (w.toNat % 256)) = w := by
  have hw := w.toNat_lt
  apply UInt16.toNat_inj.mp
  simp only [toUInt16, UInt16.toNat_ofNat', UInt8.toNat_ofNat']
  omega

theorem toUInt32_ofUInt32 (w : UInt32) :
    toUInt32 (UInt8.ofNat (w.toNat / 16777216)) (UInt8.ofNat (w.toNat / 65536 % 256))
      (UInt8.ofNat (w.toNat / 256 % 256)) (UInt8.ofNat (w.toNat % 256)) = w := by
  have hw := w.toNat_lt
  apply UInt32.toNat_inj.mp
  simp only [toUInt32, UInt32.toNat_ofNat', UInt8.toNat_ofNat']
  omega

end Bytes
end Lineage
