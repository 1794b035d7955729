import Mathlib

/-!
# Big-endian words

A 32-bit word as four bytes, the highest first.
-/

namespace BigEndian

/-- The four bytes of a word. -/
def write32 (value : UInt32) : List UInt8 :=
  [UInt8.ofNat (value.toNat / 2 ^ 24), UInt8.ofNat (value.toNat / 2 ^ 16),
    UInt8.ofNat (value.toNat / 2 ^ 8), UInt8.ofNat value.toNat]

def read32 : List UInt8 → UInt32
  | a :: b :: c :: d :: _ =>
    UInt32.ofNat (a.toNat * 2 ^ 24 + b.toNat * 2 ^ 16 + c.toNat * 2 ^ 8 + d.toNat)
  | _ => 0

@[simp] theorem length_write32 (value : UInt32) : (write32 value).length = 4 := rfl

@[simp] theorem read32_write32_append (value : UInt32) (rest : List UInt8) :
    read32 (write32 value ++ rest) = value := by
  have hvalue := value.toNat_lt
  apply UInt32.toNat_inj.mp
  show (UInt32.ofNat _).toNat = value.toNat
  simp only [UInt8.toNat_ofNat', UInt32.toNat_ofNat']
  omega

end BigEndian
