import Mathlib

/-!
# The bytes of a character

The UTF-8 encoding of a character is one byte below `0x80`, or a lead byte and as many continuation
bytes as the lead byte's range says.
-/

namespace Utf8

/-- A continuation byte. -/
def IsContinuation (byte : UInt8) : Prop := 0x80 ≤ byte ∧ byte ≤ 0xbf

/-- What a lead byte announces: the number of bytes that follow it. -/
inductive Leads : UInt8 → ℕ → Prop
  | two {lead : UInt8} (h : 0xc2 ≤ lead ∧ lead ≤ 0xdf) : Leads lead 1
  | three {lead : UInt8} (h : 0xe0 ≤ lead ∧ lead ≤ 0xef) : Leads lead 2
  | four {lead : UInt8} (h : 0xf0 ≤ lead ∧ lead ≤ 0xf4) : Leads lead 3

theorem Leads.pos {lead : UInt8} {n : ℕ} (h : Leads lead n) : n ≠ 0 := by
  cases h <;> exact Nat.succ_ne_zero _

theorem ofNat_between (low high : ℕ) {n : ℕ} (hlow : low ≤ n) (hhigh : n ≤ high) (h : high < 256) :
    UInt8.ofNat low ≤ UInt8.ofNat n ∧ UInt8.ofNat n ≤ UInt8.ofNat high := by
  rw [UInt8.le_iff_toNat_le, UInt8.le_iff_toNat_le, UInt8.toNat_ofNat', UInt8.toNat_ofNat',
    UInt8.toNat_ofNat']
  omega

theorem isContinuation_ofNat (n : ℕ) : IsContinuation (UInt8.ofNat (n % 64 + 128)) :=
  ofNat_between 0x80 0xbf (by omega) (by omega) (by omega)

theorem encode_cases (c : Char) :
    (∃ byte, String.utf8EncodeChar c = [byte] ∧ byte < 0x80 ∧ byte.toNat = c.toNat) ∨
      ∃ lead rest, String.utf8EncodeChar c = lead :: rest ∧ Leads lead rest.length ∧
        0x80 ≤ c.toNat ∧ ∀ byte ∈ rest, IsContinuation byte := by
  have hvalid : c.val.toNat < 0x110000 := by
    rcases c.valid with h | ⟨-, h⟩
    · exact Nat.lt_trans h (by decide)
    · exact h
  unfold String.utf8EncodeChar Char.toNat
  dsimp only
  generalize c.val.toNat = v at hvalid
  split_ifs with h1 h2 h3
  · have hval : v.toUInt8.toNat = v := (UInt8.toNat_ofNat').trans (by omega)
    refine Or.inl ⟨_, rfl, ?_, hval⟩
    rw [UInt8.lt_iff_toNat_lt, hval]
    show v < 128
    omega
  · refine Or.inr ⟨_, _, rfl, .two (ofNat_between 0xc2 0xdf (by omega) (by omega) (by omega)),
      by omega, ?_⟩
    intro byte hbyte
    rw [List.mem_singleton.mp hbyte]
    exact isContinuation_ofNat v
  · refine Or.inr ⟨_, _, rfl, .three (ofNat_between 0xe0 0xef (by omega) (by omega) (by omega)),
      by omega, ?_⟩
    intro byte hbyte
    simp only [List.mem_cons, List.not_mem_nil, or_false] at hbyte
    rcases hbyte with rfl | rfl <;> exact isContinuation_ofNat _
  · refine Or.inr ⟨_, _, rfl, .four (ofNat_between 0xf0 0xf4 (by omega) (by omega) (by omega)),
      by omega, ?_⟩
    intro byte hbyte
    simp only [List.mem_cons, List.not_mem_nil, or_false] at hbyte
    rcases hbyte with rfl | rfl | rfl <;> exact isContinuation_ofNat _

end Utf8
