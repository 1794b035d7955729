import AceShell.Basic
import AceShell.Lib.Digits

/-!
# PACK39

Direct radix-39 packing of names over `[a-z0-9_.-]`: the length of the name, then the name read as
a base-39 number in big-endian base-256 digits. The arithmetic is that of `Digits`; here are the
alphabet, the buffers and the round trip `pack39Decode_encode`.
-/

namespace AceShell

open Text Digits List

/-- `PACK39_ALPHABET`. -/
def pack39Alphabet : List UInt8 := ascii "abcdefghijklmnopqrstuvwxyz0123456789_.-"

def pack39Symbol (v : ℕ) : UInt8 := pack39Alphabet.getD v 0

/-- `pack39_value`. -/
def pack39Value (character : UInt8) : Option ℕ := pack39Alphabet.findIdx? (· == character)

/-- `pack39_encodable`. -/
def pack39Encodable (text : List UInt8) : Bool :=
  !text.isEmpty && text.all fun c => (pack39Value c).isSome

/-- The loop of `pack39_encode`: multiply by 39 and add, on little-endian digits. A carry is a
`uint32_t`, so its loop runs at most four times. -/
def pack39Digits : List UInt8 → List ℕ → Option (List ℕ)
  | [], digits => some digits
  | c :: cs, digits =>
    match pack39Value c with
    | none => none
    | some value =>
      match pushCarry 256 (nameMax + 2) 4 (mulAdd 256 39 digits value).1
          (mulAdd 256 39 digits value).2 with
      | none => none
      | some digits' => pack39Digits cs digits'

/-- `pack39_encode`. -/
def pack39Encode (text : List UInt8) (resultSize : ℕ) : Option (List UInt8) :=
  if text.length = 0 ∨ nameMax < text.length then none
  else
    match pack39Digits text [] with
    | none => none
    | some digits =>
      if resultSize < 1 + digits.length then none
      else some (UInt8.ofNat text.length :: digits.reverse.map UInt8.ofNat)

/-- `pack39_decode`. The length byte is at most `NAME_MAX`, so the buffer cannot overflow. -/
def pack39Decode (data : List UInt8) (textSize : ℕ) : Option (List UInt8) :=
  match data with
  | [] => none
  | origLength :: digits =>
    if origLength.toNat = 0 ∨ nameMax < origLength.toNat ∨ textSize ≤ origLength.toNat then none
    else if nameMax + 2 < digits.length then none
    else if (extract 256 39 origLength.toNat (digits.map UInt8.toNat)).2 ≠ [] then none
    else some ((extract 256 39 origLength.toNat (digits.map UInt8.toNat)).1.reverse.map
      pack39Symbol)

/-! ## The alphabet -/

theorem pack39Symbol_value {c : UInt8} {v : ℕ} (h : pack39Value c = some v) :
    v < 39 ∧ pack39Symbol v = c := by
  obtain ⟨hv, hc, -⟩ := findIdx?_eq_some_iff_getElem.mp h
  refine ⟨hv, ?_⟩
  unfold pack39Symbol
  rw [getD_eq_getElem?_getD, getElem?_eq_getElem hv]
  exact beq_iff_eq.mp hc

/-! ## Encoding -/

theorem pack39Digits_spec :
    ∀ {text : List UInt8} {xs digits digits' : List ℕ}, (∀ d ∈ digits, d < 256) →
      Nat.ofDigits 256 digits = ofBE 39 xs → pack39Digits text digits = some digits' →
      ∃ vs : List ℕ, text = vs.map pack39Symbol ∧ (∀ v ∈ vs, v < 39) ∧
        Nat.ofDigits 256 digits' = ofBE 39 (xs ++ vs) ∧ ∀ d ∈ digits', d < 256 := by
  intro text
  induction text with
  | nil =>
    intro xs digits digits' hd hx h
    simp only [pack39Digits, Option.some.injEq] at h
    subst h
    exact ⟨[], rfl, by simp, by simpa using hx, hd⟩
  | cons c cs ih =>
  intro xs digits digits' hd hx h
  unfold pack39Digits at h
  split at h
  · simp at h
  rename_i value hvalue
  obtain ⟨hv, hsym⟩ := pack39Symbol_value hvalue
  split at h
  · simp at h
  rename_i digits₁ hpush
  have hcarry : (mulAdd 256 39 digits value).2 < 256 ^ 4 :=
    lt_trans (mulAdd_carry_lt hd hv) (by norm_num)
  obtain ⟨hval, hlt⟩ := pushCarry_value (by norm_num) hcarry
    (mulAdd_lt (by norm_num) digits value) hpush
  have hnext : Nat.ofDigits 256 digits₁ = ofBE 39 (xs ++ [value]) := by
    rw [hval, mulAdd_length, mulAdd_value, ofBE_snoc, hx]
  obtain ⟨vs, rfl, hvs, hfin, hd'⟩ := ih hlt hnext h
  refine ⟨value :: vs, by rw [map_cons, hsym], ?_, by simpa using hfin, hd'⟩
  exact forall_mem_cons.mpr ⟨hv, hvs⟩

variable {text data : List UInt8} {n : ℕ}

theorem pack39Encode_spec (h : pack39Encode text n = some data) :
    ∃ (vs digits : List ℕ), text = vs.map pack39Symbol ∧ vs ≠ [] ∧ vs.length ≤ nameMax ∧
      (∀ v ∈ vs, v < 39) ∧ (∀ d ∈ digits, d < 256) ∧ ofBE 256 digits = ofBE 39 vs ∧
      data = UInt8.ofNat vs.length :: digits.map UInt8.ofNat ∧ data.length ≤ n := by
  unfold pack39Encode at h
  split_ifs at h with hlen
  push Not at hlen
  split at h
  · simp at h
  rename_i digits hdigits
  split_ifs at h with hn
  simp only [Option.some.injEq] at h
  obtain ⟨vs, rfl, hvs, hval, hd⟩ :=
    @pack39Digits_spec text [] [] digits (by simp) (by simp) hdigits
  rw [length_map] at hlen h
  refine ⟨vs, digits.reverse, rfl, ?_, hlen.2, hvs, ?_, ?_, h.symm, ?_⟩
  · intro hnil
    exact hlen.1 (by rw [hnil]; rfl)
  · intro d hm
    exact hd d (mem_reverse.mp hm)
  · unfold ofBE at hval ⊢
    simpa using hval
  · rw [← h]
    simp only [length_cons, length_map, length_reverse]
    omega

variable {m : ℕ}

theorem pack39Encode_mono (hnm : n ≤ m) (h : pack39Encode text n = some data)
    : pack39Encode text m = some data := by
  unfold pack39Encode at h ⊢
  split_ifs at h ⊢ with hlen
  cases hd : pack39Digits text [] with
  | none => rw [hd] at h; simp at h
  | some digits =>
  rw [hd] at h
  simp only at h ⊢
  split_ifs at h with hn
  rw [if_neg (by omega)]
  exact h

/-! ## Decoding -/

/-- **PACK39 round trip.** -/
theorem pack39Decode_encode (hdata : n ≤ nameMax + 3) (hm : text.length < m)
    (h : pack39Encode text n = some data) : pack39Decode data m = some text := by
  obtain ⟨vs, digits, rfl, hne, hle, hvs, hd, hval, rfl, hlen⟩ := pack39Encode_spec h
  have hpos : vs.length ≠ 0 := fun h0 => hne (length_eq_zero_iff.mp h0)
  have horig : (UInt8.ofNat vs.length).toNat = vs.length :=
    UInt8.toNat_ofNat_of_lt' (lt_of_le_of_lt hle (by decide))
  have hback : (digits.map UInt8.ofNat).map UInt8.toNat = digits := by
    rw [map_map]
    conv_rhs => rw [← map_id digits]
    refine map_congr_left fun d hm => ?_
    exact UInt8.toNat_ofNat_of_lt' (hd d hm)
  rw [length_map] at hm
  simp only [length_cons, length_map] at hlen
  unfold pack39Decode
  simp only [horig, hback, length_map]
  rw [if_neg (by omega), if_neg (by omega), extract_ofBE (by norm_num) (by norm_num) hne hvs hval]
  simp

end AceShell
