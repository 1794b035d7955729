import AceShell.Basic
import AceShell.Lib.BitPack

/-!
# The two payload alphabets

A literal escape carries its payload in base32, five bits a character; a compressed one in
DENSE128, seven bits a character. Both codecs are the shift register of `BitPack` with their own
width and alphabet. Neither alphabet has the marker, a separator or a lower-case letter; base32 is
read without regard to case, DENSE128 is not.
-/

namespace AceShell

open Text BitPack Option List

/-! ## Base32 -/

/-- `BASE32_ALPHABET`. -/
def base32Alphabet : List UInt8 := ascii "ABCDEFGHIJKLMNOPQRSTUVWXYZ234567"

def base32Symbol (v : ℕ) : UInt8 := base32Alphabet.getD v 0

def base32Value (character : UInt8) : Option ℕ :=
  base32Alphabet.findIdx? (· == toUpper character)

/-- `base32_encoded_length`. -/
def base32EncodedLength (bytes : ℕ) : ℕ := (bytes * 8 + 4) / 5

def base32Encode (data : List UInt8) (resultSize : ℕ) : Option (List UInt8) :=
  pack 5 resultSize base32Symbol data

/-- `base32_decode`. -/
def base32Decode (text : List UInt8) (resultSize : ℕ) : Option (List UInt8) :=
  unpack 5 resultSize base32Value text

/-! ## DENSE128 -/

/-- `DENSE128_ALPHABET`. -/
def dense128Alphabet : List UInt8 := [
  0x21, 0x22, 0x23, 0x24, 0x25, 0x26, 0x27, 0x28, 0x29, 0x2a, 0x2b, 0x2c, 0x2d, 0x2e, 0x30, 0x31,
  0x32, 0x33, 0x34, 0x35, 0x36, 0x37, 0x38, 0x39, 0x3b, 0x3c, 0x3d, 0x3e, 0x3f, 0x40, 0x41, 0x42,
  0x43, 0x44, 0x45, 0x46, 0x47, 0x48, 0x49, 0x4a, 0x4b, 0x4c, 0x4d, 0x4e, 0x4f, 0x50, 0x51, 0x52,
  0x53, 0x54, 0x55, 0x56, 0x57, 0x58, 0x59, 0x5a, 0x5b, 0x5c, 0x5d, 0x5f, 0x60, 0x7b, 0x7c, 0x7d,
  0x7e, 0xa1, 0xa2, 0xa3, 0xa4, 0xa5, 0xa6, 0xa7, 0xa8, 0xa9, 0xaa, 0xab, 0xac, 0xad, 0xae, 0xaf,
  0xb0, 0xb1, 0xb2, 0xb3, 0xb4, 0xb5, 0xb6, 0xb7, 0xb8, 0xb9, 0xba, 0xbb, 0xbc, 0xbd, 0xbe, 0xbf,
  0xc0, 0xc1, 0xc2, 0xc3, 0xc4, 0xc5, 0xc6, 0xc7, 0xc8, 0xc9, 0xca, 0xcb, 0xcc, 0xcd, 0xce, 0xcf,
  0xd0, 0xd1, 0xd2, 0xd3, 0xd4, 0xd5, 0xd6, 0xd7, 0xd8, 0xd9, 0xda, 0xdb, 0xdc, 0xdd, 0xde, 0xdf]

def dense128Symbol (v : ℕ) : UInt8 := dense128Alphabet.getD v 0

def dense128Value (character : UInt8) : Option ℕ := dense128Alphabet.findIdx? (· == character)

/-- `dense128_encoded_length`. -/
def dense128EncodedLength (bytes : ℕ) : ℕ := (bytes * 8 + 6) / 7

def dense128Encode (data : List UInt8) (resultSize : ℕ) : Option (List UInt8) :=
  pack 7 resultSize dense128Symbol data

/-- `dense128_decode`. -/
def dense128Decode (text : List UInt8) (resultSize : ℕ) : Option (List UInt8) :=
  unpack 7 resultSize dense128Value text

/-! ## What the alphabets leave out -/

/-- A character that may stand in an encoded payload: no separator, no marker, no NUL and no
lower-case letter. -/
structure PayloadChar (c : UInt8) : Prop where
  ne_colon : c ≠ colon
  ne_slash : c ≠ slash
  ne_marker : c ≠ mappedMarker
  ne_nul : c ≠ 0
  upper : toUpper c = c

instance (c : UInt8) : Decidable (PayloadChar c) :=
  decidable_of_iff (c ≠ colon ∧ c ≠ slash ∧ c ≠ mappedMarker ∧ c ≠ 0 ∧ toUpper c = c)
    ⟨fun ⟨a, b, c, d, e⟩ => ⟨a, b, c, d, e⟩, fun ⟨a, b, c, d, e⟩ => ⟨a, b, c, d, e⟩⟩

theorem payloadChar_base32Symbol : ∀ v < 2 ^ 5, PayloadChar (base32Symbol v) := by decide

theorem payloadChar_dense128Symbol : ∀ v < 2 ^ 7, PayloadChar (dense128Symbol v) := by
  decide

theorem base32Symbol_ne_zeroDigit : ∀ v < 2 ^ 5, base32Symbol v ≠ zeroDigit := by decide

theorem base32Value_symbol : ∀ v < 2 ^ 5, base32Value (base32Symbol v) = some v := by
  decide

theorem dense128Alphabet_sorted : dense128Alphabet.Pairwise (· < ·) :=
  isChain_iff_pairwise.mp (by decide +kernel)

theorem dense128Value_symbol : ∀ v < 2 ^ 7, dense128Value (dense128Symbol v) = some v := by
  intro v hv
  have hlen : v < dense128Alphabet.length := lt_of_lt_of_eq hv (by decide +kernel)
  unfold dense128Value dense128Symbol
  rw [getD_eq_getElem _ _ hlen, findIdx?_eq_some_iff_getElem]
  refine ⟨hlen, beq_self_eq_true _, fun j hj heq => ?_⟩
  have hlt := pairwise_iff_getElem.mp dense128Alphabet_sorted j v (hj.trans hlen) hlen hj
  exact UInt8.ne_of_lt hlt (beq_iff_eq.mp heq)

theorem base32Value_marker : base32Value mappedMarker = none := by decide

theorem dense128Value_marker : dense128Value mappedMarker = none := by decide

variable {c : UInt8}

theorem base32Value_fold {b : UInt8} (h : toLower b = toLower c) :
    base32Value b = base32Value c := by
  unfold base32Value
  rw [toLower_eq_iff.mp h]

theorem toUpper_of_dense128Value (h : dense128Value c ≠ none) : toUpper c = c := by
  have hupper : ∀ d ∈ dense128Alphabet, toUpper d = d := by decide +kernel
  unfold dense128Value at h
  rw [ne_eq, findIdx?_eq_none_iff] at h
  push Not at h
  obtain ⟨d, hd, hdc⟩ := h
  rw [ne_eq, Bool.not_eq_false, beq_iff_eq] at hdc
  rw [← hdc]
  exact hupper d hd

/-! ## The codecs -/

variable {data text : List UInt8} {n m : ℕ}

theorem base32Decode_encode (hne : data ≠ []) (hfit : data.length ≤ m)
    (h : base32Encode data n = some text) : base32Decode text m = some data :=
  unpack_pack (by norm_num) (by norm_num) base32Value_symbol hne hfit h

theorem dense128Decode_encode (hne : data ≠ []) (hfit : data.length ≤ m)
    (h : dense128Encode data n = some text) : dense128Decode text m = some data :=
  unpack_pack (by norm_num) (by norm_num) dense128Value_symbol hne hfit h

theorem payloadChar_of_base32Encode (h : base32Encode data n = some text) (hc : c ∈ text)
    : PayloadChar c := by
  obtain ⟨v, hv, rfl⟩ := mem_pack (by norm_num) (by norm_num) h hc
  exact payloadChar_base32Symbol v hv

theorem payloadChar_of_dense128Encode (h : dense128Encode data n = some text) (hc : c ∈ text)
    : PayloadChar c := by
  obtain ⟨v, hv, rfl⟩ := mem_pack (by norm_num) (by norm_num) h hc
  exact payloadChar_dense128Symbol v hv

theorem head_of_base32Encode (h : base32Encode data n = some text)
    : text.head? ≠ some zeroDigit := by
  intro hh
  obtain ⟨v, hv, hz⟩ := mem_pack (by norm_num) (by norm_num) h (mem_of_head? hh)
  exact base32Symbol_ne_zeroDigit v hv hz

theorem base32Decode_caseEq {s t : List UInt8} (h : caseEq s t = true) (n : ℕ) :
    base32Decode s n = base32Decode t n := by
  refine unpack_congr ?_
  have hfold (l : List UInt8) : l.map base32Value = (l.map toLower).map base32Value := by
    rw [List.map_map]
    exact map_congr_left fun b _ => base32Value_fold (toLower_eq_iff.mpr (toUpper_toLower b).symm)
  rw [hfold s, hfold t, caseEq_iff.mp h]

theorem base32Decode_marker (h : mappedMarker ∈ text) (n : ℕ) :
    base32Decode text n = none := unpack_eq_none base32Value_marker h

theorem dense128Decode_marker (h : mappedMarker ∈ text) (n : ℕ) :
    dense128Decode text n = none := unpack_eq_none dense128Value_marker h

theorem upper_of_dense128Decode (h : dense128Decode text n = some data) (hc : c ∈ text)
    : toUpper c = c := by
  apply toUpper_of_dense128Value
  intro hnone
  have hbad : dense128Decode text n = none := unpack_eq_none hnone hc
  rw [hbad] at h
  simp at h

end AceShell
