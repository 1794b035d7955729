import AceShell.Names.Alphabets
import AceShell.Names.Pack39

/-!
# What follows the marker

The text after a `^` is an escape only if it spells a payload: base32 whose bytes end in their own
NUL, or `0` and a DENSE128 payload whose last byte names the compressor. zlib is a parameter of
the model: `Zlib` is the pair of raw streams primed with the broker's dictionary, together with
what the code relies on.
-/

namespace AceShell

open Text Option List

/-! ## zlib -/

/-- zlib's raw `deflate` and `inflate`, primed with `AMIGA_BROKER_DEFLATE_DICTIONARY` and run to
`Z_FINISH` on a buffer of the given size; `none` is any status but `Z_STREAM_END`. -/
structure Zlib where
  deflate : List UInt8 → ℕ → Option (List UInt8)
  inflate : List UInt8 → ℕ → Option (List UInt8)
  /-- The output fits the buffer. -/
  deflate_length : ∀ {data out : List UInt8} {n : ℕ}, deflate data n = some out → out.length ≤ n
  /-- The stream does not depend on how much room is left over. -/
  deflate_mono : ∀ {data out : List UInt8} {n m : ℕ}, deflate data n = some out → n ≤ m →
    deflate data m = some out
  /-- Inflating into a large enough buffer undoes deflating. -/
  inflate_deflate : ∀ {data out : List UInt8} {n m : ℕ}, deflate data n = some out →
    data.length < m → inflate out m = some data

/-- Raw deflate that writes the data as one final stored block: its length, the complement, the
bytes themselves. -/
def storedDeflate (data : List UInt8) (n : ℕ) : Option (List UInt8) :=
  if data.length < 2 ^ 16 ∧ data.length + 5 ≤ n then
    let lo := UInt8.ofNat (data.length % 256)
    let hi := UInt8.ofNat (data.length / 256)
    some (1 :: lo :: hi :: (255 - lo) :: (255 - hi) :: data)
  else none

def storedInflate (block : List UInt8) (n : ℕ) : Option (List UInt8) :=
  match block with
  | 1 :: lo :: hi :: lo' :: hi' :: data =>
    if lo.toNat + 256 * hi.toNat = data.length ∧ lo' = 255 - lo ∧ hi' = 255 - hi ∧ data.length ≤ n
    then some data else none
  | _ => none

theorem storedDeflate_eq_some {data out : List UInt8} {n : ℕ}
    (h : storedDeflate data n = some out) :
    data.length < 2 ^ 16 ∧ data.length + 5 ≤ n ∧
      out = 1 :: UInt8.ofNat (data.length % 256) :: UInt8.ofNat (data.length / 256) ::
        (255 - UInt8.ofNat (data.length % 256)) :: (255 - UInt8.ofNat (data.length / 256)) ::
        data := by
  unfold storedDeflate at h
  split_ifs at h with hfit
  exact ⟨hfit.1, hfit.2, (some.inj h).symm⟩

/-- The zlib that only ever stores. -/
def storedZlib : Zlib where
  deflate := storedDeflate
  inflate := storedInflate
  deflate_length := by
    intro data out n h
    obtain ⟨-, hfit, rfl⟩ := storedDeflate_eq_some h
    simp only [length_cons]
    omega
  deflate_mono := by
    intro data out n m h hnm
    obtain ⟨hlen, hfit, rfl⟩ := storedDeflate_eq_some h
    unfold storedDeflate
    rw [if_pos ⟨hlen, hfit.trans hnm⟩]
  inflate_deflate := by
    intro data out n m h hm
    obtain ⟨hlen, -, rfl⟩ := storedDeflate_eq_some h
    have hlo : (UInt8.ofNat (data.length % 256)).toNat = data.length % 256 :=
      UInt8.toNat_ofNat_of_lt' (Nat.mod_lt _ (by decide))
    have hhi : (UInt8.ofNat (data.length / 256)).toNat = data.length / 256 :=
      UInt8.toNat_ofNat_of_lt' (Nat.div_lt_of_lt_mul hlen)
    have hlen' : data.length % 256 + 256 * (data.length / 256) = data.length := Nat.mod_add_div _ _
    simp only [storedInflate, hlo, hhi, hlen', hm.le, and_self, if_true]

variable (z : Zlib)

/-- `deflate_compress`. -/
def deflateCompress (data : List UInt8) (resultSize : ℕ) : Option (List UInt8) :=
  z.deflate data resultSize

def deflateDecompress (data : List UInt8) (textSize : ℕ) : Option (List UInt8) :=
  match z.inflate data (nameMax + 1) with
  | none => none
  | some produced => if textSize ≤ produced.length then none else some (cstr produced)

/-! ## Compressed payloads -/

def pack39Trailer : UInt8 := 0x80

def deflateTrailer : UInt8 := 0x81

/-- `compressed_payload_decode`: the decoded text is accepted only if encoding it again gives the
same payload. -/
def compressedPayloadDecode (suffix : List UInt8) (textSize : ℕ) : Option (List UInt8) :=
  match dense128Decode suffix (nameMax + 2) with
  | none => none
  | some payload =>
    if payload.getLast? = some pack39Trailer then
      match pack39Decode payload.dropLast textSize with
      | none => none
      | some text =>
        if pack39Encodable text && pack39Encode text (nameMax + 2) == some payload.dropLast
        then some text else none
    else if payload.getLast? = some deflateTrailer then
      match deflateDecompress z payload.dropLast textSize with
      | none => none
      | some text =>
        if deflateCompress z text (nameMax + 2) == some payload.dropLast then some text else none
    else none

/-! ## Escapes -/

def literalPayload (payload : List UInt8) : Bool :=
  payload.getLast? == some 0 && payload.dropLast.all (· != 0)

/-- `escape_payload_valid`. -/
def escapePayloadValid (suffix : List UInt8) : Bool :=
  if suffix.head? = some zeroDigit then
    (compressedPayloadDecode z (suffix.drop 1) (nameMax + 2)).isSome
  else
    match base32Decode suffix (nameMax + 2) with
    | none => false
    | some payload => literalPayload payload

def escapeMarker : List UInt8 → Option ℕ
  | [] => none
  | c :: cs =>
    if c = mappedMarker ∧ escapePayloadValid z cs = true then some 0
    else (escapeMarker cs).map (· + 1)

def firstUnspellableIndex : List UInt8 → Option ℕ
  | [] => none
  | c :: cs =>
    if c = colon ∨ c = slash then some 0
    else if c = mappedMarker ∧ escapePayloadValid z cs = true then some 0
    else (firstUnspellableIndex cs).map (· + 1)

variable {z}

/-! ## Carets inside a payload -/

variable {suffix : List UInt8}

theorem compressedPayloadDecode_marker (h : mappedMarker ∈ suffix) (n : ℕ) :
    compressedPayloadDecode z suffix n = none := by
  unfold compressedPayloadDecode
  rw [dense128Decode_marker h]

theorem escapePayloadValid_marker (h : mappedMarker ∈ suffix) :
    escapePayloadValid z suffix = false := by
  unfold escapePayloadValid
  split_ifs with h0
  · have hm : mappedMarker ∈ suffix.drop 1 := by
      cases suffix with
      | nil => simp at h
      | cons c cs =>
        rcases mem_cons.mp h with rfl | h
        · simp [mappedMarker, zeroDigit] at h0
        · exact h
    rw [compressedPayloadDecode_marker hm]
    rfl
  · rw [base32Decode_marker h]

/-- **The decoder finds the right caret.** Whatever carets the header has, the first one that
opens an escape is the marker before a valid payload. -/
theorem escapeMarker_header (header : List UInt8) (hv : escapePayloadValid z suffix = true) :
    escapeMarker z (header ++ mappedMarker :: suffix) = some header.length := by
  induction header with
  | nil => exact if_pos ⟨rfl, hv⟩
  | cons c cs ih =>
  have hno : escapePayloadValid z (cs ++ mappedMarker :: suffix) = false :=
    escapePayloadValid_marker (by simp)
  rw [cons_append]
  unfold escapeMarker
  rw [if_neg (by rw [hno]; simp), ih]
  rfl

theorem escapeMarker_spec :
    ∀ {name : List UInt8} {i : ℕ}, escapeMarker z name = some i →
      ∃ header suffix, name = header ++ mappedMarker :: suffix ∧ header.length = i ∧
        escapePayloadValid z suffix = true := by
  intro name
  induction name with
  | nil => intro i h; simp [escapeMarker] at h
  | cons c cs ih =>
  intro i h
  unfold escapeMarker at h
  split_ifs at h with hc
  · obtain ⟨rfl, hv⟩ := hc
    simp only [some.injEq] at h
    exact ⟨[], cs, rfl, h, hv⟩
  · obtain ⟨j, hj, rfl⟩ := map_eq_some_iff.mp h
    obtain ⟨header, suffix, rfl, rfl, hv⟩ := ih hj
    exact ⟨c :: header, suffix, rfl, rfl, hv⟩

/-! ## Names that can be spelled as they are -/

theorem escapeMarker_eq_none_of_spellable :
    ∀ {name : List UInt8}, firstUnspellableIndex z name = none → escapeMarker z name = none := by
  intro name
  induction name with
  | nil => intro _; rfl
  | cons c cs ih =>
  intro h
  unfold firstUnspellableIndex at h
  split_ifs at h with h1 h2
  unfold escapeMarker
  rw [if_neg h2, ih (map_eq_none_iff.mp h)]
  rfl

theorem ne_separator_of_take :
    ∀ {name : List UInt8} {n : ℕ}, n ≤ (firstUnspellableIndex z name).getD name.length →
      ∀ c ∈ name.take n, c ≠ colon ∧ c ≠ slash := by
  intro name
  induction name with
  | nil => intro n _ c hc; simp at hc
  | cons d ds ih =>
  intro n hn c hc
  cases n with
  | zero => simp at hc
  | succ n =>
  unfold firstUnspellableIndex at hn
  split_ifs at hn with h1 h2
  · simp at hn
  · simp at hn
  push Not at h1
  rcases mem_cons.mp hc with rfl | hc
  · exact h1
  refine ih ?_ c hc
  cases hf : firstUnspellableIndex z ds with
  | none =>
    rw [hf] at hn
    simp only [map_none, getD_none, length_cons] at hn ⊢
    omega
  | some i =>
    rw [hf] at hn
    simp only [map_some, getD_some] at hn ⊢
    omega

theorem firstUnspellableIndex_ne_none {header : List UInt8}
    (hv : escapePayloadValid z suffix = true) :
    firstUnspellableIndex z (header ++ mappedMarker :: suffix) ≠ none := by
  intro h
  have := escapeMarker_eq_none_of_spellable h
  rw [escapeMarker_header header hv] at this
  simp at this

end AceShell
