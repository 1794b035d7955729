import Mathlib

/-!
# Words in memory

A word of some width is stored with its lowest byte first or with its highest byte first. Records
are made of several words.
-/

inductive ByteOrder
  | little
  | big
  deriving DecidableEq

namespace ByteOrder

open List

def lowBytes : ℕ → ℕ → List UInt8
  | 0, _ => []
  | width + 1, n => UInt8.ofNat n :: lowBytes width (n / 256)

def ofBytes : List UInt8 → ℕ
  | [] => 0
  | byte :: bytes => byte.toNat + 256 * ofBytes bytes

/-- A word of the given width. -/
def encode : ByteOrder → ℕ → ℕ → List UInt8
  | little, width, n => lowBytes width n
  | big, width, n => (lowBytes width n).reverse

/-- The word with these bytes. -/
def decode : ByteOrder → List UInt8 → ℕ
  | little, bytes => ofBytes bytes
  | big, bytes => ofBytes bytes.reverse

theorem length_lowBytes (width n : ℕ) : (lowBytes width n).length = width := by
  induction width generalizing n with
  | zero => rfl
  | succ width ih => exact congrArg (· + 1) (ih (n / 256))

variable {width n : ℕ}

theorem ofBytes_lowBytes (h : n < 256 ^ width) : ofBytes (lowBytes width n) = n := by
  induction width generalizing n with
  | zero =>
    show 0 = n
    omega
  | succ width ih =>
  have hrest : n / 256 < 256 ^ width := by
    omega
  show (UInt8.ofNat n).toNat + 256 * ofBytes (lowBytes width (n / 256)) = n
  rw [ih hrest, UInt8.toNat_ofNat']
  omega

@[simp] theorem length_encode (order : ByteOrder) (width n : ℕ) :
    (order.encode width n).length = width := by
  cases order with
  | little => exact length_lowBytes width n
  | big => exact (length_reverse ..).trans (length_lowBytes width n)

theorem decode_encode (order : ByteOrder) (h : n < 256 ^ width) :
    order.decode (order.encode width n) = n := by
  cases order with
  | little => exact ofBytes_lowBytes h
  | big =>
    show ofBytes (lowBytes width n).reverse.reverse = n
    rw [reverse_reverse]
    exact ofBytes_lowBytes h

/-! ## Several words -/

def encodeWords (order : ByteOrder) (width : ℕ) (words : List ℕ) : List UInt8 :=
  words.flatMap (order.encode width)

/-- The first words of some bytes. -/
def decodeWords (order : ByteOrder) (width : ℕ) : ℕ → List UInt8 → List ℕ
  | 0, _ => []
  | n + 1, bytes => order.decode (bytes.take width) :: decodeWords order width n (bytes.drop width)

theorem length_encodeWords (order : ByteOrder) (width : ℕ) (words : List ℕ) :
    (order.encodeWords width words).length = words.length * width := by
  induction words with
  | nil => exact (Nat.zero_mul width).symm
  | cons word words ih =>
    show (order.encode width word ++ order.encodeWords width words).length = _
    rw [length_append, length_encode, ih, length_cons, Nat.succ_mul, Nat.add_comm]

theorem decodeWords_encodeWords (order : ByteOrder) {words : List ℕ}
    (h : ∀ word ∈ words, word < 256 ^ width) (rest : List UInt8) :
    order.decodeWords width words.length (order.encodeWords width words ++ rest) = words := by
  induction words with
  | nil => rfl
  | cons word words ih =>
  have hsplit : order.encodeWords width (word :: words) ++ rest =
      order.encode width word ++ (order.encodeWords width words ++ rest) :=
    append_assoc ..
  show order.decode (take width _) :: _ = _
  rw [hsplit, take_left' (length_encode ..), drop_left' (length_encode ..),
    decode_encode order (h word mem_cons_self),
    ih fun other hother => h other (mem_cons_of_mem _ hother)]

end ByteOrder
