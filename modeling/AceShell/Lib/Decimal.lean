import Mathlib

/-!
# Unsigned decimal text

`print` is what `%u` and `%llu` write, `value` is what a digit loop reads back. Both work on
bytes, and `print` recurses on its argument's digits, so that a closed text can be evaluated.
-/

namespace Decimal

open List

/-- A decimal digit. -/
def isDigit (byte : UInt8) : Bool := 48 ≤ byte && byte ≤ 57

/-- The number a digit stands for. -/
def digitValue (byte : UInt8) : ℕ := byte.toNat - 48

/-- The text of one digit. -/
def digitByte (d : ℕ) : UInt8 := UInt8.ofNat (48 + d)

def printFrom : ℕ → ℕ → List UInt8
  | 0, _ => []
  | fuel + 1, n => (if n < 10 then [] else printFrom fuel (n / 10)) ++ [digitByte (n % 10)]

/-- `n` in decimal. -/
def print (n : ℕ) : List UInt8 := printFrom (n + 1) n

def value (digits : List UInt8) : ℕ := digits.foldl (fun n byte => n * 10 + digitValue byte) 0

theorem printFrom_eq_of_lt {fuel fuel' n : ℕ} (h : n < fuel) (h' : n < fuel') :
    printFrom fuel n = printFrom fuel' n := by
  induction fuel generalizing fuel' n with
  | zero => omega
  | succ fuel ih =>
  obtain _ | fuel' := fuel'
  · omega
  unfold printFrom
  by_cases hn : n < 10
  · rw [if_pos hn, if_pos hn]
  · have hrest : printFrom fuel (n / 10) = printFrom fuel' (n / 10) := ih (by omega) (by omega)
    rw [if_neg hn, if_neg hn, hrest]

theorem print_eq (n : ℕ) :
    print n = (if n < 10 then [] else print (n / 10)) ++ [digitByte (n % 10)] := by
  show printFrom (n + 1) n = _
  unfold printFrom
  by_cases hn : n < 10
  · rw [if_pos hn, if_pos hn]
  · have hrest : printFrom n (n / 10) = print (n / 10) := printFrom_eq_of_lt (by omega) (by omega)
    rw [if_neg hn, if_neg hn, hrest]

theorem toNat_digitByte {d : ℕ} (h : d < 10) : (digitByte d).toNat = 48 + d := by
  unfold digitByte
  rw [UInt8.toNat_ofNat']
  omega

theorem isDigit_digitByte {d : ℕ} (h : d < 10) : isDigit (digitByte d) = true := by
  unfold isDigit
  rw [Bool.and_eq_true, decide_eq_true_iff, decide_eq_true_iff, UInt8.le_iff_toNat_le,
    UInt8.le_iff_toNat_le, toNat_digitByte h]
  exact ⟨Nat.le_add_right 48 d, by show 48 + d ≤ 57; omega⟩

theorem isDigit_of_mem_print {n : ℕ} {byte : UInt8} (h : byte ∈ print n) : isDigit byte = true := by
  induction n using Nat.strongRecOn with
  | ind n ih =>
  rw [print_eq, mem_append, mem_singleton] at h
  rcases h with h | rfl
  · split_ifs at h with hn
    · simp at h
    · exact ih (n / 10) (by omega) h
  · exact isDigit_digitByte (Nat.mod_lt n (by decide))

theorem value_append_singleton (digits : List UInt8) (byte : UInt8) :
    value (digits ++ [byte]) = value digits * 10 + digitValue byte := by
  unfold value
  rw [foldl_append]
  rfl

theorem value_print (n : ℕ) : value (print n) = n := by
  induction n using Nat.strongRecOn with
  | ind n ih =>
  have hlast : digitValue (digitByte (n % 10)) = n % 10 := by
    unfold digitValue
    rw [toNat_digitByte (Nat.mod_lt n (by decide))]
    omega
  rw [print_eq, value_append_singleton, hlast]
  split_ifs with hn
  · show 0 * 10 + n % 10 = n
    omega
  · rw [ih (n / 10) (by omega)]
    omega

theorem length_print_pos (n : ℕ) : 0 < (print n).length := by
  rw [print_eq, length_append]
  exact Nat.lt_of_lt_of_le Nat.zero_lt_one (Nat.le_add_left _ _)

theorem length_print_le {k n : ℕ} (hk : 0 < k) (h : n < 10 ^ k) : (print n).length ≤ k := by
  induction k generalizing n with
  | zero => omega
  | succ k ih =>
  rw [print_eq, length_append]
  split_ifs with hn
  · exact Nat.le_add_left 1 k
  rcases Nat.eq_zero_or_pos k with rfl | hpos
  · omega
  have hdiv : n / 10 < 10 ^ k := by
    omega
  exact Nat.succ_le_succ (ih hpos hdiv)

theorem lt_length_print {k n : ℕ} (h : 10 ^ k ≤ n) : k < (print n).length := by
  induction k generalizing n with
  | zero => exact length_print_pos n
  | succ k ih =>
    have hpow : 0 < 10 ^ k := Nat.pow_pos (by decide)
    have hdiv : k < (print (n / 10)).length := ih (by omega)
    rw [print_eq, if_neg (by omega), length_append]
    exact Nat.succ_lt_succ hdiv

end Decimal
