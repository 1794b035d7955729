import AceShell.Terminal.Keyboard

/-!
# The bounds of the console

The Linux command asks the console for its size, after `lnx.c`. The answer comes on the stream of
the keys, so it has to be found among them and taken out. An answer that comes whole, behind keys
that do not look like one, is found (`findBoundsReply_reply`).
-/

namespace AceShell.Linux

open Text Terminal List Decimal Option

/-- `struct winsize` -/
structure Winsize where
  rows : ℕ
  cols : ℕ
  deriving DecidableEq

/-- `USHRT_MAX` -/
def ushrtMax : ℕ := 65535

/-- `ULONG_MAX` -/
def ulongMax : ℕ := 2 ^ 64 - 1

def fallbackSize : Winsize := ⟨24, 80⟩

/-! ## Finding the answer -/

/-- The bytes behind a given text. -/
def expect : List UInt8 → List UInt8 → Option (List UInt8)
  | [], bytes => some bytes
  | _ :: _, [] => none
  | byte :: text, first :: bytes => if first = byte then expect text bytes else none

/-- The loop of `parse_decimal` -/
def decimalFrom (result : ℕ) : List UInt8 → Option (ℕ × List UInt8)
  | [] => some (result, [])
  | byte :: rest =>
    if isDigit byte then
      if result > (ulongMax - digitValue byte) / 10 then none
      else decimalFrom (result * 10 + digitValue byte) rest
    else some (result, byte :: rest)

/-- `parse_decimal` -/
def parseDecimal (bytes : List UInt8) : Option (ℕ × List UInt8) :=
  if bytes.head?.any isDigit then decimalFrom 0 bytes else none

def introduced (bytes : List UInt8) : Option (List UInt8) :=
  match expect [amigaCsi] bytes with
  | some rest => some rest
  | none => expect [esc, ch '['] bytes

def skipBlank (bytes : List UInt8) : List UInt8 := (expect (ascii " ") bytes).getD bytes

/-- The body of the loop of `find_bounds_reply`: an answer at the start of the bytes, and what is
behind it. -/
def boundsReply (bytes : List UInt8) : Option (Winsize × List UInt8) := do
  let rest ← introduced bytes
  let rest ← expect (ascii "1;1;") rest
  let (rows, rest) ← parseDecimal rest
  let rest ← expect (ascii ";") rest
  let (cols, rest) ← parseDecimal rest
  let rest ← expect (ascii "r") (skipBlank rest)
  if rows = 0 || cols = 0 || rows > ushrtMax || cols > ushrtMax then none
  else some (⟨rows, cols⟩, rest)

def findBoundsReply : List UInt8 → Option (List UInt8 × Winsize × List UInt8)
  | [] => none
  | byte :: bytes =>
    match boundsReply (byte :: bytes) with
    | some (size, rest) => some ([], size, rest)
    | none => (findBoundsReply bytes).map fun found => (byte :: found.1, found.2)

/-- The answer of the console. -/
def replyText (size : Winsize) : List UInt8 :=
  amigaCsi :: ascii "1;1;" ++ print size.rows ++ ascii ";" ++ print size.cols ++
    ascii " r"

structure Winsize.Valid (size : Winsize) : Prop where
  rows_pos : 0 < size.rows
  cols_pos : 0 < size.cols
  rows_le : size.rows ≤ ushrtMax
  cols_le : size.cols ≤ ushrtMax

/-! ## What is found -/

variable {bytes rest : List UInt8} {size : Winsize}

section Found

variable {more : List UInt8}

theorem expect_append (text rest : List UInt8) : expect text (text ++ rest) = some rest := by
  induction text with
  | nil => rfl
  | cons byte text ih => exact (if_pos rfl).trans ih

theorem expect_before {text : List UInt8} (htext : amigaCsi ∉ text) (bytes : List UInt8) :
    expect text (bytes ++ amigaCsi :: more) = (expect text bytes).map (· ++ amigaCsi :: more) := by
  induction text generalizing bytes with
  | nil => rfl
  | cons byte text ih =>
  have hne : amigaCsi ≠ byte := fun heq => htext (heq ▸ mem_cons_self)
  cases bytes with
  | nil => exact if_neg hne
  | cons first bytes =>
  rw [cons_append]
  unfold expect
  split_ifs
  · exact ih (fun hmem => htext (mem_cons_of_mem _ hmem)) bytes
  · rfl

theorem decimalFrom_before (result : ℕ) (bytes : List UInt8) :
    decimalFrom result (bytes ++ amigaCsi :: more) =
      (decimalFrom result bytes).map fun found => (found.1, found.2 ++ amigaCsi :: more) := by
  induction bytes generalizing result with
  | nil => rfl
  | cons byte bytes ih =>
  rw [cons_append]
  unfold decimalFrom
  split_ifs
  · rfl
  · exact ih _
  · rfl

theorem parseDecimal_before (bytes : List UInt8) :
    parseDecimal (bytes ++ amigaCsi :: more) =
      (parseDecimal bytes).map fun found => (found.1, found.2 ++ amigaCsi :: more) := by
  cases bytes with
  | nil => rfl
  | cons byte bytes =>
  unfold parseDecimal
  rw [cons_append, head?_cons, head?_cons, ← cons_append]
  split_ifs
  · exact decimalFrom_before 0 _
  · rfl

theorem skipBlank_before (bytes : List UInt8) :
    skipBlank (bytes ++ amigaCsi :: more) = skipBlank bytes ++ amigaCsi :: more := by
  unfold skipBlank
  rw [expect_before (by decide)]
  cases expect (ascii " ") bytes with
  | none => rfl
  | some rest => rfl

theorem introduced_before (hbytes : bytes ≠ []) :
    introduced (bytes ++ amigaCsi :: more) = (introduced bytes).map (· ++ amigaCsi :: more) := by
  obtain ⟨byte, bytes, rfl⟩ := exists_cons_of_ne_nil hbytes
  unfold introduced
  rw [expect_before (by decide : amigaCsi ∉ [esc, ch '['])]
  by_cases hcsi : byte = amigaCsi
  · rw [cons_append]
    unfold expect
    rw [if_pos hcsi, if_pos hcsi]
    rfl
  · rw [cons_append]
    have hnone : ∀ rest, expect [amigaCsi] (byte :: rest) = none := fun rest => if_neg hcsi
    rw [hnone, hnone]

theorem boundsReply_before (hbytes : bytes ≠ []) :
    boundsReply (bytes ++ amigaCsi :: more) =
      (boundsReply bytes).map fun found => (found.1, found.2 ++ amigaCsi :: more) := by
  have hcolons : amigaCsi ∉ ascii "1;1;" ∧ amigaCsi ∉ ascii ";" ∧ amigaCsi ∉ ascii "r" := by decide
  unfold boundsReply
  -- each step reads the same and leaves what was added behind the rest
  simp only [bind_eq_bind, map_bind, introduced_before hbytes, parseDecimal_before,
    skipBlank_before, expect_before hcolons.1, expect_before hcolons.2.1,
    expect_before hcolons.2.2, bind_map, Function.comp_def, apply_ite (Option.map _), map_none,
    map_some]

def continued (result : ℕ) (digits : List UInt8) : ℕ :=
  digits.foldl (fun n byte => n * 10 + digitValue byte) result

theorem le_continued (result : ℕ) (digits : List UInt8) : result ≤ continued result digits := by
  induction digits generalizing result with
  | nil => exact Nat.le_refl result
  | cons byte digits ih =>
    have hstep : result ≤ result * 10 + digitValue byte := by omega
    exact hstep.trans (ih _)

theorem decimalFrom_digits {digits : List UInt8}
    (hdigits : ∀ byte ∈ digits, isDigit byte = true)
    (hrest : rest.head?.any isDigit = false) (result : ℕ)
    (hsmall : continued result digits ≤ ushrtMax) :
    decimalFrom result (digits ++ rest) = some (continued result digits, rest) := by
  induction digits generalizing result with
  | nil =>
    cases rest with
    | nil => rfl
    | cons byte rest =>
    have hbyte : isDigit byte = false := hrest
    show decimalFrom result (byte :: rest) = some (result, byte :: rest)
    unfold decimalFrom
    rw [hbyte, if_neg Bool.false_ne_true]
  | cons byte digits ih =>
  have hstep : result * 10 + digitValue byte ≤ ushrtMax :=
    (le_continued _ digits).trans hsmall
  have hfits : ¬ result > (ulongMax - digitValue byte) / 10 := by
    have hlarge : ushrtMax ≤ ulongMax := by decide
    omega
  rw [cons_append]
  unfold decimalFrom
  rw [if_pos (hdigits byte mem_cons_self), if_neg hfits]
  exact ih (fun b hb => hdigits b (mem_cons_of_mem _ hb)) _ hsmall

theorem parseDecimal_print {n : ℕ} (hn : n ≤ ushrtMax)
    (hrest : rest.head?.any isDigit = false) :
    parseDecimal (print n ++ rest) = some (n, rest) := by
  have hval : continued 0 (print n) = n := value_print n
  have hdigits : ∀ byte ∈ print n, isDigit byte = true :=
    fun byte hbyte => isDigit_of_mem_print hbyte
  have hread := decimalFrom_digits hdigits hrest 0 (hval.symm ▸ hn)
  rw [hval] at hread
  unfold parseDecimal
  rw [hread, if_pos]
  obtain ⟨first, digits, heq⟩ := exists_cons_of_length_pos (length_print_pos n)
  rw [heq] at hdigits ⊢
  exact hdigits first mem_cons_self

theorem boundsReply_replyText (h : size.Valid) (rest : List UInt8) :
    boundsReply (replyText size ++ rest) = some (size, rest) := by
  have htext : replyText size ++ rest = amigaCsi :: (ascii "1;1;" ++ (print size.rows ++
      (ascii ";" ++ (print size.cols ++ (ascii " r" ++ rest))))) := by
    unfold replyText
    simp only [append_assoc, cons_append]
  have hstart : ∀ bytes, introduced (amigaCsi :: bytes) = some bytes := fun bytes => rfl
  have hblank : skipBlank (ascii " r" ++ rest) = ascii "r" ++ rest := rfl
  have hvalid : (size.rows = 0 || size.cols = 0 || size.rows > ushrtMax ||
      size.cols > ushrtMax) = false := by
    simp only [Bool.or_eq_false_iff, decide_eq_false_iff_not]
    exact ⟨⟨⟨h.rows_pos.ne', h.cols_pos.ne'⟩, not_lt.mpr h.rows_le⟩, not_lt.mpr h.cols_le⟩
  unfold boundsReply
  rw [htext, hstart]
  simp only [bind_eq_bind, bind_some, expect_append]
  rw [parseDecimal_print h.rows_le rfl]
  simp only [bind_some, expect_append]
  rw [parseDecimal_print h.cols_le rfl]
  simp only [bind_some, hblank, expect_append]
  rw [hvalid, if_neg Bool.false_ne_true]

/-- **An answer is found.** Before it there are keys that do not look like an answer. -/
theorem findBoundsReply_reply (h : size.Valid) {before : List UInt8}
    (hbefore : findBoundsReply before = none) (rest : List UInt8) :
    findBoundsReply (before ++ (replyText size ++ rest)) = some (before, size, rest) := by
  induction before with
  | nil =>
    have hreply := boundsReply_replyText h rest
    obtain ⟨bytes, heq⟩ : ∃ bytes, replyText size ++ rest = amigaCsi :: bytes := ⟨_, rfl⟩
    rw [nil_append, heq]
    rw [heq] at hreply
    unfold findBoundsReply
    rw [hreply]
  | cons byte before ih =>
  obtain ⟨more, heq⟩ : ∃ more, replyText size ++ rest = amigaCsi :: more := ⟨_, rfl⟩
  rw [heq] at ih ⊢
  have hfst : boundsReply (byte :: before ++ amigaCsi :: more) = _ :=
    boundsReply_before (cons_ne_nil byte before)
  unfold findBoundsReply at hbefore
  rw [cons_append]
  unfold findBoundsReply
  rw [cons_append] at hfst
  rw [hfst]
  cases hreply : boundsReply (byte :: before) with
  | some found =>
    rw [hreply] at hbefore
    exact nomatch hbefore
  | none =>
  rw [hreply] at hbefore
  have hnone : findBoundsReply before = none := map_eq_none_iff.mp hbefore
  rw [ih hnone]
  rfl

end Found

end AceShell.Linux
