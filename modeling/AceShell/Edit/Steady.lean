import AceShell.Edit.Kept

/-!
# The lines fit and the pointer is on them

No line in the editor is longer than its buffer, the pointer is a `LONG` that is not negative, and
what commands have read and changed of the current line's text was on that line (`Steady`). Every
operation of the editor keeps this, except that `>` may take the pointer past the largest `LONG`,
and that a search may look for a string whose end is past it.
-/

namespace AceShell.LineEditor

open Edit List

/-- The pointer is a `LONG`, and what was done at it was on the line. -/
structure InOrder (e : Edit) : Prop where
  narrow : e.width ≤ e.capacity
  bounded : e.capacity ≤ 65535
  nonneg : 0 ≤ e.pointer
  small : e.pointer < 2 ^ 31
  onLine : ∀ access ∈ e.accesses, access.onLine = true

/-- A line is not longer than its buffer. -/
def fitting : Rule where
  line e line := line.text.length ≤ e.capacity
  comes e line := line.text.length ≤ e.capacity
  rest := InOrder

/-- The pointer and what was done at it are in order, and no line is longer than its buffer. -/
abbrev Steady (e : Edit) : Prop := fitting.Kept e

variable {e e' : Edit} {line : Line}

theorem InOrder.point {pointer : ℤ} (h : InOrder e) (hnonneg : 0 ≤ pointer)
    (hsmall : pointer < 2 ^ 31) : InOrder { e with pointer } :=
  { h with nonneg := hnonneg, small := hsmall }

theorem InOrder.unmoved (hsame : Unmoved e e') (h : InOrder e) : InOrder e' where
  narrow := by rw [hsame.width, hsame.capacity]; exact h.narrow
  bounded := by rw [hsame.capacity]; exact h.bounded
  nonneg := by rcases hsame.pointer with heq | heq <;> rw [heq]; exact h.nonneg
  small := by
    rcases hsame.pointer with heq | heq <;> rw [heq]
    · exact h.small
    · decide
  onLine := by rw [hsame.accesses]; exact h.onLine

theorem Brings.length_le {s' : Source} (h : Brings e line s') : line.text.length ≤ e.width := by
  cases h with
  | next first _ hshape =>
    have htext : line.text = e.cutText first.text := congrArg (fun shape => shape.1.text) hshape
    have hcut : (first.text.take e.width).length ≤ e.width := length_take_le _ _
    rw [htext]
    unfold cutText
    split_ifs
    · exact hcut
    · exact ( rdropWhile_prefix _ _).length_le.trans hcut
  | phantom _ _ hshape =>
    have htext : line.text = [] := congrArg (fun shape => shape.1.text) hshape
    rw [htext]
    exact Nat.zero_le _

theorem lawful_fitting : fitting.Lawful where
  rest := InOrder.unmoved
  line hsame hline := hline.trans_eq hsame.capacity.symm
  comes hsame hline := hline.trans_eq hsame.capacity.symm
  known hline := hline
  taken ver h hbrings := ⟨{ h with }, hbrings.length_le.trans h.narrow, fun _ => id⟩
  arrived {e line} h hline := by
    obtain ⟨number, renumber, globals, ver, aborted, heq, -⟩ := lineArrive_eq e line
    rw [heq]
    refine ⟨{ h with nonneg := le_rfl, small := by show (0 : ℤ) < 2 ^ 31; decide }, ?_, fun _ => id⟩
    show (e.arrivedText line).length ≤ e.capacity
    unfold arrivedText
    split_ifs
    · exact hline
    · exact length_applyGlobals_le hline
  fresh _ _ htext := htext
  text _ hline htext := htext hline

section Steps

variable (h : Steady e)
include h

theorem Steady.point {pointer : ℤ} (hnonneg : 0 ≤ pointer) (hsmall : pointer < 2 ^ 31) :
    Steady { e with pointer } :=
  { h with rest := h.rest.point hnonneg hsmall }

theorem Steady.touch {accesses : List Access}
    (honLine : ∀ access ∈ accesses, access.onLine = true) : Steady (e.touch accesses) :=
  { h with rest := { h.rest with onLine := forall_mem_append.mpr ⟨h.rest.onLine, honLine⟩ } }

theorem Steady.report (text : String) : Steady (e.report text) := lawful_fitting.report h text

end Steps

end AceShell.LineEditor
