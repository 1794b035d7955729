import AceShell.Edit.Pulling
import AceShell.Edit.Session

/-!
# Inserting a file

I and R put the lines of a file before the current line. `insert_file` ends a line that fills the
buffer before it has read its line feed, and then takes the line feed for an empty line, so that a
file is inserted line by line exactly if no line that ends with a line feed fills the buffer.
-/

namespace AceShell.LineEditor

open Edit Lines Text List

/-- What `insert_file` makes of a line of the file. -/
def insertedAs (capacity : ℕ) (line : TextLine) : List (List UInt8) :=
  if line.newline ∧ line.text.length = capacity then [line.text, []] else [line.text]

theorem fileLines_eq {capacity : ℕ} (hpos : 0 < capacity) {fuel : ℕ} {content : List UInt8}
    (hfuel : content.length ≤ fuel)
    (hfits : ∀ line ∈ linesOf content, line.text.length ≤ capacity) :
    fileLines capacity fuel content = (linesOf content).flatMap (insertedAs capacity) := by
  induction fuel generalizing content with
  | zero =>
    rw [length_eq_zero_iff.mp (Nat.le_zero.mp hfuel)]
    rfl
  | succ fuel ih =>
  by_cases hempty : content = []
  · rw [hempty]
    rfl
  have hpos' := length_pos_iff.mpr hempty
  have hsplit := @takeWhile_append_dropWhile _ (· != lf) content
  have hhead := head?_dropWhile_not (· != lf) content
  have hlines : linesOf content =
      ⟨content.takeWhile (· != lf), decide (content.dropWhile (· != lf) ≠ [])⟩ ::
        linesOf ((content.dropWhile (· != lf)).drop 1) := linesOf_eq_cons hempty
  rw [hlines, forall_mem_cons] at hfits
  unfold fileLines
  rw [if_neg hempty, hlines, flatMap_cons, insertedAs]
  generalize content.takeWhile (· != lf) = body at hsplit hfits ⊢
  generalize content.dropWhile (· != lf) = behind at hsplit hhead hfits ⊢
  subst hsplit
  rw [length_append] at hfuel hpos'
  obtain ⟨hbody, hrest⟩ : body.length ≤ capacity ∧ _ := hfits
  rcases Nat.lt_or_eq_of_le hbody with hshort | hfull
  · rw [if_pos hshort, ← drop_drop, drop_left, ih (by rw [length_drop]; omega) hrest,
      if_neg fun hfull => hshort.ne hfull.2]
    rfl
  rw [if_neg hfull.not_lt, ← hfull, take_length, drop_left, hfull]
  cases behind with
  | nil =>
    rw [@ih [] (Nat.zero_le fuel) hrest]
    rfl
  | cons byte rest =>
  obtain rfl : byte = lf := by simpa using hhead
  have hnext : linesOf (lf :: rest) = ⟨[], true⟩ :: linesOf rest :=
    linesOf_append_lineFeed not_mem_nil rest
  have hempty : insertedAs capacity ⟨[], true⟩ = [[]] := if_neg fun hno => hpos.ne hno.2
  rw [ih (by rw [length_cons] at hfuel ⊢; omega)
    (hnext ▸ forall_mem_cons.mpr ⟨Nat.zero_le _, hrest⟩), hnext, flatMap_cons, hempty,
    if_pos (by simp)]
  rfl

theorem length_inserted (capacity : ℕ) (lines : List TextLine) :
    (lines.flatMap (insertedAs capacity)).length =
      lines.length + lines.countP fun line => line.newline ∧ line.text.length = capacity := by
  induction lines with
  | nil => rfl
  | cons line lines ih =>
  rw [flatMap_cons, length_append, length_cons, countP_cons, insertedAs]
  simp only [decide_eq_true_iff]
  split_ifs
  · show 2 + _ = _
    omega
  · show 1 + _ = _
    omega

theorem nextSerial_foldl (lines : List (List UInt8)) (e : Edit) :
    (lines.foldl insertLine e).nextSerial = e.nextSerial + lines.length := by
  induction lines generalizing e with
  | nil => rfl
  | cons text lines ih =>
  obtain ⟨flushed, queue, -, hpush⟩ := queuePush_spec { e with nextSerial := e.nextSerial + 1 }
    { serial := e.nextSerial + 1, number := 0, text, newline := true, processed := true }
  rw [foldl_cons, ih, insertLine, hpush, length_cons]
  show e.nextSerial + 1 + lines.length = _
  omega

def textsOf (content : List UInt8) : List (List UInt8) := (linesOf content).map TextLine.text

section Files

variable {world : World} {name content : List UInt8} (hfile : world.files name = some content)
  (s : Session) (hpos : 0 < s.edit.capacity)
  (hfits : ∀ line ∈ linesOf content, line.text.length ≤ s.edit.capacity)

include hfile hpos hfits

theorem insertText_file : (s.insertText world (some name)).edit =
    ((linesOf content).flatMap (insertedAs s.edit.capacity)).foldl insertLine s.edit := by
  show insertFile _ _ _ = _
  unfold insertFile
  rw [hfile, ← fileLines_eq hpos (Nat.le_refl _) hfits]

/-- **A file is inserted line by line unless a line fills the buffer.** -/
theorem file_inserted_iff :
    (s.insertText world (some name)).edit = (textsOf content).foldl insertLine s.edit ↔
      ∀ line ∈ linesOf content, line.newline = true → line.text.length ≠ s.edit.capacity := by
  rw [insertText_file hfile s hpos hfits, textsOf]
  constructor
  · intro heq
    have hserial := congrArg nextSerial heq
    rw [nextSerial_foldl, nextSerial_foldl, length_inserted, length_map] at hserial
    have hnone : (linesOf content).countP (fun line =>
        line.newline ∧ line.text.length = s.edit.capacity) = 0 := by omega
    simpa using countP_eq_zero.mp hnone
  · intro hall
    have heach : ∀ line ∈ linesOf content, insertedAs s.edit.capacity line = [line.text] :=
      fun line hmem => if_neg fun hfull => hall line hmem hfull.1 hfull.2
    rw [flatMap_congr heach, map_eq_flatMap]

end Files

theorem catSession_capacity : ∃ s, catSession "" = some s ∧ s.edit.capacity = 1200 := by
  obtain ⟨s, hs⟩ := Option.isSome_iff_exists.mp (catSession_isSome "")
  have hcapacity : (catSession "").map (·.edit.capacity) = some 1200 := by decide
  rw [hs] at hcapacity
  exact ⟨s, hs, Option.some.inj hcapacity⟩

def twoLines : World := { files _ := some (ascii "cat\ndog"), writable _ := true }

theorem file_inserted_iff_twoLines : ∃ s, catSession "" = some s ∧
    (s.insertText twoLines (some [])).edit =
      [ascii "cat", ascii "dog"].foldl insertLine s.edit := by
  obtain ⟨s, hs, hcapacity⟩ := catSession_capacity
  have hshort : ∀ line ∈ linesOf (ascii "cat\ndog"), line.text.length < 1200 := by decide +kernel
  have htexts : textsOf (ascii "cat\ndog") = [ascii "cat", ascii "dog"] := by decide +kernel
  rw [← hcapacity] at hshort
  rw [← htexts]
  refine ⟨s, hs, (file_inserted_iff rfl s ?_ fun line hline => (hshort line hline).le).mpr
    fun line hline _ => (hshort line hline).ne⟩
  rw [hcapacity]
  decide

/-- A line of 1200 bytes: the buffer is full, and an empty line is inserted behind it. -/
def fullLine : List UInt8 := replicate 1200 120

def fullWorld : World := { files _ := some (fullLine ++ [lf]), writable _ := true }

theorem full_line_adds_empty : ∃ s, catSession "" = some s ∧
    (∀ line ∈ linesOf (fullLine ++ [lf]), line.text.length ≤ s.edit.capacity) ∧
    (s.insertText fullWorld (some [])).edit = [fullLine, []].foldl insertLine s.edit ∧
    (s.insertText fullWorld (some [])).edit ≠
      (textsOf (fullLine ++ [lf])).foldl insertLine s.edit := by
  obtain ⟨s, hs, hcapacity⟩ := catSession_capacity
  have hnone : lf ∉ fullLine := fun hmem => absurd (eq_of_mem_replicate hmem) (by decide)
  have hlength : fullLine.length = 1200 := length_replicate
  have hlines : linesOf (fullLine ++ [lf]) = [⟨fullLine, true⟩] := linesOf_append_lineFeed hnone []
  have hfits : ∀ line ∈ linesOf (fullLine ++ [lf]), line.text.length ≤ s.edit.capacity := by
    rw [hlines, hcapacity, forall_mem_singleton, hlength]
  have hinsert := @insertText_file fullWorld [] _ rfl s (by rw [hcapacity]; decide) hfits
  rw [hlines, flatMap_singleton, insertedAs, if_pos ⟨rfl, hlength.trans hcapacity.symm⟩] at hinsert
  refine ⟨s, hs, hfits, hinsert, fun heq => ?_⟩
  have hserial := congrArg nextSerial (hinsert.symm.trans heq)
  rw [nextSerial_foldl, nextSerial_foldl, textsOf, hlines] at hserial
  exact absurd (Nat.add_left_cancel hserial) (by decide)

end AceShell.LineEditor
