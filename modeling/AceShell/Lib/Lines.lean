import Mathlib

/-!
# The lines of a text file

A line is its text and whether a line feed ends it. The lines of a file are read off its bytes, and
the bytes are those of its lines. A row of lines is the lines of its bytes exactly if it is
`Unbroken`: only its last line may lack the line feed, and then it has some text.
-/

namespace Lines

open List

/-- The line feed. -/
def lineFeed : UInt8 := 10

@[ext]
structure TextLine where
  text : List UInt8
  newline : Bool
  deriving DecidableEq

/-- The bytes of a line. -/
def TextLine.bytes (line : TextLine) : List UInt8 :=
  line.text ++ if line.newline then [lineFeed] else []

def TextLine.visible (line : TextLine) : Bool := line.text != [] || line.newline

/-- The bytes of several lines. -/
def bytes (lines : List TextLine) : List UInt8 := lines.flatMap TextLine.bytes

@[simp] theorem bytes_nil : bytes [] = [] := rfl

@[simp] theorem bytes_cons (line : TextLine) (lines : List TextLine) :
    bytes (line :: lines) = line.bytes ++ bytes lines := rfl

@[simp] theorem bytes_append (lines more : List TextLine) :
    bytes (lines ++ more) = bytes lines ++ bytes more := flatMap_append

/-- The lines of a file. -/
def linesOf : List UInt8 → List TextLine
  | [] => []
  | byte :: rest =>
    if byte = lineFeed then ⟨[], true⟩ :: linesOf rest
    else
      match linesOf rest with
      | [] => [⟨[byte], false⟩]
      | line :: more => ⟨byte :: line.text, line.newline⟩ :: more

/-- Only the last line may lack its line feed, and it has some text then. -/
def Unbroken : List TextLine → Prop
  | [] => True
  | [line] => lineFeed ∉ line.text ∧ line.visible = true
  | line :: next :: rest => lineFeed ∉ line.text ∧ line.newline = true ∧ Unbroken (next :: rest)

theorem bytes_linesOf (content : List UInt8) : bytes (linesOf content) = content := by
  induction content with
  | nil => rfl
  | cons byte rest ih =>
  unfold linesOf
  split_ifs with hlf
  · rw [bytes_cons, ih, hlf]
    rfl
  cases hrest : linesOf rest with
  | nil =>
    rw [hrest] at ih
    rw [← ih]
    rfl
  | cons line more =>
    rw [hrest] at ih
    rw [← ih]
    rfl

theorem unbroken_linesOf (content : List UInt8) : Unbroken (linesOf content) := by
  induction content with
  | nil => trivial
  | cons byte rest ih =>
  unfold linesOf
  split_ifs with hlf
  · cases hrest : linesOf rest with
    | nil => exact ⟨not_mem_nil, rfl⟩
    | cons line more =>
      rw [hrest] at ih
      exact ⟨not_mem_nil, rfl, ih⟩
  have hne : ∀ {text : List UInt8}, lineFeed ∉ text → lineFeed ∉ byte :: text := by
    intro text htext hmem
    rcases mem_cons.mp hmem with rfl | hmem
    · exact hlf rfl
    · exact htext hmem
  cases hrest : linesOf rest with
  | nil => exact ⟨hne not_mem_nil, rfl⟩
  | cons line more =>
  rw [hrest] at ih
  cases more with
  | nil => exact ⟨hne ih.1, rfl⟩
  | cons next more => exact ⟨hne ih.1, ih.2⟩

variable {lines : List TextLine}

theorem Unbroken.lineFeed_notMem (h : Unbroken lines) : ∀ line ∈ lines, lineFeed ∉ line.text := by
  induction lines with
  | nil => exact nofun
  | cons line rest ih =>
    cases rest with
    | nil => exact forall_mem_singleton.mpr h.1
    | cons next rest => exact forall_mem_cons.mpr ⟨h.1, ih h.2.2⟩

variable {content : List UInt8} {line : TextLine}

theorem lineFeed_notMem_linesOf (h : line ∈ linesOf content) : lineFeed ∉ line.text :=
  (unbroken_linesOf content).lineFeed_notMem line h

variable {text : List UInt8}

theorem linesOf_append_lineFeed (h : lineFeed ∉ text) (rest : List UInt8) :
    linesOf (text ++ lineFeed :: rest) = ⟨text, true⟩ :: linesOf rest := by
  induction text with
  | nil =>
    show linesOf (lineFeed :: rest) = _
    rw [linesOf, if_pos rfl]
  | cons byte text ih =>
    have hbyte : byte ≠ lineFeed := fun heq => h (heq ▸ mem_cons_self)
    rw [cons_append, linesOf, if_neg hbyte, ih fun hmem => h (mem_cons_of_mem byte hmem)]

theorem linesOf_of_notMem (h : lineFeed ∉ text) (hne : text ≠ []) :
    linesOf text = [⟨text, false⟩] := by
  induction text with
  | nil => exact absurd rfl hne
  | cons byte text ih =>
  have hbyte : byte ≠ lineFeed := fun heq => h (heq ▸ mem_cons_self)
  rw [linesOf, if_neg hbyte]
  by_cases htext : text = []
  · rw [htext]
    rfl
  · rw [ih (fun hmem => h (mem_cons_of_mem byte hmem)) htext]

theorem linesOf_bytes (h : Unbroken lines) : linesOf (bytes lines) = lines := by
  induction lines with
  | nil => rfl
  | cons line rest ih =>
  obtain ⟨text, newline⟩ := line
  have hterminated : lineFeed ∉ text → newline = true → Unbroken rest →
      linesOf (bytes (⟨text, newline⟩ :: rest)) = ⟨text, newline⟩ :: rest := by
    rintro htext rfl hrest
    have hbytes : bytes (⟨text, true⟩ :: rest) = text ++ lineFeed :: bytes rest := by
      show text ++ [lineFeed] ++ bytes rest = _
      rw [append_assoc]
      rfl
    rw [hbytes, linesOf_append_lineFeed htext, ih hrest]
  cases rest with
  | cons next rest => exact hterminated h.1 h.2.1 h.2.2
  | nil =>
  cases newline with
  | true => exact hterminated h.1 rfl trivial
  | false =>
  have hne : text ≠ [] := by
    have hvisible := h.2
    unfold TextLine.visible at hvisible
    simpa using hvisible
  have hbytes : bytes [⟨text, false⟩] = text := by
    rw [bytes_cons, bytes_nil, append_nil]
    exact append_nil text
  rw [hbytes, linesOf_of_notMem h.1 hne]

theorem linesOf_eq_cons (h : content ≠ []) :
    linesOf content =
      ⟨content.takeWhile (· != lineFeed), decide (content.dropWhile (· != lineFeed) ≠ [])⟩ ::
        linesOf ((content.dropWhile (· != lineFeed)).drop 1) := by
  have hsplit := takeWhile_append_dropWhile (p := (· != lineFeed)) (l := content)
  have htext : lineFeed ∉ content.takeWhile (· != lineFeed) := by
    intro hmem
    have := mem_takeWhile_imp hmem
    simp at this
  cases hrest : content.dropWhile (· != lineFeed) with
  | nil =>
    rw [hrest, append_nil] at hsplit
    rw [hsplit] at htext ⊢
    rw [linesOf_of_notMem htext h]
    rfl
  | cons byte rest =>
  have hbyte : byte = lineFeed := by
    have hhead := head?_dropWhile_not (· != lineFeed) content
    rw [hrest] at hhead
    simpa using hhead
  rw [hrest, hbyte] at hsplit
  conv_lhs => rw [← hsplit, linesOf_append_lineFeed htext]
  rfl

theorem length_lt_of_linesOf {rest : List UInt8} (h : linesOf content = line :: linesOf rest)
    : rest.length < content.length := by
  have hbytes : content = line.bytes ++ rest := by
    rw [← bytes_linesOf content, h, bytes_cons, bytes_linesOf]
  have hne : line.bytes ≠ [] := by
    intro hnil
    rw [hnil, nil_append] at hbytes
    have hlength := congrArg length h
    rw [hbytes, length_cons] at hlength
    omega
  rw [hbytes, length_append]
  have := length_pos_iff.mpr hne
  omega

/-! ## Lines without anything to see -/

theorem TextLine.bytes_of_not_visible (h : line.visible = false) : line.bytes = [] := by
  obtain ⟨text, newline⟩ := line
  unfold TextLine.visible at h
  simp only [Bool.or_eq_false_iff, bne_eq_false_iff_eq] at h
  obtain ⟨rfl, rfl⟩ := h
  rfl

theorem TextLine.visible_of_bytes (h : line.bytes = []) : line.visible = false := by
  obtain ⟨text, _ | _⟩ := line
  · have htext : text = [] := by simpa [TextLine.bytes] using h
    rw [htext]
    rfl
  · simp [TextLine.bytes] at h

theorem bytes_filter_visible (lines : List TextLine) :
    bytes (lines.filter TextLine.visible) = bytes lines := by
  induction lines with
  | nil => rfl
  | cons line lines ih =>
  cases hvis : line.visible with
  | true => rw [filter_cons_of_pos hvis, bytes_cons, bytes_cons, ih]
  | false =>
    rw [filter_cons_of_neg (by simp [hvis]), bytes_cons, ih,
      TextLine.bytes_of_not_visible hvis, nil_append]

theorem bytes_eq_nil_iff : bytes lines = [] ↔ ∀ line ∈ lines, line.visible = false := by
  unfold bytes
  rw [flatMap_eq_nil_iff]
  exact forall₂_congr fun line _ => ⟨TextLine.visible_of_bytes, TextLine.bytes_of_not_visible⟩

theorem unbroken_iff (h : ∀ line ∈ lines, lineFeed ∉ line.text ∧ line.visible = true) :
    Unbroken lines ↔ ∀ line ∈ lines.dropLast, line.newline = true := by
  induction lines with
  | nil => exact ⟨nofun, fun _ => trivial⟩
  | cons line rest ih =>
  have hline := h line mem_cons_self
  cases rest with
  | nil => exact ⟨nofun, fun _ => hline⟩
  | cons next rest =>
    have hrest := ih fun line hmem => h line (mem_cons_of_mem _ hmem)
    rw [dropLast_cons_cons, forall_mem_cons, ← hrest]
    exact ⟨fun hbroken => hbroken.2, fun hboth => ⟨hline.1, hboth⟩⟩

theorem Unbroken.newline_dropLast (h : Unbroken lines) :
    ∀ line ∈ lines.dropLast, line.newline = true := by
  induction lines with
  | nil => exact nofun
  | cons line rest ih =>
  cases rest with
  | nil => exact nofun
  | cons next rest =>
    rw [dropLast_cons_cons, forall_mem_cons]
    exact ⟨h.2.1, ih h.2.2⟩

theorem newline_dropLast_visible (h : ∀ line ∈ lines.dropLast, line.newline = true) :
    ∀ line ∈ (lines.filter TextLine.visible).dropLast, line.newline = true := by
  intro line hmem
  apply h
  rcases eq_nil_or_concat lines with rfl | ⟨front, last, rfl⟩
  · exact nomatch hmem
  rw [concat_eq_append] at hmem ⊢
  rw [filter_append] at hmem
  rw [dropLast_concat]
  by_cases hlast : last.visible = true
  · rw [filter_cons_of_pos hlast, filter_nil, dropLast_concat] at hmem
    exact mem_of_mem_filter hmem
  · rw [filter_cons_of_neg hlast, filter_nil, append_nil] at hmem
    exact mem_of_mem_filter (dropLast_subset _ hmem)

/-! ## The end of a file -/

theorem getLast?_bytes_append (line : TextLine) (h : bytes lines ≠ []) :
    (bytes (line :: lines)).getLast? = (bytes lines).getLast? := by
  rw [bytes_cons, getLast?_append]
  cases hlast : (bytes lines).getLast? with
  | none => exact absurd (getLast?_eq_none_iff.mp hlast) h
  | some byte => rfl

theorem getLast?_bytes (h : Unbroken lines) :
    (bytes lines).getLast? = some lineFeed ↔ lines.getLast?.map TextLine.newline = some true := by
  induction lines with
  | nil => exact ⟨nofun, nofun⟩
  | cons line rest ih =>
  cases rest with
  | cons next rest =>
    have hne : bytes (next :: rest) ≠ [] := by
      intro hnil
      have := linesOf_bytes h.2.2
      rw [hnil] at this
      exact nomatch this
    rw [getLast?_bytes_append line hne, ih h.2.2, getLast?_cons_cons]
  | nil =>
  obtain ⟨text, _ | _⟩ := line
  · have hbytes : bytes [⟨text, false⟩] = text := by
      rw [bytes_cons, bytes_nil, append_nil]
      exact append_nil text
    rw [hbytes]
    exact ⟨fun hlast => absurd (mem_of_getLast? hlast) h.1, nofun⟩
  · have hbytes : bytes [⟨text, true⟩] = text ++ [lineFeed] := by
      rw [bytes_cons, bytes_nil, append_nil]
      rfl
    rw [hbytes, getLast?_concat]
    exact ⟨fun _ => rfl, fun _ => rfl⟩

theorem getLast?_eq_lineFeed (content : List UInt8) :
    content.getLast? = some lineFeed ↔
      (linesOf content).getLast?.map TextLine.newline = some true := by
  rw [← getLast?_bytes (unbroken_linesOf content), bytes_linesOf]

end Lines
