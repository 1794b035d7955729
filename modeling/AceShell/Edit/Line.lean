import AceShell.Lib.Loop
import AceShell.Lib.Text

/-!
# Lines of the line editor

What EDIT does with the text of one line, after `edit.c`: the search for a qualified string, changes
of the text, and the global changes that every line goes through once. A line remembers whether it
ended with a line feed in its file.
-/

namespace AceShell.LineEditor

open Text

/-- The line feed. -/
def lf : UInt8 := 10

/-- A `LONG` has 32 bits, and its arithmetic wraps around. -/
def long (value : ℤ) : ℤ := value.bmod (2 ^ 32)

/-- `is_blank` -/
def isBlank (character : UInt8) : Bool := character == 32 || character == 9

structure Line where
  serial : ℕ
  number : ℤ
  text : List UInt8 := []
  newline : Bool
  phantom : Bool := false
  processed : Bool := false
  deriving DecidableEq

/-- The qualifiers of a string; `precise` does nothing. -/
structure Qualifiers where
  atBegin : Bool := false
  atEnd : Bool := false
  last : Bool := false
  precise : Bool := false
  upper : Bool := false
  deriving DecidableEq

/-! ## Searching -/

/-- `text_at` -/
def textAt (line : List UInt8) (index : ℕ) (text : List UInt8) (qualifiers : Qualifiers) : Bool :=
  let there := (line.drop index).take text.length
  if qualifiers.upper then there.map toUpper == text.map toUpper else there == text

def lineFindIn (line : List UInt8) (start : ℕ) (text : List UInt8) (qualifiers : Qualifiers) :
    List ℕ → Option ℕ → Option ℕ
  | [], found => found
  | index :: rest, found =>
    if !textAt line index text qualifiers then lineFindIn line start text qualifiers rest found
    else if qualifiers.atBegin && index != start then found
    else if qualifiers.atEnd && index + text.length != line.length then
      lineFindIn line start text qualifiers rest found
    else if !qualifiers.last then some index
    else lineFindIn line start text qualifiers rest (some index)

/-- `line_find` -/
def lineFind (line : List UInt8) (start : ℕ) (text : List UInt8) (qualifiers : Qualifiers) :
    Option ℕ :=
  if text = [] then none
  else lineFindIn line start text qualifiers
    (List.range' start (line.length + 1 - text.length - start)) none

/-- A stretch of a line's text: the places from `first` to before `past`, in a line of this length.
-/
structure Access where
  first : ℤ
  past : ℤ
  length : ℕ
  deriving DecidableEq

/-- The stretch lies on the line. -/
def Access.onLine (access : Access) : Bool := 0 ≤ access.first ∧ access.past ≤ access.length

/-- The loop of `line_find` without qualifiers, with the stretches it reads. A stretch outside of
the line ends it, as nothing is known about what follows. -/
def pointerFindIn (line text : List UInt8) : ℕ → ℤ → List Access × Option ℕ
  | 0, _ => ([], none)
  | rounds + 1, index =>
    if long (index + text.length) > line.length then ([], none)
    else
      let access : Access := ⟨index, index + text.length, line.length⟩
      if !access.onLine then ([access], none)
      else if textAt line index.toNat text {} then ([access], some index.toNat)
      else
        let (accesses, found) := pointerFindIn line text rounds (index + 1)
        (access :: accesses, found)

def pointerFind (line : List UInt8) (pointer : ℤ) (text : List UInt8) :
    List Access × Option ℕ :=
  if text = [] ∨ pointer < 0 then ([], none)
  else pointerFindIn line text (line.length + 1) pointer

/-! ## Changing -/

def lineInsert (capacity : ℕ) (line : List UInt8) (index : ℕ) (text : List UInt8) :
    Option (List UInt8) :=
  if text = [] then some line
  else if line.length + text.length > capacity then none
  else some (line.take index ++ text ++ line.drop index)

/-- `line_delete` -/
def lineDelete (line : List UInt8) (index count : ℕ) : List UInt8 :=
  line.take index ++ line.drop (index + count)

inductive GlobalType
  | after | before | exchange
  deriving DecidableEq

/-- `struct Global` -/
structure Global where
  id : ℕ
  type : GlobalType
  enabled : Bool := true
  count : ℕ := 0
  qualifiers : Qualifiers := {}
  find : List UInt8
  replacement : List UInt8
  deriving DecidableEq

/-- One change of `apply_globals`: the text, and where the search resumes, if the text fits. An
exchange has deleted what it found by then. -/
def Global.change (capacity : ℕ) (global : Global) (line : List UInt8) (index : ℕ) :
    List UInt8 × Option ℕ :=
  match global.type with
  | .after =>
    match lineInsert capacity line (index + global.find.length) global.replacement with
    | none => (line, none)
    | some line => (line, some (index + global.find.length + global.replacement.length))
  | .before =>
    match lineInsert capacity line index global.replacement with
    | none => (line, none)
    | some line => (line, some (index + global.replacement.length + global.find.length))
  | .exchange =>
    let line := lineDelete line index global.find.length
    match lineInsert capacity line index global.replacement with
    | none => (line, none)
    | some line => (line, some (index + global.replacement.length))

/-- The state of the inner loop of `apply_globals`: the text, the global with its count, where the
search resumes, and whether every change fitted. -/
structure Applying where
  line : List UInt8
  global : Global
  start : ℕ := 0
  fits : Bool := true

def Applying.step (capacity : ℕ) (s : Applying) : Bool × Applying :=
  match lineFind s.line s.start s.global.find s.global.qualifiers with
  | none => (false, s)
  | some index =>
    match s.global.change capacity s.line index with
    | (line, none) => (false, { s with line, fits := false })
    | (line, some resume) =>
      (true, { s with
        line, global := { s.global with count := s.global.count + 1 }, start := resume })

/-- The inner loop of `apply_globals`. Each change leaves less of the line to search. -/
def Global.applyTo (capacity : ℕ) (global : Global) (line : List UInt8) : Applying :=
  Loop.run (Applying.step capacity) (line.length + 1) { line, global }

def applyGlobals (capacity : ℕ) : List Global → List UInt8 → List UInt8 × List Global × Bool
  | [], line => (line, [], true)
  | global :: rest, line =>
    if !global.enabled then
      let (line, rest, fits) := applyGlobals capacity rest line
      (line, global :: rest, fits)
    else
      let s := global.applyTo capacity line
      if !s.fits then (s.line, s.global :: rest, false)
      else
        let (line, rest, fits) := applyGlobals capacity rest s.line
        (line, s.global :: rest, fits)

/-! ## Writing -/

/-- The bytes `sink_write` writes of a line. A phantom that nothing was inserted into is not part of
the file. -/
def Line.bytes (line : Line) : List UInt8 :=
  if line.phantom && line.text == [] then []
  else line.text ++ if line.newline then [lf] else []

/-- The bytes of several lines. -/
def bytesOf (lines : List Line) : List UInt8 := lines.flatMap Line.bytes

@[simp] theorem bytesOf_nil : bytesOf [] = [] := rfl

@[simp] theorem bytesOf_cons (line : Line) (lines : List Line) :
    bytesOf (line :: lines) = line.bytes ++ bytesOf lines := rfl

@[simp] theorem bytesOf_append (lines more : List Line) :
    bytesOf (lines ++ more) = bytesOf lines ++ bytesOf more := List.flatMap_append

theorem Line.bytes_congr {line line' : Line} (htext : line'.text = line.text)
    (hnewline : line'.newline = line.newline) (hphantom : line'.phantom = line.phantom) :
    line'.bytes = line.bytes := by
  unfold Line.bytes
  rw [htext, hnewline, hphantom]

end AceShell.LineEditor
