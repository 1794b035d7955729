import AceShell.Edit.Reading

/-!
# Changing the file

The commands of EDIT that change lines, insert and delete them, hold global changes, and open and
close files, after `edit.c`. The commands that work at the pointer record what they read and change
of the current line's text. Where they would leave the line, nothing is known about what happens,
and the command ends there.
-/

namespace AceShell.LineEditor

open Text

/-! ## At the pointer -/

def Recase.apply : Recase → UInt8 → UInt8
  | .lower => toLower
  | .upper => toUpper
  | .blank => fun _ => 32

def recaseIn (how : Recase) : ℕ → List UInt8 → ℤ → List Access × List UInt8 × ℤ
  | 0, line, pointer => ([], line, pointer)
  | count + 1, line, pointer =>
    if pointer ≥ line.length then ([], line, pointer)
    else
      let access : Access := ⟨pointer, pointer + 1, line.length⟩
      if !access.onLine then ([access], line, pointer)
      else
        let (accesses, line, pointer) :=
          recaseIn how count (line.modify pointer.toNat how.apply) (pointer + 1)
        (access :: accesses, line, pointer)

def pointerDelete (line : List UInt8) (index count : ℤ) : List Access × List UInt8 :=
  if index ≥ line.length then ([], line)
  else
    let count := if count > long (line.length - index) then long (line.length - index) else count
    if count ≤ 0 then ([], line)
    else
      let access : Access := ⟨index, line.length, line.length⟩
      if !access.onLine then ([access], line)
      else ([access], lineDelete line index.toNat count.toNat)

namespace Edit

variable (e : Edit)

/-- `verify_current`: the line will be shown at the end of the command line. -/
def verifyCurrent : Edit := { e with modified := true }

def setText (line : Line) (text : List UInt8) : Edit :=
  { e with current := some { line with text } }

/-- The commands `$`, `%` and `_` -/
def recase (how : Recase) (count : ℤ) : Edit :=
  match e.current with
  | none => e.report "No current line"
  | some line =>
    let (accesses, text, pointer) := recaseIn how count.toNat line.text e.pointer
    { (e.touch accesses).setText line text with pointer }.verifyCurrent

/-- The command `#` -/
def erase (count : ℤ) : Edit :=
  match e.current with
  | none => e.report "No current line"
  | some line =>
    let (accesses, text) := pointerDelete line.text e.pointer count
    ((e.touch accesses).setText line text).verifyCurrent

/-- A change at a place where `first` was found: the text, whether it fitted, and where AP, BP and
EP put the pointer. An exchange that does not fit has deleted what it found. -/
def changeAt (capacity : ℕ) (type : GlobalType) (line : List UInt8) (index : ℕ)
    (first second : List UInt8) : List UInt8 × Bool × ℕ :=
  match type with
  | .after =>
    match lineInsert capacity line (index + first.length) second with
    | none => (line, false, 0)
    | some line => (line, true, index + first.length + second.length)
  | .before =>
    match lineInsert capacity line index second with
    | none => (line, false, 0)
    | some line => (line, true, index + second.length + first.length)
  | .exchange =>
    let line := lineDelete line index first.length
    match lineInsert capacity line index second with
    | none => (line, false, 0)
    | some line => (line, true, index + second.length)

def commandChange (type : GlobalType) (movePointer : Bool)
    (strings : Except String (List UInt8 × List UInt8)) : Edit :=
  match e.current with
  | none => e.report "No current line"
  | some line =>
    match strings with
    | .error message => e.report message
    | .ok (first, second) =>
      match pointerFind line.text e.pointer first with
      | (accesses, none) => (e.touch accesses).report "No match"
      | (accesses, some index) =>
        let e := e.touch (accesses ++ [⟨index, line.text.length, line.text.length⟩])
        match changeAt e.capacity type line.text index first second with
        | (text, false, _) => (e.setText line text).report "Line too long"
        | (text, true, pointer) =>
          let e := e.setText line text
          (if movePointer then { e with pointer } else e).verifyCurrent

/-- `command_delete_window` -/
def commandDeleteWindow (from_ after : Bool) (text : List UInt8) : Edit :=
  match e.current with
  | none => e.report "No current line"
  | some line =>
    match pointerFind line.text e.pointer text with
    | (accesses, none) => (e.touch accesses).report "No match"
    | (accesses, some index) =>
      let index : ℤ := if after then index + text.length else index
      let (more, text) :=
        if from_ then pointerDelete line.text index line.text.length
        else pointerDelete line.text e.pointer (index - e.pointer)
      ((e.touch (accesses ++ more)).setText line text).verifyCurrent

/-- The first part of a split line is shown as it goes, and what is left becomes current. -/
def sendHead (head tail : Line) : Edit :=
  let e := { e with current := some head }
  let e := if e.verify then e.verifyLine head true else e
  { e.queuePush head with current := some tail, pointer := 0 }.verifyCurrent

def commandSplit (after : Bool) (text : List UInt8) : Edit :=
  match e.current with
  | none => e.report "No current line"
  | some line =>
    match pointerFind line.text e.pointer text with
    | (accesses, none) => (e.touch accesses).report "No match"
    | (accesses, some index) =>
      let index := if after then index + text.length else index
      let tail : Line :=
        { serial := e.nextSerial + 1, number := 0, text := line.text.drop index
          newline := line.newline, processed := true }
      let head := { line with text := line.text.take index, newline := true }
      let e := e.touch (accesses ++ [⟨index, line.text.length, line.text.length⟩])
      { e with nextSerial := e.nextSerial + 1 }.sendHead head tail

/-- `command_join`. A join that does not fit gives the line back. -/
def commandJoin : Edit :=
  match e.current with
  | none => e.report "Input exhausted"
  | some line =>
    if line.phantom then e.report "Input exhausted"
    else
      match e.pullLine with
      | (none, e) => e.report "Input exhausted"
      | (some next, e) =>
        if next.phantom then
          { e with current := some { line with newline := false } }.verifyCurrent
        else
          let (next, e) := e.lineArrive next
          match lineInsert e.capacity line.text line.text.length next.text with
          | none => { e.report "Line too long" with ahead := next :: e.ahead }
          | some text =>
            { e with current := some { line with text, newline := next.newline }
                     pointer := 0 }.verifyCurrent

/-- The command `=` -/
def setNumber (number : ℤ) : Edit :=
  { e with current := e.current.map fun line => { line with number }
           renumber := long (number + 1) }

/-! ## Deleting lines -/

/-- `delete_current` -/
def deleteCurrent : Bool × Edit :=
  match e.current with
  | none => (false, e.report "Input exhausted")
  | some line =>
    if line.phantom then (false, e.report "Input exhausted")
    else
      match e.pullLine with
      | (none, e) => (false, e.report "Input exhausted")
      | (some next, e) => (true, e.arrive next)

/-- One round of `D*`. -/
def deleteRestStep : Bool × Edit := if e.atEnd then (false, e) else e.deleteCurrent

def deleteRangeStep (last : ℤ) (s : ℤ × Edit) : Bool × ℤ × Edit :=
  if s.1 > last then (false, s)
  else
    match s.2.deleteCurrent with
    | (true, e) => (true, long (s.1 + 1), e)
    | (false, e) => (false, s.1, e)

def deleteRange (first last : ℤ) : Edit :=
  (Loop.run (deleteRangeStep last) (e.toCome + 1) (first, e)).2

/-- `command_delete` -/
def commandDelete : Deletion → Edit
  | .rest => Loop.run deleteRestStep (e.toCome + 1) e
  | .current => e.deleteCurrent.2
  | .number first =>
    match e.moveToNumber first with
    | (false, e) => e
    | (true, e) => e.deleteCurrent.2
  | .range first last =>
    match e.moveToNumber first with
    | (false, e) => e
    | (true, e) => if last < first then e.reportTooSmall last else e.deleteRange first last

/-- One round of DF. -/
def deleteFoundStep : Bool × Edit :=
  if e.found then (false, e.verifyCurrent)
  else if e.atEnd then (false, e.report "No match")
  else e.deleteCurrent

/-- `command_delete_found` -/
def commandDeleteFound (qualifiers : Qualifiers) (text : Option (List UInt8)) : Edit :=
  let search (e : Edit) := Loop.run deleteFoundStep (e.toCome + 1) e
  match text with
  | some text => search { e with search := text, searchQualifiers := qualifiers }
  | none => if e.search = [] then e.report "No search string" else search e

/-! ## Inserting lines -/

def insertLine (text : List UInt8) : Edit :=
  { e with nextSerial := e.nextSerial + 1 }.queuePush
    { serial := e.nextSerial + 1, number := 0, text, newline := true, processed := true }

/-- The lines `insert_file` makes of a file: one that fills the buffer ends there, its line feed
still to be read. -/
def fileLines (capacity : ℕ) : ℕ → List UInt8 → List (List UInt8)
  | 0, _ => []
  | fuel + 1, content =>
    if content = [] then []
    else
      let body := content.takeWhile (· != lf)
      if body.length < capacity then
        body :: fileLines capacity fuel (content.drop (body.length + 1))
      else body.take capacity :: fileLines capacity fuel (content.drop capacity)

/-- `insert_file` -/
def insertFile (files : Files) (e : Edit) (name : List UInt8) : Edit :=
  match files name with
  | none => e.reportName "Can't open" name
  | some content => (fileLines e.capacity content.length content).foldl insertLine e

/-! ## Global changes -/

/-- `command_global`; the new change sees the current line at once. -/
def commandGlobal (type : GlobalType) (find replacement : List UInt8) : Edit :=
  let global : Global := { id := e.nextGlobal, type, find, replacement }
  let e := { e with nextGlobal := e.nextGlobal + 1 }
  match e.current with
  | none => { e with globals := e.globals ++ [global] }.put (.announced global.id)
  | some line =>
    let (text, changed, fits) := applyGlobals e.capacity [global] line.text
    let e := { e.setText line text with globals := e.globals ++ changed }
    let e := if fits then e else e.report "Line too long"
    let e := if changed.any (fun global => global.count > 0) then e.verifyCurrent else e
    e.put (.announced global.id)

def atGlobal (id : ℤ) (change : Global → List Global) : List Global → Option (List Global)
  | [] => none
  | global :: rest =>
    if (global.id : ℤ) = id then some (change global ++ rest)
    else (atGlobal id change rest).map (global :: ·)

/-- `command_global_state` -/
def commandGlobalState (cancel enable : Bool) (id : Option ℤ) : Edit :=
  let change (global : Global) : List Global :=
    if cancel then [] else [{ global with enabled := enable }]
  match id with
  | none => { e with globals := e.globals.flatMap change }
  | some id =>
    match atGlobal id change e.globals with
    | some globals => { e with globals }
    | none => if cancel then e.report "No such global" else e

/-! ## Files -/

def sinks : List Sink := e.sinksBefore ++ ⟨e.sinkName, e.sink⟩ :: e.sinksAfter

def selectSink (sinks : List Sink) (index : ℕ) : Edit :=
  match sinks.drop index with
  | [] => e
  | sink :: after =>
    { e with sinksBefore := sinks.take index, sinkName := sink.name, sink := sink.content
             sinksAfter := after }

def findSink (name : List UInt8) : Option ℕ :=
  (List.range e.sinks.length).reverse.find? fun index =>
    sameName ((e.sinks.map Sink.name).getD index []) name

/-- `command_to`. Without a name it goes back to the oldest file; `writable` are the files that can
be opened. -/
def commandTo (writable : List UInt8 → Bool) (e : Edit) : Option (List UInt8) → Edit
  | none => (e.selectSink e.sinks 0).queueFlush
  | some name =>
    match e.findSink name with
    | some index => (e.selectSink e.sinks index).queueFlush
    | none =>
      if writable name then
        (e.selectSink (e.sinks ++ [⟨name.take (nameSize - 1), []⟩]) e.sinks.length).queueFlush
      else e.reportName "Can't open" name

def closeSink (index : ℕ) : Edit :=
  let e := { e with mainSink := e.mainSink && index != 0 }
  if index < e.sinksBefore.length then { e with sinksBefore := e.sinksBefore.eraseIdx index }
  else { e with sinksAfter := e.sinksAfter.eraseIdx (index - e.sinksBefore.length - 1) }

def closeSource (index : ℕ) : Edit :=
  { e with mainSource := e.mainSource && index != 0
           sources := e.sources.eraseIdx index
           source := if index < e.source then e.source - 1 else e.source }

/-- `close_named_file` -/
def closeNamedFile (name : List UInt8) : Edit :=
  match e.findSink name with
  | some index =>
    if index = e.sinksBefore.length then e.report "Output file in use" else e.closeSink index
  | none =>
    match e.findSource name with
    | some index => if index = e.source then e.report "Input file in use" else e.closeSource index
    | none => e.reportName "No such open file:" name

def workFileName (task serial : ℕ) : List UInt8 :=
  ascii "T:E" ++ (if task < 10 then ascii "0" else []) ++ Decimal.print task ++ ascii "-WK" ++
    Decimal.print serial

/-- A new work file is the output. -/
def openWorkFile : Edit :=
  let serial := if e.tempSerial = 1 then 2 else 1
  { e with tempSerial := serial, sinkName := workFileName e.taskNumber serial, sink := []
           sinksBefore := [], sinksAfter := [], mainSink := true }

def onMainSink : Bool := e.mainSink && e.sinksBefore.length = 0

def onMainSource : Bool := e.mainSource && e.source = 0

/-- `rewind_file` -/
def rewindFile : Edit :=
  if !e.onMainSink then e.report "Rewind needs the main output file"
  else if !e.onMainSource then e.report "Rewind needs the main input file"
  else
    let e := e.drainSource
    let source : Source := ⟨e.sinkName, e.sink, e.sink, 1, false⟩
    let e := { e with sources := [source], source := 0, mainSource := true, renumber := 0 }
    let e := e.openWorkFile.nextLine.2
    { e with entrySerial := e.currentSerial }

end Edit

end AceShell.LineEditor
