import AceShell.Edit.Store

/-!
# Moving and showing

The commands of EDIT that move through the file or show it, the command FROM, and the way command
lines are executed, after `edit.c`. A command is given with the arguments that were read for it; one
that could not be read is `refused`. A repeat group executes its commands as often as it says. An
error abandons the rest of the command line, groups included.
-/

namespace AceShell.LineEditor

open Text Loop

namespace Edit

/-! ## Showing -/

variable (e : Edit)

/-- Is it the current line? -/
def isCurrent (line : Line) : Bool := (e.current.map Line.serial) == some line.serial

def verifyLine (line : Line) (numbered : Bool) : Edit :=
  let e := e.put (.line line numbered (if e.isCurrent line then e.pointer else 0))
  if numbered then { e with shownAny := true, numberedSerial := line.serial }
  else { e with shownAny := true, shownPlain := true }

/-- `verify_hex` -/
def verifyHex : Edit :=
  match e.current with
  | some line => { e.put (.hex line) with shownAny := true, numberedSerial := line.serial }
  | none => e

/-- `type_numbered` -/
def typeNumbered (line : Line) : Edit :=
  { e.put (.typed line) with shownAny := true, numberedSerial := line.serial }

def currentSerial : ℕ := (e.current.map Line.serial).getD 0

/-- `verify_pending` -/
def verifyPending : Edit :=
  match e.current with
  | none => e
  | some line =>
    let asked := line.serial != e.entrySerial || e.modified || e.shownAny ||
      (e.aborted && !e.interactive)
    if !e.verify || !asked then e
    else if e.numberedSerial == line.serial && !e.shownPlain then e
    else e.verifyLine line true

/-- `interrupted` -/
def interrupted : Bool × Edit :=
  match e.breaks with
  | [] => (false, e)
  | signal :: rest => (signal, { e with breaks := rest })

/-! ## Moving -/

/-- One round of `move_to_end`. -/
def endStep : Bool × Edit := if e.atEnd then (false, e) else e.nextLine

/-- `move_to_end` -/
def moveToEnd : Edit := run endStep (e.toCome + 1) e

def highestStep : Bool × Edit := if e.ahead = [] then (false, e) else e.nextLine

/-- One round of M-. -/
def lowestStep : Bool × Edit :=
  if e.queue.count = 0 then (false, e) else e.previousLine

/-- The number of the current line. -/
def currentNumber : ℤ := (e.current.map Line.number).getD 0

/-- `move_to_number` decides on a direction first. A current line without a number says nothing; the
last numbered line of the queue does. -/
def isBackward (number : ℤ) : Bool :=
  if e.currentNumber > 0 then e.currentNumber > number
  else
    match e.queue.toList.reverse.find? (fun line => line.number > 0) with
    | some line => line.number ≥ number
    | none => false

/-- A round backwards; the first part of the state is what `move_to_number` returns. -/
def backwardStep (number : ℤ) (s : Bool × Edit) : Bool × Bool × Edit :=
  if s.2.currentNumber = number then (false, true, s.2)
  else if s.2.queue.count = 0 then (false, false, s.2.reportTooSmall number)
  else
    match s.2.previousLine with
    | (moved, e) => (moved, false, e)

/-- A round forwards. -/
def forwardStep (number : ℤ) (s : Bool × Edit) : Bool × Bool × Edit :=
  if s.2.currentNumber = number then (false, true, s.2)
  else if s.2.currentNumber > number then (false, false, s.2.reportTooSmall number)
  else
    match s.2.nextLine with
    | (moved, e) => (moved, false, e)

/-- `move_to_number` -/
def moveToNumber (number : ℤ) : Bool × Edit :=
  if e.current = none then (false, e.report "No current line")
  else if e.isBackward number then
    run (backwardStep number) (e.queue.count + 1) (false, e)
  else run (forwardStep number) (e.toCome + 1) (false, e)

/-- Where M goes. -/
inductive Target
  | last | highest | lowest
  | number (number : ℤ)
  deriving DecidableEq

/-- `command_move` -/
def commandMove : Target → Edit
  | .last => e.moveToEnd
  | .highest => run highestStep (e.toCome + 1) e
  | .lowest => run lowestStep (e.queue.count + 1) e
  | .number number => (e.moveToNumber number).2

def repeated (move : Edit → Bool × Edit) : ℕ → Edit → Edit
  | 0, e => e
  | count + 1, e =>
    match move e with
    | (true, e) => repeated move count e
    | (false, e) => e

/-! ## Searching -/

def found : Bool :=
  match e.current with
  | some line => (lineFind line.text 0 e.search e.searchQualifiers).isSome
  | none => false

/-- A round of BF. -/
def findBackStep : Bool × Edit := if e.found then (false, e) else e.previousLine

def findStep : Bool × Edit :=
  if e.found then (false, e)
  else
    match e.nextLine with
    | (false, e) => (false, e)
    | (true, e) => if e.atEnd then (false, e.report "Input exhausted") else (true, e)

/-- `command_find` -/
def commandFind (backward : Bool) (qualifiers : Qualifiers)
    (text : Option (List UInt8)) : Edit :=
  let search (e : Edit) :=
    if backward then run findBackStep (e.queue.count + 1) e
    else run findStep (e.toCome + 1) e
  match text with
  | some text => search { e with search := text, searchQualifiers := qualifiers }
  | none => if e.search = [] then e.report "No search string" else search e

/-! ## Typing -/

/-- A round of T and TL; the first part of the state is how many lines are still to be typed. -/
def typeStep (numbered : Bool) (s : Option ℕ × Edit) : Bool × Option ℕ × Edit :=
  match s.2.interrupted with
  | (true, e) => (false, s.1, e.report "***BREAK")
  | (false, e) =>
    if s.1 = some 0 then (false, s.1, e)
    else
      let limit := s.1.map (· - 1)
      match e.current with
      | none => (false, limit, e)
      | some line =>
        let e := if numbered then e.typeNumbered line else e.verifyLine line false
        if e.atEnd then (false, limit, e)
        else
          match e.nextLine with
          | (moved, e) => (moved, limit, e)

/-- `command_type` -/
def commandType (numbered : Bool) (limit : Option ℕ) : Edit :=
  (run (typeStep numbered) (e.toCome + 1) (limit, e)).2

/-- `command_type_queue` -/
def commandTypeQueue : Edit :=
  e.queue.toList.foldl (fun e line => e.verifyLine line false) e

def typeNewStep (threshold : ℕ) (e : Edit) : Bool × Edit :=
  match e.queue.at? 0 with
  | none => (false, e)
  | some oldest =>
    if e.queue.count = 0 ∨ threshold < oldest.serial then (false, e)
    else
      match e.interrupted with
      | (true, e) => (false, e.report "***BREAK")
      | (false, e) =>
        match e.current with
        | none => (false, e)
        | some line =>
          if line.phantom then (false, e) else (e.verifyLine line false).nextLine

/-- `command_type_new` -/
def commandTypeNew : Edit := run (typeNewStep e.nextSerial) (e.toCome + 1) e

/-! ## The pointer -/

def commandPointerString (after : Bool) (text : List UInt8) : Edit :=
  match e.current with
  | none => e.report "No current line"
  | some line =>
    match pointerFind line.text e.pointer text with
    | (accesses, none) => (e.touch accesses).report "No match"
    | (accesses, some index) =>
      { e.touch accesses with pointer := if after then index + text.length else index }

/-- The command `>`; the pointer runs on past the end of the line. -/
def pointerRight (count : ℤ) : Edit := { e with pointer := long (e.pointer + count) }

/-- The command `<` -/
def pointerLeft (count : ℤ) : Edit :=
  { e with pointer := max 0 (long (e.pointer - count)) }

/-! ## Files -/

abbrev Files := List UInt8 → Option (List UInt8)

/-- `NAME_SIZE` -/
def nameSize : ℕ := 256

/-- `same_name` -/
def sameName (left right : List UInt8) : Bool := left.map toUpper == right.map toUpper

def findSource (name : List UInt8) : Option ℕ :=
  (List.range e.sources.length).reverse.find? fun index =>
    sameName (e.sources.getD index default).name name

def openSource (files : Files) (e : Edit) (name : List UInt8) : Option ℕ × Edit :=
  match e.findSource name with
  | some index => (some index, e)
  | none =>
    match files name with
    | none => (none, e.reportName "Can't open" name)
    | some content =>
      (some e.sources.length,
        { e with sources := e.sources ++ [⟨name.take (nameSize - 1), content, content, 1, false⟩] })

def commandFrom (files : Files) (e : Edit) : Option (List UInt8) → Edit
  | none => { e with source := 0 }
  | some name =>
    match openSource files e (name.take (nameSize - 1)) with
    | (some index, e) => { e with source := index }
    | (none, e) => e

end Edit

/-! ## Command lines -/

open Edit

inductive Command
  | refused (message : String)
  | move (target : Target)
  | next (count : ℕ)
  | previous (count : ℕ)
  | find (backward : Bool) (qualifiers : Qualifiers) (text : Option (List UInt8))
  | type (numbered : Bool) (limit : Option ℕ)
  | typeQueue
  | typeNew
  | verify
  | verifyHex
  | right (count : ℤ)
  | left (count : ℤ)
  | pointerReset
  | pointerString (after : Bool) (text : List UInt8)
  | verification (value : Bool)
  | halt (ceiling : ℤ)
  | from_ (name : Option (List UInt8))
  | write
  | group (count : ℕ) (body : List Command)

/-- The loop of a repeat group. -/
def groupLoop (body : Edit → Edit) : ℕ → Edit → Edit
  | 0, e => e
  | count + 1, e =>
    if e.finished || e.aborted || e.astray then e else groupLoop body count (body e)

mutual

/-- `execute_one` -/
def Command.execute (files : Files) : Command → Edit → Edit
  | .refused message, e => e.report message
  | .move target, e => e.commandMove target
  | .next count, e => repeated nextLine count e
  | .previous count, e => repeated previousLine count e
  | .find backward qualifiers text, e => e.commandFind backward qualifiers text
  | .type numbered limit, e => e.commandType numbered limit
  | .typeQueue, e => e.commandTypeQueue
  | .typeNew, e => e.commandTypeNew
  | .verify, e =>
    match e.current with
    | some line => e.verifyLine line true
    | none => e
  | .verifyHex, e => e.verifyHex
  | .right count, e => e.pointerRight count
  | .left count, e => e.pointerLeft count
  | .pointerReset, e => { e with pointer := 0 }
  | .pointerString after text, e => e.commandPointerString after text
  | .verification value, e => { e with verify := value }
  | .halt ceiling, e => { e with ceiling }
  | .from_ name, e => commandFrom files e name
  | .write, e => { e with finished := true }
  | .group count body, e => groupLoop (executeCommands files body) count e

/-- `execute_commands` -/
def executeCommands (files : Files) : List Command → Edit → Edit
  | [], e => e
  | command :: rest, e =>
    if e.finished || e.aborted || e.astray then e
    else executeCommands files rest (command.execute files e)

end

variable (files : Files)

/-- `execute_line` -/
def executeLine (e : Edit) (commands : List Command) : Edit :=
  let e := { e with entrySerial := e.currentSerial, modified := false, aborted := false
                    shownAny := false, shownPlain := false }
  let e := executeCommands files commands e
  if e.finished || e.astray then e else e.verifyPending

/-! ## A session -/

structure Arguments where
  name : List UInt8
  width : ℤ := 120
  previous : ℤ := 40
  deriving DecidableEq

/-- `clamp` -/
def clamp (value low high : ℤ) : ℤ :=
  if value < low then low else if value > high then high else value

variable (args : Arguments)

/-- The width in force. -/
def Arguments.lineWidth : ℕ := (clamp args.width 120 65535).toNat

def Arguments.depthLimit : ℕ :=
  let previous := (clamp args.previous 1 65535).toNat
  if previous > 2 then previous - 2 else 1

theorem Arguments.depthLimit_pos : 0 < args.depthLimit := by
  unfold Arguments.depthLimit
  dsimp only
  split_ifs
  · omega
  · exact Nat.zero_lt_one

def Arguments.initial (interactive : Bool) (breaks : List Bool) : Edit :=
  { width := args.lineWidth, capacity := max args.lineWidth 1200
    queue := RingBuffer.empty args.depthLimit args.depthLimit_pos
    interactive, breaks }

def Arguments.start (args : Arguments) (interactive : Bool) (breaks : List Bool) :
    Option Edit :=
  match openSource files (args.initial interactive breaks) args.name with
  | (none, _) => none
  | (some index, e) => some { e with source := index }.nextLine.2

def executeLines (lines : List (List Command)) (e : Edit) : Edit :=
  lines.foldl (fun e line => if e.finished || e.astray then e else executeLine files e line) e

/-- A session that is saved: by W, or because the commands run out. The result is what is in the
output file. -/
def session (args : Arguments) (interactive : Bool) (breaks : List Bool)
    (lines : List (List Command)) : Option (List UInt8) :=
  (args.start files interactive breaks).map fun e => (executeLines files lines e).drainSource.sink

end AceShell.LineEditor
