import AceShell.Edit.Line
import AceShell.Lib.Loop
import AceShell.Lib.RingBuffer

/-!
# The store of the line editor

The file passes through EDIT line by line, after `edit.c`. Lines that were left forwards are in the
queue, whose oldest one is written when it is full; lines that were left backwards are on the
`ahead` stack. Each file that FROM opened has its own end, where it gives one phantom line. `taken`
and `accesses` record what was read.
-/

namespace AceShell.LineEditor

open Text

structure Source where
  name : List UInt8 := []
  content : List UInt8 := []
  rest : List UInt8 := []
  nextNumber : ℤ := 1
  ended : Bool := false
  deriving DecidableEq, Inhabited

structure Sink where
  name : List UInt8
  content : List UInt8 := []
  deriving DecidableEq

inductive Verification
  | message (text : String)
  | name (text : String) (name : List UInt8)
  | tooSmall (number : ℤ)
  | truncated (number : ℤ)
  | line (line : Line) (numbered : Bool) (mark : ℤ)
  | typed (line : Line)
  | hex (line : Line)
  | announced (id : ℕ)
  | globals (globals : List Global)
  | state (saved search : List UInt8)
  deriving DecidableEq

/-- `struct Edit`. `source` is the place of the source that is read, in the order of opening; `sink`
is what is in the output file, the other files open for writing are before and after it. `breaks`
answers the looks for a break signal. -/
structure Edit where
  width : ℕ
  capacity : ℕ
  queue : RingBuffer Line
  ahead : List Line := []
  current : Option Line := none
  nextSerial : ℕ := 0
  pointer : ℤ := 0
  /-- The number for the next line to arrive, once `=` was used. -/
  renumber : ℤ := 0
  /-- The halt line. -/
  ceiling : ℤ := 0
  verify : Bool := true
  entrySerial : ℕ := 0
  numberedSerial : ℕ := 0
  shownAny : Bool := false
  shownPlain : Bool := false
  modified : Bool := false
  /-- An error was reported: the rest of the command line is not executed. -/
  aborted : Bool := false
  /-- Trailing blanks are kept. -/
  trailing : Bool := false
  search : List UInt8 := []
  searchQualifiers : Qualifiers := {}
  globals : List Global := []
  nextGlobal : ℕ := 1
  sources : List Source := []
  source : ℕ := 0
  /-- The file EDIT was started on is still open. -/
  mainSource : Bool := true
  sink : List UInt8 := []
  sinkName : List UInt8 := []
  sinksBefore : List Sink := []
  sinksAfter : List Sink := []
  /-- The main output file is still open. -/
  mainSink : Bool := true
  /-- The number of the process, and of the work file it has opened last. -/
  taskNumber : ℕ := 0
  tempSerial : ℕ := 0
  finished : Bool := false
  interactive : Bool := false
  ver : List Verification := []
  breaks : List Bool := []
  taken : List (ℕ × Line) := []
  accesses : List Access := []

namespace Edit

variable (e : Edit)

def put (v : Verification) : Edit := { e with ver := e.ver ++ [v] }

/-- `report` -/
def report (text : String) : Edit := { e.put (.message text) with aborted := true }

def reportName (text : String) (name : List UInt8) : Edit := e.put (.name text name)

/-- `report_too_small` -/
def reportTooSmall (number : ℤ) : Edit :=
  { e.put (.tooSmall number) with aborted := true }

def touch (accesses : List Access) : Edit :=
  { e with accesses := e.accesses ++ accesses }

/-- An access was outside the text of its line. Nothing is known of what the program does then, and
the session is not followed any further. -/
def astray : Bool := e.accesses.any fun access => !access.onLine

/-! ## The queue of previous lines -/

variable (line : Line)

/-- `sink_write` -/
def sinkWrite : Edit := { e with sink := e.sink ++ line.bytes }

def enqueue : Edit :=
  if h : e.queue.count < e.queue.limit then { e with queue := e.queue.pushBack line h } else e

/-- `queue_push` -/
def queuePush : Edit :=
  if e.queue.count = e.queue.limit then
    match e.queue.popFront with
    | some (oldest, queue) => ({ e with queue }.sinkWrite oldest).enqueue line
    | none => e.enqueue line
  else e.enqueue line

/-- `queue_pop` -/
def queuePop : Option Line × Edit :=
  match e.queue.popBack with
  | some (line, queue) => (some line, { e with queue })
  | none => (none, e)

/-- One round of `queue_flush`. -/
def flushStep : Bool × Edit :=
  match e.queue.popFront with
  | some (line, queue) => (true, { e with queue }.sinkWrite line)
  | none => (false, e)

/-- `queue_flush` -/
def queueFlush : Edit := Loop.run flushStep (e.queue.count + 1) e

/-! ## Reading -/

/-- The source that is read. -/
def currentSource : Source := e.sources.getD e.source default

def stripBlanks (text : List UInt8) : List UInt8 := text.rdropWhile isBlank

def take (source : Source) : Edit :=
  { e with nextSerial := e.nextSerial + 1
           sources := e.sources.set e.source source
           taken := e.taken ++ [(e.source, line)] }

/-- `source_line`. Behind the end of the file comes the phantom, once.
Lines are cut at the width. -/
def sourceLine : Option Line × Edit :=
  let source := e.currentSource
  if source.rest = [] then
    if source.ended then (none, e)
    else
      let line : Line :=
        { serial := e.nextSerial + 1, number := source.nextNumber
          newline := false, phantom := true }
      (some line, e.take line { source with nextNumber := source.nextNumber + 1, ended := true })
  else
    let body := source.rest.takeWhile (· != lf)
    let behind := source.rest.dropWhile (· != lf)
    let text := body.take e.width
    let line : Line :=
      { serial := e.nextSerial + 1, number := source.nextNumber
        text := if e.trailing then text else stripBlanks text
        newline := decide (behind ≠ []) }
    let e := if e.width < body.length then e.put (.truncated (source.nextNumber - 1)) else e
    (some line,
      e.take line { source with nextNumber := source.nextNumber + 1, rest := behind.drop 1 })

/-- `pull_line` -/
def pullLine : Option Line × Edit :=
  match e.ahead with
  | line :: rest => (some line, { e with ahead := rest })
  | [] => e.sourceLine

/-- `line_arrive`, with the line in its place already. A global change that does not fit is
reported. -/
def lineArrive : Line × Edit :=
  let e := { e with pointer := 0 }
  if line.processed then (line, e)
  else
    let (line, e) :=
      if e.renumber > 0 then
        ({ line with number := e.renumber }, { e with renumber := long (e.renumber + 1) })
      else (line, e)
    let (text, globals, fits) := applyGlobals e.capacity e.globals line.text
    let e := { e with globals }
    ({ line with processed := true, text }, if fits then e else e.report "Line too long")

def arrive : Edit :=
  let (line, e) := e.lineArrive line
  { e with current := some line }

def pushCurrent : Edit :=
  match e.current with
  | some line => e.queuePush line
  | none => e

/-! ## Moving -/

def ceilingReached : Bool :=
  match e.current with
  | some line => e.ceiling > 0 && line.number > 0 && line.number ≥ e.ceiling
  | none => false

/-- `next_line` -/
def nextLine : Bool × Edit :=
  if e.ceilingReached then (false, e.report "Ceiling reached")
  else
    match e.pullLine with
    | (none, e) => (false, e.report "Input exhausted")
    | (some line, e) => (true, e.pushCurrent.arrive line)

/-- `previous_line` -/
def previousLine : Bool × Edit :=
  match e.queuePop with
  | (none, e) => (false, e.report "No more previous lines")
  | (some line, e) =>
    (true, { e with ahead := e.current.toList ++ e.ahead, current := some line, pointer := 0 })

/-- `at_end` -/
def atEnd : Bool :=
  match e.current with
  | some line => line.phantom
  | none => false

/-! ## Finishing -/

def drainStep : Bool × Edit :=
  match e.pullLine with
  | (none, e) => (false, e)
  | (some line, e) =>
    if line.phantom then (false, e)
    else
      let (line, e) := e.lineArrive line
      (true, e.queuePush line)

/-- How many lines can still come: those on the stack, and at most one for each byte of the source
and one for its end. -/
def toCome : ℕ :=
  e.ahead.length + e.currentSource.rest.length + if e.currentSource.ended then 0 else 1

/-- `drain_source` -/
def drainSource : Edit :=
  let e := { e.pushCurrent with current := none }
  (Loop.run drainStep (e.toCome + 1) e).queueFlush

end Edit

end AceShell.LineEditor
