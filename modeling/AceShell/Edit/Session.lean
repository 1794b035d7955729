import AceShell.Edit.Changing

/-!
# A session of EDIT

The program as a machine that executes one command after the other, after `edit.c`. What is left of
command files, of the command line, of repeated groups and of the saved command is a stack of
frames. Once a command has left the current line's text, the machine stands still.
-/

namespace AceShell.LineEditor

open Text Edit

/-- What the program finds outside of it: the files that can be read, by name, and the names that
can be written. -/
structure World where
  files : Edit.Files
  writable : List UInt8 → Bool

structure CommandFile where
  rest : List UInt8
  interactive : Bool := false
  deriving DecidableEq

/-- What is left to execute: the text of a command line, of a group or of the saved command, or the
rounds of a group. -/
inductive Frame
  | text (repeating : Bool) (text : List UInt8)
  | group (repeating : Bool) (count : ℤ) (body : List UInt8)
  deriving DecidableEq

structure Session where
  edit : Edit
  commands : List CommandFile
  frames : List Frame := []
  saved : List UInt8 := []
  saving : Bool := true

/-- `COMMAND_SIZE` -/
def commandSize : ℕ := 512

/-- `COMMAND_DEPTH` -/
def commandDepth : ℕ := 8

def commandLine : List CommandFile → Option (List UInt8) × List CommandFile
  | [] => (none, [])
  | file :: below =>
    if file.rest = [] then commandLine below
    else
      let line := (file.rest.takeWhile (· != lf)).filter (· != 13)
      (some (line.take (commandSize - 1)),
        { file with rest := (file.rest.dropWhile (· != lf)).drop 1 } :: below)

def attended : List CommandFile → Bool
  | [] => true
  | file :: _ => file.interactive

namespace Session

/-- The editor's state is changed. -/
def update (s : Session) (change : Edit → Edit) : Session := { s with edit := change s.edit }

def setCommands (s : Session) (commands : List CommandFile) : Session :=
  { s with commands, edit := { s.edit with interactive := attended commands } }

/-! ## Inserting -/

def insertStep (s : Session) : Bool × Session :=
  match commandLine s.commands with
  | (none, commands) => (false, (s.setCommands commands).update (·.report "Input exhausted"))
  | (some text, commands) =>
    let s := s.setCommands commands
    if text.map toUpper = [90] then (false, s)
    else (true, s.update fun e => e.insertLine (text.take e.capacity))

def unread (commands : List CommandFile) : ℕ := (commands.map fun file => file.rest.length).sum

/-- `insert_lines` -/
def insertLines (s : Session) : Session := Loop.run insertStep (unread s.commands + 1) s

variable (world : World)

def insertText (s : Session) : Option (List UInt8) → Session
  | some name => s.update fun e => insertFile world.files e name
  | none => s.insertLines

def after (s : Session) (move : Edit → Bool × Edit) (next : Session → Session) : Session :=
  match move s.edit with
  | (false, e) => { s with edit := e }
  | (true, e) => next { s with edit := e }

/-- The command I. -/
def insert (s : Session) (place : Place) (file : Option (List UInt8)) : Session :=
  match place with
  | .here => s.insertText world file
  | .atEnd => (s.update moveToEnd).insertText world file
  | .number number => s.after (·.moveToNumber number) (·.insertText world file)

/-- The command R. -/
def replace (s : Session) (lines : Replaced) (file : Option (List UInt8)) :
    Session :=
  let put (s : Session) := (s.insertText world file).update verifyCurrent
  match lines with
  | .current => s.after deleteCurrent put
  | .number number => s.after (·.moveToNumber number) (·.after deleteCurrent put)
  | .range first last =>
    s.after (·.moveToNumber first) fun s => put (s.update (·.deleteRange first last))

/-! ## Command files -/

/-- `push_command_file` -/
def pushCommandFile (s : Session) (name : List UInt8) : Session :=
  if s.commands.length ≥ commandDepth then
    s.update (·.report "Command files nested too deeply")
  else
    match world.files name with
    | none => s.update (·.reportName "Can't open" name)
    | some content => s.setCommands ({ rest := content } :: s.commands)

def quit (s : Session) : Session :=
  if s.commands.length > 1 then s.setCommands s.commands.tail
  else s.update ({ · with finished := true })

/-- A change command is kept for `'`, unless it is `'` that runs it; this is `save_command`. -/
def saveCommand (s : Session) (repeating : Bool) (text : List UInt8) : Session :=
  if repeating || text = [] then s else { s with saved := text.take (commandSize - 1) }

end Session

/-! ## Executing -/

def Edit.reportUnknown (e : Edit) : Option UInt8 → Edit
  | none => e.report "Unknown command"
  | some character => { e.put (.name "Unknown command -" [character]) with aborted := true }

def Order.act (world : World) (repeating : Bool) (s : Session) : Order → Session
  | .refused message => s.update (·.report message)
  | .refusedHere message =>
    s.update fun e => e.report (if e.current = none then "No current line" else message)
  | .unknown character => s.update (·.reportUnknown character)
  | .nothing => s
  | .group count body => { s with frames := .group repeating count body :: s.frames }
  | .repeatSaved =>
    if s.saved = [] then s.update (·.report "Nothing to repeat")
    else { s with frames := .text true s.saved :: s.frames }
  | .plain command => s.update (command.execute world.files)
  | .renumber number => s.update (·.setNumber number)
  | .recase how count => s.update (·.recase how count)
  | .erase count => s.update (·.erase count)
  | .change type movePointer strings text =>
    (s.update (·.commandChange type movePointer strings)).saveCommand repeating text
  | .insert place file => s.insert world place file
  | .delete lines => s.update (·.commandDelete lines)
  | .deleteFound qualifiers text => s.update (·.commandDeleteFound qualifiers text)
  | .replace lines file => s.replace world lines file
  | .deleteWindow from_ after text => s.update (·.commandDeleteWindow from_ after text)
  | .split after text => s.update (·.commandSplit after text)
  | .join => s.update commandJoin
  | .trailing value => s.update ({ · with trailing := value })
  | .showState => s.update fun e => e.put (.state s.saved e.search)
  | .showGlobals => s.update fun e => e.put (.globals e.globals)
  | .global type find replacement => s.update (·.commandGlobal type find replacement)
  | .globalState cancel enable id => s.update (·.commandGlobalState cancel enable id)
  | .commands name => s.pushCommandFile world name
  | .to_ name => s.update fun e => commandTo world.writable e name
  | .close name => s.update (·.closeNamedFile name)
  | .rewind => s.update rewindFile
  | .quit => s.quit
  | .stop => { s.update ({ · with finished := true }) with saving := false }

namespace Session

variable (s : Session)

/-- The end of `execute_line` -/
def endLine : Session := if s.edit.finished then s else s.update verifyPending

/-- A frame is done with. -/
def leave (frames : List Frame) : Session :=
  if frames = [] then { s with frames }.endLine else { s with frames }

/-- The start of `execute_line` -/
def beginLine (text : List UInt8) : Session :=
  { s with edit := { s.edit with entrySerial := s.edit.currentSerial, modified := false
                                 aborted := false, shownAny := false, shownPlain := false }
           frames := [.text false text] }

def readLine : Session :=
  match commandLine s.commands with
  | (none, commands) => (s.setCommands commands).update ({ · with finished := true })
  | (some text, commands) => (s.setCommands commands).beginLine text

def astray : Bool := s.edit.astray

/-- The text that starts with the next command, and what is left besides. -/
def next : Option (Bool × List UInt8 × List Frame) :=
  match s.frames with
  | .text repeating text :: frames =>
    if s.astray || s.edit.finished || s.edit.aborted || parseBlanks text = [] then none
    else some (repeating, text, frames)
  | _ => none

/-- One step without a command: between the commands, the frames change and lines are read. -/
def turn : Session :=
  if s.astray then s
  else
    match s.frames with
    | [] => if s.edit.finished then s else s.readLine
    | frame :: frames =>
      if s.edit.finished || s.edit.aborted then { s with frames := [] }.endLine
      else
        match frame with
        | .text _ _ => s.leave frames
        | .group repeating count body =>
          if count ≤ 0 then s.leave frames
          else { s with frames :=
                          .text repeating body :: .group repeating (count - 1) body :: frames }

def step (world : World) (s : Session) : Session :=
  match s.next with
  | some (repeating, text, frames) =>
    let (order, rest) := readOrder text
    order.act world repeating { s with frames := .text repeating rest :: frames }
  | none => s.turn

/-- The program after some steps. -/
def run (world : World) : ℕ → Session → Session
  | 0, s => s
  | n + 1, s => (run world n s).step world

def start (world : World) (args : Arguments) (output : Option (List UInt8)) (task : ℕ)
    (commands : List CommandFile) (breaks : List Bool) : Option Session :=
  let opens (name : List UInt8) :=
    !sameName name (args.name.take (nameSize - 1)) && world.writable name
  if output.any (fun name => !opens name) then none
  else
    (args.start world.files (attended commands) breaks).map fun e =>
      match output with
      | some name => { edit := { e with taskNumber := task, sinkName := name }, commands }
      | none => { edit := { e with taskNumber := task }.openWorkFile, commands }

end Session

/-! ## A session to look at -/

def catWorld : World where
  files name := if name = ascii "f" then some (ascii "cat\n") else none
  writable _ := true

def catSession (typed : String) : Option Session :=
  Session.start catWorld { name := ascii "f" } none 0 [⟨ascii typed, true⟩] []

theorem catSession_isSome (typed : String) : (catSession typed).isSome = true := rfl

end AceShell.LineEditor
