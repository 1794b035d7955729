import AceShell.Linux.Geometry
import AceShell.Lib.Machine

/-!
# The supervisor of a Linux program

The keyboard's side of `supervise_pty` in `lnx.c`. What is typed is translated into a buffer, from
which it is written to the terminal of the program. The loop is a row of actions, each with what its
system calls return. A report of a new size makes it ask the console for its bounds. The console's
bytes are marked as typed or as answers, which the supervisor does not see; from the log of what
happens follows what the program should get (`due`).
-/

namespace AceShell.Linux

open Text Terminal Keyboard Emission

/-! ## The buffer -/

/-- `RELAY_BUFFER_SIZE` -/
def relayBufferSize : ℕ := 65536

structure RelayBuffer where
  bytes : List UInt8
  offset : ℕ
  offset_le : offset ≤ bytes.length
  length_le : bytes.length ≤ relayBufferSize

namespace RelayBuffer

def empty : RelayBuffer := ⟨[], 0, Nat.le_refl 0, Nat.zero_le _⟩

variable (buffer : RelayBuffer)

def pending : List UInt8 := buffer.bytes.drop buffer.offset

theorem length_pending_le : buffer.pending.length ≤ relayBufferSize := by
  unfold pending
  rw [List.length_drop]
  exact (Nat.sub_le _ _).trans buffer.length_le

/-- What `relay_space` does to the buffer: only a full one is moved to the front. -/
def compact : RelayBuffer :=
  if buffer.offset ≠ 0 ∧ buffer.bytes.length = relayBufferSize then
    ⟨buffer.pending, 0, Nat.zero_le _, buffer.length_pending_le⟩
  else buffer

/-- `relay_space` -/
def space : ℕ := relayBufferSize - buffer.compact.bytes.length

def consume (amount : ℕ) : RelayBuffer :=
  if h : buffer.offset + amount < buffer.bytes.length then
    { buffer with offset := buffer.offset + amount, offset_le := h.le }
  else empty

/-- `relay_append` -/
def append (bytes : List UInt8) : Bool × RelayBuffer :=
  if h : bytes.length ≤ buffer.space then
    (true,
      { bytes := buffer.compact.bytes ++ bytes
        offset := buffer.compact.offset
        offset_le := by
          rw [List.length_append]
          exact buffer.compact.offset_le.trans (Nat.le_add_right _ _)
        length_le := by
          have hle := buffer.compact.length_le
          unfold space at h
          rw [List.length_append]
          omega })
  else (false, buffer.compact)

end RelayBuffer

/-- `relay_sink` -/
def relaySink : Sink RelayBuffer where
  write := RelayBuffer.append
  space buffer := (buffer.space, buffer.compact)

/-! ## What the console sends -/

structure Sent where
  byte : UInt8
  reply : Bool
  deriving DecidableEq

/-- A byte that is typed. -/
def Sent.key (byte : UInt8) : Sent := ⟨byte, false⟩

/-- A byte of an answer. -/
def Sent.answer (byte : UInt8) : Sent := ⟨byte, true⟩

/-- The bytes as they come. -/
def raw (received : List Sent) : List UInt8 := received.map Sent.byte

/-- The bytes that are typed. -/
def typed (received : List Sent) : List UInt8 := raw (received.filter fun sent => !sent.reply)

/-- Whether the bounds can be asked for, and what waits at the console each time it is looked for
an answer. -/
structure Query where
  asked : Bool := true
  attempts : List (List Sent) := []
  deriving DecidableEq

def readLimit : ℕ := 4096

def receiveReply (received : List Sent) :
    List (List Sent) → List Sent × Option (List UInt8 × Winsize × List UInt8)
  | [] => (received, none)
  | waiting :: later =>
    if received.length ≥ readLimit then (received, none)
    else
      let received := received ++ waiting.take (readLimit - received.length)
      match findBoundsReply (raw received) with
      | some found => (received, some found)
      | none => receiveReply received later

def Query.outcome (query : Query) : List Sent × Option (List UInt8 × Winsize × List UInt8) :=
  if query.asked then receiveReply [] (query.attempts.take 3) else ([], none)

/-- `query_console_geometry` -/
def queryConsoleGeometry (typeahead : RelayBuffer) (query : Query) : RelayBuffer × Winsize :=
  match query.outcome with
  | (_, some (before, size, rest)) => (((typeahead.append before).2.append rest).2, size)
  | (received, none) => ((typeahead.append (raw received)).2, fallbackSize)

inductive Receipt
  | bytes (waiting : List Sent)
  | again
  | hangup
  deriving DecidableEq

inductive SignalEvent
  | ctrlC | ctrlD | ctrlE | ctrlF | shutdownHup | shutdownTerm
  deriving DecidableEq

def SignalEvent.control : SignalEvent → Option UInt8
  | .ctrlC => some 0x03
  | .ctrlD => some 0x04
  | .ctrlE => some 0x05
  | .ctrlF => some 0x06
  | .shutdownHup | .shutdownTerm => none

inductive WriteResult
  | took (amount : ℕ)
  | again
  | failed
  deriving DecidableEq

/-! ## What the program should get -/

inductive KeyEvent
  | key (byte : UInt8)
  | control (byte : UInt8)
  | mode (keys : CursorKeys)
  | asked
  deriving DecidableEq

def KeyEvent.typing (parser : AmigaToXterm) : KeyEvent → Typing
  | .key byte => feedKey parser byte
  | .control byte => emit [byte] parser
  | .mode keys => done { parser with cursorKeys := keys }
  | .asked => done { parser with resizePending := false }

def due (log : List KeyEvent) : List UInt8 := (emitted KeyEvent.typing {} log).flatMap id

def heldAfter (log : List KeyEvent) : AmigaToXterm := behind KeyEvent.typing {} log

/-! ## The supervisor -/

/-- The local variables of `supervise_pty` for the keyboard's side. `written` is what the terminal
has taken, and `log` what has happened. -/
structure Relay where
  input : RelayBuffer := RelayBuffer.empty
  parser : AmigaToXterm := {}
  inputOpen : Bool := true
  masterWriteOpen : Bool := true
  inputFlushed : Bool := false
  consoleHup : Bool := false
  childReaped : Bool := false
  shutdownRequested : Bool := false
  /-- The loop was left. -/
  ended : Bool := false
  geometry : Winsize := fallbackSize
  /-- The console and the signals are among the descriptors that are polled. -/
  watchesInput : Bool := false
  watchesSignals : Bool := false
  written : List UInt8 := []
  log : List KeyEvent := []

inductive Act
  | reap (exited : Bool)
  | shutdown (requested : Bool)
  | flush
  | resize (query : Query)
  | setKeys (keys : CursorKeys)
  | watch
  | readInput (receipt : Option Receipt)
  | readSignals (events : Option (List SignalEvent))
  | writeMaster (result : Option WriteResult)
  deriving DecidableEq

namespace Relay

def feed (s : Relay) (bytes : List UInt8) : Bool × Relay :=
  let (ok, parser, input) := Keyboard.feed relaySink s.parser s.input bytes
  (ok, { s with parser, input })

/-- Something happens. -/
def note (s : Relay) (events : List KeyEvent) : Relay := { s with log := s.log ++ events }

def reap (s : Relay) (exited : Bool) : Relay :=
  let s := { s with childReaped := s.childReaped || exited }
  if s.childReaped then
    { s with inputOpen := false, input := RelayBuffer.empty, masterWriteOpen := false
             inputFlushed := true }
  else s

/-- The loop is left when something asks for it, a deadline or a failure on the other side too. -/
def shutdown (s : Relay) (requested : Bool) : Relay :=
  let s := { s with shutdownRequested := s.shutdownRequested || requested }
  if s.shutdownRequested then { s with inputOpen := false, masterWriteOpen := false, ended := true }
  else s

/-- `terminal_eof` -/
def terminalEof : List UInt8 := [0x04]

def flush (s : Relay) : Relay :=
  if s.inputOpen || s.inputFlushed then s
  else
    match Keyboard.flush relaySink s.parser s.input with
    | (false, parser, input) => { s with parser, input }
    | (true, parser, input) =>
      if s.masterWriteOpen then
        let (ok, input) := input.append terminalEof
        { s with parser, input, inputFlushed := ok }
      else { s with parser, input, inputFlushed := true }

/-- The console has a new size. What comes before its answer is fed to the translator, whatever
becomes of it. -/
def resize (s : Relay) (query : Query) : Relay :=
  if s.parser.resizePending then
    let s := { s with parser := { s.parser with resizePending := false } }
    let (typeahead, geometry) := queryConsoleGeometry RelayBuffer.empty query
    let s := { (s.feed typeahead.pending).2 with geometry }
    s.note (.asked :: (typed query.outcome.1).map .key)
  else s

def setKeys (s : Relay) (keys : CursorKeys) : Relay :=
  { s with parser := { s.parser with cursorKeys := keys } }.note [.mode keys]

def watch (s : Relay) : Relay :=
  let input := if s.inputOpen || !s.childReaped then s.input.compact else s.input
  { s with watchesInput := s.inputOpen && decide (0 < s.input.space)
           watchesSignals := !s.childReaped && decide (0 < s.input.space), input }

def readSize (s : Relay) : ℕ := min (s.input.space / 8) readLimit

/-- `relay_read_input` -/
def relayReadInput (s : Relay) (receipt : Receipt) : Relay :=
  let space := s.readSize
  let s := { s with input := s.input.compact }
  if space = 0 then s
  else
    match receipt with
    | .bytes waiting =>
      let received := waiting.take space
      let (ok, s) := s.feed (raw received)
      { s with inputOpen := s.inputOpen && ok }.note ((typed received).map .key)
    | .again => s
    | .hangup => { s with inputOpen := false, consoleHup := true }

/-- `relay_read_signal_events` -/
def relayReadSignalEvents (s : Relay) : List SignalEvent → Relay
  | [] => { s with input := s.input.compact }
  | event :: events =>
    if 0 < s.input.space then
      match event.control with
      | some byte =>
        relayReadSignalEvents
          ({ s with input := (s.input.append [byte]).2 }.note [.control byte]) events
      | none =>
        relayReadSignalEvents { s with input := s.input.compact, shutdownRequested := true } events
    else { s with input := s.input.compact }

/-- `relay_write_master` -/
def relayWriteMaster (s : Relay) : WriteResult → Relay
  | .took amount =>
    { s with written := s.written ++ s.input.pending.take amount
             input := s.input.consume (min amount s.input.pending.length) }
  | .again => s
  | .failed => { s with masterWriteOpen := false }

def offer (s : Relay) : Option WriteResult → Relay
  | some result =>
    if s.masterWriteOpen && !s.input.pending.isEmpty then s.relayWriteMaster result else s
  | none => s

def writeMaster (s : Relay) (result : Option WriteResult) : Relay :=
  let s := s.offer result
  if s.masterWriteOpen || s.childReaped then s else { s with shutdownRequested := true }

def stopped (s : Relay) : Bool := s.ended || s.parser.overrun

/-- What an action does. -/
def act (s : Relay) (a : Act) : Relay :=
  if s.stopped then s
  else
    match a with
    | .reap exited => s.reap exited
    | .shutdown requested => s.shutdown requested
    | .flush => s.flush
    | .resize query => s.resize query
    | .setKeys keys => s.setKeys keys
    | .watch => s.watch
    | .readInput receipt =>
      match receipt with
      | some receipt => if s.watchesInput then s.relayReadInput receipt else s
      | none => s
    | .readSignals events =>
      match events with
      | some events => if s.watchesSignals then s.relayReadSignalEvents events else s
      | none => s
    | .writeMaster result => s.writeMaster result

/-- What is done before the program starts; it does not start when there is too much typeahead. -/
def start (query : Query) : Option Relay :=
  let (typeahead, geometry) := queryConsoleGeometry RelayBuffer.empty query
  match ({ geometry } : Relay).feed typeahead.pending with
  | (false, _) => none
  | (true, s) => some (s.note ((typed query.outcome.1).map .key))

end Relay

structure Round where
  exited : Bool := false
  requested : Bool := false
  query : Query := {}
  keys : CursorKeys := .normal
  receipt : Option Receipt := none
  events : Option (List SignalEvent) := none
  result : Option WriteResult := none
  deriving DecidableEq

def Round.acts (round : Round) : List Act :=
  [.reap round.exited, .shutdown round.requested, .flush, .resize round.query, .setKeys round.keys,
   .watch, .readInput round.receipt, .readSignals round.events, .writeMaster round.result]

/-! ## Runs -/

def Act.Undisturbed : Act → Prop
  | .reap exited => exited = false
  | .shutdown requested => requested = false
  | .readInput receipt => receipt ≠ some .hangup
  | .readSignals events => ∀ event ∈ events.getD [], event.control ≠ none
  | .writeMaster result => result ≠ some .failed
  | .flush | .resize _ | .setKeys _ | .watch => True

/-- The answer came whole while it was looked for, or there was none. -/
def Answered (received : List Sent) : Prop :=
  (∃ keys : List UInt8, received = keys.map Sent.key ∧ findBoundsReply keys = none) ∨
    ∃ (before : List UInt8) (size : Winsize) (rest : List UInt8), size.Valid ∧
      findBoundsReply before = none ∧
      received = before.map Sent.key ++ ((replyText size).map Sent.answer ++ rest.map Sent.key)

def Relay.RoomFor (s : Relay) (received : List Sent) : Prop :=
  received ≠ [] → s.parser.sequence.length + 5 * (typed received).length ≤ s.input.space

/-- The condition on an action: whenever bytes are fed there is room for them, and answers come
when they are looked for, and only then. -/
def Act.Careful (s : Relay) : Act → Prop
  | .resize query => s.parser.resizePending = true →
      Answered query.outcome.1 ∧ s.RoomFor query.outcome.1
  | .readInput (some (.bytes waiting)) => s.watchesInput = true →
      (∀ sent ∈ waiting.take s.readSize, sent.reply = false) ∧ s.RoomFor (waiting.take s.readSize)
  | _ => True

def careful (s : Relay) : Machine Relay Act where
  init := s
  possible a s := a.Undisturbed ∧ a.Careful s
  step a s := s.act a

/-- **Nothing is lost.** What was written and what is in the buffer or held by the translator is
what is due, and the keyboard is listened to. -/
structure Relay.LosesNothing (s : Relay) : Prop where
  begins : s.written <+: due s.log
  whole : s.written ++ s.input.pending = due s.log
  held : s.parser = heldAfter s.log
  roomy : s.parser.Roomy
  listening : s.inputOpen = true

end AceShell.Linux
