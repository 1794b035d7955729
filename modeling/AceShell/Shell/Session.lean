import AceShell.Registry.Broker
import AceShell.Shell.Variables

/-!
# Sessions and the requests that change them

What `broker.c` keeps for a session besides its lifetime, and the handlers of the requests that
change it. The session table itself is the registry's; here every slot has its contents.
-/

namespace AceShell

open Text

/-! ## Sessions -/

/-- `MAX_COMMAND_PATHS`. -/
def maxCommandPaths : ℕ := 32

/-- `DEFAULT_FAIL_LEVEL`. -/
def defaultFailLevel : ℤ := 10

/-- `DEFAULT_PROMPT`. -/
def defaultPrompt : Name := ascii "%N.%S> "

structure System where
  host : Host
  getcwd : Option Name
  systemRoot : Name
  volatileRoot : Name
  realpath : Name → Option Name
  /-- `ACE_PRIVILEGE_ACCESS_STAT` and the `fstat` of its descriptor; `none` when it is refused. -/
  crmStat : Name → Option (Except Errno FileStat)
  /-- The clipboard store's path is written to a buffer of `PATH_MAX` bytes. -/
  clipboard_fits : ∀ root, host.clipboardRoot = some root → root.length < pathMax

def flatSystem : System where
  host := flatHost
  getcwd := none
  systemRoot := ascii "/sys"
  volatileRoot := ascii "/run"
  realpath := fun _ => none
  crmStat := fun _ => none
  clipboard_fits := nofun

structure ShellSession where
  paths : Session
  commandPaths : List Name
  localVars : VarTable
  returnCode : ℤ
  result2 : ℤ
  failLevel : ℤ
  prompt : Name

/-- A slot that was never used. -/
def ShellSession.blank : ShellSession := ⟨⟨[], []⟩, [], .cleared, 0, 0, 0, []⟩

def ShellSession.initial (sys : System) : ShellSession where
  paths := (Session.cleared (sys.getcwd.getD rootPath)).seedBootAssigns sys.host sys.systemRoot
    sys.volatileRoot
  commandPaths := []
  localVars := .cleared
  returnCode := 0
  result2 := 0
  failLevel := defaultFailLevel
  prompt := defaultPrompt

structure ShellState where
  session : ShellSession
  globalVars : VarTable
  cat : Catalog

variable (s : ShellState)

def ShellState.pathState : PathState := ⟨s.session.paths, s.cat⟩

def ShellState.withPaths (st : PathState) : ShellState :=
  { s with session := { s.session with paths := st.session }, cat := st.cat }

def ShellState.withCommandPaths (commandPaths : List Name) : ShellState :=
  { s with session := { s.session with commandPaths := commandPaths } }

def ShellState.vars : Vars := ⟨s.session.localVars, s.globalVars⟩

def ShellState.withVars (vars : Vars) : ShellState :=
  { s with
    session := { s.session with localVars := vars.localVars }, globalVars := vars.globalVars }

/-! ## Requests -/

/-- `AMIGA_BROKER_PATH_PREPEND`. -/
def pathPrepend : UInt32 := 0x0002

/-- `AMIGA_BROKER_PATH_REMOVE`. -/
def pathRemove : UInt32 := 0x0004

/-- `AMIGA_BROKER_PATH_RESET`. -/
def pathReset : UInt32 := 0x0008

inductive ShellRequest
  | setCwd (path : Name) (flags : UInt32)
  | assign (request : AssignRequest)
  | path (path : Name) (flags : UInt32)
  | vars (request : VarRequest)
  | setFailLevel (path : Name)
  | setPrompt (path : Name)
  | setResult (path value : Name)
  | cloneSession (path : Name)
  deriving DecidableEq

section Handlers

variable (z : Zlib) (sys : System) (fuel : ℕ) (errno : Option Errno)

variable (path : Name)

/-- `stat_for_current_directory`: as the broker itself, then through the CRM. -/
def System.statForCurrentDirectory : Except Errno FileStat :=
  match sys.host.stat path with
  | .ok information => .ok information
  | .error failure => (sys.crmStat path).getD (.error failure)

/-- `AMIGA_BROKER_SETCWD`. A result that is no directory is reported as whatever `errno` holds. -/
def setCwd (flags : UInt32) (s : ShellState) : Option (Reply × ShellState) :=
  let resolved :=
    if hasFlag flags pathHost then
      some (normalizePath s.session.paths.cwd path maxListResult, s.pathState)
    else resolvePath z sys.host maxListResult fuel s.pathState path
  match resolved with
  | none => none
  | some (.error e, st) => some (.fail e, s.withPaths st)
  | some (.ok result, st) =>
    match sys.statForCurrentDirectory result with
    | .error e => some (.fail e, s.withPaths st)
    | .ok information =>
      if information.kind = .directory then
        some (.ok, s.withPaths { st with session := { st.session with cwd := result } })
      else some (.fail (errno.getD .enotdir), s.withPaths st)

def canonicalCommandPath (st : PathState) (input : Name) :
    Option (Except Errno Name × PathState) :=
  match resolvePath z sys.host pathMax fuel st input with
  | none => none
  | some (.error e, st) => some (.error e, st)
  | some (.ok resolved, st) =>
    match sys.host.stat resolved with
    | .error e => some (.error e, st)
    | .ok information =>
      if information.kind = .directory then
        let canonical := (sys.realpath resolved).getD resolved
        if pathMax ≤ canonical.length then some (.error .enametoolong, st)
        else some (.ok canonical, st)
      else some (.error .enotdir, st)

def changeCommandPaths (canonical : Name) (flags : UInt32) (paths : List Name) :
    Except Errno (List Name) :=
  if hasFlag flags pathRemove then
    if canonical ∈ paths then .ok (paths.erase canonical) else .error .enoent
  else if canonical ∈ paths then .ok paths
  else if maxCommandPaths ≤ paths.length then .error .enospc
  else if hasFlag flags pathPrepend then .ok (canonical :: paths)
  else .ok (paths ++ [canonical])

/-- `AMIGA_BROKER_PATH`. RESET comes first, whatever becomes of the rest. -/
def changePath (flags : UInt32) (s : ShellState) : Option (Reply × ShellState) :=
  let s := if hasFlag flags pathReset then s.withCommandPaths [] else s
  if path = [] then some (.ok, s)
  else
    match canonicalCommandPath z sys fuel s.pathState path with
    | none => none
    | some (.error e, st) => some (.fail e, s.withPaths st)
    | some (.ok canonical, st) =>
      let s := s.withPaths st
      match changeCommandPaths canonical flags s.session.commandPaths with
      | .error e => some (.fail e, s)
      | .ok commandPaths => some (.ok, s.withCommandPaths commandPaths)

def parseInt32 (text : Name) : Option ℤ :=
  match scanNumber text with
  | none => none
  | some (negative, magnitude) =>
    let value : ℤ := if negative then -magnitude else magnitude
    if -2 ^ 31 ≤ value ∧ value < 2 ^ 31 then some value else none

/-- `AMIGA_BROKER_SETFAILLEVEL`. -/
def setFailLevel (s : ShellState) : Reply × ShellState :=
  match parseInt32 path with
  | none => (.fail .einval, s)
  | some failLevel => (.ok, { s with session := { s.session with failLevel := failLevel } })

/-- `AMIGA_BROKER_SETPROMPT`. -/
def setPrompt (s : ShellState) : Reply × ShellState :=
  if maxValue ≤ path.length then (.fail .eoverflow, s)
  else (.ok, { s with session := { s.session with prompt := path } })

/-- `AMIGA_BROKER_SETRESULT`. -/
def setResult (path value : Name) (s : ShellState) : Reply × ShellState :=
  match parseInt32 path, parseInt32 value with
  | some returnCode, some result2 =>
    (.ok, { s with session := { s.session with returnCode := returnCode, result2 := result2 } })
  | _, _ => (.fail .einval, s)

/-- `AMIGA_BROKER_ASSIGN`. -/
def changeAssign (request : AssignRequest) (s : ShellState) : Option (Reply × ShellState) :=
  (handleAssign z sys.host fuel errno request s.pathState).map fun reply =>
    (⟨reply.1, []⟩, s.withPaths reply.2)

end Handlers

/-! ## The broker's sessions -/

structure Shells where
  broker : Broker
  data : List ShellSession
  globalVars : VarTable
  cat : Catalog

/-- No session yet. -/
def Shells.start (cat : Catalog) : Shells where
  broker := .start
  data := List.replicate maxSessions .blank
  globalVars := .cleared
  cat := cat

namespace Shells

variable (z : Zlib) (sys : System) (fuel : ℕ) (errno : Option Errno)

/-- The session in a slot. -/
def sessionAt (s : Shells) (index : ℕ) : ShellSession := (s.data[index]?).getD .blank

/-- `get_session`: a session that is not in the table starts anew, perhaps in the slot of another
that is given up. -/
def getSession (id : Name) (s : Shells) : Option (ℕ × Shells) :=
  (s.broker.getSession id).map fun (index, broker) =>
    (index,
      { s with
        broker := broker
        data := if (s.broker.sessionIndex id).isSome then s.data
          else s.data.set index (.initial sys) })

def view (index : ℕ) (s : Shells) : ShellState := ⟨s.sessionAt index, s.globalVars, s.cat⟩

def update (index : ℕ) (s : Shells) (state : ShellState) : Shells :=
  { s with
    data := s.data.set index state.session, globalVars := state.globalVars, cat := state.cat }

/-- `AMIGA_BROKER_CLONESESSION`. -/
def cloneSession (index : ℕ) (path : Name) (s : Shells) : Reply × Shells :=
  if path = [] ∨ sessionIdSize ≤ path.length then (.fail .einval, s)
  else if (s.broker.sessions[index]?).join.any (·.id == path) then (.fail .einval, s)
  else
    match s.broker.findSession path with
    | some (_, broker) => (.fail .eexist, { s with broker := broker })
    | none =>
      match s.getSession sys path with
      | none => (.fail .enospc, s)
      | some (child, s) => (.ok, { s with data := s.data.set child (s.sessionAt index) })

def serve (index : ℕ) (request : ShellRequest) (s : Shells) : Option (Reply × Shells) :=
  let handled (reply : Reply × ShellState) := (reply.1, s.update index reply.2)
  match request with
  | .setCwd path flags => (setCwd z sys fuel errno path flags (s.view index)).map handled
  | .assign request => (changeAssign z sys fuel errno request (s.view index)).map handled
  | .path path flags => (changePath z sys fuel path flags (s.view index)).map handled
  | .vars request =>
    let (reply, vars) := serveVariable (s.view index).vars request
    some (handled (reply, (s.view index).withVars vars))
  | .setFailLevel path => some (handled (setFailLevel path (s.view index)))
  | .setPrompt path => some (handled (setPrompt path (s.view index)))
  | .setResult path value => some (handled (setResult path value (s.view index)))
  | .cloneSession path => some (s.cloneSession sys index path)

def handleClient (sessionId : Name) (request : ShellRequest) (s : Shells) :
    Option (Reply × Shells) :=
  match s.getSession sys sessionId with
  | none => some (.fail .enospc, s)
  | some (index, s) => s.serve z sys fuel errno index request

end Shells

end AceShell
