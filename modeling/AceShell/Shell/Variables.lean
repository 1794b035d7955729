import AceShell.Lib.KeyedTable
import AceShell.Paths.Assign

/-!
# Shell variables

The variable tables of `broker.c` and the four requests on them. A session has a table of its own
and all sessions share the global one. A slot is free when its name is empty, and a key is a name,
whatever its case, with a type.
-/

namespace AceShell

open Text SlotTable

/-! ## Tables -/

/-- `MAX_VARS`. -/
def maxVars : ℕ := 128

/-- `MAX_VALUE`. -/
def maxValue : ℕ := 4096

/-- `AMIGA_BROKER_VAR_LOCAL`. -/
def varLocal : UInt32 := 0x0001

/-- `AMIGA_BROKER_VAR_GLOBAL`. -/
def varGlobal : UInt32 := 0x0002

/-- `AMIGA_BROKER_VAR_SAVE`. -/
def varSave : UInt32 := 0x0004

/-- `AMIGA_BROKER_VAR_ALIAS`. -/
def varAlias : UInt32 := 0x0008

/-- `AMIGA_BROKER_VAR_ANY`. -/
def varAny : UInt32 := 0x0010

/-- Some flag of the mask is set. -/
def hasFlag (flags mask : UInt32) : Bool := flags &&& mask != 0

inductive VarType
  | varVariable | varAlias
  deriving DecidableEq

def VarType.ofFlags (flags : UInt32) : VarType :=
  if hasFlag flags AceShell.varAlias then .varAlias else .varVariable

/-- `struct variable_entry`. -/
structure Variable where
  name : Name
  value : Name
  type : VarType
  deriving DecidableEq

abbrev VarTable := List (Option Variable)

def VarTable.cleared : VarTable := List.replicate maxVars none

def findVariable (table : VarTable) (name : Name) (type : VarType) : Option ℕ :=
  table.findIdx? fun slot => slot.any fun entry => caseEq entry.name name && entry.type == type

/-- `allocate_variable`: the slot, and the table with the name and the type written to it. Under
the empty name the slot stays free. -/
def allocateVariable (table : VarTable) (name : Name) (type : VarType) :
    Option (ℕ × VarTable) :=
  match findVariable table name type with
  | some index => some (index, table)
  | none =>
    match table.findIdx? (·.isNone) with
    | none => none
    | some index =>
      if maxName ≤ name.length then none
      else some (index, table.set index (if name = [] then none else some ⟨name, [], type⟩))

structure Vars where
  localVars : VarTable
  globalVars : VarTable
  deriving DecidableEq

variable (vars : Vars)

/-- The table of a scope. -/
def Vars.table (global : Bool) : VarTable :=
  if global then vars.globalVars else vars.localVars

def Vars.withTable (global : Bool) (table : VarTable) : Vars :=
  if global then { vars with globalVars := table } else { vars with localVars := table }

/-- `variable_scope`: whether the local and the global table are meant, or `none` when the flags
name both. -/
def variableScope (flags : UInt32) : Option (Bool × Bool) :=
  let inLocal := hasFlag flags varLocal
  let inGlobal := hasFlag flags varGlobal
  if inLocal && inGlobal then none
  else if !inLocal && !inGlobal then some (true, true)
  else some (inLocal, inGlobal)

def lookupVariable (name : Name) (flags : UInt32) : Option (Bool × ℕ) :=
  let type := VarType.ofFlags flags
  match variableScope flags with
  | none => none
  | some (inLocal, inGlobal) =>
    match if inLocal then findVariable vars.localVars name type else none with
    | some index => some (false, index)
    | none =>
      if inGlobal then (findVariable vars.globalVars name type).map (true, ·) else none

/-! ## Requests -/

inductive VarRequest
  | getVar (path : Name) (flags : UInt32)
  | setVar (path value : Name) (flags : UInt32)
  | delVar (path : Name) (flags : UInt32)
  | listVars (flags : UInt32)
  deriving DecidableEq

/-- The status of a reply, 0 being `none`, and the text it carries on success. -/
structure Reply where
  status : Option Errno
  result : Name
  deriving DecidableEq

/-- Success without a text. -/
def Reply.ok : Reply := ⟨none, []⟩

/-- A failure. -/
def Reply.fail (e : Errno) : Reply := ⟨some e, []⟩

/-- `AMIGA_BROKER_GETVAR`. -/
def getVar (path : Name) (flags : UInt32) (vars : Vars) : Reply :=
  match lookupVariable vars path flags with
  | none => .fail .enoent
  | some (global, index) => ⟨none, (((vars.table global)[index]?).join.map Variable.value).getD []⟩

def checkSetVar (path value : Name) (flags : UInt32) : Option Errno :=
  if hasFlag flags varSave then some .enotsup
  else if hasFlag flags varLocal && hasFlag flags varGlobal then some .einval
  else if maxName ≤ path.length ∨ maxValue ≤ value.length then some .eoverflow
  else none

/-- `AMIGA_BROKER_SETVAR`. -/
def setVar (path value : Name) (flags : UInt32) (vars : Vars) : Reply × Vars :=
  match checkSetVar path value flags with
  | some e => (.fail e, vars)
  | none =>
    let global := hasFlag flags varGlobal
    match allocateVariable (vars.table global) path (VarType.ofFlags flags) with
    | none => (.fail .enospc, vars)
    | some (index, table) =>
      (.ok, vars.withTable global (table.modify index (Option.map ({ · with value := value }))))

/-- `AMIGA_BROKER_DELVAR`. -/
def delVar (path : Name) (flags : UInt32) (vars : Vars) : Reply × Vars :=
  if hasFlag flags varSave then (.fail .enotsup, vars)
  else
    match lookupVariable vars path flags with
    | none => (.fail .enoent, vars)
    | some (global, index) => (.ok, vars.withTable global (release index (vars.table global)))

def Variable.line (entry : Variable) : Name :=
  (if entry.type = .varAlias then 49 else 48) :: 9 :: entry.name ++ [10]

def Variable.listed (flags : UInt32) (entry : Variable) : Bool :=
  hasFlag flags varAny || decide (entry.type = .varAlias) == hasFlag flags varAlias

def appendVariableList (flags : UInt32) : VarTable → Name → Option Name
  | [], result => some result
  | none :: slots, result => appendVariableList flags slots result
  | some entry :: slots, result =>
    if entry.listed flags then
      if maxListResult ≤ result.length + entry.line.length then none
      else appendVariableList flags slots (result ++ entry.line)
    else appendVariableList flags slots result

/-- `AMIGA_BROKER_LISTVARS`. -/
def listVars (flags : UInt32) (vars : Vars) : Reply :=
  let inGlobal := hasFlag flags varGlobal
  let inLocal := hasFlag flags varLocal || !inGlobal
  match if inLocal then appendVariableList flags vars.localVars [] else some [] with
  | none => .fail .eoverflow
  | some result =>
    match if inGlobal then appendVariableList flags vars.globalVars result else some result with
    | none => .fail .eoverflow
    | some result => ⟨none, result⟩

def serveVariable : VarRequest → Reply × Vars
  | .getVar path flags => (getVar path flags vars, vars)
  | .setVar path value flags => setVar path value flags vars
  | .delVar path flags => delVar path flags vars
  | .listVars flags => (listVars flags vars, vars)

end AceShell
