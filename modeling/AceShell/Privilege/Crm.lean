import AceShell.Privilege.Protocol

/-!
# The CRM

The worker that performs one protected operation per request, after `ace_crm.c`. A request is read
in two steps: the strings in its payload are checked against the lengths that the header declares
(`decode`), and the operation is performed on the strings (`performAction`). The system calls it
makes are those of a `Kernel`, of which nothing is assumed here.
-/

namespace AceShell

open Text

/-! ## System calls -/

inductive OpenAccess
  | readOnly | writeOnly | readWrite | path
  deriving DecidableEq

/-- How far a resolution may go: `RESOLVE_BENEATH`, or `RESOLVE_IN_ROOT`, both with
`RESOLVE_NO_MAGICLINKS`. -/
inductive ResolveScope
  | beneath | inRoot
  deriving DecidableEq

structure OpenHow where
  access : OpenAccess
  create : Bool := false
  exclusive : Bool := false
  truncate : Bool := false
  append : Bool := false
  directory : Bool := false
  nofollow : Bool := false
  mode : UInt32 := 0
  scope : ResolveScope
  deriving DecidableEq

/-- The system calls that the CRM makes. An object is known by its number; flags that are not
arguments are 0. -/
structure Kernel (σ : Type) where
  openat2 : ℕ → Name → OpenHow → σ → Except Errno ℕ × σ
  unlinkat : ℕ → Name → Bool → σ → Option Errno × σ
  mkdirat : ℕ → Name → UInt32 → σ → Option Errno × σ
  fchmodat : ℕ → Name → UInt32 → σ → Option Errno × σ
  utimensat : ℕ → Name → ℤ → σ → Option Errno × σ
  renameat : ℕ → Name → ℕ → Name → σ → Option Errno × σ
  linkat : ℕ → Name → ℕ → Name → σ → Option Errno × σ
  symlinkat : Name → ℕ → Name → σ → Option Errno × σ

/-- A call that succeeded. -/
inductive Call
  | opened (object : ℕ)
  | unlinked (directory : ℕ) (name : Name)
  | madeDirectory (directory : ℕ) (name : Name)
  | changedMode (directory : ℕ) (name : Name)
  | changedTimes (directory : ℕ) (name : Name)
  | renamed (fromDirectory : ℕ) (fromName : Name) (directory : ℕ) (name : Name)
  | linked (fromDirectory : ℕ) (fromName : Name) (directory : ℕ) (name : Name)
  | madeSymlink (directory : ℕ) (name : Name)
  deriving DecidableEq

/-! ## Reading a request -/

inductive OpenOperation
  | read | write | directory | stat
  deriving DecidableEq

/-- The operations on a name. -/
inductive NamedOperation
  | unlink | mkdir | setProtection | setDate
  deriving DecidableEq

inductive CrmAction
  | open (operation : OpenOperation) (path : Name)
  | named (operation : NamedOperation) (path : Name)
  | rename (path second : Name)
  | link (path second : Name)
  | symlink (path target : Name)
  deriving DecidableEq

/-- `checked_relative`. -/
def checkedRelative (payload : List UInt8) (length : ℕ) : Option Name :=
  if length < 2 ∨ payload[length - 1]? ≠ some 0 then none
  else if payload.head? = some slash ∨ payload.head? = some 0 then none
  else if (cstr (payload.take length)).length ≠ length - 1 then none
  else some (cstr (payload.take length))

/-- The two strings of RENAME, LINK and SYMLINK. The second may start with a slash only where it is
not a path. -/
def checkedPair (payload : List UInt8) (firstLength length : ℕ) (secondIsPath : Bool) :
    Option (Name × Name) :=
  if firstLength < 2 ∨ length ≤ firstLength ∨ payload[firstLength - 1]? ≠ some 0 ∨
      payload[length - 1]? ≠ some 0 ∨ payload.head? = some 0 ∨ payload.head? = some slash then
    none
  else
    let second := (payload.take length).drop firstLength
    if second.head? = some 0 ∨ (secondIsPath ∧ second.head? = some slash) ∨
        (cstr second).length ≠ length - firstLength - 1 then
      none
    else some (cstr (payload.take firstLength), cstr second)

def decode (request : PrivilegeRequest) (payload : List UInt8) : Except PrivilegeStatus CrmAction :=
  let pair (secondIsPath : Bool) :=
    checkedPair payload request.firstPathLength request.payloadLength secondIsPath
  let single (action : Name → CrmAction) : Except PrivilegeStatus CrmAction :=
    match checkedRelative payload request.payloadLength with
    | none => .error .protocolError
    | some path => .ok (action path)
  match request.opcode with
  | some .rename =>
    match pair true with
    | none => .error .protocolError
    | some (path, second) => .ok (.rename path second)
  | some .link =>
    match pair true with
    | none => .error .protocolError
    | some (path, second) => .ok (.link path second)
  | some .symlink =>
    match pair false with
    | none => .error .protocolError
    | some (path, target) => .ok (.symlink path target)
  | some .unlink => single (.named .unlink)
  | some .mkdir => single (.named .mkdir)
  | some .setProtection => single (.named .setProtection)
  | some .setDate => single (.named .setDate)
  | some .openRead => single (.open .read)
  | some .openWrite => single (.open .write)
  | some .openDir => single (.open .directory)
  | some .stat => single (.open .stat)
  | _ =>
    match checkedRelative payload request.payloadLength with
    | none => .error .protocolError
    | some _ => .error .unsupported

/-! ## Performing it -/

structure CrmRoots where
  view : Option ℕ
  host : Option ℕ
  deriving DecidableEq

/-- A reply. The errno of one that reports neither success nor a host error is left out; nobody
reads it. -/
structure CrmReply where
  status : PrivilegeStatus
  hostErrno : Option Errno
  passed : Option ℕ
  deriving DecidableEq

def CrmReply.fail (status : PrivilegeStatus) : CrmReply := ⟨status, none, none⟩

def CrmReply.ofOutcome : Option Errno → CrmReply
  | none => ⟨.ok, none, none⟩
  | some e => ⟨.hostError, some e, none⟩

/-- The reply, the calls that succeeded with the states before and after each, and the state in the
end. -/
structure Performed (σ : Type) where
  reply : CrmReply
  calls : List (Call × σ × σ)
  state : σ

section Perform

variable {σ : Type} (kernel : Kernel σ) (roots : CrmRoots)

/-- `resolve_in_domain`. -/
def resolveInDomain (relative : Name) (request : PrivilegeRequest) (how : OpenHow) (s : σ) :
    Except CrmReply ℕ × σ :=
  let host := request.has flagHostPath
  match if host then roots.host else roots.view with
  | none => (.error (.fail .refused), s)
  | some start =>
    let scope := if host then ResolveScope.inRoot else .beneath
    let mode := if how.create then how.mode else 0
    match kernel.openat2 start relative { how with scope := scope, mode := mode } s with
    | (.ok object, s) => (.ok object, s)
    | (.error e, s) =>
      if e = .exdev ∨ e = .eloop then (.error ⟨.escaped, some e, none⟩, s)
      else (.error ⟨.hostError, some e, none⟩, s)

def splitLast (path : Name) : Option (Name × Name) :=
  let name := path.reverse.takeWhile (· != slash) |>.reverse
  let directory := if slash ∈ path then path.take (path.length - name.length - 1) else dotName
  if directory = [] ∨ pathMax < directory.length + 1 then none
  else if name = [] ∨ name = dotName ∨ name = dotDotName then none
  else some (directory, name)

def openParent (path : Name) (request : PrivilegeRequest) (s : σ) :
    Except CrmReply (ℕ × Name) × σ :=
  match splitLast path with
  | none => (.error (.fail .protocolError), s)
  | some (directory, name) =>
    match resolveInDomain kernel roots directory request
      { access := .path, directory := true, scope := .beneath } s with
    | (.error reply, s) => (.error reply, s)
    | (.ok parent, s) => (.ok (parent, name), s)

def modeOr (mode default : UInt32) : UInt32 := if mode = 0 then default else mode &&& 0o7777

def openHow (operation : OpenOperation) (request : PrivilegeRequest) : OpenHow :=
  let how : OpenHow := { access := .readOnly, mode := modeOr request.mode 0o644, scope := .beneath }
  match operation with
  | .read => how
  | .directory => { how with directory := true }
  | .stat => { how with access := .path, nofollow := request.has flagNofollow }
  | .write =>
    { how with
      access := if request.has flagUpdate then .readWrite else .writeOnly
      create := request.has flagCreate
      truncate := request.has flagTruncate
      append := request.has flagAppend
      exclusive := request.has flagExclusive }

/-- `perform_open`. -/
def performOpen (operation : OpenOperation) (path : Name) (request : PrivilegeRequest) (s : σ) :
    Performed σ :=
  match resolveInDomain kernel roots path request (openHow operation request) s with
  | (.error reply, s') => ⟨reply, [], s'⟩
  | (.ok object, s') => ⟨⟨.ok, none, some object⟩, [(.opened object, s, s')], s'⟩

/-- The end of an operation on names: one call, after the directories in `opened` were opened. -/
def finish (opened : List (Call × σ × σ)) (call : Call) (s : σ) (outcome : Option Errno × σ) :
    Performed σ :=
  match outcome with
  | (none, s') => ⟨.ofOutcome none, opened ++ [(call, s, s')], s'⟩
  | (some e, s') => ⟨.ofOutcome (some e), opened, s'⟩

/-- The calls of `perform_named` on one name. Unlink tries again as `rmdir` would. -/
def performOnName (operation : NamedOperation) (request : PrivilegeRequest) (parent : ℕ)
    (name : Name) (opened : List (Call × σ × σ)) (s : σ) : Performed σ :=
  match operation with
  | .unlink =>
    match kernel.unlinkat parent name false s with
    | (some .eisdir, s') | (some .eperm, s') =>
      finish opened (.unlinked parent name) s' (kernel.unlinkat parent name true s')
    | outcome => finish opened (.unlinked parent name) s outcome
  | .mkdir =>
    finish opened (.madeDirectory parent name) s
      (kernel.mkdirat parent name (modeOr request.mode 0o755) s)
  | .setProtection =>
    finish opened (.changedMode parent name) s
      (kernel.fchmodat parent name (request.mode &&& 0o7777) s)
  | .setDate =>
    finish opened (.changedTimes parent name) s
      (kernel.utimensat parent name request.modificationTime s)

def withParent (path : Name) (request : PrivilegeRequest) (opened : List (Call × σ × σ)) (s : σ)
    (next : ℕ → Name → List (Call × σ × σ) → σ → Performed σ) : Performed σ :=
  match openParent kernel roots path request s with
  | (.error reply, s') => ⟨reply, opened, s'⟩
  | (.ok (parent, name), s') => next parent name (opened ++ [(.opened parent, s, s')]) s'

def performAction (action : CrmAction) (request : PrivilegeRequest) (s : σ) : Performed σ :=
  match action with
  | .open operation path => performOpen kernel roots operation path request s
  | .named operation path =>
    withParent kernel roots path request [] s (performOnName kernel operation request)
  | .rename path second =>
    withParent kernel roots path request [] s fun fromParent fromName opened s =>
      withParent kernel roots second request opened s fun parent name opened s =>
        finish opened (.renamed fromParent fromName parent name) s
          (kernel.renameat fromParent fromName parent name s)
  | .link path second =>
    withParent kernel roots path request [] s fun fromParent fromName opened s =>
      withParent kernel roots second request opened s fun parent name opened s =>
        finish opened (.linked fromParent fromName parent name) s
          (kernel.linkat fromParent fromName parent name s)
  | .symlink path target =>
    withParent kernel roots path request [] s fun parent name opened s =>
      finish opened (.madeSymlink parent name) s (kernel.symlinkat target parent name s)

def perform (request : PrivilegeRequest) (payload : List UInt8) (s : σ) : Performed σ :=
  match decode request payload with
  | .error status => ⟨.fail status, [], s⟩
  | .ok action => performAction kernel roots action request s

end Perform

end AceShell
