import AceShell.Lib.SlotTable
import AceShell.Paths.Discover
import AceShell.Privilege.Protocol

/-!
# The volume worker

The process that makes the device view, after `ace_fmm_volume.c`: its table of mounts, the names it
accepts and the requests on them. What the system answers while a request is served is a
`VolumeHost`; the calls to `mount` and `umount2` are recorded in the order in which they are made.
-/

namespace AceShell

open Text SlotTable

/-! ## State -/

/-- `VOLUME_MAX_DEVICES`. -/
def volumeMaxDevices : ℕ := 128

/-- `VOLUME_NAME_MAX`. -/
def volumeNameMax : ℕ := 64

/-- `VOLUME_TYPE_MAX`. -/
def volumeTypeMax : ℕ := 32

structure VolumeEntry where
  kernelName : Name
  viewPath : Name
  deriving DecidableEq

inductive NamespaceState
  | untried
  | ready
  | failed (e : Errno)
  deriving DecidableEq

/-- The variables of the worker. The view root is empty until it has been made. -/
structure VolumeWorker where
  volumes : List (Option VolumeEntry)
  viewRoot : Name
  namespaceState : NamespaceState
  deriving DecidableEq

/-- The calls that change mounts: of `/` as private, of a mounted directory elsewhere, of a device
with its type and options, and of `umount2`. -/
inductive VolumeCall
  | makePrivate
  | bindMount (source target : Name)
  | deviceMount (source target filesystemType options : Name)
  | unmount (target : Name)
  deriving DecidableEq

abbrev DeviceId := ℕ × ℕ

/-- What the system answers while one request is served; `none` is success. -/
structure VolumeHost where
  unshare : Option Errno := none
  /-- Making the directories of the view root, and of the target. -/
  makeRoot : Option Errno := none
  makeTarget : Option Errno := none
  /-- `stat` of the device: whether it is a block device, and its number. -/
  device : Except Errno (Bool × DeviceId) := .ok (true, (0, 0))
  /-- `stat` of the directory a bind starts from. -/
  sourceDevice : Except Errno DeviceId := .ok (0, 0)
  isMountpoint : Bool := false
  existingDeviceRoot : DeviceId → Option Name := fun _ => none
  /-- The group of the served user's account, if it can be looked up. -/
  account : Option ℕ := none
  mount : Option Errno := none
  umount : Option Errno := none

/-- What a request leads to; every call is given with whether it succeeded. -/
structure VolumeResult where
  status : PrivilegeStatus
  hostErrno : Option Errno := none
  reply : List UInt8 := []
  calls : List (VolumeCall × Bool) := []
  worker : VolumeWorker
  deriving DecidableEq

/-- An answer without a call. -/
def VolumeWorker.answer (worker : VolumeWorker) (status : PrivilegeStatus) : VolumeResult :=
  { status := status, worker := worker }

def VolumeWorker.hostError (worker : VolumeWorker) (e : Errno) : VolumeResult :=
  { status := .hostError, hostErrno := some e, worker := worker }

/-! ## Names -/

/-- `supported_filesystem`. -/
def supportedFilesystem (type : Name) : Bool :=
  caseEq type (ascii "vfat") || caseEq type (ascii "ext2") || caseEq type (ascii "ext3") ||
    caseEq type (ascii "ext4")

/-- `ownerless_filesystem`. -/
def ownerlessFilesystem (type : Name) : Bool := caseEq type (ascii "vfat")

/-- Letters, digits, `-` and `_`. -/
def isKernelNameByte (c : UInt8) : Bool := isAlnum c || c == 45 || c == 95

/-- `valid_kernel_name`. -/
def validKernelName (name : Name) : Bool :=
  !name.isEmpty && decide (name.length < volumeNameMax) && name.all isKernelNameByte

/-- `valid_type_name`. -/
def validTypeName (type : Name) : Bool :=
  !type.isEmpty && decide (type.length < volumeTypeMax) && type.all isAlnum

/-- `split_payload`. The type may start at the byte behind the declared length. -/
def splitPayload (payload : List UInt8) (length : ℕ) : Option (Name × Name) :=
  if length < 2 ∨ payload[length - 1]? ≠ some 0 then none
  else
    let name := cstr (payload.take length)
    let type := cstr (payload.drop (name.length + 1))
    if type = [] ∧ length - 1 ≤ name.length + 1 then none else some (name, type)

def strtoul (text : Name) : ℕ × Name :=
  let body := text.dropWhile isSpace
  let negative := body.head? == some 45
  let signless := if negative || body.head? == some 43 then body.drop 1 else body
  let isDigit (c : UInt8) := decide (48 ≤ c) && decide (c ≤ 57)
  let digits := signless.takeWhile isDigit
  if digits = [] then (0, text)
  else
    let value := digits.foldl (fun acc c => acc * 10 + (c.toNat - 48)) 0
    (if 2 ^ 64 ≤ value then 2 ^ 64 - 1
      else if negative then (2 ^ 64 - value) % 2 ^ 64 else value, signless.dropWhile isDigit)

def parseDeviceId (payload : List UInt8) (length : ℕ) : Option (ℕ × ℕ) :=
  if length < 4 ∨ 64 < length ∨ payload[length - 1]? ≠ some 0 then none
  else
    let text := cstr (payload.take length)
    if text.length ≠ length - 1 then none
    else
      let (major, rest) := strtoul text
      if rest = text ∨ rest.head? ≠ some 58 then none
      else
        let (minor, rest) := strtoul (rest.drop 1)
        if rest ≠ [] then none else some (major, minor)

/-- The digits that `%lu` prints. -/
def unsignedText (n : ℕ) : Name := if n = 0 then [48] else decimal n

def bindKey (major minor : ℕ) : Name :=
  ascii "fs-" ++ unsignedText major ++ ascii "-" ++ unsignedText minor

/-! ## The table -/

def entryFor (volumes : List (Option VolumeEntry)) (kernelName : Name) : Option ℕ :=
  volumes.findIdx? fun slot => slot.any fun entry => entry.kernelName == kernelName

/-- `free_entry`. -/
def freeEntry (volumes : List (Option VolumeEntry)) : Option ℕ := volumes.findIdx? (·.isNone)

def VolumeWorker.viewOf (worker : VolumeWorker) (kernelName : Name) : Option Name :=
  match (entryFor worker.volumes kernelName).bind (worker.volumes[·]?) with
  | some (some entry) => if entry.viewPath = [] then none else some entry.viewPath
  | _ => none

/-! ## Requests -/

section Requests

variable (configured : Name) (servedUid : ℕ) (host : VolumeHost)

/-- The path of the view root; `configured` is `ACE_MOUNT_ROOT`. -/
def viewRootPath : Name :=
  if configured = [] then ascii "/run/ace-" ++ unsignedText servedUid ++ ascii "/device-roots"
  else configured ++ ascii "/device-roots"

variable (worker : VolumeWorker)

/-- `ensure_view_root`. -/
def ensureViewRoot : Option Errno × VolumeWorker :=
  if worker.viewRoot ≠ [] then (none, worker)
  else if pathMax ≤ (viewRootPath configured servedUid).length then (some .enametoolong, worker)
  else
    match host.makeRoot with
    | some e => (some e, worker)
    | none => (none, { worker with viewRoot := viewRootPath configured servedUid })

/-- `init_namespace`. -/
def initNamespace :
    Option Errno × List (VolumeCall × Bool) × VolumeWorker :=
  match worker.namespaceState with
  | .ready => (none, [], worker)
  | .failed e => (some e, [], worker)
  | .untried =>
    match host.unshare with
    | some e => (some e, [], worker)
    | none => (none, [(.makePrivate, true)], { worker with namespaceState := .ready })

/-- `ace_fmm_volume_start_namespace`, which the supervisor calls once before the fork. -/
def startNamespace : NamespaceState :=
  match host.unshare with
  | some e => .failed e
  | none => .ready

/-- The reply that names a path. -/
def replyPath (path : Name) (calls : List (VolumeCall × Bool)) :
    VolumeResult :=
  if privilegeMaxPayload ≤ path.length then
    { status := .protocolError, calls := calls, worker := worker }
  else { status := .ok, reply := path ++ [0], calls := calls, worker := worker }

/-- The end of `do_mount` and of `do_bind`: the target is made, mounted and entered under the key. A
mount that finds no slot is taken back. -/
def attach (key target : Name) (call : VolumeCall) : VolumeResult :=
  match host.makeTarget with
  | some e => worker.hostError e
  | none =>
    if host.isMountpoint then worker.hostError .eother
    else
      match host.mount with
      | some e => { worker.hostError e with calls := [(call, false)] }
      | none =>
        match (entryFor worker.volumes key).or (freeEntry worker.volumes) with
        | none =>
          { worker.hostError .enospc with
            calls := [(call, true), (.unmount target, host.umount.isNone)] }
        | some index =>
          replyPath { worker with volumes := worker.volumes.set index (some ⟨key, target⟩) } target
            [(call, true)]

def mountOptions (type : Name) : Name :=
  if ownerlessFilesystem type then
    match host.account with
    | some group =>
      ascii "uid=" ++ unsignedText servedUid ++ ascii ",gid=" ++ unsignedText group
    | none => ascii "uid=" ++ unsignedText servedUid
  else []

variable (request : PrivilegeRequest)

variable (payload : List UInt8)

/-- `do_mount`. -/
def doMount (worker : VolumeWorker) :
    VolumeResult :=
  match splitPayload payload request.payloadLength with
  | none => worker.answer .protocolError
  | some (kernelName, filesystemType) =>
    if !validKernelName kernelName || !validTypeName filesystemType then worker.answer .escaped
    else if !supportedFilesystem filesystemType then worker.answer .unsupported
    else if worker.namespaceState ≠ .ready then worker.answer .refused
    else
      let devicePath := ascii "/dev/" ++ kernelName
      if pathMax ≤ devicePath.length then worker.answer .escaped
      else
        match host.device with
        | .error e => worker.hostError e
        | .ok (isBlock, deviceId) =>
          if !isBlock then { worker.answer .escaped with hostErrno := some .eother }
          else
            match ensureViewRoot configured servedUid host worker with
            | (some e, worker) => worker.hostError e
            | (none, worker) =>
              let target := worker.viewRoot ++ [slash] ++ kernelName
              if pathMax ≤ target.length then worker.answer .escaped
              else
                match worker.viewOf kernelName with
                | some path => replyPath worker path []
                | none =>
                  attach host worker kernelName target <|
                    match host.existingDeviceRoot deviceId with
                    | some source => .bindMount source target
                    | none =>
                      .deviceMount devicePath target filesystemType
                        (mountOptions servedUid host filesystemType)

/-- `do_bind`. -/
def doBind (worker : VolumeWorker) :
    VolumeResult :=
  match parseDeviceId payload request.payloadLength with
  | none => worker.answer .protocolError
  | some (major, minor) =>
    if worker.namespaceState ≠ .ready then worker.answer .refused
    else
      match ensureViewRoot configured servedUid host worker with
      | (some e, worker) => worker.hostError e
      | (none, worker) =>
        let key := bindKey major minor
        let target := worker.viewRoot ++ [slash] ++ key
        if 64 ≤ key.length ∨ pathMax ≤ target.length then worker.answer .escaped
        else
          match worker.viewOf key with
          | some path => replyPath worker path []
          | none =>
            let deviceId := (major % 2 ^ 32, minor % 2 ^ 32)
            match host.existingDeviceRoot deviceId with
            | none => worker.answer .unsupported
            | some source =>
              match host.sourceDevice with
              | .error e => worker.hostError e
              | .ok found =>
                if found ≠ deviceId then worker.answer .unsupported
                else attach host worker key target (.bindMount source target)

/-- `do_unmount`. -/
def doUnmount (worker : VolumeWorker) :
    VolumeResult :=
  if request.payloadLength = 0 ∨ payload[request.payloadLength - 1]? ≠ some 0 then
    worker.answer .protocolError
  else
    let kernelName := cstr payload
    if !validKernelName kernelName then worker.answer .escaped
    else
      match entryFor worker.volumes kernelName, worker.viewOf kernelName with
      | some index, some path =>
        match host.umount with
        | some e => { worker.hostError e with calls := [(.unmount path, false)] }
        | none =>
          { status := .ok
            calls := [(.unmount path, true)]
            worker := { worker with volumes := release index worker.volumes } }
      | _, _ => worker.hostError .enoent

/-- `do_list`. -/
def doList : VolumeResult :=
  let text := ((live worker.volumes).filter (·.viewPath ≠ [])).flatMap fun entry =>
    entry.kernelName ++ [9] ++ entry.viewPath ++ [10]
  if privilegeMaxPayload ≤ text.length then worker.answer .protocolError
  else { status := .ok, reply := text, worker := worker }

/-- `ace_fmm_volume_dispatch`. -/
def volumeDispatch (worker : VolumeWorker) :
    VolumeResult :=
  match request.opcode with
  | some .initNamespace =>
    match initNamespace host worker with
    | (some e, calls, worker) => { worker.hostError e with calls := calls }
    | (none, calls, worker) => { worker.answer .ok with calls := calls }
  | some .prepareView =>
    match initNamespace host worker with
    | (some e, calls, worker) => { worker.hostError e with calls := calls }
    | (none, calls, worker) =>
      match ensureViewRoot configured servedUid host worker with
      | (some e, worker) => { worker.hostError e with calls := calls }
      | (none, worker) => replyPath worker worker.viewRoot calls
  | some .mount => doMount configured servedUid host request payload worker
  | some .bind => doBind configured servedUid host request payload worker
  | some .unmount => doUnmount host request payload worker
  | some .list => doList worker
  | _ => worker.answer .refused

end Requests

/-- `ace_fmm_volume_shutdown`: the calls it makes, the last slot first, with what `umount2` answers
for each path. -/
def volumeShutdown (outcome : Name → Bool) (worker : VolumeWorker) : List (VolumeCall × Bool) :=
  (((live worker.volumes).map (·.viewPath)).filter (· ≠ [])).reverse.map fun path =>
    (.unmount path, outcome path)

def VolumeWorker.forked (namespaceState : NamespaceState) : VolumeWorker where
  volumes := List.replicate volumeMaxDevices none
  viewRoot := []
  namespaceState := namespaceState

end AceShell
