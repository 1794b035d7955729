import AceShell.Basic

/-!
# The privilege protocol

The requests that the broker sends to the root processes, after `ace_privilege_protocol.h`: the
classes of operations, the capability bits, the fixed header and the statuses of a reply.
-/

namespace AceShell

/-! ## Operations -/

inductive OperationClass
  | control | volume | access | unknown
  deriving DecidableEq

/-- `ACE_PRIVILEGE_CLASS_OF`. -/
def classOf (operation : UInt32) : OperationClass :=
  let bits := operation &&& 0xFF00
  if bits = 0x0000 then .control
  else if bits = 0x0100 then .volume
  else if bits = 0x0200 then .access
  else .unknown

inductive Opcode
  | hello | caps | ping | cancel | dropPrivilege | shutdown | spawnAccess
  | initNamespace | prepareView | mount | unmount | list | bind
  | openRead | openWrite | openDir | stat | unlink | rename | mkdir | setProtection | setDate
  | symlink | link
  deriving DecidableEq

namespace Opcode

/-- The number of an opcode. -/
def code : Opcode → UInt32
  | hello => 0x0001
  | caps => 0x0002
  | ping => 0x0003
  | cancel => 0x0004
  | dropPrivilege => 0x0005
  | shutdown => 0x0006
  | spawnAccess => 0x0007
  | initNamespace => 0x0101
  | prepareView => 0x0102
  | mount => 0x0103
  | unmount => 0x0104
  | list => 0x0105
  | bind => 0x0106
  | openRead => 0x0201
  | openWrite => 0x0202
  | openDir => 0x0203
  | stat => 0x0204
  | unlink => 0x0205
  | rename => 0x0206
  | mkdir => 0x0207
  | setProtection => 0x0208
  | setDate => 0x0209
  | symlink => 0x020A
  | link => 0x020B

def all : List Opcode :=
  [hello, caps, ping, cancel, dropPrivilege, shutdown, spawnAccess, initNamespace, prepareView,
    mount, unmount, list, bind, openRead, openWrite, openDir, stat, unlink, rename, mkdir,
    setProtection, setDate, symlink, link]

def ofCode (code : UInt32) : Option Opcode := all.find? fun opcode => opcode.code = code

theorem code_of_ofCode {number : UInt32} {opcode : Opcode} (h : ofCode number = some opcode) :
    opcode.code = number := by
  simpa using List.find?_some h

end Opcode

/-- `ACE_PRIVILEGE_CAP_VOLUME`. -/
def capVolume : UInt32 := 0x0001

/-- `ACE_PRIVILEGE_CAP_ACCESS`. -/
def capAccess : UInt32 := 0x0002

/-! ## Requests -/

/-- `ACE_PRIVILEGE_MAX_PAYLOAD`. -/
def privilegeMaxPayload : ℕ := 8192

/-- `ACE_PRIVILEGE_FLAG_CREATE`. -/
def flagCreate : UInt32 := 0x0001

/-- `ACE_PRIVILEGE_FLAG_TRUNCATE`. -/
def flagTruncate : UInt32 := 0x0002

/-- `ACE_PRIVILEGE_FLAG_APPEND`. -/
def flagAppend : UInt32 := 0x0004

/-- `ACE_PRIVILEGE_FLAG_EXCLUSIVE`. -/
def flagExclusive : UInt32 := 0x0008

/-- `ACE_PRIVILEGE_FLAG_HOST_PATH`. -/
def flagHostPath : UInt32 := 0x0020

/-- `ACE_PRIVILEGE_FLAG_UPDATE`. -/
def flagUpdate : UInt32 := 0x0040

/-- `ACE_PRIVILEGE_FLAG_NOFOLLOW`. -/
def flagNofollow : UInt32 := 0x0080

/-- `struct ace_privilege_request`. `goodMagic` says that its magic is `ACE_PRIVILEGE_MAGIC`. -/
structure PrivilegeRequest where
  goodMagic : Bool
  operation : UInt32
  flags : UInt32
  mode : UInt32
  firstPathLength : ℕ
  payloadLength : ℕ
  modificationTime : ℤ
  deriving DecidableEq

/-- Some flag of the mask is set. -/
def PrivilegeRequest.has (request : PrivilegeRequest) (mask : UInt32) : Bool :=
  request.flags &&& mask != 0

def PrivilegeRequest.opcode (request : PrivilegeRequest) : Option Opcode :=
  Opcode.ofCode request.operation

/-- `enum ace_privilege_status`. -/
inductive PrivilegeStatus
  | ok | refused | escaped | unauthorised | hostError | cancelled | unsupported | protocolError
  deriving DecidableEq

/-- A record as it arrives on a channel: too short to hold a header, or a header and the bytes
behind it. -/
inductive Datagram
  | short
  | record (request : PrivilegeRequest) (carried : List UInt8)
  deriving DecidableEq

theorem PrivilegeRequest.classOf_operation {request : PrivilegeRequest} {opcode : Opcode}
    (h : request.opcode = some opcode) : classOf request.operation = classOf opcode.code := by
  rw [Opcode.code_of_ofCode h]

end AceShell
