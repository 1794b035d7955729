import AceShell.Lib.Machine
import AceShell.Privilege.CrmServe
import AceShell.Privilege.Volume

/-!
# The supervisor and its workers

The root processes as one system, after `ace_fmm.c`: the supervisor, which speaks with the broker
after a handshake; the volume worker, which only the supervisor can reach; and the access workers
(CRMs), each with a channel that the broker holds. A step is a datagram or the end of a channel.
-/

namespace AceShell

open Text

/-! ## The handshake -/

/-- `struct ace_privilege_hello`; magic and version are given by whether they are right. -/
structure Hello where
  goodMagic : Bool
  goodVersion : Bool
  nonce : List UInt8
  brokerPid : ℤ
  requestedCapabilities : UInt32
  deriving DecidableEq

structure PeerCredentials where
  uid : ℕ
  pid : ℤ
  deriving DecidableEq

def handshakeStatus (expectedNonce : List UInt8) (servedUid : ℕ) (hello : Hello)
    (peer : Option PeerCredentials) : PrivilegeStatus :=
  if hello.goodMagic = false ∨ hello.goodVersion = false then .protocolError
  else if hello.nonce ≠ expectedNonce then .unauthorised
  else
    match peer with
    | none => .protocolError
    | some peer =>
      if peer.uid ≠ servedUid then .unauthorised
      else if hello.brokerPid ≠ peer.pid then .unauthorised
      else .ok

/-- `perform_handshake`: the capabilities granted, if the supervisor goes on. `sent` says whether
the answer could be sent. -/
def performHandshake (expectedNonce : List UInt8) (servedUid : ℕ) (hello : Hello)
    (peer : Option PeerCredentials) (sent : Bool) : Option UInt32 :=
  if handshakeStatus expectedNonce servedUid hello peer = .ok ∧ sent = true then
    some (hello.requestedCapabilities &&& (capVolume ||| capAccess))
  else none

/-! ## The processes -/

structure AccessWorker where
  serving : Bool
  roots : CrmRoots
  buffer : List UInt8
  deriving DecidableEq

inductive PrivilegedOperation
  | volume (request : PrivilegeRequest)
  | access (request : PrivilegeRequest) (action : CrmAction)
  deriving DecidableEq

/-- `struct fmm_state`, the workers forked, the file system they act on, and the log of operations.
-/
structure Fmm (σ : Type) where
  serving : Bool
  capabilities : UInt32
  viewRoot : Name
  volumeOpen : Bool
  volume : VolumeWorker
  volumeBuffer : List UInt8
  access : List AccessWorker
  files : σ
  performed : List PrivilegedOperation
  deriving DecidableEq

/-- What does not change: the system calls of an access worker, its directories, and the arguments
of the volume worker. -/
structure FmmHost (σ : Type) where
  kernel : Kernel σ
  openRoot : Name → σ → Option ℕ
  configured : Name
  servedUid : ℕ

/-- A forwarded request is answered, it cannot be sent, or the worker is gone before it answers. -/
inductive Forwarding
  | answered | unsent | lost
  deriving DecidableEq

/-- What the system answers: whether a worker can be forked, how a request is relayed, whether an
answer can be sent, what the volume worker meets, and what a forked worker finds in its payload
buffer. -/
structure RequestHost where
  forked : Option Errno := none
  relay : Forwarding := .answered
  sent : Bool := true
  volume : VolumeHost := {}
  stack : List UInt8 := []

section Processes

variable {σ : Type} (host : FmmHost σ) (env : RequestHost)

/-- The supervisor leaves its loop. `stop_volume_worker` closes the channel to the volume worker,
which takes its mounts down. -/
def Fmm.leave (fmm : Fmm σ) : Fmm σ :=
  { fmm with
    serving := false
    volumeOpen := false
    volume := .forked fmm.volume.namespaceState }

/-- `spawn_crm`. -/
def spawnCrm (fmm : Fmm σ) : Option PrivilegeStatus × Fmm σ :=
  match env.forked with
  | some _ => (some .hostError, fmm)
  | none =>
    let view := if fmm.viewRoot = [] then none else host.openRoot fmm.viewRoot fmm.files
    let worker : AccessWorker :=
      { serving := env.sent
        roots := ⟨view, host.openRoot [slash] fmm.files⟩
        buffer := env.stack }
    let fmm := { fmm with access := fmm.access ++ [worker] }
    if env.sent then (some .ok, fmm) else (none, fmm.leave)

variable (request : PrivilegeRequest)

variable (payload : List UInt8)

def serveVolume (fmm : Fmm σ) :
    VolumeResult × Fmm σ :=
  let buffer := receive (payload.take request.payloadLength) fmm.volumeBuffer
  let result := volumeDispatch host.configured host.servedUid env.volume request buffer fmm.volume
  (result, { fmm with
    volume := result.worker
    volumeBuffer := buffer
    performed := fmm.performed ++ [.volume request] })

def reportedRoot (result : VolumeResult) (viewRoot : Name) : Name :=
  if request.opcode = some .prepareView ∧ result.status = .ok ∧ result.reply.length ≤ pathMax ∧
      result.reply.getLast? = some 0 then
    cstr result.reply
  else viewRoot

/-- `forward_to_volume`. -/
def forwardToVolume (fmm : Fmm σ) :
    Option PrivilegeStatus × Fmm σ :=
  if fmm.volumeOpen = false then (some .hostError, fmm)
  else
    match env.relay with
    | .unsent => (some .hostError, { fmm with volumeOpen := false })
    | .lost =>
      (some .hostError, { (serveVolume host env request payload fmm).2 with volumeOpen := false })
    | .answered =>
      let (result, fmm) := serveVolume host env request payload fmm
      let fmm := { fmm with viewRoot := reportedRoot request result fmm.viewRoot }
      if env.sent then (some result.status, fmm) else (none, fmm.leave)

def dispatch (fmm : Fmm σ) :
    Option PrivilegeStatus × Fmm σ :=
  if request.goodMagic = false ∨ privilegeMaxPayload < request.payloadLength then
    (some .protocolError, fmm.leave)
  else if classOf request.operation = .volume ∧ fmm.capabilities &&& capVolume = 0 then
    (some .refused, fmm)
  else if classOf request.operation = .access ∧ fmm.capabilities &&& capAccess = 0 then
    (some .refused, fmm)
  else
    match request.opcode with
    | some .ping | some .caps | some .cancel => (some .ok, fmm)
    | some .dropPrivilege | some .shutdown => (some .ok, fmm.leave)
    | some .spawnAccess => spawnCrm host env fmm
    | _ =>
      match classOf request.operation with
      | .volume => forwardToVolume host env request payload fmm
      | .access => (some .unsupported, fmm)
      | _ => (some .refused, fmm)

def serveDatagram (datagram : Datagram) (fmm : Fmm σ) : Option PrivilegeStatus × Fmm σ :=
  match datagram with
  | .short => (none, fmm.leave)
  | .record request carried =>
    if privilegeMaxPayload < request.payloadLength ∨ carried.length < request.payloadLength then
      (none, fmm.leave)
    else dispatch host env request carried fmm

def serveAccess (index : ℕ) (datagram : Datagram) (sent : Bool) (fmm : Fmm σ) : Fmm σ :=
  match fmm.access[index]? with
  | none => fmm
  | some worker =>
    if worker.serving then
      let turn := crmTurn host.kernel worker.roots datagram sent worker.buffer fmm.files
      { fmm with
        access := fmm.access.set index
          { worker with serving := turn.serving, buffer := turn.buffer }
        files := turn.state
        performed := fmm.performed ++
          match turn.decision with
          | .act request action => [.access request action]
          | _ => [] }
    else fmm

end Processes

/-! ## Runs -/

/-- A datagram to the supervisor or to an access worker, the passing of the deadline, or the end of
a channel. -/
inductive FmmAction
  | request (datagram : Datagram) (env : RequestHost)
  | access (index : ℕ) (datagram : Datagram) (sent : Bool)
  | lapse
  | hangUp
  | hangUpAccess (index : ℕ)

section Runs

variable {σ : Type} (host : FmmHost σ)

def fmmStep (action : FmmAction) (fmm : Fmm σ) : Fmm σ :=
  match action with
  | .request datagram env =>
    if fmm.serving then (serveDatagram host env datagram fmm).2 else fmm
  | .access index datagram sent => serveAccess host index datagram sent fmm
  | .lapse | .hangUp => if fmm.serving then fmm.leave else fmm
  | .hangUpAccess index =>
    { fmm with access := fmm.access.modify index fun worker => { worker with serving := false } }

/-- The system after the handshake; `stack` is what the volume worker finds in its payload buffer.
-/
def Fmm.start (namespaceHost : VolumeHost) (capabilities : UInt32) (stack : List UInt8)
    (files : σ) :
    Fmm σ where
  serving := true
  capabilities := capabilities
  viewRoot := []
  volumeOpen := true
  volume := .forked (startNamespace namespaceHost)
  volumeBuffer := stack
  access := []
  files := files
  performed := []

def fmmMachine (start : Fmm σ) (allowed : FmmAction → Fmm σ → Prop) :
    Machine (Fmm σ) FmmAction where
  init := start
  possible := allowed
  step := fmmStep host

end Runs

end AceShell
