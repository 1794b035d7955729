import AceShell.Registry.Consistency

/-!
# Finding the ports of other processes

After `FindPort`, `CreatePort` and `DeletePort` in `aros_exec_runtime.c`. A port that another
process has registered with the broker is represented by a stand-in, and a message put on it goes to
the broker with the name of the stand-in. Stand-ins are never removed, and a name is looked up among
them before the broker, the machine of `AceShell.Registry`, is asked.
-/

namespace AceShell.Exec

open Text SlotTable List Option

abbrev MsgPort := ℕ

/-- `struct ace_named_port` -/
structure NamedPort where
  name : Name
  port : MsgPort
  brokerId : ℕ := 0
  deriving DecidableEq

structure RemotePort where
  port : MsgPort
  brokerId : ℕ
  name : Name
  deriving DecidableEq

/-- The broker, and the ports of this process. `nextPort` is the address of the next port. -/
structure Ports where
  broker : Broker
  namedPorts : List NamedPort := []
  remotePorts : List RemotePort := []
  nextPort : MsgPort := 1

/-- `find_port_name` -/
def findPortName (b : Broker) (name : Name) : Option BrokerPort :=
  (live b.ports).find? (·.name == name)

/-- A name as `strncpy` copies it into an array of 64 bytes that was cleared. -/
def portName (name : Name) : Name := name.take 63

/-- `native_broker_port_find` -/
def nativeBrokerPortFind (b : Broker) (name : Name) : Option ℕ :=
  ((findPortName b name).map BrokerPort.id).filter (· != 0)

/-- `FindPort` -/
def Ports.findPort (name : Name) (p : Ports) : Option MsgPort × Ports :=
  match p.namedPorts.find? (·.name == name) with
  | some entry => (some entry.port, p)
  | none =>
    match p.remotePorts.find? (·.name == name) with
    | some remote => (some remote.port, p)
    | none =>
      match nativeBrokerPortFind p.broker name with
      | none => (none, p)
      | some brokerId =>
        (some p.nextPort, { p with
          remotePorts := ⟨p.nextPort, brokerId, portName name⟩ :: p.remotePorts
          nextPort := p.nextPort + 1 })

/-- `CreatePort` with a name. `brokerId` is what the answer to `AMIGA_BROKER_PORT_ADD` left in the
entry. -/
def Ports.createPort (name : Name) (brokerId : ℕ) (p : Ports) : Ports :=
  { p with
    namedPorts := ⟨portName name, p.nextPort, brokerId⟩ :: p.namedPorts
    nextPort := p.nextPort + 1 }

def Ports.deletePort (port : MsgPort) (p : Ports) : Ports :=
  { p with namedPorts := p.namedPorts.eraseP (·.port == port) }

def Ports.standIn (port : MsgPort) (p : Ports) : Option RemotePort :=
  (p.remotePorts.find? (·.port == port)).filter (·.brokerId != 0)

/-! ## Histories -/

inductive PortsAction
  | broker (a : Action)
  | find (name : Name)
  | create (name : Name) (brokerId : ℕ)
  | delete (port : MsgPort)

/-- One step. -/
def Ports.act (root : Bool) : PortsAction → Ports → Ports
  | .broker a, p => { p with broker := p.broker.step root a }
  | .find name, p => (p.findPort name).2
  | .create name brokerId, p => p.createPort name brokerId
  | .delete port, p => p.deletePort port

/-- The broker and this process. -/
def portsMachine (root : Bool) : Machine Ports PortsAction where
  init := { broker := Broker.start }
  possible := fun a p =>
    match a with
    | .broker a => a.Possible p.broker
    | _ => True
  step := Ports.act root

/-- A message put on the stand-in goes to the port with this id, which has its name, and for which
the broker records what it accepts under it. -/
def Ports.SendsTo (p : Ports) (port : MsgPort) (id : ℕ) : Prop :=
  ∃ remote, p.standIn port = some remote ∧
    (findPortName p.broker remote.name).map BrokerPort.id = some id ∧
    ∀ connection b', p.broker.putMessage connection remote.name true = (none, b') →
      ∃ message ∈ live b'.portMessages, message.id = p.broker.nextPortMessageId ∧
        message.portId = id

/-- Nothing, if the broker has no port of the name, and else a stand-in that sends to the port it
has. -/
def Ports.Truthful (p : Ports) (name : Name) : Prop :=
  match findPortName p.broker name with
  | none => (p.findPort name).1 = none
  | some registered =>
    ∃ port, (p.findPort name).1 = some port ∧ (p.findPort name).2.SendsTo port registered.id

/-! ## What holds of the stand-ins -/

structure Ports.Sound (p : Ports) : Prop where
  broker : p.broker.Consistent
  distinct : (p.remotePorts.map RemotePort.port).Nodup
  allocated : ∀ remote ∈ p.remotePorts, remote.port < p.nextPort
  registered : ∀ remote ∈ p.remotePorts, remote.brokerId ≠ 0

variable {remote : RemotePort} {b : Broker} {port : BrokerPort}

section Proofs

variable {root : Bool} {p : Ports} {name : Name}

theorem Ports.Sound.standIn_of_mem (h : p.Sound) (hmem : remote ∈ p.remotePorts)
    : p.standIn remote.port = some remote := by
  have hfind : p.remotePorts.find? (·.port == remote.port) = some remote := by
    cases hfound : p.remotePorts.find? (·.port == remote.port) with
    | none => exact absurd BEq.rfl (find?_eq_none.mp hfound remote hmem)
    | some other =>
      have hport := find?_some hfound
      exact congrArg some (inj_on_of_nodup_map h.distinct (mem_of_find?_eq_some hfound)
        hmem (beq_iff_eq.mp hport))
  unfold Ports.standIn
  rw [hfind, filter_some, if_pos (bne_iff_ne.mpr (h.registered remote hmem))]

theorem nativeBrokerPortFind_eq (h : b.Consistent) (name : Name) :
    nativeBrokerPortFind b name = (findPortName b name).map BrokerPort.id := by
  unfold nativeBrokerPortFind
  cases hfound : findPortName b name with
  | none => rfl
  | some port =>
    have hmem : port ∈ live b.ports := mem_of_find?_eq_some hfound
    have hid : port.id ≠ 0 := (h.ports.keys port hmem).ne'
    rw [map_some, filter_some, if_pos (bne_iff_ne.mpr hid)]

theorem putMessage_port {b' : Broker} {connection : Connection}
    (hfind : findPortName b name = some port) (h : b.putMessage connection name true = (none, b')) :
    ∃ message ∈ live b'.portMessages, message.id = b.nextPortMessageId ∧
      message.portId = port.id := by
  have hfound : (live b.ports).find? (·.name == name) = some port := hfind
  unfold Broker.putMessage at h
  by_cases hname : name = []
  · rw [if_pos hname] at h
    exact nomatch (Prod.mk.inj h).1
  rw [if_neg hname, hfound] at h
  dsimp only at h
  by_cases hpid : connection.peerPid ≤ 0
  · rw [if_pos hpid] at h
    exact nomatch (Prod.mk.inj h).1
  rw [if_neg hpid] at h
  split at h
  · split at h
    · exact nomatch (Prod.mk.inj h).1
    rename_i hplace
    rw [← (Prod.mk.inj h).2]
    exact ⟨_, (mem_live_place hplace).mpr (.inl rfl), rfl, rfl⟩
  · exact nomatch (Prod.mk.inj h).1

theorem Ports.Sound.sendsTo (h : p.Sound) (hmem : remote ∈ p.remotePorts)
    (hfind : findPortName p.broker remote.name = some port) : p.SendsTo remote.port port.id := by
  refine ⟨remote, h.standIn_of_mem hmem, by rw [hfind]; rfl, ?_⟩
  exact fun connection b' hput => putMessage_port hfind hput

theorem Ports.Sound.addStandIn (h : p.Sound) {brokerId : ℕ} (hid : brokerId ≠ 0) (name : Name) :
    Ports.Sound { p with
      remotePorts := ⟨p.nextPort, brokerId, name⟩ :: p.remotePorts
      nextPort := p.nextPort + 1 } where
  broker := h.broker
  distinct := by
    refine nodup_cons.mpr ⟨fun hmem => ?_, h.distinct⟩
    obtain ⟨remote, hremote, hport⟩ := mem_map.mp hmem
    exact absurd (h.allocated remote hremote) (by rw [hport]; exact Nat.lt_irrefl _)
  allocated := forall_mem_cons.mpr ⟨Nat.lt_succ_self _, fun remote hremote =>
    Nat.lt_succ_of_lt (h.allocated remote hremote)⟩
  registered := forall_mem_cons.mpr ⟨hid, h.registered⟩

theorem Ports.Sound.findPort (h : p.Sound) (name : Name) : (p.findPort name).2.Sound := by
  unfold Ports.findPort
  split
  · exact h
  split
  · exact h
  split
  · exact h
  rename_i brokerId hfound
  have hid := (filter_eq_some_iff.mp hfound).2
  exact h.addStandIn (bne_iff_ne.mp hid) _

theorem Ports.Sound.act (h : p.Sound) {a : PortsAction} (hposs : (portsMachine root).possible a p) :
    (p.act root a).Sound := by
  cases a with
  | broker a => exact ⟨Broker.step_consistent hposs h.broker, h.distinct, h.allocated, h.registered⟩
  | find name => exact h.findPort name
  | create name brokerId =>
    exact ⟨h.broker, h.distinct, fun remote hremote => Nat.lt_succ_of_lt
      (h.allocated remote hremote), h.registered⟩
  | delete port => exact { h with }

theorem ports_sound {n : ℕ} (hrun : (portsMachine root).Run n p) : p.Sound := by
  have hinit : Ports.Sound { broker := Broker.start } :=
    ⟨Broker.consistent_start, nodup_nil, nofun,
      nofun⟩
  exact hrun.invariant (P := fun _ p => p.Sound) hinit
    (fun _ _ _ _ _ hposs h => h.act hposs) (Nat.lt_succ_self n)

end Proofs

/-- **When `FindPort` tells the truth.** In every history, a call for a name shorter than 64 bytes
that this process has no port of its own for gives the true answer exactly if there is no stand-in
for the name yet or the broker has a port of this name. -/
theorem findPort_truthful_iff (root : Bool) {n : ℕ} {p : Ports} (hrun : (portsMachine root).Run n p)
    {name : Name} (hshort : name.length < 64)
    (hforeign : ∀ entry ∈ p.namedPorts, entry.name ≠ name) :
    p.Truthful name ↔
      (∀ remote ∈ p.remotePorts, remote.name ≠ name) ∨ (findPortName p.broker name).isSome := by
  have hsound := ports_sound hrun
  have hnamed : p.namedPorts.find? (·.name == name) = none :=
    find?_eq_none.mpr fun entry hentry hname => hforeign entry hentry (beq_iff_eq.mp hname)
  unfold Ports.Truthful
  cases hremote : p.remotePorts.find? (·.name == name) with
  | some remote =>
    -- A stand-in for the name is there, and is the answer whatever the broker has.
    have hmem := mem_of_find?_eq_some hremote
    have hname : remote.name = name :=
      beq_iff_eq.mp (find?_some (p := fun r : RemotePort => r.name == name) hremote)
    have hanswer : p.findPort name = (some remote.port, p) := by
      unfold Ports.findPort
      rw [hnamed]
      rw [hremote]
    cases hregistered : findPortName p.broker name with
    | none =>
      rw [hanswer]
      refine iff_of_false nofun ?_
      rintro (hnone | hsome)
      · exact hnone remote hmem hname
      · exact nomatch hsome
    | some registered =>
      rw [hanswer]
      refine iff_of_true ⟨remote.port, rfl, ?_⟩ (.inr rfl)
      exact hsound.sendsTo hmem (hname ▸ hregistered)
  | none =>
  -- The broker is asked.
  have hnone : ∀ remote ∈ p.remotePorts, remote.name ≠ name :=
    fun remote hmem hname => find?_eq_none.mp hremote remote hmem (beq_iff_eq.mpr hname)
  refine iff_of_true ?_ (.inl hnone)
  have hbroker := nativeBrokerPortFind_eq hsound.broker name
  cases hregistered : findPortName p.broker name with
  | none =>
    rw [hregistered, map_none] at hbroker
    unfold Ports.findPort
    rw [hnamed]
    rw [hremote]
    rw [hbroker]
  | some registered =>
  rw [hregistered, map_some] at hbroker
  have hid : registered.id ≠ 0 :=
    (hsound.broker.ports.keys registered (mem_of_find?_eq_some hregistered)).ne'
  have hanswer : p.findPort name = (some p.nextPort, { p with
      remotePorts := ⟨p.nextPort, registered.id, portName name⟩ :: p.remotePorts
      nextPort := p.nextPort + 1 }) := by
    unfold Ports.findPort
    rw [hnamed]
    rw [hremote]
    rw [hbroker]
  have hcopy : portName name = name := take_of_length_le (by omega)
  rw [hanswer, hcopy]
  have hnew : (⟨p.nextPort, registered.id, name⟩ : RemotePort) ∈
      ⟨p.nextPort, registered.id, name⟩ :: p.remotePorts := mem_cons_self
  exact ⟨p.nextPort, rfl, (hsound.addStandIn hid name).sendsTo hnew hregistered⟩

def rexxRegistered : List PortsAction :=
  [.broker (.accept 5 10), .broker (.request 0 (ascii "s") (.portAdd (ascii "REXX") (ascii "10")))]

/-- REXX is registered, and was found before. -/
theorem findPort_truthful_iff_rexx :
    ∃ n p, (portsMachine false).Run n p ∧ (findPortName p.broker (ascii "REXX")).isSome ∧
      p.Truthful (ascii "REXX") := by
  have hcan : (portsMachine false).CanExec (rexxRegistered ++ [.find (ascii "REXX")])
      (portsMachine false).init := by
    refine ⟨?_, ?_, trivial, trivial⟩
    · exact nofun
    · show 0 < _
      decide +kernel
  have hrun := Machine.Run.start.exec hcan
  have hfound : (findPortName ((portsMachine false).exec
      (rexxRegistered ++ [.find (ascii "REXX")]) (portsMachine false).init).broker
      (ascii "REXX")).isSome = true := by decide +kernel
  refine ⟨_, _, hrun, hfound, ?_⟩
  refine (findPort_truthful_iff false hrun (by decide) ?_).mpr (.inr hfound)
  exact nofun

/-- The port was found once, and its process has gone: `FindPort` still finds it. -/
theorem stand_in_outlives_port :
    ∃ n p, (portsMachine false).Run n p ∧ findPortName p.broker (ascii "REXX") = none ∧
      (p.findPort (ascii "REXX")).1 = some 1 := by
  have hcan : (portsMachine false).CanExec
      (rexxRegistered ++ [.find (ascii "REXX"), .broker (.close 0)]) (portsMachine false).init := by
    refine ⟨?_, ?_, trivial, ?_, trivial⟩
    · exact nofun
    · show 0 < _
      decide +kernel
    · show 0 < _
      decide +kernel
  exact ⟨_, _, Machine.Run.start.exec hcan, by decide +kernel, by decide +kernel⟩

end AceShell.Exec
