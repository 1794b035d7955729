import AceShell.Registry.Broker

/-!
# Requests that change the registry

`handle_client` finds or makes the session a request names and then serves its operation. Here
are the operations that touch the registry; every other one, which at most changes the data of its
session, is `other`. What the program learns from the system while it serves a request, such as
whether a record could be written, is part of the operation.
-/

namespace AceShell

open Text SlotTable Ledger List Option

inductive Operation
  /-- `AMIGA_BROKER_ATTACH`; `failure` is the status when the root services do not start. -/
  | attach (failure : Option Errno)
  | taskAttach (name pidText : Name)
  | portAttach (pidText : Name)
  | portAdd (name pidText : Name)
  | portRem (idText : Name)
  /-- `written` says whether the record went down the owner's channel. -/
  | portPut (name : Name) (written : Bool)
  | portReply (idText : Name) (written : Bool)
  | cloneSession (id : Name)
  | other
  deriving DecidableEq

abbrev Response := Option Errno × Broker

/-- A slot whose id field is `id`; that of a free slot is 0. -/
def slotHasId {α : Type} (idOf : α → ℕ) (id : ℕ) (slot : Option α) : Bool :=
  slot.elim 0 idOf == id

variable {b : Broker}

namespace Broker

/-- Write back a connection. -/
def setConnection (b : Broker) (index : ℕ) (connection : Connection) : Broker :=
  { b with connections := b.connections.set index connection }

/-! ## Operations -/

/-- `AMIGA_BROKER_ATTACH`. -/
def attach (root : Bool) (index : ℕ) (connection : Connection) (session : ℕ)
    (failure : Option Errno) (b : Broker) : Response :=
  if connection.anchor.isSome then (some .ealready, b)
  else if root ∧ b.rootShells = 0 ∧ failure.isSome then (failure, b)
  else
    let b := b.setConnection index { connection with anchor := some session }
    (none, { b with
      sessions := b.sessions.modify session
        (Option.map fun s => { s with anchors := (s.anchors + 1) % 2 ^ 32 })
      rootShells := if root then (b.rootShells + 1) % 2 ^ 32 else b.rootShells })

/-- `attach_task`. -/
def attachTask (index : ℕ) (connection : Connection) (session : ℕ) (name pidText : Name)
    (b : Broker) : Response :=
  match parsePid pidText with
  | none => (some .einval, b)
  | some pid =>
    if connection.taskId ≠ 0 ∨ name = [] ∨ maxName ≤ name.length then (some .einval, b)
    else
      match place ⟨b.nextTaskId, connection.fd, session, pid, name⟩ b.tasks with
      | none => (some .enospc, b)
      | some tasks =>
        let b' := b.setConnection index { connection with taskId := b.nextTaskId }
        (none, { b' with tasks := tasks, nextTaskId := nextId b.nextTaskId })

def replaceChannel (pid : ℤ) (b : Broker) : Broker :=
  match b.portChannels.findIdx? fun slot => slot.any (·.pid == pid) with
  | none => b
  | some index =>
    let b := b.abandonMessagesForOwner pid
    { b with portChannels := release index b.portChannels }

/-- `attach_port_channel`. -/
def attachPortChannel (index : ℕ) (connection : Connection) (pidText : Name) (b : Broker) :
    Response :=
  if connection.portChannelId ≠ 0 then (some .einval, b)
  else
    match parsePid pidText with
    | none => (some .einval, b)
    | some pid =>
      let b := b.replaceChannel pid
      match place ⟨b.nextPortChannelId, connection.fd, pid⟩ b.portChannels with
      | none => (some .enospc, b)
      | some portChannels =>
        let b' := b.setConnection index { connection with portChannelId := b.nextPortChannelId }
        (none, { b' with
          portChannels := portChannels, nextPortChannelId := nextId b.nextPortChannelId })

/-- `add_port`. -/
def addPort (connection : Connection) (session : ℕ) (name pidText : Name) (b : Broker) :
    Response :=
  match parsePid pidText with
  | none => (some .einval, b)
  | some pid =>
    if name = [] ∨ maxName ≤ name.length then (some .einval, b)
    else if (live b.ports).any (·.name == name) then (some .eexist, b)
    else
      match place ⟨b.nextPortId, connection.fd, session, pid, name⟩ b.ports with
      | none => (some .enospc, b)
      | some ports => (none, { b with ports := ports, nextPortId := nextId b.nextPortId })

/-- `AMIGA_BROKER_PORT_REM`. The id 0 finds a free slot, and clears it. -/
def remPort (idText : Name) (b : Broker) : Response :=
  match parseId idText with
  | none => (some .einval, b)
  | some id =>
    match b.ports.findIdx? (slotHasId BrokerPort.id id) with
    | none => (some .esrch, b)
    | some index =>
      let b := b.abandonMessagesForPort id
      (none, { b with ports := release index b.ports })

/-- `AMIGA_BROKER_PORT_PUT`. A message whose record cannot be written is taken back, but its id
is used up. -/
def putMessage (connection : Connection) (name : Name) (written : Bool) (b : Broker) : Response :=
  if name = [] then (some .einval, b)
  else
    match (live b.ports).find? (·.name == name) with
    | none => (some .esrch, b)
    | some port =>
      if connection.peerPid ≤ 0 then (some .eperm, b)
      else
        match (live b.portChannels).find? (·.pid == port.pid),
          (live b.portChannels).find? (·.pid == connection.peerPid) with
        | some _, some senderChannel =>
          let message : PortMessage :=
            ⟨b.nextPortMessageId, port.id, senderChannel.fd, connection.peerPid, port.pid⟩
          match place message b.portMessages with
          | none => (some .enospc, b)
          | some portMessages =>
            if written then
              (none, { b with
                portMessages := portMessages
                nextPortMessageId := nextId b.nextPortMessageId
                log := .opened ⟨message.id, b.serialOf senderChannel.fd, port.pid⟩ :: b.log })
            else (some .eio, { b with nextPortMessageId := nextId b.nextPortMessageId })
        | _, _ => (some .enotconn, b)

/-- `AMIGA_BROKER_PORT_REPLY`. The id 0 finds a free slot, whose owner is nobody. -/
def replyMessage (connection : Connection) (idText : Name) (written : Bool) (b : Broker) :
    Response :=
  match parseId idText with
  | none => (some .einval, b)
  | some id =>
    match b.portMessages.findIdx? (slotHasId PortMessage.id id) with
    | none => (some .esrch, b)
    | some index =>
      match (b.portMessages[index]?).join with
      | none => (some .eperm, b)
      | some message =>
        if connection.peerPid ≤ 0 ∨ connection.peerPid ≠ message.ownerPid then (some .eperm, b)
        else
          (if written then none else some .eio, { b with
            portMessages := release index b.portMessages
            log := .answered message.id (b.serialOf message.senderChannelFd) connection.peerPid ::
              b.log })

def cloneSession (session : ℕ) (id : Name) (b : Broker) : Response :=
  if id = [] ∨ sessionIdSize ≤ id.length then (some .einval, b)
  else if (b.sessions[session]?).join.any (·.id == id) then (some .einval, b)
  else
    match b.findSession id with
    | some (_, b) => (some .eexist, b)
    | none =>
      match b.getSession id with
      | none => (some .enospc, b)
      | some (_, b) => (none, b)

def serve (root : Bool) (index : ℕ) (connection : Connection) (session : ℕ) (b : Broker) :
    Operation → Response
  | .attach failure => b.attach root index connection session failure
  | .taskAttach name pidText => b.attachTask index connection session name pidText
  | .portAttach pidText => b.attachPortChannel index connection pidText
  | .portAdd name pidText => b.addPort connection session name pidText
  | .portRem idText => b.remPort idText
  | .portPut name written => b.putMessage connection name written
  | .portReply idText written => b.replyMessage connection idText written
  | .cloneSession id => b.cloneSession session id
  | .other => (none, b)

def handleClient (root : Bool) (index : ℕ) (sessionId : Name) (operation : Operation)
    (b : Broker) : Response :=
  match b.connections[index]? with
  | none => (none, b)
  | some connection =>
    match b.getSession sessionId with
    | none => (some .enospc, b)
    | some (session, b) => b.serve root index connection session operation

/-! ## What a request can do

`Served` lists the outcomes of `serve`. What the tables keep from request to request is proved
by cases on it, never by unfolding the operations again. -/

/-- The brokers a request of the connection at `index`, in a session, can leave behind. -/
inductive Served (root : Bool) (index : ℕ) (connection : Connection) (session : ℕ) (b : Broker) :
    Broker → Prop
  | unchanged : Served root index connection session b b
  | attached (hanchor : connection.anchor = none) :
    Served root index connection session b
      { b.setConnection index { connection with anchor := some session } with
        sessions := b.sessions.modify session
          (Option.map fun s => { s with anchors := (s.anchors + 1) % 2 ^ 32 })
        rootShells := if root then (b.rootShells + 1) % 2 ^ 32 else b.rootShells }
  | taskAttached {pid : ℤ} {name : Name} {tasks : List (Option BrokerTask)}
    (htask : connection.taskId = 0)
    (hplace : place ⟨b.nextTaskId, connection.fd, session, pid, name⟩ b.tasks = some tasks) :
    Served root index connection session b
      { b.setConnection index { connection with taskId := b.nextTaskId } with
        tasks := tasks, nextTaskId := nextId b.nextTaskId }
  | channelReplaced (pid : ℤ) : Served root index connection session b (b.replaceChannel pid)
  | channelAttached {pid : ℤ} {portChannels : List (Option PortChannel)}
    (hplace : place ⟨(b.replaceChannel pid).nextPortChannelId, connection.fd, pid⟩
      (b.replaceChannel pid).portChannels = some portChannels) :
    Served root index connection session b
      { (b.replaceChannel pid).setConnection index
          { connection with portChannelId := (b.replaceChannel pid).nextPortChannelId } with
        portChannels := portChannels
        nextPortChannelId := nextId (b.replaceChannel pid).nextPortChannelId }
  | portAdded {pid : ℤ} {name : Name} {ports : List (Option BrokerPort)}
    (hname : ∀ port ∈ live b.ports, port.name ≠ name)
    (hplace : place ⟨b.nextPortId, connection.fd, session, pid, name⟩ b.ports = some ports) :
    Served root index connection session b
      { b with ports := ports, nextPortId := nextId b.nextPortId }
  | portRemoved {id slot : ℕ} (hslot : b.ports.findIdx? (slotHasId BrokerPort.id id) = some slot) :
    Served root index connection session b
      { b.abandonMessagesForPort id with ports := release slot b.ports }
  | messageRefused :
    Served root index connection session b
      { b with nextPortMessageId := nextId b.nextPortMessageId }
  | messagePut {port : BrokerPort} {ownerChannel senderChannel : PortChannel}
    {portMessages : List (Option PortMessage)} (hport : port ∈ live b.ports)
    (howner : ownerChannel ∈ live b.portChannels) (hpid : ownerChannel.pid = port.pid)
    (hsender : senderChannel ∈ live b.portChannels)
    (hplace : place ⟨b.nextPortMessageId, port.id, senderChannel.fd, connection.peerPid, port.pid⟩
      b.portMessages = some portMessages) :
    Served root index connection session b
      { b with
        portMessages := portMessages
        nextPortMessageId := nextId b.nextPortMessageId
        log := .opened ⟨b.nextPortMessageId, b.serialOf senderChannel.fd, port.pid⟩ :: b.log }
  | messageReplied {slot : ℕ} {message : PortMessage}
    (hslot : b.portMessages[slot]? = some (some message))
    (howner : connection.peerPid = message.ownerPid) :
    Served root index connection session b
      { b with
        portMessages := release slot b.portMessages
        log := .answered message.id (b.serialOf message.senderChannelFd) connection.peerPid ::
          b.log }
  | sessionOpened {id : Name} {made : ℕ} {b' : Broker} (h : b.getSession id = some (made, b')) :
    Served root index connection session b b'

theorem map_setConnection {β : Type*} {f : Connection → β} {index : ℕ} {connection new : Connection}
    (hc : b.connections[index]? = some connection) (hf : f new = f connection) :
    (b.setConnection index new).connections.map f = b.connections.map f := by
  obtain ⟨hi, rfl⟩ := List.getElem?_eq_some_iff.mp hc
  unfold setConnection
  rw [map_set, hf, ← getElem_map f, set_getElem_self]
  rwa [length_map]

/-- Replacing the channel of a pid: there is none, or its slot is released and those who wait for
the process are told. -/
theorem replaceChannel_cases (pid : ℤ) (b : Broker) :
    (b.replaceChannel pid = b ∧ ∀ channel ∈ live b.portChannels, channel.pid ≠ pid) ∨
      ∃ slot channel, b.portChannels[slot]? = some (some channel) ∧ channel.pid = pid ∧
        b.replaceChannel pid =
          { b.abandonMessagesForOwner pid with portChannels := release slot b.portChannels } := by
  unfold replaceChannel
  cases hfind : b.portChannels.findIdx? fun slot => slot.any (·.pid == pid) with
  | none =>
    refine .inl ⟨rfl, fun channel hchan => ?_⟩
    have hother := not_of_findIdx?_eq_none hfind hchan
    exact beq_eq_false_iff_ne.mp hother
  | some slot =>
    obtain ⟨channel, hslot, hpid⟩ := getElem?_of_findIdx? hfind
    exact .inr ⟨slot, channel, hslot, beq_iff_eq.mp hpid, rfl⟩

theorem replaceChannel_eq (pid : ℤ) (b : Broker) :
    ∃ portChannels portMessages log, b.replaceChannel pid =
      { b with portChannels := portChannels, portMessages := portMessages, log := log } := by
  rcases replaceChannel_cases pid b with ⟨heq, -⟩ | ⟨slot, channel, -, -, heq⟩
  · exact ⟨b.portChannels, b.portMessages, b.log, heq⟩
  · exact ⟨_, _, _, heq⟩

section Served

variable {root : Bool} {index session : ℕ} {connection : Connection} {b : Broker}

theorem attach_served (failure : Option Errno) :
    Served root index connection session b (b.attach root index connection session failure).2 := by
  unfold attach
  by_cases hanc : connection.anchor.isSome
  · rw [if_pos hanc]
    exact .unchanged
  rw [if_neg hanc]
  by_cases hroot : root ∧ b.rootShells = 0 ∧ failure.isSome
  · rw [if_pos hroot]
    exact .unchanged
  · rw [if_neg hroot]
    exact .attached (not_isSome_iff_eq_none.mp hanc)

theorem attachTask_served (name pidText : Name) :
    Served root index connection session b
      (b.attachTask index connection session name pidText).2 := by
  unfold attachTask
  cases parsePid pidText with
  | none => exact .unchanged
  | some pid =>
  by_cases hbad : connection.taskId ≠ 0 ∨ name = [] ∨ maxName ≤ name.length
  · simp only [if_pos hbad]
    exact .unchanged
  simp only [if_neg hbad]
  cases hplace : place (BrokerTask.mk b.nextTaskId connection.fd session pid name) b.tasks with
  | none => exact .unchanged
  | some tasks => exact .taskAttached (by_contra fun h => hbad (.inl h)) hplace

theorem attachPortChannel_served (pidText : Name) :
    Served root index connection session b (b.attachPortChannel index connection pidText).2 := by
  unfold attachPortChannel
  by_cases hbad : connection.portChannelId ≠ 0
  · rw [if_pos hbad]
    exact .unchanged
  rw [if_neg hbad]
  cases parsePid pidText with
  | none => exact .unchanged
  | some pid =>
  simp only
  cases hplace : place (PortChannel.mk (b.replaceChannel pid).nextPortChannelId connection.fd pid)
      (b.replaceChannel pid).portChannels with
  | none => exact .channelReplaced pid
  | some portChannels => exact .channelAttached hplace

theorem addPort_served (name pidText : Name) :
    Served root index connection session b (b.addPort connection session name pidText).2 := by
  unfold addPort
  cases parsePid pidText with
  | none => exact .unchanged
  | some pid =>
  by_cases hbad : name = [] ∨ maxName ≤ name.length
  · simp only [if_pos hbad]
    exact .unchanged
  by_cases htaken : (live b.ports).any (·.name == name)
  · simp only [if_neg hbad, if_pos htaken]
    exact .unchanged
  simp only [if_neg hbad, if_neg htaken]
  cases hplace : place (BrokerPort.mk b.nextPortId connection.fd session pid name) b.ports with
  | none => exact .unchanged
  | some ports =>
    refine .portAdded (fun port hport hname => htaken ?_) hplace
    exact any_eq_true.mpr ⟨port, hport, beq_iff_eq.mpr hname⟩

theorem remPort_served (idText : Name) :
    Served root index connection session b (b.remPort idText).2 := by
  unfold remPort
  cases parseId idText with
  | none => exact .unchanged
  | some id =>
  simp only
  cases hslot : b.ports.findIdx? (slotHasId BrokerPort.id id) with
  | none => exact .unchanged
  | some slot => exact .portRemoved hslot

theorem putMessage_served (name : Name) (written : Bool) :
    Served root index connection session b (b.putMessage connection name written).2 := by
  unfold putMessage
  by_cases hname : name = []
  · rw [if_pos hname]
    exact .unchanged
  rw [if_neg hname]
  cases hport : (live b.ports).find? (·.name == name) with
  | none => exact .unchanged
  | some port =>
  by_cases hpeer : connection.peerPid ≤ 0
  · simp only [if_pos hpeer]
    exact .unchanged
  simp only [if_neg hpeer]
  cases howner : (live b.portChannels).find? (·.pid == port.pid) with
  | none => exact .unchanged
  | some ownerChannel =>
  cases hsender : (live b.portChannels).find? (·.pid == connection.peerPid) with
  | none => exact .unchanged
  | some senderChannel =>
  simp only
  cases hplace : place (PortMessage.mk b.nextPortMessageId port.id senderChannel.fd
      connection.peerPid port.pid) b.portMessages with
  | none => exact .unchanged
  | some portMessages =>
    cases written with
    | false => exact .messageRefused
    | true =>
      have hpid : ownerChannel.pid = port.pid := by simpa using find?_some howner
      exact .messagePut (mem_of_find?_eq_some hport) (mem_of_find?_eq_some howner)
        hpid (mem_of_find?_eq_some hsender) hplace

theorem replyMessage_served (idText : Name) (written : Bool) :
    Served root index connection session b (b.replyMessage connection idText written).2 := by
  unfold replyMessage
  cases parseId idText with
  | none => exact .unchanged
  | some id =>
  simp only
  cases b.portMessages.findIdx? (slotHasId PortMessage.id id) with
  | none => exact .unchanged
  | some slot =>
  simp only
  cases hslot : (b.portMessages[slot]?).join with
  | none => exact .unchanged
  | some message =>
  by_cases hpeer : connection.peerPid ≤ 0 ∨ connection.peerPid ≠ message.ownerPid
  · simp only [if_pos hpeer]
    exact .unchanged
  · simp only [if_neg hpeer]
    exact .messageReplied (join_eq_some_iff.mp hslot)
      (by_contra fun h => hpeer (.inr h))

theorem cloneSession_served (id : Name) :
    Served root index connection session b (b.cloneSession session id).2 := by
  unfold cloneSession
  by_cases hbad : id = [] ∨ sessionIdSize ≤ id.length
  · rw [if_pos hbad]
    exact .unchanged
  rw [if_neg hbad]
  by_cases hself : (b.sessions[session]?).join.any (·.id == id)
  · rw [if_pos hself]
    exact .unchanged
  rw [if_neg hself]
  cases hfind : b.findSession id with
  | none =>
    cases hget : b.getSession id with
    | none => exact .unchanged
    | some made => exact .sessionOpened hget
  | some found =>
  -- a session that is found is touched, as `get_session` does
  obtain ⟨at_, hidx, rfl⟩ := map_eq_some_iff.mp hfind
  have hget : b.getSession id = some (at_, b.touchSession at_) := by
    unfold getSession
    rw [hidx]
  exact .sessionOpened hget

theorem serve_served (operation : Operation) :
    Served root index connection session b (b.serve root index connection session operation).2 := by
  cases operation with
  | attach failure => exact attach_served failure
  | taskAttach name pidText => exact attachTask_served name pidText
  | portAttach pidText => exact attachPortChannel_served pidText
  | portAdd name pidText => exact addPort_served name pidText
  | portRem idText => exact remPort_served idText
  | portPut name written => exact putMessage_served name written
  | portReply idText written => exact replyMessage_served idText written
  | cloneSession id => exact cloneSession_served id
  | other => exact .unchanged

theorem handleClient_cases (root : Bool) (index : ℕ) (sessionId : Name) (operation : Operation)
    (b : Broker) :
    (b.handleClient root index sessionId operation).2 = b ∨
      ∃ connection session b₁, b.connections[index]? = some connection ∧
        b.getSession sessionId = some (session, b₁) ∧
        Served root index connection session b₁
          (b.handleClient root index sessionId operation).2 := by
  unfold handleClient
  cases b.connections[index]? with
  | none => exact .inl rfl
  | some connection =>
  cases b.getSession sessionId with
  | none => exact .inl rfl
  | some found =>
    obtain ⟨session, b₁⟩ := found
    exact .inr ⟨connection, session, b₁, rfl, rfl, serve_served operation⟩

end Served

end Broker

/-! ## The machine -/

inductive Action
  | accept (fd : ℕ) (peerPid : ℤ)
  | request (index : ℕ) (sessionId : Name) (operation : Operation)
  | close (index : ℕ)
  deriving DecidableEq

/-- The kernel hands out a descriptor only when it is not open; the other actions are about
connections there are. -/
def Action.Possible (a : Action) (b : Broker) : Prop :=
  match a with
  | .accept fd _ => ∀ c ∈ b.connections, c.fd ≠ fd
  | .request index _ _ => index < b.connections.length
  | .close index => index < b.connections.length

instance decidablePossible (a : Action) (b : Broker) : Decidable (a.Possible b) :=
  match a with
  | .accept fd _ => inferInstanceAs (Decidable (∀ c ∈ b.connections, c.fd ≠ fd))
  | .request index _ _ => inferInstanceAs (Decidable (index < b.connections.length))
  | .close index => inferInstanceAs (Decidable (index < b.connections.length))

/-- One round: a connection that fails while it is served is closed by an action of its own. -/
def Broker.step (root : Bool) (a : Action) (b : Broker) : Broker :=
  match a with
  | .accept fd peerPid => b.acceptConnection fd peerPid
  | .request index sessionId operation => (b.handleClient root index sessionId operation).2
  | .close index => b.dropConnection root index

/-- The broker as a machine. -/
def brokerMachine (root : Bool) : Machine Broker Action where
  init := Broker.start
  possible := Action.Possible
  step := Broker.step root

instance (root : Bool) (a : Action) (b : Broker) : Decidable ((brokerMachine root).possible a b) :=
  decidablePossible a b

variable {root : Bool}

/-- **Step rule.** What an accepted connection, a request in its session and a close each bring
about is brought about by every action, if it is there when nothing happens. -/
theorem Broker.step_rule {P : Broker → Prop} {a : Action} (ha : a.Possible b) (hsame : P b)
    (haccept : ∀ fd peerPid, (∀ c ∈ b.connections, c.fd ≠ fd) →
      b.connections.length ≠ maxConnections →
      P { b with
        connections := b.connections ++ [⟨b.nextSerial, fd, peerPid, none, 0, 0⟩]
        nextSerial := b.nextSerial + 1 })
    (hserved : ∀ index connection id session b₁ b', b.getSession id = some (session, b₁) →
      b₁.connections[index]? = some connection →
      Served root index connection session b₁ b' → P b')
    (hclose : ∀ index connection, b.connections[index]? = some connection →
      P (b.dropConnection root index)) : P (b.step root a) := by
  cases a with
  | accept fd peerPid =>
    show P (b.acceptConnection fd peerPid)
    unfold acceptConnection
    by_cases hfull : b.connections.length = maxConnections
    · rwa [if_pos hfull]
    · rw [if_neg hfull]
      exact haccept fd peerPid ha hfull
  | request index sessionId operation =>
    show P (b.handleClient root index sessionId operation).2
    rcases handleClient_cases root index sessionId operation b with
      heq | ⟨connection, session, b₁, hc, hget, h⟩
    · rwa [heq]
    refine hserved index connection sessionId session b₁ _ hget ?_ h
    obtain ⟨_, _, -, -, rfl, -⟩ := getSession_spec hget
    exact hc
  | close index => exact hclose index _ (getElem?_eq_getElem ha)

theorem run_step {n : ℕ} (h : (brokerMachine root).Run n b) (a : Action) (ha : a.Possible b)
    : (brokerMachine root).Run (n + 1) (b.step root a) := h.step a ha

end AceShell
