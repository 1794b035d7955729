import AceShell.Registry.Handle

/-!
# The registry stays consistent

Ports go with the connection that registered them, channels with the one that attached them,
messages with their port, their owner's channel or their sender's connection. `Consistent` says
how the tables fit together, whatever the id counters do; each table has a lemma for taking records
out and one for adding. A task is dropped by its id alone, so it goes with its connection only as
long as ids are distinct (`Numbering`).
-/

namespace AceShell

open Text SlotTable Ledger List

theorem nextId_pos (id : ℕ) : 0 < nextId id := by
  unfold nextId
  by_cases h : (id + 1) % 2 ^ 64 = 0
  · rw [if_pos h]
    exact Nat.one_pos
  · rw [if_neg h]
    exact Nat.pos_of_ne_zero h

variable {tasks : List (Option BrokerTask)} {portMessages : List (Option PortMessage)}
  {ports : List (Option BrokerPort)} {portChannels : List (Option PortChannel)} {session : ℕ}
  {b' b : Broker} {root : Bool}

namespace Broker

/-! ## The invariant -/

def fds (b : Broker) : List ℕ := b.connections.map Connection.fd

/-- How the tables fit together. -/
structure Consistent (b : Broker) : Prop where
  fds : b.fds.Nodup
  tasks : Nonzero BrokerTask.id b.tasks b.nextTaskId
  ports : Nonzero BrokerPort.id b.ports b.nextPortId
  channels : Nonzero PortChannel.id b.portChannels b.nextPortChannelId
  messages : Nonzero PortMessage.id b.portMessages b.nextPortMessageId
  names : ((live b.ports).map BrokerPort.name).Nodup
  pids : ((live b.portChannels).map PortChannel.pid).Nodup
  portFd : ∀ port ∈ live b.ports, port.fd ∈ b.fds
  channelFd : ∀ channel ∈ live b.portChannels, channel.fd ∈ b.fds
  messageFd : ∀ message ∈ live b.portMessages, message.senderChannelFd ∈ b.fds
  messagePort : ∀ message ∈ live b.portMessages, ∃ port ∈ live b.ports, port.id = message.portId
  messageOwner : ∀ message ∈ live b.portMessages,
    ∃ channel ∈ live b.portChannels, channel.pid = message.ownerPid

theorem consistent_start : Consistent Broker.start := by
  constructor
  case tasks => exact ⟨Nat.one_pos, by simp [Broker.start]⟩
  case ports => exact ⟨Nat.one_pos, by simp [Broker.start]⟩
  case channels => exact ⟨Nat.one_pos, by simp [Broker.start]⟩
  case messages => exact ⟨Nat.one_pos, by simp [Broker.start]⟩
  all_goals simp [Broker.start, Broker.fds]

section Consistent

variable {b : Broker} {index : ℕ} {connection : Connection}

/-! ## Taking records out -/

section Kept

variable (h : Consistent b)
include h

theorem Consistent.dropTasks (hs : (live tasks).Sublist (live b.tasks))
    : Consistent { b with tasks := tasks } :=
  { h with tasks := h.tasks.sublist hs }

theorem Consistent.dropMessages (hs : (live portMessages).Sublist (live b.portMessages))
    (log : PortLog) : Consistent { b with portMessages := portMessages, log := log } :=
  { h with
    messages := h.messages.sublist hs
    messageFd := fun message hm => h.messageFd message (hs.subset hm)
    messagePort := fun message hm => h.messagePort message (hs.subset hm)
    messageOwner := fun message hm => h.messageOwner message (hs.subset hm) }

theorem Consistent.dropPorts (hs : (live ports).Sublist (live b.ports))
    (hkept : ∀ message ∈ live b.portMessages, ∀ port ∈ live b.ports, port.id = message.portId →
      port ∈ live ports) : Consistent { b with ports := ports } :=
  { h with
    ports := h.ports.sublist hs
    names := h.names.sublist (hs.map _)
    portFd := fun port hport => h.portFd port (hs.subset hport)
    messagePort := fun message hm => by
      obtain ⟨port, hport, hid⟩ := h.messagePort message hm
      exact ⟨port, hkept message hm port hport hid, hid⟩ }

theorem Consistent.dropChannels (hs : (live portChannels).Sublist (live b.portChannels))
    (hkept : ∀ message ∈ live b.portMessages, ∀ channel ∈ live b.portChannels,
      channel.pid = message.ownerPid → channel ∈ live portChannels) :
    Consistent { b with portChannels := portChannels } :=
  { h with
    channels := h.channels.sublist hs
    pids := h.pids.sublist (hs.map _)
    channelFd := fun channel hchan => h.channelFd channel (hs.subset hchan)
    messageOwner := fun message hm => by
      obtain ⟨channel, hchan, hpid⟩ := h.messageOwner message hm
      exact ⟨channel, hkept message hm channel hchan hpid, hpid⟩ }

theorem Consistent.abandonMessages (p : PortMessage → Bool) : Consistent (b.abandonMessages p) :=
  h.dropMessages (live_clearWhere_sublist p b.portMessages) _

/-! ## Adding records -/

theorem Consistent.addTask {task : BrokerTask}
    (hplace : place task b.tasks = some tasks) (hid : task.id = b.nextTaskId) :
    Consistent { b with tasks := tasks, nextTaskId := nextId b.nextTaskId } :=
  { h with tasks := h.tasks.place hid hplace (nextId_pos _) }

theorem Consistent.addPort {port : BrokerPort}
    (hplace : place port b.ports = some ports) (hid : port.id = b.nextPortId)
    (hname : ∀ other ∈ live b.ports, other.name ≠ port.name) (hfd : port.fd ∈ b.fds) :
    Consistent { b with ports := ports, nextPortId := nextId b.nextPortId } :=
  { h with
    ports := h.ports.place hid hplace (nextId_pos _)
    names := nodup_map_place h.names hplace hname
    portFd := (forall_live_place hplace).mpr ⟨hfd, h.portFd⟩
    messagePort := fun message hm => by
      obtain ⟨other, hother, heq⟩ := h.messagePort message hm
      exact ⟨other, (mem_live_place hplace).mpr (.inr hother), heq⟩ }

theorem Consistent.addChannel {channel : PortChannel}
    (hplace : place channel b.portChannels = some portChannels)
    (hid : channel.id = b.nextPortChannelId)
    (hpid : ∀ other ∈ live b.portChannels, other.pid ≠ channel.pid) (hfd : channel.fd ∈ b.fds) :
    Consistent { b with
      portChannels := portChannels, nextPortChannelId := nextId b.nextPortChannelId } :=
  { h with
    channels := h.channels.place hid hplace (nextId_pos _)
    pids := nodup_map_place h.pids hplace hpid
    channelFd := (forall_live_place hplace).mpr ⟨hfd, h.channelFd⟩
    messageOwner := fun message hm => by
      obtain ⟨other, hother, heq⟩ := h.messageOwner message hm
      exact ⟨other, (mem_live_place hplace).mpr (.inr hother), heq⟩ }

theorem Consistent.addMessage {message : PortMessage}
    (hplace : place message b.portMessages = some portMessages)
    (hid : message.id = b.nextPortMessageId) (hfd : message.senderChannelFd ∈ b.fds)
    (hport : ∃ port ∈ live b.ports, port.id = message.portId)
    (howner : ∃ channel ∈ live b.portChannels, channel.pid = message.ownerPid) (log : PortLog) :
    Consistent { b with
      portMessages := portMessages
      nextPortMessageId := nextId b.nextPortMessageId
      log := log } :=
  { h with
    messages := h.messages.place hid hplace (nextId_pos _)
    messageFd := (forall_live_place hplace).mpr ⟨hfd, h.messageFd⟩
    messagePort := (forall_live_place hplace).mpr ⟨hport, h.messagePort⟩
    messageOwner := (forall_live_place hplace).mpr ⟨howner, h.messageOwner⟩ }

theorem Consistent.spendMessageId :
    Consistent { b with nextPortMessageId := nextId b.nextPortMessageId } :=
  { h with messages := ⟨nextId_pos _, h.messages.keys⟩ }

/-! ## Connections -/

omit h in
theorem fds_setConnection {new : Connection} (hc : b.connections[index]? = some connection)
    (hfd : new.fd = connection.fd) : (b.setConnection index new).fds = b.fds :=
  map_setConnection hc hfd

theorem Consistent.setConnection (new : Connection) (hc : b.connections[index]? = some connection)
    (hfd : new.fd = connection.fd) : Consistent (b.setConnection index new) := by
  have hfds := fds_setConnection hc hfd
  exact { h with
    fds := hfds ▸ h.fds
    portFd := fun port hport => hfds ▸ h.portFd port hport
    channelFd := fun channel hchan => hfds ▸ h.channelFd channel hchan
    messageFd := fun message hm => hfds ▸ h.messageFd message hm }

theorem Consistent.addConnection (new : Connection) (hfresh : new.fd ∉ b.fds) (nextSerial : ℕ) :
    Consistent { b with connections := b.connections ++ [new], nextSerial := nextSerial } := by
  have hfds : (b.connections ++ [new]).map Connection.fd = b.fds ++ [new.fd] := map_append
  have hin : ∀ {fd}, fd ∈ b.fds → fd ∈ (b.connections ++ [new]).map Connection.fd := by
    intro fd hfd
    rw [hfds]
    exact mem_append_left _ hfd
  refine { h with
    fds := ?_
    portFd := fun port hport => hin (h.portFd port hport)
    channelFd := fun channel hchan => hin (h.channelFd channel hchan)
    messageFd := fun message hm => hin (h.messageFd message hm) }
  unfold Broker.fds
  rw [hfds]
  refine nodup_append'.mpr ⟨h.fds, nodup_singleton _, fun fd hfd hnew => ?_⟩
  exact hfresh (mem_singleton.mp hnew ▸ hfd)

theorem Consistent.removeConnection (hc : b.connections[index]? = some connection)
    (hport : ∀ port ∈ live b.ports, port.fd ≠ connection.fd)
    (hchan : ∀ channel ∈ live b.portChannels, channel.fd ≠ connection.fd)
    (hmsg : ∀ message ∈ live b.portMessages, message.senderChannelFd ≠ connection.fd) :
    Consistent { b with connections := swapRemove index b.connections } := by
  obtain ⟨hi, hget⟩ := List.getElem?_eq_some_iff.mp hc
  have hperm := perm_swapRemove hi
  rw [hget] at hperm
  have hstay : ∀ {fd}, fd ∈ b.fds → fd ≠ connection.fd →
      fd ∈ (swapRemove index b.connections).map Connection.fd := by
    intro fd hfd hne
    have hmem := (hperm.map Connection.fd).mem_iff.mp hfd
    exact (mem_cons.mp hmem).resolve_left hne
  refine { h with
    fds := ?_
    portFd := fun port hp => hstay (h.portFd port hp) (hport port hp)
    channelFd := fun channel hch => hstay (h.channelFd channel hch) (hchan channel hch)
    messageFd := fun message hm => hstay (h.messageFd message hm) (hmsg message hm) }
  have hnodup := (hperm.map Connection.fd).nodup_iff.mp h.fds
  exact (nodup_cons.mp hnodup).2

/-! ## Actions -/

theorem Consistent.withSessions (sessions : List (Option BrokerSession))
    (sessionClock rootShells : ℕ) :
    Consistent { b with
      sessions := sessions, sessionClock := sessionClock, rootShells := rootShells } :=
  { h with }

theorem Consistent.dropConnection (root : Bool)
    (hc : b.connections[index]? = some connection) : Consistent (b.dropConnection root index) := by
  obtain ⟨portMessages, log, heq, hsub, hgone⟩ := dropConnection_spec root hc
  obtain ⟨tasks, htasks, htaskSub, -⟩ := dropTaskConnection_spec connection b
  obtain ⟨sessions, rootShells, hanc⟩ := dropConnectionAnchor_eq root connection.anchor b
  rw [heq, hanc, htasks]
  have hmessages := (h.dropTasks htaskSub).dropMessages hsub log
  have hports := hmessages.dropPorts (live_clearWhere_sublist (·.fd == connection.fd) b.ports)
    fun message hm port hport hid => by
      refine mem_live_clearWhere.mpr ⟨hport, beq_eq_false_iff_ne.mpr fun hfd => ?_⟩
      exact (hgone message hm).2.1 port hport hfd hid
  have hchannels := hports.dropChannels
    (live_clearWhere_sublist (·.fd == connection.fd) b.portChannels)
    fun message hm channel hchan hpid => by
      refine mem_live_clearWhere.mpr ⟨hchan, beq_eq_false_iff_ne.mpr fun hfd => ?_⟩
      exact (hgone message hm).2.2 channel hchan hfd hpid
  have hsessions := hchannels.withSessions sessions b.sessionClock rootShells
  refine hsessions.removeConnection hc (fun port hport => ?_)
    (fun channel hchan => ?_) fun message hm => (hgone message hm).1
  · exact beq_eq_false_iff_ne.mp (mem_live_clearWhere.mp hport).2
  · exact beq_eq_false_iff_ne.mp (mem_live_clearWhere.mp hchan).2

theorem Consistent.replaceChannel (pid : ℤ) :
    Consistent (b.replaceChannel pid) ∧
      ∀ channel ∈ live (b.replaceChannel pid).portChannels, channel.pid ≠ pid := by
  rcases replaceChannel_cases pid b with ⟨heq, hnone⟩ | ⟨slot, old, hslot, hpid, heq⟩
  · rw [heq]
    exact ⟨h, hnone⟩
  rw [heq]
  refine ⟨(h.abandonMessages _).dropChannels (live_release_sublist slot _) ?_, ?_⟩
  · intro message hm channel hchan howner
    -- the messages left are not for this process
    refine mem_live_release hchan fun hsame => ?_
    rw [hslot] at hsame
    obtain rfl := Option.some.inj (Option.some.inj hsame)
    have hother : message.ownerPid ≠ pid := beq_eq_false_iff_ne.mp (mem_live_clearWhere.mp hm).2
    exact hother (howner.symm.trans hpid)
  · intro channel hchan
    rw [← hpid]
    exact key_ne_of_mem_release h.pids hslot hchan

theorem Consistent.removePort {id slot : ℕ}
    (hslot : b.ports.findIdx? (slotHasId BrokerPort.id id) = some slot) :
    Consistent { b.abandonMessagesForPort id with ports := release slot b.ports } := by
  refine (h.abandonMessages _).dropPorts (live_release_sublist slot _) ?_
  intro message hm port hport hid
  refine mem_live_release hport fun hsame => ?_
  obtain ⟨hi, hhas, -⟩ := List.findIdx?_eq_some_iff_getElem.mp hslot
  rw [(List.getElem?_eq_some_iff.mp hsame).2] at hhas
  have hother : message.portId ≠ id := beq_eq_false_iff_ne.mp (mem_live_clearWhere.mp hm).2
  exact hother (hid.symm.trans (beq_iff_eq.mp hhas))

omit h in
theorem mem_fds (hc : b.connections[index]? = some connection) : connection.fd ∈ b.fds :=
  mem_map_of_mem (mem_of_getElem? hc)

theorem Consistent.getSession {id : Name}
    (hget : b.getSession id = some (session, b')) : Consistent b' := by
  obtain ⟨_, _, -, -, rfl, -⟩ := getSession_spec hget
  exact h.withSessions _ _ _

end Kept

theorem Served.consistent (hserved : Served root index connection session b b')
    (hc : b.connections[index]? = some connection) (h : Consistent b) : Consistent b' := by
  cases hserved with
  | unchanged => exact h
  | attached =>
    have hset := h.setConnection { connection with anchor := some session } hc rfl
    exact hset.withSessions _ _ _
  | taskAttached _ hplace =>
    have hset := h.setConnection { connection with taskId := b.nextTaskId } hc rfl
    exact hset.addTask hplace rfl
  | channelReplaced pid => exact (h.replaceChannel pid).1
  | @channelAttached pid portChannels hplace =>
    obtain ⟨hreplaced, hpids⟩ := h.replaceChannel pid
    obtain ⟨_, _, _, heq⟩ := replaceChannel_eq pid b
    have hc' : (b.replaceChannel pid).connections[index]? = some connection := by rw [heq]; exact hc
    have hset := hreplaced.setConnection
      { connection with portChannelId := (b.replaceChannel pid).nextPortChannelId } hc' rfl
    exact hset.addChannel hplace rfl hpids
      (List.mem_map.mpr ⟨_, List.mem_set (List.getElem?_eq_some_iff.mp hc').1 _, rfl⟩)
  | portAdded hname hplace => exact h.addPort hplace rfl hname (mem_fds hc)
  | portRemoved hslot => exact h.removePort hslot
  | messageRefused => exact h.spendMessageId
  | messagePut hport howner hpid hsender hplace =>
    exact h.addMessage hplace rfl (h.channelFd _ hsender) ⟨_, hport, rfl⟩ ⟨_, howner, hpid⟩ _
  | messageReplied => exact h.dropMessages (live_release_sublist _ _) _
  | sessionOpened hget => exact h.getSession hget

end Consistent

theorem step_consistent {a : Action} (ha : a.Possible b) (h : Consistent b)
    : Consistent (b.step root a) := by
  refine step_rule ha h (fun fd peerPid hfresh _ => h.addConnection _ (fun hin => ?_) _)
    (fun _ _ _ _ _ _ hget hc hserved => hserved.consistent hc (h.getSession hget))
    fun _ _ hc => h.dropConnection root hc
  obtain ⟨c, hc, hfd⟩ := mem_map.mp hin
  exact hfresh c hc hfd

theorem run_consistent {n : ℕ} (h : (brokerMachine root).Run n b) : Consistent b :=
  Machine.Run.invariant (P := fun _ b => Consistent b) consistent_start
    (fun _ _ _ _ _ ha h => step_consistent ha h) h (Nat.lt_succ_self n)

end Broker

end AceShell
