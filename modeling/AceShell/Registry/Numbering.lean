import AceShell.Registry.Consistency

/-!
# Ids are distinct until a counter wraps

Each table numbers its records with a 64-bit counter that passes over 0. In a run of fewer than
`2 ^ 64 - 1` actions no counter comes round, so the ids of a table are distinct; a task is then
found by the id its connection remembers, and goes with that connection.
-/

namespace AceShell

open Text SlotTable Ledger List

theorem nextId_le (id : ℕ) : nextId id ≤ id + 1 := by
  unfold nextId
  by_cases h : (id + 1) % 2 ^ 64 = 0
  · rw [if_pos h]
    exact Nat.le_add_left 1 id
  · rw [if_neg h]
    exact Nat.mod_le _ _

theorem nextId_succ {id : ℕ} (h : id + 1 < 2 ^ 64) : nextId id = id + 1 := by
  unfold nextId
  rw [Nat.mod_eq_of_lt h, if_neg (Nat.succ_ne_zero id)]

variable {n : ℕ}

theorem nextId_eq {id : ℕ} (hid : id ≤ n + 1) (hn : n + 1 < 2 ^ 64 - 1) : nextId id = id + 1 :=
  nextId_succ (by omega)

variable {session : ℕ} {root : Bool}

namespace Broker

structure Numbering (n : ℕ) (b : Broker) : Prop where
  taskCount : b.nextTaskId ≤ n + 1
  portCount : b.nextPortId ≤ n + 1
  channelCount : b.nextPortChannelId ≤ n + 1
  messageCount : b.nextPortMessageId ≤ n + 1
  tasks : Numbered BrokerTask.id b.tasks b.nextTaskId
  ports : Numbered BrokerPort.id b.ports b.nextPortId
  channels : Numbered PortChannel.id b.portChannels b.nextPortChannelId
  messages : Numbered PortMessage.id b.portMessages b.nextPortMessageId
  /-- A task is dropped by its id, so its connection has to remember it. -/
  taskOwner : ∀ task ∈ live b.tasks, ∃ c ∈ b.connections, c.fd = task.fd ∧ c.taskId = task.id

theorem numbering_start : Numbering 0 Broker.start where
  taskCount := Nat.le_refl 1
  portCount := Nat.le_refl 1
  channelCount := Nat.le_refl 1
  messageCount := Nat.le_refl 1
  tasks := Numbered.replicate _ _ _
  ports := Numbered.replicate _ _ _
  channels := Numbered.replicate _ _ _
  messages := Numbered.replicate _ _ _
  taskOwner := by simp [Broker.start]

section Numbering

variable {b b' : Broker} {n index : ℕ} {connection : Connection}

section Kept

variable (h : Numbering n b)
include h

theorem Numbering.succ : Numbering (n + 1) b :=
  { h with
    taskCount := Nat.le_succ_of_le h.taskCount
    portCount := Nat.le_succ_of_le h.portCount
    channelCount := Nat.le_succ_of_le h.channelCount
    messageCount := Nat.le_succ_of_le h.messageCount }

theorem Numbering.shrink {tasks : List (Option BrokerTask)} {ports : List (Option BrokerPort)}
    {portChannels : List (Option PortChannel)} {portMessages : List (Option PortMessage)}
    (htasks : (live tasks).Sublist (live b.tasks)) (hports : (live ports).Sublist (live b.ports))
    (hchans : (live portChannels).Sublist (live b.portChannels))
    (hmsgs : (live portMessages).Sublist (live b.portMessages)) (log : PortLog) :
    Numbering n { b with
      tasks := tasks, ports := ports, portChannels := portChannels
      portMessages := portMessages, log := log } :=
  { h with
    tasks := h.tasks.sublist htasks
    ports := h.ports.sublist hports
    channels := h.channels.sublist hchans
    messages := h.messages.sublist hmsgs
    taskOwner := fun task ht => h.taskOwner task (htasks.subset ht) }

theorem Numbering.withSessions (sessions : List (Option BrokerSession))
    (sessionClock rootShells : ℕ) :
    Numbering n { b with
      sessions := sessions, sessionClock := sessionClock, rootShells := rootShells } :=
  { h with }

theorem Numbering.getSession {id : Name}
    (hget : b.getSession id = some (session, b')) : Numbering n b' := by
  obtain ⟨_, _, -, -, rfl, -⟩ := getSession_spec hget
  exact h.withSessions _ _ _

theorem Numbering.setConnection (hb : Consistent b) (new : Connection)
    (hc : b.connections[index]? = some connection) (hfd : new.fd = connection.fd)
    (htask : connection.taskId = 0 ∨ new.taskId = connection.taskId) :
    Numbering n (b.setConnection index new) := by
  refine { h with taskOwner := fun task ht => ?_ }
  obtain ⟨owner, howner, hownerFd, hownerTask⟩ := h.taskOwner task ht
  by_cases heq : owner = connection
  · subst heq
    refine ⟨new, List.mem_set (List.getElem?_eq_some_iff.mp hc).1 new, hfd ▸ hownerFd, ?_⟩
    rcases htask with hzero | hsame
    · have := hb.tasks.keys task ht
      omega
    · exact hsame ▸ hownerTask
  · exact ⟨owner, mem_set_of_ne hc howner heq new, hownerFd, hownerTask⟩

theorem Numbering.addConnection (new : Connection) (nextSerial : ℕ) :
    Numbering n { b with
      connections := b.connections ++ [new], nextSerial := nextSerial } :=
  { h with
    taskOwner := fun task ht => by
      obtain ⟨owner, howner, hrest⟩ := h.taskOwner task ht
      exact ⟨owner, mem_append_left _ howner, hrest⟩ }

theorem Numbering.replaceChannel (pid : ℤ) : Numbering n (b.replaceChannel pid) := by
  rcases replaceChannel_cases pid b with ⟨heq, -⟩ | ⟨slot, old, -, -, heq⟩
  · rwa [heq]
  rw [heq]
  exact h.shrink (List.Sublist.refl _) (List.Sublist.refl _) (live_release_sublist slot _)
    (live_clearWhere_sublist _ _) _

theorem Numbering.dropConnection (hb : Consistent b) (root : Bool)
    (hc : b.connections[index]? = some connection) : Numbering n (b.dropConnection root index) := by
  obtain ⟨portMessages, log, heq, hmsgs, -⟩ := dropConnection_spec root hc
  obtain ⟨tasks, htasks, htaskSub, hgone⟩ := dropTaskConnection_spec connection b
  obtain ⟨sessions, rootShells, hanc⟩ := dropConnectionAnchor_eq root connection.anchor b
  rw [heq, hanc, htasks]
  have hshrink := (h.shrink htaskSub (live_clearWhere_sublist (·.fd == connection.fd) b.ports)
    (live_clearWhere_sublist (·.fd == connection.fd) b.portChannels) hmsgs log).withSessions
    sessions b.sessionClock rootShells
  refine { hshrink with taskOwner := fun task ht => ?_ }
  obtain ⟨owner, howner, hfd, hid⟩ := hshrink.taskOwner task ht
  refine ⟨owner, mem_swapRemove_of_ne hc howner ?_, hfd, hid⟩
  rintro rfl
  exact hgone hb.tasks h.tasks task ht hid.symm

end Kept

theorem Served.numbering (hserved : Served root index connection session b b')
    (hc : b.connections[index]? = some connection) (hn : n + 1 < 2 ^ 64 - 1) (hb : Consistent b)
    (h : Numbering n b) : Numbering (n + 1) b' := by
  have hcnt : ∀ {id}, id ≤ n + 1 → nextId id ≤ n + 1 + 1 := fun hid =>
    (nextId_le _).trans (Nat.succ_le_succ hid)
  cases hserved with
  | unchanged => exact h.succ
  | attached =>
    have hset := h.setConnection hb { connection with anchor := some session } hc rfl (.inr rfl)
    exact (hset.withSessions _ _ _).succ
  | taskAttached htask hplace =>
    have hset := (h.setConnection hb { connection with taskId := b.nextTaskId } hc rfl
      (.inl htask)).succ
    refine { hset with
      taskCount := hcnt h.taskCount
      tasks := nextId_eq h.taskCount hn ▸ h.tasks.place rfl hplace
      taskOwner := fun task ht => ?_ }
    rcases (mem_live_place hplace).mp ht with rfl | ht
    · exact ⟨{ connection with taskId := b.nextTaskId },
        List.mem_set (List.getElem?_eq_some_iff.mp hc).1 _, rfl, rfl⟩
    · exact hset.taskOwner task ht
  | channelReplaced pid => exact (h.replaceChannel pid).succ
  | @channelAttached pid portChannels hplace =>
    have hreplaced := h.replaceChannel pid
    obtain ⟨_, _, _, heq⟩ := replaceChannel_eq pid b
    have hc' : (b.replaceChannel pid).connections[index]? = some connection := by rw [heq]; exact hc
    have hset := (hreplaced.setConnection (hb.replaceChannel pid).1
      { connection with portChannelId := (b.replaceChannel pid).nextPortChannelId } hc' rfl
      (.inr rfl)).succ
    exact { hset with
      channelCount := hcnt hreplaced.channelCount
      channels := nextId_eq hreplaced.channelCount hn ▸ hreplaced.channels.place rfl hplace }
  | portAdded _ hplace =>
    exact { h.succ with
      portCount := hcnt h.portCount
      ports := nextId_eq h.portCount hn ▸ h.ports.place rfl hplace }
  | portRemoved =>
    exact (h.shrink (List.Sublist.refl _) (live_release_sublist _ _) (List.Sublist.refl _)
      (live_clearWhere_sublist _ _) _).succ
  | messageRefused =>
    exact { h.succ with
      messageCount := hcnt h.messageCount
      messages := nextId_eq h.messageCount hn ▸ h.messages.succ }
  | messagePut _ _ _ _ hplace =>
    exact { h.succ with
      messageCount := hcnt h.messageCount
      messages := nextId_eq h.messageCount hn ▸ h.messages.place rfl hplace }
  | messageReplied =>
    exact (h.shrink (List.Sublist.refl _) (List.Sublist.refl _) (List.Sublist.refl _)
      (live_release_sublist _ _) _).succ
  | sessionOpened hget => exact (h.getSession hget).succ

theorem step_numbering {a : Action} (ha : a.Possible b) (hn : n + 1 < 2 ^ 64 - 1)
    (hb : Consistent b) (h : Numbering n b) : Numbering (n + 1) (b.step root a) :=
  step_rule ha h.succ (fun _ _ _ _ => (h.addConnection _ _).succ)
    (fun _ _ _ _ _ _ hget hc hserved =>
      hserved.numbering hc hn (hb.getSession hget) (h.getSession hget))
    fun _ _ hc => (h.dropConnection hb root hc).succ

end Numbering

theorem run_numbering {b : Broker} (h : (brokerMachine root).Run n b) (hn : n < 2 ^ 64 - 1)
    : Numbering n b :=
  Machine.Run.invariant (P := Numbering) numbering_start
    (fun _ _ _ hn hrun ha h => step_numbering ha hn (run_consistent hrun) h) h hn

end Broker

/-! ## The registry -/

/-- **Registry consistency.** After any sequence of requests, accepts and closes: no two ports
share a name and no two channels a pid; ids are not 0; a message in flight names a registered
port, a process with a channel and an open connection; and the descriptors of ports, channels and
messages are those of open connections. As long as no 64-bit counter can have wrapped, ids are
distinct within their table and the descriptors of tasks are those of open connections too. -/
theorem registry_consistent {root : Bool} {n : ℕ} {b : Broker} (h : (brokerMachine root).Run n b) :
    (((live b.ports).map BrokerPort.name).Nodup ∧
      ((live b.portChannels).map PortChannel.pid).Nodup) ∧
    ((∀ task ∈ live b.tasks, task.id ≠ 0) ∧ (∀ port ∈ live b.ports, port.id ≠ 0) ∧
      (∀ channel ∈ live b.portChannels, channel.id ≠ 0) ∧
      ∀ message ∈ live b.portMessages, message.id ≠ 0) ∧
    (∀ message ∈ live b.portMessages,
      (∃ port ∈ live b.ports, port.id = message.portId) ∧
      (∃ channel ∈ live b.portChannels, channel.pid = message.ownerPid) ∧
      ∃ connection ∈ b.connections, connection.fd = message.senderChannelFd) ∧
    ((∀ port ∈ live b.ports, port.fd ∈ b.fds) ∧
      (∀ channel ∈ live b.portChannels, channel.fd ∈ b.fds) ∧
      ∀ message ∈ live b.portMessages, message.senderChannelFd ∈ b.fds) ∧
    (n < 2 ^ 64 - 1 →
      ((live b.tasks).map BrokerTask.id).Nodup ∧ ((live b.ports).map BrokerPort.id).Nodup ∧
      ((live b.portChannels).map PortChannel.id).Nodup ∧
      ((live b.portMessages).map PortMessage.id).Nodup ∧
      ∀ task ∈ live b.tasks, task.fd ∈ b.fds) := by
  have hb := Broker.run_consistent h
  refine ⟨⟨hb.names, hb.pids⟩, ⟨?_, ?_, ?_, ?_⟩, fun message hm => ?_,
    ⟨hb.portFd, hb.channelFd, hb.messageFd⟩, fun hn => ?_⟩
  · exact fun task ht => Nat.ne_of_gt (hb.tasks.keys task ht)
  · exact fun port hp => Nat.ne_of_gt (hb.ports.keys port hp)
  · exact fun channel hch => Nat.ne_of_gt (hb.channels.keys channel hch)
  · exact fun message hm => Nat.ne_of_gt (hb.messages.keys message hm)
  · exact ⟨hb.messagePort message hm, hb.messageOwner message hm,
      mem_map.mp (hb.messageFd message hm)⟩
  have hnumbered := Broker.run_numbering h hn
  refine ⟨hnumbered.tasks.nodup, hnumbered.ports.nodup, hnumbered.channels.nodup,
    hnumbered.messages.nodup, fun task ht => ?_⟩
  obtain ⟨connection, hc, hfd, -⟩ := hnumbered.taskOwner task ht
  exact mem_map.mpr ⟨connection, hc, hfd⟩

/-- The session of the runs below. -/
def shellId : Name := ascii "shell"

/-- Two processes have channels, and the first offers a port and runs a task. -/
def rexxSetup : List Action :=
  [.accept 5 100, .accept 6 200, .request 0 shellId (.attach none),
    .request 0 shellId (.taskAttach (ascii "RexxMast") (ascii "100")),
    .request 0 shellId (.portAttach (ascii "100")),
    .request 0 shellId (.portAdd (ascii "REXX") (ascii "100")),
    .request 1 shellId (.portAttach (ascii "200"))]

def rexxBroker : Broker :=
  (brokerMachine false).exec (rexxSetup ++ [.request 1 shellId (.portPut (ascii "REXX") true)])
    Broker.start

theorem registry_consistent_rexx :
    (∃ message ∈ live rexxBroker.portMessages,
      ∃ port ∈ live rexxBroker.ports, port.id = message.portId) ∧
    ∃ task ∈ live rexxBroker.tasks, task.fd ∈ rexxBroker.fds := by
  have hcan : (brokerMachine false).CanExec
      (rexxSetup ++ [.request 1 shellId (.portPut (ascii "REXX") true)]) Broker.start := by
    decide +kernel
  have hrun : (brokerMachine false).Run (0 + 8) rexxBroker := Machine.Run.start.exec hcan
  have hmessage : (⟨1, 1, 6, 200, 100⟩ : PortMessage) ∈ live rexxBroker.portMessages := by
    decide +kernel
  have htask : (⟨1, 5, 0, 100, ascii "RexxMast"⟩ : BrokerTask) ∈ live rexxBroker.tasks := by
    decide +kernel
  obtain ⟨-, -, hmessages, -, hshort⟩ := registry_consistent hrun
  exact ⟨⟨_, hmessage, (hmessages _ hmessage).1⟩, _, htask, (hshort (by decide)).2.2.2.2 _ htask⟩

/-! ## When a counter comes round

A task keeps its slot while others come and go. After `2 ^ 64 - 1` tasks the counter is back at
its id, and the next task gets that id too. -/

/-- One connection is open, and the task of id 1 is in the first slot. -/
def taskLap (next clock serial : ℕ) : Broker :=
  { Broker.start with
    connections := [⟨0, 5, 100, none, 1, 0⟩]
    sessions := some ⟨shellId, clock, 0⟩ :: replicate 63 none
    sessionClock := clock
    tasks := some ⟨1, 5, 0, 100, ascii "Task"⟩ :: none :: replicate 254 none
    nextTaskId := next
    nextSerial := serial }

/-- A second connection has come, with a task. -/
def visited (next clock serial : ℕ) : Broker :=
  { taskLap (nextId next) clock (serial + 1) with
    connections := [⟨0, 5, 100, none, 1, 0⟩, ⟨serial, 6, 200, none, next, 0⟩]
    tasks := some ⟨1, 5, 0, 100, ascii "Task"⟩ :: some ⟨next, 6, 0, 200, ascii "Task"⟩ ::
      replicate 254 none }

section Wrap

variable {next clock serial n : ℕ}

set_option maxRecDepth 4000 in
theorem taskLap_visit :
    ((taskLap next clock serial).step false (.accept 6 200)).step false
      (.request 1 shellId (.taskAttach (ascii "Task") (ascii "200"))) =
        visited next ((clock + 1) % 2 ^ 64) serial := by
  cbv

theorem run_visited (hrun : (brokerMachine false).Run n (taskLap next clock serial)) :
    ∃ n clock, (brokerMachine false).Run n (visited next clock serial) := by
  have haccept := run_step hrun (.accept 6 200) fun c hc => by
    rw [mem_singleton.mp hc]
    decide
  have hattach := run_step haccept (.request 1 shellId (.taskAttach (ascii "Task") (ascii "200")))
    Nat.one_lt_two
  rw [taskLap_visit] at hattach
  exact ⟨_, _, hattach⟩

set_option maxRecDepth 4000 in
theorem visited_close :
    (visited (next + 2) clock serial).step false (.close 1) =
      taskLap (nextId (next + 2)) clock (serial + 1) := by
  cbv

theorem run_taskLap_again (hrun : (brokerMachine false).Run n (taskLap (next + 2) clock serial)) :
    ∃ n clock serial, (brokerMachine false).Run n (taskLap (nextId (next + 2)) clock serial) := by
  obtain ⟨_, _, hvisited⟩ := run_visited hrun
  have hclose := run_step hvisited (.close 1) Nat.one_lt_two
  rw [visited_close] at hclose
  exact ⟨_, _, _, hclose⟩

theorem run_taskLap (hhigh : next + 2 ≤ 2 ^ 64 - 1) :
    ∃ n clock serial, (brokerMachine false).Run n (taskLap (next + 2) clock serial) := by
  induction next with
  | zero =>
    let setup : List Action :=
      [.accept 5 100, .request 0 shellId (.taskAttach (ascii "Task") (ascii "100"))]
    have hcan : (brokerMachine false).CanExec setup Broker.start := by decide
    have hsetup : (brokerMachine false).exec setup Broker.start = taskLap 2 1 1 := by decide +kernel
    exact ⟨0 + 2, 1, 1, hsetup ▸ Machine.Run.start.exec hcan⟩
  | succ next ih =>
    obtain ⟨_, _, _, hrun⟩ := ih (by omega)
    have hagain := run_taskLap_again hrun
    rwa [@nextId_succ (next + 2) (by omega)] at hagain

end Wrap

/-- When the task counter has wrapped, closing a connection takes another's task and leaves its
own, with a descriptor that is no longer open. -/
theorem task_outlives_connection :
    ∃ n b, (brokerMachine false).Run n b ∧
      ∃ task ∈ live b.tasks, ∀ connection ∈ b.connections, connection.fd ≠ task.fd := by
  obtain ⟨_, _, _, hlast⟩ := @run_taskLap (2 ^ 64 - 3) (by decide)
  obtain ⟨_, clock, serial, hround⟩ := run_taskLap_again hlast
  obtain ⟨_, clock, hvisited⟩ := run_visited hround
  have hclose := run_step hvisited (.close 1) Nat.one_lt_two
  refine ⟨_, _, hclose, ⟨1, 6, 0, 200, ascii "Task"⟩, ?_, ?_⟩
  · exact mem_live.mpr (mem_cons_of_mem none mem_cons_self)
  · intro connection hc
    rw [mem_singleton.mp hc]
    decide

end AceShell
