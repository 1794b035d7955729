import AceShell.Lib.Ledger
import AceShell.Lib.Machine
import AceShell.Lib.SlotTable
import AceShell.Paths.Resolve

/-!
# The broker's registry

The tables `broker.c` keeps: connections, sessions, tasks, ports, delivery channels and messages in
flight. They refer to each other by id, pid and raw descriptor. Added are a serial number for each
connection, as descriptors are used again, and a log of the port messages.
-/

namespace AceShell

open Text SlotTable Ledger List

/-! ## Tables -/

/-- `MAX_SESSIONS`. -/
def maxSessions : ℕ := 64

/-- `MAX_TASKS`. -/
def maxTasks : ℕ := 256

/-- `MAX_PORTS`. -/
def maxPorts : ℕ := 128

/-- `MAX_PORT_CHANNELS`. -/
def maxPortChannels : ℕ := 256

/-- `MAX_PORT_MESSAGES`. -/
def maxPortMessages : ℕ := 256

/-- `MAX_CONNECTIONS`. -/
def maxConnections : ℕ := 256

/-- The size of a session's id. -/
def sessionIdSize : ℕ := 128

/-- `struct broker_connection`, with the pid of its peer and its serial number. An anchor of -1 is
`none`. -/
structure Connection where
  serial : ℕ
  fd : ℕ
  peerPid : ℤ
  anchor : Option ℕ
  taskId : ℕ
  portChannelId : ℕ
  deriving DecidableEq

structure BrokerSession where
  id : Name
  lastUsed : ℕ
  anchors : ℕ
  deriving DecidableEq

/-- `struct broker_task`. -/
structure BrokerTask where
  id : ℕ
  fd : ℕ
  session : ℕ
  pid : ℤ
  name : Name
  deriving DecidableEq

/-- `struct broker_port`. -/
structure BrokerPort where
  id : ℕ
  fd : ℕ
  session : ℕ
  pid : ℤ
  name : Name
  deriving DecidableEq

/-- `struct broker_port_channel`. -/
structure PortChannel where
  id : ℕ
  fd : ℕ
  pid : ℤ
  deriving DecidableEq

/-- `struct broker_port_message`. -/
structure PortMessage where
  id : ℕ
  portId : ℕ
  senderChannelFd : ℕ
  senderPid : ℤ
  ownerPid : ℤ
  deriving DecidableEq

abbrev PortLog := List (Entry ℕ (Option ℕ) ℤ)

/-- The state of the broker. A free slot of a table is one that `memset` has cleared. -/
structure Broker where
  connections : List Connection
  sessions : List (Option BrokerSession)
  sessionClock : ℕ
  rootShells : ℕ
  tasks : List (Option BrokerTask)
  nextTaskId : ℕ
  ports : List (Option BrokerPort)
  nextPortId : ℕ
  portChannels : List (Option PortChannel)
  nextPortChannelId : ℕ
  portMessages : List (Option PortMessage)
  nextPortMessageId : ℕ
  nextSerial : ℕ
  log : PortLog
  deriving DecidableEq

/-- The broker as `main` starts it. -/
def Broker.start : Broker where
  connections := []
  sessions := replicate maxSessions none
  sessionClock := 0
  rootShells := 0
  tasks := replicate maxTasks none
  nextTaskId := 1
  ports := replicate maxPorts none
  nextPortId := 1
  portChannels := replicate maxPortChannels none
  nextPortChannelId := 1
  portMessages := replicate maxPortMessages none
  nextPortMessageId := 1
  nextSerial := 0
  log := []

/-- The next value of a `uint64_t` id counter, which passes over 0. -/
def nextId (id : ℕ) : ℕ := if (id + 1) % 2 ^ 64 = 0 then 1 else (id + 1) % 2 ^ 64

/-! ## Numbers in requests -/

/-- A text that is a decimal number from its first byte to its last, as `strtol` reads it: the
sign and the digits behind it. -/
def scanNumber (text : Name) : Option (Bool × ℕ) :=
  let body := text.dropWhile isSpace
  let negative := body.head? == some 45
  let digits := if negative || body.head? == some 43 then body.drop 1 else body
  if digits ≠ [] ∧ digits.all (fun c => decide (48 ≤ c) && decide (c ≤ 57)) then
    some (negative, digits.foldl (fun acc c => acc * 10 + (c.toNat - 48)) 0)
  else none

def parsePid (text : Name) : Option ℤ :=
  match scanNumber text with
  | some (false, value) =>
    if value = 0 then none else some (Int.bmod (min value (2 ^ 63 - 1) : ℕ) (2 ^ 32))
  | _ => none

def parseId (text : Name) : Option ℕ :=
  match scanNumber text with
  | some (negative, value) =>
    some (if 2 ^ 64 ≤ value then 2 ^ 64 - 1
      else if negative then (2 ^ 64 - value) % 2 ^ 64 else value)
  | none => none

namespace Broker

/-! ## Sessions -/

def sessionIndex (b : Broker) (id : Name) : Option ℕ :=
  b.sessions.findIdx? fun slot => slot.any (·.id == id)

/-- `touch_session`. -/
def touchSession (b : Broker) (index : ℕ) : Broker :=
  let clock := (b.sessionClock + 1) % 2 ^ 64
  { b with
    sessionClock := clock
    sessions := b.sessions.modify index (Option.map ({ · with lastUsed := clock })) }

/-- The session `get_session` gives up when the table is full: the first of those used longest ago,
among those without anchors. -/
def coldest : ℕ → Option (ℕ × ℕ) → List (Option BrokerSession) → Option ℕ
  | _, best, [] => best.map Prod.fst
  | index, best, none :: rest => coldest (index + 1) best rest
  | index, best, some session :: rest =>
    if session.anchors = 0 ∧ best.all (fun other => decide (session.lastUsed < other.2)) then
      coldest (index + 1) (some (index, session.lastUsed)) rest
    else coldest (index + 1) best rest

def freeSession (b : Broker) : Option ℕ :=
  match b.sessions.findIdx? (·.isNone) with
  | some index => some index
  | none => coldest 0 none b.sessions

/-- `get_session`. -/
def getSession (b : Broker) (id : Name) : Option (ℕ × Broker) :=
  match b.sessionIndex id with
  | some index => some (index, b.touchSession index)
  | none =>
    match b.freeSession with
    | none => none
    | some index =>
      if sessionIdSize ≤ id.length then none
      else
        let b := { b with sessions := b.sessions.set index (some ⟨id, 0, 0⟩) }
        some (index, b.touchSession index)

/-- `find_session`. -/
def findSession (b : Broker) (id : Name) : Option (ℕ × Broker) :=
  (b.sessionIndex id).map fun index => (index, b.touchSession index)

section Sessions

variable {b b' : Broker} {id : Name} {index : ℕ}

theorem touchSession_eq {session : BrokerSession} (h : b.sessions[index]? = some (some session)) :
    ∃ clock, b.touchSession index =
      { b with
        sessions := b.sessions.set index (some { session with lastUsed := clock })
        sessionClock := clock } := by
  refine ⟨(b.sessionClock + 1) % 2 ^ 64, ?_⟩
  unfold touchSession
  simp only [modify_eq_set h, Option.map_some]

/-- Sessions are given up by their last use, and then by their slot. -/
def coldness (kept : ℕ × ℕ) : ℕ ×ₗ ℕ := toLex kept.swap

def unanchored (start : ℕ) (slots : List (Option BrokerSession)) : List (ℕ × ℕ) :=
  (slots.zipIdx start).filterMap fun slot =>
    (slot.1.filter (·.anchors = 0)).map fun session => (slot.2, session.lastUsed)

theorem mem_unanchored {used : ℕ} {slots : List (Option BrokerSession)} :
    (index, used) ∈ unanchored 0 slots ↔ ∃ session,
      slots[index]? = some (some session) ∧ session.anchors = 0 ∧ session.lastUsed = used := by
  simp [unanchored, mk_mem_zipIdx_iff_getElem?, and_assoc]

/-- The scan finds the least of the slots without anchors. -/
theorem coldest_eq {start : ℕ} {best : Option (ℕ × ℕ)} {slots : List (Option BrokerSession)}
    (hbest : ∀ kept ∈ best, kept.1 < start) :
    coldest start best slots =
      ((unanchored start slots).foldl (argAux fun a b => coldness a < coldness b) best).map
        Prod.fst := by
  induction slots generalizing start best with
  | nil => rfl
  | cons slot rest ih =>
  have hlater : ∀ kept ∈ best, kept.1 < start + 1 :=
    fun kept hk => Nat.lt_succ_of_lt (hbest kept hk)
  cases slot with
  | none => exact ih hlater
  | some session =>
  unfold coldest
  by_cases hzero : session.anchors = 0
  · have hcons : unanchored start (some session :: rest) =
        (start, session.lastUsed) :: unanchored (start + 1) rest := by
      simp [unanchored, hzero]
    -- on a tie the slot that was found first is kept
    have hnext : argAux (fun a b => coldness a < coldness b) best (start, session.lastUsed) =
        if session.anchors = 0 ∧ best.all (fun other => decide (session.lastUsed < other.2)) then
          some (start, session.lastUsed) else best := by
      cases best with
      | none => simp [argAux, hzero]
      | some kept =>
        have hearlier := Nat.not_lt.mpr (hbest kept rfl).le
        simp [argAux, hzero, coldness, Prod.Lex.toLex_lt_toLex, hearlier]
    rw [hcons, foldl_cons, hnext]
    split_ifs
    · exact ih (by simp)
    · exact ih hlater
  · have hcons : unanchored start (some session :: rest) = unanchored (start + 1) rest := by
      simp [unanchored, hzero]
    rw [if_neg fun hcold => hzero hcold.1, hcons]
    exact ih hlater

theorem coldest_argmin (slots : List (Option BrokerSession)) :
    coldest 0 none slots = (argmin coldness (unanchored 0 slots)).map Prod.fst :=
  coldest_eq (by simp)

/-- A free slot, or if there is none that of the session without anchors used longest ago. -/
theorem freeSession_spec (h : b.freeSession = some index) :
    b.sessions[index]? = some none ∨
      b.sessions.findIdx? (·.isNone) = none ∧ ∃ old, b.sessions[index]? = some (some old) ∧
        old.anchors = 0 ∧ ∀ slot other, b.sessions[slot]? = some (some other) → other.anchors = 0 →
          old.lastUsed < other.lastUsed ∨ old.lastUsed = other.lastUsed ∧ index ≤ slot := by
  unfold freeSession at h
  cases hfree : b.sessions.findIdx? (·.isNone) with
  | some slot =>
    rw [hfree] at h
    obtain rfl := Option.some.inj h
    obtain ⟨hi, hnone, -⟩ := findIdx?_eq_some_iff_getElem.mp hfree
    exact .inl (by rw [getElem?_eq_getElem hi, Option.isNone_iff_eq_none.mp hnone])
  | none =>
  rw [hfree, coldest_argmin] at h
  obtain ⟨⟨slot, used⟩, hmin, rfl⟩ := Option.map_eq_some_iff.mp h
  obtain ⟨old, hold, hancs, rfl⟩ := mem_unanchored.mp (argmin_mem hmin)
  refine .inr ⟨rfl, old, hold, hancs, fun other session hother hzero => ?_⟩
  have hle := le_of_mem_argmin (mem_unanchored.mpr ⟨session, hother, hzero, rfl⟩) hmin
  exact Prod.Lex.toLex_le_toLex.mp hle

theorem freeSession_unanchored (h : b.freeSession = some index) :
    index < b.sessions.length ∧ ∀ old, b.sessions[index]? = some (some old) → old.anchors = 0 := by
  rcases freeSession_spec h with hnone | ⟨-, session, hslot, hancs, -⟩
  · refine ⟨(List.getElem?_eq_some_iff.mp hnone).1, fun old hold => ?_⟩
    cases hnone.symm.trans hold
  · refine ⟨(List.getElem?_eq_some_iff.mp hslot).1, fun old hold => ?_⟩
    rwa [← Option.some.inj (Option.some.inj (hslot.symm.trans hold))]

/-- What `get_session` does: one slot is written, and it holds the session that is returned. That
session was there before, with the same anchors, or it is new in a slot nobody is anchored to. -/
theorem getSession_spec (h : b.getSession id = some (index, b')) :
    ∃ session clock, session.id = id ∧ index < b.sessions.length ∧
      b' = { b with
        sessions := b.sessions.set index (some session), sessionClock := clock } ∧
      ((∃ old, b.sessions[index]? = some (some old) ∧ old.id = id ∧ session.anchors = old.anchors) ∨
        (∀ other ∈ live b.sessions, other.id ≠ id) ∧ session.anchors = 0 ∧
          ∀ old, b.sessions[index]? = some (some old) → old.anchors = 0) := by
  unfold getSession at h
  cases hidx : b.sessionIndex id with
  | some found =>
    rw [hidx] at h
    cases h
    obtain ⟨old, hold, hid⟩ := getElem?_of_findIdx? hidx
    obtain ⟨clock, htouch⟩ := touchSession_eq hold
    exact ⟨{ old with lastUsed := clock }, clock, beq_iff_eq.mp hid,
      (List.getElem?_eq_some_iff.mp hold).1, htouch, .inl ⟨old, hold, beq_iff_eq.mp hid, rfl⟩⟩
  | none =>
  rw [hidx] at h
  cases hfree : b.freeSession with
  | none => simp [hfree] at h
  | some slot =>
  simp only [hfree] at h
  by_cases hsize : sessionIdSize ≤ id.length
  · simp [hsize] at h
  rw [if_neg hsize] at h
  cases h
  obtain ⟨hi, hold⟩ := freeSession_unanchored hfree
  have hslot : (b.sessions.set index (some ⟨id, 0, 0⟩))[index]? = some (some ⟨id, 0, 0⟩) :=
    getElem?_set_self hi
  obtain ⟨clock, htouch⟩ := touchSession_eq
    (b := { b with sessions := b.sessions.set index (some ⟨id, 0, 0⟩) }) hslot
  refine ⟨⟨id, clock, 0⟩, clock, rfl, hi, ?_, .inr ⟨fun other hother => ?_, rfl, hold⟩⟩
  · rw [htouch]
    simp only [set_set]
  · have hother := not_of_findIdx?_eq_none hidx hother
    exact beq_eq_false_iff_ne.mp hother

end Sessions

/-! ## Messages in flight -/

def serialOf (b : Broker) (fd : ℕ) : Option ℕ :=
  (b.connections.find? (·.fd == fd)).map (·.serial)

/-- `abandon_port_message` for every message that satisfies `p`, in slot order. -/
def abandonMessages (p : PortMessage → Bool) (b : Broker) : Broker :=
  { b with
    portMessages := clearWhere p b.portMessages
    log := (((live b.portMessages).filter p).map fun message =>
      .abandoned message.id (b.serialOf message.senderChannelFd)).reverse ++ b.log }

/-- `abandon_messages_for_port`. -/
def abandonMessagesForPort (portId : ℕ) : Broker → Broker :=
  abandonMessages fun message => message.portId == portId

/-- `abandon_messages_for_owner`. -/
def abandonMessagesForOwner (ownerPid : ℤ) : Broker → Broker :=
  abandonMessages fun message => message.ownerPid == ownerPid

/-! ## What goes with a connection -/

/-- `drop_task_connection`. -/
def dropTaskConnection (connection : Connection) (b : Broker) : Broker :=
  if connection.taskId = 0 then b
  else
    match b.tasks.findIdx? fun slot => slot.any (·.id == connection.taskId) with
    | none => b
    | some index => { b with tasks := release index b.tasks }

/-- `drop_connection_ports`. -/
def dropConnectionPorts (fd : ℕ) (b : Broker) : Broker :=
  let doomed := (live b.ports).filter (·.fd == fd)
  let b := doomed.foldl (fun b port => b.abandonMessagesForPort port.id) b
  { b with ports := clearWhere (·.fd == fd) b.ports }

def dropConnectionPortChannels (fd : ℕ) (b : Broker) : Broker :=
  let doomed := (live b.portChannels).filter (·.fd == fd)
  let b := doomed.foldl (fun b channel => b.abandonMessagesForOwner channel.pid) b
  { b with portChannels := clearWhere (·.fd == fd) b.portChannels }

def dropConnectionPortMessages (fd : ℕ) (b : Broker) : Broker :=
  { b with
    portMessages := clearWhere (·.senderChannelFd == fd) b.portMessages
    log := (((live b.portMessages).filter (·.senderChannelFd == fd)).map fun message =>
      .forgotten message.id (b.serialOf message.senderChannelFd)).reverse ++ b.log }

def dropAnchor (session : BrokerSession) : Option BrokerSession :=
  if session.anchors = 0 then some session
  else if session.anchors - 1 = 0 then none
  else some { session with anchors := session.anchors - 1 }

def dropConnectionAnchor (root : Bool) (anchor : Option ℕ) (b : Broker) : Broker :=
  match anchor with
  | none => b
  | some index =>
    { b with
      sessions := b.sessions.modify index (·.bind dropAnchor)
      rootShells := if root then b.rootShells - 1 else b.rootShells }

/-- `drop_connection`. -/
def dropConnection (root : Bool) (index : ℕ) (b : Broker) : Broker :=
  match b.connections[index]? with
  | none => b
  | some connection =>
    let b := b.dropTaskConnection connection
    let b := b.dropConnectionPorts connection.fd
    let b := b.dropConnectionPortChannels connection.fd
    let b := b.dropConnectionPortMessages connection.fd
    let b := b.dropConnectionAnchor root connection.anchor
    { b with connections := swapRemove index b.connections }

/-- `accept_connection`. -/
def acceptConnection (fd : ℕ) (peerPid : ℤ) (b : Broker) : Broker :=
  if b.connections.length = maxConnections then b
  else
    { b with
      connections := b.connections ++ [⟨b.nextSerial, fd, peerPid, none, 0, 0⟩]
      nextSerial := b.nextSerial + 1 }

/-! ## What closing a connection does -/

section Closing

variable {b : Broker} {connection : Connection} {index : ℕ}

theorem foldl_abandonMessages {β : Type*} (p : β → PortMessage → Bool) (xs : List β) (b : Broker) :
    ∃ portMessages log, xs.foldl (fun b x => b.abandonMessages (p x)) b =
        { b with portMessages := portMessages, log := log } ∧
      live portMessages =
        (live b.portMessages).filter fun message => xs.all fun x => !p x message := by
  induction xs generalizing b with
  | nil => exact ⟨b.portMessages, b.log, rfl, by simp⟩
  | cons x xs ih =>
  obtain ⟨portMessages, log, heq, hlive⟩ := ih (b.abandonMessages (p x))
  refine ⟨portMessages, log, heq, ?_⟩
  rw [hlive]
  simp only [abandonMessages, live_clearWhere, filter_filter, all_cons]
  exact filter_congr fun message _ => Bool.and_comm _ _

theorem dropTaskConnection_spec (connection : Connection) (b : Broker) :
    ∃ tasks, b.dropTaskConnection connection = { b with tasks := tasks } ∧
      (live tasks).Sublist (live b.tasks) ∧
      (Nonzero BrokerTask.id b.tasks b.nextTaskId → Numbered BrokerTask.id b.tasks b.nextTaskId →
        ∀ task ∈ live tasks, task.id ≠ connection.taskId) := by
  unfold dropTaskConnection
  by_cases hzero : connection.taskId = 0
  · rw [if_pos hzero]
    refine ⟨b.tasks, rfl, List.Sublist.refl _, fun hnonzero _ task htask => ?_⟩
    have := hnonzero.keys task htask
    omega
  rw [if_neg hzero]
  cases hfind : b.tasks.findIdx? fun slot => slot.any (·.id == connection.taskId) with
  | none =>
    refine ⟨b.tasks, rfl, List.Sublist.refl _, fun _ _ task htask => ?_⟩
    have hother := not_of_findIdx?_eq_none hfind htask
    exact beq_eq_false_iff_ne.mp hother
  | some slot =>
  obtain ⟨found, hfound, hid⟩ := getElem?_of_findIdx? hfind
  refine ⟨release slot b.tasks, rfl, live_release_sublist _ _, fun _ hnumbered task htask => ?_⟩
  rw [← beq_iff_eq.mp hid]
  exact key_ne_of_mem_release hnumbered.nodup hfound htask

theorem dropConnectionPorts_spec (fd : ℕ) (b : Broker) :
    ∃ portMessages log, b.dropConnectionPorts fd =
        { b with
          ports := clearWhere (·.fd == fd) b.ports, portMessages := portMessages, log := log } ∧
      (live portMessages).Sublist (live b.portMessages) ∧
      ∀ message ∈ live portMessages, ∀ port ∈ live b.ports, port.fd = fd →
        port.id ≠ message.portId := by
  obtain ⟨portMessages, log, heq, hlive⟩ := foldl_abandonMessages
    (fun (port : BrokerPort) message => message.portId == port.id)
    ((live b.ports).filter (·.fd == fd)) b
  refine ⟨portMessages, log, ?_, hlive ▸ filter_sublist, ?_⟩
  · exact congrArg (fun b' : Broker => { b' with ports := clearWhere (·.fd == fd) b'.ports }) heq
  intro message hmsg port hport hfd hid
  rw [hlive] at hmsg
  have hnot := all_eq_true.mp (mem_filter.mp hmsg).2 port
    (mem_filter.mpr ⟨hport, by simpa using hfd⟩)
  simp [hid] at hnot

theorem dropConnectionPortChannels_spec (fd : ℕ) (b : Broker) :
    ∃ portMessages log, b.dropConnectionPortChannels fd =
        { b with
          portChannels := clearWhere (·.fd == fd) b.portChannels
          portMessages := portMessages
          log := log } ∧
      (live portMessages).Sublist (live b.portMessages) ∧
      ∀ message ∈ live portMessages, ∀ channel ∈ live b.portChannels, channel.fd = fd →
        channel.pid ≠ message.ownerPid := by
  obtain ⟨portMessages, log, heq, hlive⟩ := foldl_abandonMessages
    (fun (channel : PortChannel) message => message.ownerPid == channel.pid)
    ((live b.portChannels).filter (·.fd == fd)) b
  refine ⟨portMessages, log, ?_, hlive ▸ filter_sublist, ?_⟩
  · exact congrArg (fun b' : Broker =>
      { b' with portChannels := clearWhere (·.fd == fd) b'.portChannels }) heq
  intro message hmsg channel hchan hfd hpid
  rw [hlive] at hmsg
  have hnot := all_eq_true.mp (mem_filter.mp hmsg).2 channel
    (mem_filter.mpr ⟨hchan, by simpa using hfd⟩)
  simp [hpid] at hnot

theorem dropConnectionPortMessages_eq (fd : ℕ) (b : Broker) :
    ∃ log, b.dropConnectionPortMessages fd =
      { b with
        portMessages := clearWhere (·.senderChannelFd == fd) b.portMessages, log := log } :=
  ⟨_, rfl⟩

theorem dropConnectionAnchor_eq (root : Bool) (anchor : Option ℕ) (b : Broker) :
    ∃ sessions rootShells, b.dropConnectionAnchor root anchor =
      { b with sessions := sessions, rootShells := rootShells } := by
  cases anchor with
  | none => exact ⟨b.sessions, b.rootShells, rfl⟩
  | some index => exact ⟨_, _, rfl⟩

/-- **Closing.** Everything that came with the connection goes: its ports and channels, the
messages on their way to either or from the connection, and the task with its id. -/
theorem dropConnection_spec (root : Bool) (hc : b.connections[index]? = some connection) :
    ∃ portMessages log, b.dropConnection root index =
        { b.dropConnectionAnchor root connection.anchor with
          connections := swapRemove index b.connections
          tasks := (b.dropTaskConnection connection).tasks
          ports := clearWhere (·.fd == connection.fd) b.ports
          portChannels := clearWhere (·.fd == connection.fd) b.portChannels
          portMessages := portMessages
          log := log } ∧
      (live portMessages).Sublist (live b.portMessages) ∧
      ∀ message ∈ live portMessages, message.senderChannelFd ≠ connection.fd ∧
        (∀ port ∈ live b.ports, port.fd = connection.fd → port.id ≠ message.portId) ∧
        ∀ channel ∈ live b.portChannels, channel.fd = connection.fd →
          channel.pid ≠ message.ownerPid := by
  obtain ⟨tasks, htasks, -⟩ := dropTaskConnection_spec connection b
  obtain ⟨messages₁, log₁, hports, hsub₁, hport⟩ :=
    dropConnectionPorts_spec connection.fd { b with tasks := tasks }
  obtain ⟨messages₂, log₂, hchans, hsub₂, hchan⟩ :=
    dropConnectionPortChannels_spec connection.fd { b with
      tasks := tasks, ports := clearWhere (·.fd == connection.fd) b.ports
      portMessages := messages₁, log := log₁ }
  have hsub₃ := live_clearWhere_sublist (fun m : PortMessage => m.senderChannelFd == connection.fd)
    messages₂
  obtain ⟨log₃, hmsgs⟩ := dropConnectionPortMessages_eq connection.fd { b with
    tasks := tasks, ports := clearWhere (·.fd == connection.fd) b.ports
    portChannels := clearWhere (·.fd == connection.fd) b.portChannels
    portMessages := messages₂, log := log₂ }
  refine ⟨clearWhere (·.senderChannelFd == connection.fd) messages₂, log₃, ?_,
    hsub₃.trans (hsub₂.trans hsub₁), fun message hm => ⟨?_, ?_, ?_⟩⟩
  · unfold dropConnection
    simp only [hc, htasks, hports, hchans, hmsgs]
    cases connection.anchor <;> rfl
  · exact beq_eq_false_iff_ne.mp (mem_live_clearWhere.mp hm).2
  · exact hport message (hsub₂.subset (hsub₃.subset hm))
  · exact hchan message (hsub₃.subset hm)

end Closing

end Broker

end AceShell
