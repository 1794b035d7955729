import AceShell.Registry.Messages

/-!
# Broadcasts reach every channel once and in order

A broadcast is written down every delivery channel of another process, and the last 256 are
remembered, to be replayed to a process that attaches later. Every broadcast, every record and the
life of each channel are kept as history. A connection attaches at most one channel (`Claimed`), so
a record goes to each once; the remembered events are the end of the history (`rtake_push`), so the
replay and the live delivery meet without a gap.
-/

namespace AceShell

open Text SlotTable Ledger List

/-! ## State -/

/-- `MAX_BROADCAST_EVENTS`. -/
def maxBroadcastEvents : ℕ := 256

/-- `AMIGA_BROKER_MAX_PAYLOAD`. -/
def maxPayload : ℕ := 16384

/-- A broadcast that was made. -/
structure Broadcast where
  senderPid : ℤ
  payload : List UInt8
  deriving DecidableEq

/-- A delivery channel: its connection and pid, and the number of broadcasts made when it was
attached and when it was lost. -/
structure Attachment where
  serial : ℕ
  pid : ℤ
  joined : ℕ
  left : Option ℕ
  deriving DecidableEq

/-- The broker with its broadcasts. -/
structure Relay where
  broker : Broker
  broadcastEvents : List (List UInt8)
  history : List Broadcast
  /-- Broadcast records, each with the connection it was written to. -/
  written : List (Option ℕ × List UInt8)
  attachments : List Attachment

/-- The broker as `main` starts it. -/
def Relay.start : Relay := ⟨Broker.start, [], [], [], []⟩

namespace Relay

def recordsOf (s : Relay) (serial : ℕ) : List (List UInt8) :=
  (s.written.filter (·.1 == some serial)).map Prod.snd

/-! ## Operations -/

def pushRecord (fd : ℕ) (payload : List UInt8) (s : Relay) : Relay :=
  { s with written := s.written ++ [(s.broker.serialOf fd, payload)] }

/-- `remember_broadcast_event`. -/
def rememberBroadcastEvent (payload : List UInt8) (s : Relay) : Relay :=
  if maxPayload < payload.length then s
  else
    let events :=
      if s.broadcastEvents.length = maxBroadcastEvents then s.broadcastEvents.tail
      else s.broadcastEvents
    { s with broadcastEvents := events ++ [payload] }

/-- `replay_broadcast_events`. -/
def replayBroadcastEvents (fd : ℕ) (s : Relay) : Relay :=
  s.broadcastEvents.foldl (fun s event => s.pushRecord fd event) s

def deliver (senderPid : ℤ) (payload : List UInt8) (s : Relay) : Relay :=
  ((live s.broker.portChannels).filter (·.pid != senderPid)).foldl
    (fun s channel => s.pushRecord channel.fd payload) s

/-- `AMIGA_BROKER_PORT_BROADCAST`. To the registry it is a request like any other. -/
def portBroadcast (root : Bool) (index : ℕ) (sessionId : Name) (payload : List UInt8)
    (s : Relay) : Relay :=
  let (status, broker) := s.broker.handleClient root index sessionId .other
  let s := { s with broker := broker }
  match status, broker.connections[index]? with
  | none, some connection =>
    if connection.peerPid ≤ 0 then s
    else
      let s := (s.rememberBroadcastEvent payload).deliver connection.peerPid payload
      { s with history := s.history ++ [⟨connection.peerPid, payload⟩] }
  | _, _ => s

/-- `AMIGA_BROKER_PORT_ATTACH`: after the response, the remembered events are replayed. -/
def portAttach (root : Bool) (index : ℕ) (sessionId pidText : Name) (s : Relay) : Relay :=
  let (status, broker) := s.broker.handleClient root index sessionId (.portAttach pidText)
  let s := { s with broker := broker }
  match status, broker.connections[index]?, parsePid pidText with
  | none, some connection, some pid =>
    let s := s.replayBroadcastEvents connection.fd
    { s with
      attachments := s.attachments ++ [⟨connection.serial, pid, s.history.length, none⟩] }
  | _, _, _ => s

def isAttached (b : Broker) (a : Attachment) : Bool :=
  (live b.portChannels).any fun channel =>
    b.serialOf channel.fd == some a.serial && channel.pid == a.pid

def noteLost (s : Relay) : Relay :=
  { s with
    attachments := s.attachments.map fun a =>
      if a.left = none ∧ isAttached s.broker a = false then
        { a with left := some s.history.length }
      else a }

end Relay

/-! ## The machine -/

inductive RelayAction
  | registry (a : Action)
  | broadcast (index : ℕ) (sessionId : Name) (payload : List UInt8)
  deriving DecidableEq

def RelayAction.Possible (a : RelayAction) (s : Relay) : Prop :=
  match a with
  | .registry a => a.Possible s.broker
  | .broadcast index _ payload =>
    index < s.broker.connections.length ∧ payload.length ≤ maxPayload

instance (a : RelayAction) (s : Relay) : Decidable (a.Possible s) :=
  match a with
  | .registry a => decidablePossible a s.broker
  | .broadcast index _ payload =>
    inferInstanceAs (Decidable (index < s.broker.connections.length ∧ payload.length ≤ maxPayload))

/-- One round. -/
def Relay.step (root : Bool) (a : RelayAction) (s : Relay) : Relay :=
  match a with
  | .registry (.request index sessionId (.portAttach pidText)) =>
    (s.portAttach root index sessionId pidText).noteLost
  | .registry a => { s with broker := s.broker.step root a }.noteLost
  | .broadcast index sessionId payload =>
    (s.portBroadcast root index sessionId payload).noteLost

def relayMachine (root : Bool) : Machine Relay RelayAction where
  init := Relay.start
  possible := RelayAction.Possible
  step := Relay.step root

instance (root : Bool) (a : RelayAction) (s : Relay) :
    Decidable ((relayMachine root).possible a s) :=
  inferInstanceAs (Decidable (a.Possible s))

/-! ## What a channel should get -/

def Attachment.replayed (a : Attachment) (history : List Broadcast) : List Broadcast :=
  (history.take a.joined).rtake maxBroadcastEvents

def Attachment.overheard (a : Attachment) (history : List Broadcast) : List Broadcast :=
  ((history.take (a.left.getD history.length)).drop a.joined).filter (·.senderPid != a.pid)

section Attachment

variable {a : Attachment} {history : List Broadcast}

theorem rtake_push {α : Type*} (l : List α) (x : α) {n : ℕ} (hn : 0 < n) :
    (if (l.rtake n).length = n then (l.rtake n).tail else l.rtake n) ++ [x] =
      (l ++ [x]).rtake n := by
  unfold rtake
  rw [length_append, length_singleton, length_drop]
  by_cases hlen : n ≤ l.length
  · rw [if_pos (by omega), tail_drop, drop_append_of_le_length (by omega)]
    congr 2
    omega
  · rw [if_neg (by omega), Nat.sub_eq_zero_of_le (by omega : l.length ≤ n), drop_zero,
      Nat.sub_eq_zero_of_le (by omega : l.length + 1 ≤ n), drop_zero]

theorem Attachment.length_replayed (h : a.joined ≤ history.length) :
    (a.replayed history).length = min a.joined maxBroadcastEvents := by
  unfold replayed rtake
  rw [length_drop, length_take]
  omega

theorem Attachment.heard_sublist (a : Attachment) (history : List Broadcast) :
    (a.replayed history ++ a.overheard history).Sublist history := by
  conv_rhs => rw [← take_append_drop a.joined history]
  refine List.Sublist.append (drop_sublist _ _) (filter_sublist.trans ?_)
  exact (take_sublist _ _).drop _

theorem Attachment.replayed_concat (h : a.joined ≤ history.length) (x : Broadcast) :
    a.replayed (history ++ [x]) = a.replayed history := by
  unfold replayed
  rw [take_append_of_le_length h]

theorem Attachment.overheard_lost {left : ℕ} (hleft : a.left = some left)
    (h : left ≤ history.length) (x : Broadcast) :
    a.overheard (history ++ [x]) = a.overheard history := by
  unfold overheard
  rw [hleft, Option.getD_some, Option.getD_some, take_append_of_le_length h]

theorem Attachment.overheard_kept (hleft : a.left = none) (h : a.joined ≤ history.length)
    (x : Broadcast) :
    a.overheard (history ++ [x]) =
      a.overheard history ++ if x.senderPid = a.pid then [] else [x] := by
  unfold overheard
  rw [hleft, Option.getD_none, take_length, drop_append_of_le_length h]
  by_cases hpid : x.senderPid = a.pid
  · simp [hpid]
  · simp [hpid]

end Attachment

/-! ## Channels of a connection -/

namespace Broker

section Claimed

variable {b b' : Broker} {index session : ℕ} {connection : Connection} {root : Bool}

def seat (c : Connection) : ℕ × ℕ × ℕ := (c.serial, c.fd, c.portChannelId)

/-- A connection has at most one channel, and knows that it has one. -/
structure Claimed (b : Broker) : Prop where
  fds : ((live b.portChannels).map PortChannel.fd).Nodup
  ids : ∀ channel ∈ live b.portChannels, ∀ c ∈ b.connections, c.fd = channel.fd →
    c.portChannelId ≠ 0

/-- From `b` to `b'` channels may be lost and connections made, but no channel is made. -/
structure Retains (b b' : Broker) : Prop where
  channels : (live b'.portChannels).Sublist (live b.portChannels)
  serials : ∀ channel ∈ live b'.portChannels, b'.serialOf channel.fd = b.serialOf channel.fd
  connections : ∀ c' ∈ b'.connections, (∃ c ∈ b.connections, seat c = seat c') ∨
    b.nextSerial ≤ c'.serial ∧ c'.fd ∉ b.fds
  nextSerial : b.nextSerial ≤ b'.nextSerial

theorem serialOf_of_map (h : b'.connections.map (fun c => (c.serial, c.fd)) =
    b.connections.map (fun c => (c.serial, c.fd))) (fd : ℕ) : b'.serialOf fd = b.serialOf fd := by
  have hpairs : ∀ xs : List Connection, (xs.find? (·.fd == fd)).map Connection.serial =
      ((xs.map fun c => (c.serial, c.fd)).find? (·.2 == fd)).map Prod.fst := by
    intro xs
    rw [find?_map, Option.map_map]
    rfl
  unfold serialOf
  rw [hpairs, hpairs, h]

theorem serialOf_of_seats (h : b'.connections.map seat = b.connections.map seat) (fd : ℕ) :
    b'.serialOf fd = b.serialOf fd := by
  refine serialOf_of_map ?_ fd
  have hpairs := congrArg (map fun s : ℕ × ℕ × ℕ => (s.1, s.2.1)) h
  rwa [map_map, map_map] at hpairs

theorem Retains.of_seats (hchans : (live b'.portChannels).Sublist (live b.portChannels))
    (hseats : b'.connections.map seat = b.connections.map seat)
    (hser : b'.nextSerial = b.nextSerial) : Retains b b' where
  channels := hchans
  serials channel _ := serialOf_of_seats hseats channel.fd
  connections c' hc' := by
    have hmem : seat c' ∈ b.connections.map seat := hseats ▸ mem_map_of_mem hc'
    obtain ⟨c, hc, heq⟩ := mem_map.mp hmem
    exact .inl ⟨c, hc, heq⟩
  nextSerial := hser.ge

theorem Retains.refl (b : Broker) : Retains b b := .of_seats (List.Sublist.refl _) rfl rfl

theorem Claimed.retains (h : Claimed b) (hb : Consistent b) (hr : Retains b b') : Claimed b' where
  fds := h.fds.sublist (hr.channels.map _)
  ids channel hchan c' hc' hfd := by
    have hold := hr.channels.subset hchan
    rcases hr.connections c' hc' with ⟨c, hc, hseat⟩ | ⟨-, hnew⟩
    · simp only [seat, Prod.mk.injEq] at hseat
      obtain ⟨-, hfd', hid⟩ := hseat
      rw [← hid]
      exact h.ids channel hold c hc (hfd'.trans hfd)
    · exact absurd (hfd ▸ hb.channelFd channel hold) hnew

/-! ## Actions that make no channel -/

theorem retains_getSession {id : Name} (hget : b.getSession id = some (session, b')) :
    Retains b b' := by
  obtain ⟨_, _, -, -, rfl, -⟩ := getSession_spec hget
  exact .of_seats (List.Sublist.refl _) rfl rfl

theorem serve_retains {operation : Operation} (hop : ∀ pidText, operation ≠ .portAttach pidText)
    (hc : b.connections[index]? = some connection) :
    Retains b (b.serve root index connection session operation).2 := by
  have hsame : ∀ {b' : Broker}, b'.portChannels = b.portChannels →
      b'.connections = b.connections → b'.nextSerial = b.nextSerial → Retains b b' :=
    fun hchans hconns hser =>
      .of_seats (hchans ▸ List.Sublist.refl _) (hconns ▸ rfl) hser
  cases operation with
  | portAttach pidText => exact absurd rfl (hop pidText)
  | attach failure =>
    simp only [serve, attach]
    split_ifs
    · exact .refl b
    · exact .refl b
    all_goals exact .of_seats (List.Sublist.refl _) (map_setConnection hc rfl) rfl
  | taskAttach name pidText =>
    simp only [serve, attachTask]
    repeat' split
    all_goals
      first
      | exact .refl b
      | exact .of_seats (List.Sublist.refl _) (map_setConnection hc rfl) rfl
  | portAdd | portRem | portPut | portReply =>
    simp only [serve, addPort, remPort, putMessage, replyMessage]
    repeat' split
    all_goals exact hsame rfl rfl rfl
  | cloneSession id =>
    simp only [serve, cloneSession]
    split_ifs
    · exact .refl b
    · exact .refl b
    cases hfind : b.findSession id with
    | some found =>
      obtain ⟨at_, -, rfl⟩ := Option.map_eq_some_iff.mp hfind
      exact hsame rfl rfl rfl
    | none =>
      cases hget : b.getSession id with
      | none => exact .refl b
      | some made => exact retains_getSession hget
  | other => exact .refl b

theorem retains_replaceChannel (pid : ℤ) : Retains b (b.replaceChannel pid) := by
  rcases replaceChannel_cases pid b with ⟨heq, -⟩ | ⟨slot, channel, -, -, heq⟩
  · rw [heq]
    exact .refl b
  · rw [heq]
    exact .of_seats (live_release_sublist _ _) rfl rfl

theorem retains_acceptConnection {fd : ℕ} {peerPid : ℤ} (hb : Consistent b)
    (hfresh : ∀ c ∈ b.connections, c.fd ≠ fd) : Retains b (b.acceptConnection fd peerPid) := by
  unfold acceptConnection
  by_cases hfull : b.connections.length = maxConnections
  · rw [if_pos hfull]
    exact .refl b
  rw [if_neg hfull]
  have hnew : fd ∉ b.fds := fun hin => by
    obtain ⟨c, hc, hfd⟩ := mem_map.mp hin
    exact hfresh c hc hfd
  refine ⟨List.Sublist.refl _, fun channel hchan => ?_, fun c' hc' => ?_, Nat.le_succ _⟩
  · refine serialOf_congr hb.fds (hb.addConnection _ hnew _).fds (hb.channelFd channel hchan)
      fun c hc _ => ⟨c, mem_append_left _ hc, rfl, rfl⟩
  rcases mem_append.mp hc' with hc | hc
  · exact .inl ⟨c', hc, rfl⟩
  · rw [mem_singleton.mp hc]
    exact .inr ⟨Nat.le_refl _, hnew⟩

theorem retains_dropConnection (hb : Consistent b) (hc : b.connections[index]? = some connection) :
    Retains b (b.dropConnection root index) := by
  have hfds := (hb.dropConnection root hc).fds
  obtain ⟨portMessages, log, heq, -, -⟩ := dropConnection_spec root hc
  obtain ⟨sessions, rootShells, hanc⟩ := dropConnectionAnchor_eq root connection.anchor b
  rw [hanc] at heq
  rw [heq] at hfds ⊢
  obtain ⟨hi, rfl⟩ := List.getElem?_eq_some_iff.mp hc
  refine ⟨live_clearWhere_sublist _ _, fun channel hchan => ?_, fun c' hc' => ?_, Nat.le_refl _⟩
  · obtain ⟨hin, hother⟩ := mem_live_clearWhere.mp hchan
    refine serialOf_congr hb.fds hfds (hb.channelFd channel hin) fun c hcon hfd => ?_
    refine ⟨c, mem_swapRemove_of_ne hc hcon ?_, rfl, rfl⟩
    rintro rfl
    exact beq_eq_false_iff_ne.mp hother hfd.symm
  · exact .inl ⟨c', (perm_swapRemove hi).mem_iff.mpr (mem_cons_of_mem _ hc'), rfl⟩

theorem Retains.of_getSession {id : Name} {b₁ : Broker}
    (hget : b.getSession id = some (session, b₁)) (h : Retains b₁ b') : Retains b b' := by
  obtain ⟨_, _, -, -, rfl, -⟩ := getSession_spec hget
  exact { h with }

theorem handleClient_retains {operation : Operation} {sessionId : Name}
    (hop : ∀ pidText, operation ≠ .portAttach pidText) :
    Retains b (b.handleClient root index sessionId operation).2 := by
  unfold handleClient
  cases hc : b.connections[index]? with
  | none => exact .refl b
  | some connection =>
  cases hget : b.getSession sessionId with
  | none => exact .refl b
  | some found =>
  obtain ⟨session, b₁⟩ := found
  refine .of_getSession hget (serve_retains hop ?_)
  obtain ⟨_, _, -, -, rfl, -⟩ := getSession_spec hget
  exact hc

theorem step_retains {a : Action} (ha : a.Possible b) (hb : Consistent b)
    (hop : ∀ index sessionId pidText, a ≠ .request index sessionId (.portAttach pidText)) :
    Retains b (b.step root a) := by
  cases a with
  | accept fd peerPid => exact retains_acceptConnection hb ha
  | request index sessionId operation =>
    refine handleClient_retains fun pidText hsame => ?_
    exact hop index sessionId pidText (congrArg (Action.request index sessionId) hsame)
  | close index => exact retains_dropConnection hb (getElem?_eq_getElem ha)

/-! ## PORT_ATTACH -/

/-- A connection without a channel has got one, and no other process lost its own. -/
structure Attaches (index : ℕ) (connection : Connection) (pid : ℤ) (b b' : Broker) : Prop where
  unclaimed : connection.portChannelId = 0
  live : ∃ id, (live b'.portChannels).Perm (⟨id, connection.fd, pid⟩ ::
    (live b.portChannels).filter (·.pid != pid))
  connections : ∃ new, b'.connections = b.connections.set index new ∧ new.portChannelId ≠ 0 ∧
    new.serial = connection.serial ∧ new.fd = connection.fd
  nextSerial : b'.nextSerial = b.nextSerial

theorem live_replaceChannel (hb : Consistent b) (pid : ℤ) :
    (SlotTable.live (b.replaceChannel pid).portChannels).Perm
      ((SlotTable.live b.portChannels).filter (·.pid != pid)) := by
  rcases replaceChannel_cases pid b with ⟨heq, hnone⟩ | ⟨slot, channel, hslot, rfl, heq⟩
  · have hall := filter_eq_self.mpr fun channel hchan =>
      bne_iff_ne.mpr (hnone channel hchan)
    rw [heq, hall]
  rw [heq]
  refine List.Perm.symm ?_
  have hperm := (live_release hslot).filter (·.pid != channel.pid)
  rw [filter_cons_of_neg (by simp), filter_eq_self.mpr fun other hother =>
    bne_iff_ne.mpr (key_ne_of_mem_release hb.pids hslot hother)] at hperm
  exact hperm

/-- **PORT_ATTACH.** It is refused and makes no channel, or it gives the connection one. -/
theorem handleClient_portAttach (root : Bool) (hb : Consistent b) (sessionId pidText : Name)
    (hc : b.connections[index]? = some connection) :
    (∃ e, (b.handleClient root index sessionId (.portAttach pidText)).1 = some e) ∧
      Retains b (b.handleClient root index sessionId (.portAttach pidText)).2 ∨
    ∃ pid, parsePid pidText = some pid ∧
      (b.handleClient root index sessionId (.portAttach pidText)).1 = none ∧
      Attaches index connection pid b
        (b.handleClient root index sessionId (.portAttach pidText)).2 := by
  unfold handleClient
  rw [hc]
  cases hget : b.getSession sessionId with
  | none => exact .inl ⟨⟨_, rfl⟩, .refl b⟩
  | some found =>
  obtain ⟨session, b₁⟩ := found
  have hb₁ := hb.getSession hget
  have hr : ∀ {b'}, Retains b₁ b' → Retains b b' := Retains.of_getSession hget
  simp only [serve, attachPortChannel]
  by_cases hclaimed : connection.portChannelId ≠ 0
  · rw [if_pos hclaimed]
    exact .inl ⟨⟨_, rfl⟩, hr (.refl b₁)⟩
  rw [if_neg hclaimed]
  cases hpid : parsePid pidText with
  | none => exact .inl ⟨⟨_, rfl⟩, hr (.refl b₁)⟩
  | some pid =>
  simp only
  cases hplace : place (PortChannel.mk (b₁.replaceChannel pid).nextPortChannelId connection.fd
      pid) (b₁.replaceChannel pid).portChannels with
  | none =>
    exact .inl ⟨⟨_, rfl⟩, .of_getSession hget (retains_replaceChannel pid)⟩
  | some portChannels =>
    refine .inr ⟨pid, rfl, rfl, ?_⟩
    obtain ⟨_, _, _, hreplaced⟩ := replaceChannel_eq pid b₁
    have hlive := (live_place hplace).trans ((live_replaceChannel hb₁ pid).cons _)
    have hnext := (hb₁.replaceChannel pid).1.channels.next
    obtain ⟨_, _, -, -, rfl, -⟩ := getSession_spec hget
    refine ⟨not_ne_iff.mp hclaimed, ⟨_, hlive⟩,
      ⟨{ connection with portChannelId := _ }, ?_, Nat.ne_of_gt hnext, rfl, rfl⟩, ?_⟩
    · simp only [setConnection, hreplaced]
    · simp only [setConnection, hreplaced]

section Attaches

variable {pid : ℤ} {new : Connection}

theorem Attaches.getElem?_new (h : Attaches index connection pid b b')
    (hc : b.connections[index]? = some connection) :
    ∃ new, b'.connections[index]? = some new ∧ new.portChannelId ≠ 0 ∧
      new.serial = connection.serial ∧ new.fd = connection.fd ∧
      ∀ c ∈ b'.connections, c = new ∨ c ∈ b.connections := by
  obtain ⟨new, hset, hid, hser, hfd⟩ := h.connections
  refine ⟨new, ?_, hid, hser, hfd, fun c hin => ?_⟩
  · rw [hset, List.getElem?_set_self (List.getElem?_eq_some_iff.mp hc).1]
  · rw [hset] at hin
    exact (mem_or_eq_of_mem_set hin).symm

theorem Attaches.serialOf_eq (h : Attaches index connection pid b b')
    (hc : b.connections[index]? = some connection) (fd : ℕ) : b'.serialOf fd = b.serialOf fd := by
  obtain ⟨new, hset, -, hser, hfd⟩ := h.connections
  refine serialOf_of_map ?_ fd
  rw [hset]
  exact map_setConnection hc (Prod.ext hser hfd)

theorem Attaches.mem_live (h : Attaches index connection pid b b') {channel : PortChannel}
    (hchan : channel ∈ SlotTable.live b'.portChannels) :
    channel.fd = connection.fd ∧ channel.pid = pid ∨ channel ∈ SlotTable.live b.portChannels := by
  obtain ⟨id, hlive⟩ := h.live
  rcases mem_cons.mp (hlive.mem_iff.mp hchan) with rfl | hold
  · exact .inl ⟨rfl, rfl⟩
  · exact .inr (mem_filter.mp hold).1

theorem Attaches.claimed (h : Attaches index connection pid b b') (hclaimed : Claimed b)
    (hb' : Consistent b') (hc : b.connections[index]? = some connection) : Claimed b' := by
  obtain ⟨new, hnew, hid, -, hfd, hmem⟩ := h.getElem?_new hc
  constructor
  · obtain ⟨id, hlive⟩ := h.live
    rw [(hlive.map _).nodup_iff, map_cons, nodup_cons]
    refine ⟨fun hin => ?_, hclaimed.fds.sublist (filter_sublist.map _)⟩
    obtain ⟨channel, hchan, hsame⟩ := mem_map.mp hin
    exact hclaimed.ids channel (mem_filter.mp hchan).1 connection (mem_of_getElem? hc)
      hsame.symm h.unclaimed
  intro channel hchan c hin hsame
  rcases h.mem_live hchan with ⟨hown, -⟩ | hold
  · -- descriptors are distinct, so this is the new connection
    have heq : c = new := inj_on_of_nodup_map hb'.fds hin (mem_of_getElem? hnew)
      (hsame.trans (hown.trans hfd.symm))
    rwa [heq]
  · rcases hmem c hin with rfl | hin
    · exact hid
    · exact hclaimed.ids channel hold c hin hsame

end Attaches

end Claimed

end Broker

/-! ## Records -/

namespace Relay

open Broker

section Records

variable {s : Relay} {serial : ℕ}

theorem foldl_pushRecord {β : Type*} (fd : β → ℕ) (payload : β → List UInt8) (xs : List β)
    (s : Relay) :
    xs.foldl (fun s x => s.pushRecord (fd x) (payload x)) s =
      { s with written := s.written ++ xs.map fun x => (s.broker.serialOf (fd x), payload x) } := by
  induction xs generalizing s with
  | nil => simp
  | cons x xs ih =>
    rw [foldl_cons, ih]
    simp [pushRecord]

theorem recordsOf_append {s' : Relay} {records : List (Option ℕ × List UInt8)}
    (h : s'.written = s.written ++ records) (serial : ℕ) :
    s'.recordsOf serial =
      s.recordsOf serial ++ (records.filter (·.1 == some serial)).map Prod.snd := by
  unfold recordsOf
  rw [h, filter_append, map_append]

theorem isAttached_iff {b : Broker} {a : Attachment} :
    isAttached b a = true ↔
      ∃ channel ∈ live b.portChannels, b.serialOf channel.fd = some a.serial ∧
        channel.pid = a.pid := by
  simp [isAttached]

/-! ## The invariant -/

/-- What was written is what should have been, whether or not attachments just lost are marked as
such. -/
structure Recorded (s : Relay) : Prop where
  events : s.broadcastEvents = (s.history.map Broadcast.payload).rtake maxBroadcastEvents
  claimed : Claimed s.broker
  once : (s.attachments.map Attachment.serial).Nodup
  below : ∀ a ∈ s.attachments, a.serial < s.broker.nextSerial
  joined : ∀ a ∈ s.attachments, a.joined ≤ s.history.length
  left : ∀ a ∈ s.attachments, ∀ left, a.left = some left → left ≤ s.history.length
  spent : ∀ a ∈ s.attachments, ∀ c ∈ s.broker.connections, c.serial = a.serial → c.portChannelId ≠ 0
  lost : ∀ a ∈ s.attachments, a.left ≠ none → isAttached s.broker a = false
  known : ∀ channel ∈ live s.broker.portChannels, ∃ a ∈ s.attachments,
    s.broker.serialOf channel.fd = some a.serial ∧ channel.pid = a.pid
  records : ∀ a ∈ s.attachments,
    s.recordsOf a.serial = (a.replayed s.history ++ a.overheard s.history).map Broadcast.payload
  others : ∀ serial, (∀ a ∈ s.attachments, a.serial ≠ serial) → s.recordsOf serial = []

/-- Between two actions an attachment that is not lost is in the table. -/
structure Delivered (s : Relay) : Prop extends Recorded s where
  kept : ∀ a ∈ s.attachments, a.left = none → isAttached s.broker a = true

theorem delivered_start : Delivered Relay.start where
  events := rfl
  claimed := ⟨by simp [Relay.start, Broker.start], by simp [Relay.start, Broker.start]⟩
  once := nodup_nil
  below := by simp [Relay.start]
  joined := by simp [Relay.start]
  left := by simp [Relay.start]
  spent := by simp [Relay.start]
  lost := by simp [Relay.start]
  known := by simp [Relay.start, Broker.start]
  records := by simp [Relay.start]
  others := by simp [Relay.start, recordsOf]
  kept := by simp [Relay.start]

theorem isAttached_of_retains {b b' : Broker} (hr : Retains b b') {a : Attachment}
    (h : isAttached b' a = true) : isAttached b a = true := by
  obtain ⟨channel, hchan, hser, hpid⟩ := isAttached_iff.mp h
  exact isAttached_iff.mpr ⟨channel, hr.channels.subset hchan,
    hr.serials channel hchan ▸ hser, hpid⟩

theorem Recorded.retains (h : Recorded s) (hb : Consistent s.broker) {b' : Broker}
    (hr : Retains s.broker b') : Recorded { s with broker := b' } :=
  { h with
    claimed := h.claimed.retains hb hr
    below := fun a ha => (h.below a ha).trans_le hr.nextSerial
    spent := fun a ha c' hc' hser => by
      rcases hr.connections c' hc' with ⟨c, hc, hseat⟩ | ⟨hnew, -⟩
      · simp only [seat, Prod.mk.injEq] at hseat
        rw [← hseat.2.2]
        exact h.spent a ha c hc (hseat.1.trans hser)
      · have hold := h.below a ha
        omega
    lost := fun a ha hleft => by
      refine Bool.eq_false_iff.mpr fun hatt => ?_
      have hlost := h.lost a ha hleft
      rw [isAttached_of_retains hr hatt] at hlost
      cases hlost
    known := fun channel hchan => by
      obtain ⟨a, ha, hser, hpid⟩ := h.known channel (hr.channels.subset hchan)
      exact ⟨a, ha, (hr.serials channel hchan).trans hser, hpid⟩ }

theorem mem_noteLost {a : Attachment} (h : a ∈ s.noteLost.attachments) :
    ∃ old ∈ s.attachments, old.serial = a.serial ∧ old.pid = a.pid ∧ old.joined = a.joined ∧
      (old.left = a.left ∧ (a.left = none → isAttached s.broker a = true) ∨
        old.left = none ∧ a.left = some s.history.length ∧ isAttached s.broker a = false) := by
  obtain ⟨old, hold, rfl⟩ := mem_map.mp h
  refine ⟨old, hold, ?_⟩
  by_cases hlost : old.left = none ∧ isAttached s.broker old = false
  · rw [if_pos hlost]
    exact ⟨rfl, rfl, rfl, .inr ⟨hlost.1, rfl, hlost.2⟩⟩
  · rw [if_neg hlost]
    refine ⟨rfl, rfl, rfl, .inl ⟨rfl, fun hleft => ?_⟩⟩
    exact Bool.not_eq_false _ |>.mp fun hfalse => hlost ⟨hleft, hfalse⟩

theorem map_serial_noteLost (s : Relay) :
    s.noteLost.attachments.map Attachment.serial = s.attachments.map Attachment.serial := by
  unfold noteLost
  rw [map_map]
  refine map_congr_left fun a _ => ?_
  simp only [Function.comp_apply]
  split_ifs <;> rfl

theorem Recorded.noteLost (h : Recorded s) : Delivered s.noteLost := by
  have hsers : ∀ a ∈ s.attachments, ∃ a' ∈ s.noteLost.attachments, a'.serial = a.serial ∧
      a'.pid = a.pid := by
    intro a ha
    refine ⟨_, mem_map_of_mem ha, ?_⟩
    split_ifs <;> exact ⟨rfl, rfl⟩
  refine
    { h with
      once := ?_, below := ?_, joined := ?_, left := ?_, spent := ?_
      lost := ?_, known := ?_, records := ?_, others := ?_, kept := ?_ }
  · rw [map_serial_noteLost]
    exact h.once
  · intro a ha
    obtain ⟨old, hold, hser, -⟩ := mem_noteLost ha
    exact hser ▸ h.below old hold
  · intro a ha
    obtain ⟨old, hold, -, -, hjoined, -⟩ := mem_noteLost ha
    exact hjoined ▸ h.joined old hold
  · intro a ha left hleft
    obtain ⟨old, hold, -, -, -, ⟨hsame, -⟩ | ⟨-, hnow, -⟩⟩ := mem_noteLost ha
    · exact h.left old hold left (hsame.trans hleft)
    · rw [hleft] at hnow
      exact (Option.some.inj hnow).le
  · intro a ha
    obtain ⟨old, hold, hser, -⟩ := mem_noteLost ha
    exact hser ▸ h.spent old hold
  · intro a ha hleft
    obtain ⟨old, hold, hser, hpid, -, ⟨hsame, -⟩ | ⟨-, -, hgone⟩⟩ := mem_noteLost ha
    · have hlost := h.lost old hold (hsame ▸ hleft)
      unfold isAttached at hlost ⊢
      rwa [hser, hpid] at hlost
    · exact hgone
  · intro channel hchan
    obtain ⟨a, ha, hser, hpid⟩ := h.known channel hchan
    obtain ⟨a', ha', hser', hpid'⟩ := hsers a ha
    exact ⟨a', ha', hser.trans (congrArg some hser'.symm), hpid.trans hpid'.symm⟩
  · intro a ha
    obtain ⟨old, hold, hser, hpid, hjoined, hleft⟩ := mem_noteLost ha
    have hreplayed : a.replayed s.history = old.replayed s.history := by
      unfold Attachment.replayed
      rw [hjoined]
    have hoverheard : a.overheard s.history = old.overheard s.history := by
      unfold Attachment.overheard
      rcases hleft with ⟨hsame, -⟩ | ⟨hnone, hnow, -⟩
      · rw [hpid, hjoined, hsame]
      · rw [hpid, hjoined, hnone, hnow, Option.getD_some, Option.getD_none]
    show s.recordsOf a.serial = (a.replayed s.history ++ a.overheard s.history).map _
    rw [hreplayed, hoverheard, ← hser]
    exact h.records old hold
  · intro serial hother
    refine h.others serial fun a ha hser => ?_
    obtain ⟨a', ha', hser', -⟩ := hsers a ha
    exact hother a' ha' (hser'.trans hser)
  · intro a ha hleft
    obtain ⟨old, hold, hser, hpid, -, ⟨-, hkept⟩ | ⟨-, hnow, -⟩⟩ := mem_noteLost ha
    · exact hkept hleft
    · rw [hleft] at hnow
      cases hnow

/-! ## Attaching -/

theorem replayBroadcastEvents_eq (fd : ℕ) (s : Relay) :
    s.replayBroadcastEvents fd =
      { s with
        written := s.written ++
          s.broadcastEvents.map fun event => (s.broker.serialOf fd, event) } :=
  foldl_pushRecord (fun _ => fd) id s.broadcastEvents s

theorem recordsOf_replay {s' : Relay} {owner : ℕ} {events : List (List UInt8)}
    (h : s'.written = s.written ++ events.map fun event => (some owner, event)) (serial : ℕ) :
    s'.recordsOf serial = s.recordsOf serial ++ if owner = serial then events else [] := by
  rw [recordsOf_append h, filter_map]
  by_cases howner : owner = serial
  · simp [howner, Function.comp_def]
  · simp [howner, Function.comp_def]

theorem Recorded.attach (h : Recorded s) {b' : Broker} (hb' : Consistent b') (hs' : Accounted b')
    {index : ℕ} {pid : ℤ} {connection new : Connection}
    (hc : s.broker.connections[index]? = some connection)
    (hat : Attaches index connection pid s.broker b') (hnew : b'.connections[index]? = some new) :
    Recorded
      { s with
        broker := b'
        written := s.written ++ s.broadcastEvents.map fun event => (some new.serial, event)
        attachments := s.attachments ++ [⟨new.serial, pid, s.history.length, none⟩] } := by
  obtain ⟨found, hfound, hid, hser, hfd, hmem⟩ := hat.getElem?_new hc
  obtain rfl : found = new := Option.some.inj (hfound.symm.trans hnew)
  have hin := mem_of_getElem? hnew
  have hown : b'.serialOf connection.fd = some found.serial := hfd ▸ Broker.serialOf_eq hb'.fds hin
  -- the connection has no channel yet, so it never had one
  have hfresh : ∀ a ∈ s.attachments, a.serial ≠ found.serial := fun a ha heq =>
    h.spent a ha connection (mem_of_getElem? hc) (hser ▸ heq.symm) hat.unclaimed
  have hall : ∀ {P : Attachment → Prop}, (∀ a ∈ s.attachments, P a) →
      P ⟨found.serial, pid, s.history.length, none⟩ →
      ∀ a ∈ s.attachments ++ [⟨found.serial, pid, s.history.length, none⟩], P a := by
    intro P hold hnew a ha
    rcases mem_append.mp ha with ha | ha
    · exact hold a ha
    · exact mem_singleton.mp ha ▸ hnew
  have hnone : s.recordsOf found.serial = [] := h.others _ hfresh
  refine
    { events := h.events, claimed := hat.claimed h.claimed hb' hc
      once := ?_, below := hall ?_ ?_, joined := hall h.joined (Nat.le_refl _)
      left := hall h.left (by simp), spent := hall ?_ ?_, lost := hall ?_ (by simp)
      known := ?_, records := hall ?_ ?_, others := ?_ }
  · rw [map_append, nodup_append']
    refine ⟨h.once, nodup_singleton _, fun serial hold heq => ?_⟩
    obtain ⟨a, ha, rfl⟩ := mem_map.mp hold
    exact hfresh a ha (mem_singleton.mp heq)
  · intro a ha
    exact (h.below a ha).trans_eq hat.nextSerial.symm
  · exact hs'.serialsBelow found hin
  · intro a ha c hcon heq
    rcases hmem c hcon with rfl | hcon
    · exact hid
    · exact h.spent a ha c hcon heq
  · intro c hcon heq
    have hsame : c = found := inj_on_of_nodup_map hs'.serials hcon hin heq
    rwa [hsame]
  · intro a ha hleft
    refine Bool.eq_false_iff.mpr fun hatt => ?_
    obtain ⟨channel, hchan, hch, hpid⟩ := isAttached_iff.mp hatt
    rcases hat.mem_live hchan with ⟨hnewFd, -⟩ | hold
    · rw [hnewFd, hown] at hch
      exact hfresh a ha (Option.some.inj hch).symm
    · have hlost := h.lost a ha hleft
      rw [isAttached_iff.mpr ⟨channel, hold, hat.serialOf_eq hc _ ▸ hch, hpid⟩] at hlost
      cases hlost
  · intro channel hchan
    rcases hat.mem_live hchan with ⟨hnewFd, hpid⟩ | hold
    · exact ⟨_, mem_append_right _ (mem_singleton.mpr rfl), hnewFd ▸ hown, hpid⟩
    · obtain ⟨a, ha, hch, hpid⟩ := h.known channel hold
      exact ⟨a, mem_append_left _ ha, (hat.serialOf_eq hc _).trans hch, hpid⟩
  · intro a ha
    refine (recordsOf_replay rfl _).trans ?_
    rw [if_neg (hfresh a ha).symm, append_nil]
    exact h.records a ha
  · refine (recordsOf_replay rfl _).trans ?_
    rw [hnone, h.events]
    simp [Attachment.replayed, Attachment.overheard, rtake, map_drop]
  · intro serial hother
    refine (recordsOf_replay rfl _).trans ?_
    have hne : found.serial ≠ serial := hother _ (mem_append_right _ (mem_singleton.mpr rfl))
    rw [if_neg hne, append_nil]
    exact h.others serial fun a ha => hother a (mem_append_left _ ha)

/-! ## Broadcasting -/

/-- The records a broadcast writes. -/
def copies (b : Broker) (senderPid : ℤ) (payload : List UInt8) : List (Option ℕ × List UInt8) :=
  ((live b.portChannels).filter (·.pid != senderPid)).map fun channel =>
    (b.serialOf channel.fd, payload)

theorem deliver_eq (senderPid : ℤ) (payload : List UInt8) (s : Relay) :
    s.deliver senderPid payload =
      { s with written := s.written ++ copies s.broker senderPid payload } :=
  foldl_pushRecord PortChannel.fd (fun _ => payload) _ s

theorem filter_copies (b : Broker) (senderPid : ℤ) (payload : List UInt8) (serial : ℕ) :
    ((copies b senderPid payload).filter (·.1 == some serial)).map Prod.snd =
      (((live b.portChannels).filter fun channel => b.serialOf channel.fd == some serial).filter
        (·.pid != senderPid)).map fun _ => payload := by
  unfold copies
  rw [filter_map, map_map, filter_comm]
  rfl

theorem filter_serialOf (hb : Consistent s.broker) (hs : Accounted s.broker)
    (hclaimed : Claimed s.broker) {channel : PortChannel}
    (hchan : channel ∈ live s.broker.portChannels)
    (hser : s.broker.serialOf channel.fd = some serial) :
    ((live s.broker.portChannels).filter fun other =>
      s.broker.serialOf other.fd == some serial) = [channel] := by
  have hnodup : ((live s.broker.portChannels).filter fun other =>
      s.broker.serialOf other.fd == some serial).Nodup := hclaimed.fds.of_map.filter _
  refine perm_singleton.mp ((perm_ext_iff_of_nodup hnodup (nodup_singleton _)).mpr ?_)
  intro other
  rw [mem_filter, mem_singleton, beq_iff_eq]
  refine ⟨fun ⟨hother, hsame⟩ => ?_, fun heq => heq ▸ ⟨hchan, hser⟩⟩
  obtain ⟨c, hc, hcfd⟩ := mem_map.mp (hb.channelFd channel hchan)
  obtain ⟨c', hc', hcfd'⟩ := mem_map.mp (hb.channelFd other hother)
  rw [← hcfd, Broker.serialOf_eq hb.fds hc] at hser
  rw [← hcfd', Broker.serialOf_eq hb.fds hc'] at hsame
  have hcc : c' = c := inj_on_of_nodup_map hs.serials hc' hc
    (Option.some.inj (hsame.trans hser.symm))
  refine inj_on_of_nodup_map hclaimed.fds hother hchan ?_
  rw [← hcfd, ← hcfd', hcc]

theorem rememberBroadcastEvent_eq {payload : List UInt8} (hlen : payload.length ≤ maxPayload)
    (hevents : s.broadcastEvents = (s.history.map Broadcast.payload).rtake maxBroadcastEvents) :
    s.rememberBroadcastEvent payload =
      { s with broadcastEvents :=
        (s.history.map Broadcast.payload ++ [payload]).rtake maxBroadcastEvents } := by
  unfold rememberBroadcastEvent
  rw [if_neg (Nat.not_lt.mpr hlen), ← rtake_push _ _ (by decide), ← hevents]

theorem Delivered.broadcast (h : Delivered s) (hb : Consistent s.broker) (hs : Accounted s.broker)
    (senderPid : ℤ) (payload : List UInt8) :
    Recorded
      { s with
        broadcastEvents := (s.history.map Broadcast.payload ++ [payload]).rtake maxBroadcastEvents
        written := s.written ++ copies s.broker senderPid payload
        history := s.history ++ [⟨senderPid, payload⟩] } := by
  have hlonger : s.history.length ≤ (s.history ++ [Broadcast.mk senderPid payload]).length := by
    rw [length_append]
    exact Nat.le_add_right _ _
  -- a connection that is not attached has no channel
  have hunknown : ∀ serial, (∀ a ∈ s.attachments, a.serial = serial → a.left ≠ none) →
      (live s.broker.portChannels).filter
        (fun channel => s.broker.serialOf channel.fd == some serial) = [] := by
    intro serial hgone
    refine filter_eq_nil_iff.mpr fun channel hchan hser => ?_
    obtain ⟨a, ha, hown, hpid⟩ := h.known channel hchan
    have hsame : a.serial = serial := Option.some.inj (hown.symm.trans (beq_iff_eq.mp hser))
    have hlost := h.lost a ha (hgone a ha hsame)
    rw [isAttached_iff.mpr ⟨channel, hchan, hown, hpid⟩] at hlost
    cases hlost
  refine
    { h with
      events := by rw [map_append, map_singleton]
      joined := fun a ha => (h.joined a ha).trans hlonger
      left := fun a ha left hleft => (h.left a ha left hleft).trans hlonger
      records := fun a ha => ?_
      others := fun serial hother => ?_ }
  · refine (recordsOf_append rfl _).trans ?_
    rw [filter_copies, h.records a ha, Attachment.replayed_concat (h.joined a ha), map_append,
      map_append]
    cases hleft : a.left with
    | some left =>
      have hgone : ∀ a' ∈ s.attachments, a'.serial = a.serial → a'.left ≠ none := by
        intro a' ha' heq
        rw [inj_on_of_nodup_map h.once ha' ha heq, hleft]
        exact Option.some_ne_none left
      rw [Attachment.overheard_lost hleft (h.left a ha left hleft), hunknown _ hgone,
        filter_nil, map_nil, append_nil]
    | none =>
    obtain ⟨channel, hchan, hser, hpid⟩ := isAttached_iff.mp (h.kept a ha hleft)
    rw [Attachment.overheard_kept hleft (h.joined a ha), filter_serialOf hb hs h.claimed hchan hser]
    by_cases hsame : senderPid = a.pid
    · simp [hpid, hsame]
    · simp [hpid, hsame, Ne.symm hsame]
  · refine (recordsOf_append rfl _).trans ?_
    rw [filter_copies, hunknown serial fun a ha heq => absurd heq (hother a ha), filter_nil,
      map_nil, append_nil]
    exact h.others serial hother

theorem Delivered.remember_deliver (h : Delivered s) (hb : Consistent s.broker)
    (hs : Accounted s.broker) (senderPid : ℤ) {payload : List UInt8}
    (hlen : payload.length ≤ maxPayload) :
    Recorded
      { (s.rememberBroadcastEvent payload).deliver senderPid payload with
        history := ((s.rememberBroadcastEvent payload).deliver senderPid payload).history ++
          [⟨senderPid, payload⟩] } := by
  rw [deliver_eq, rememberBroadcastEvent_eq hlen h.events]
  dsimp only
  exact h.broadcast hb hs senderPid payload

/-! ## Runs -/

theorem portAttach_delivered {root : Bool} {index : ℕ} (h : Delivered s) (hb : Consistent s.broker)
    (sessionId pidText : Name) {connection : Connection}
    (hc : s.broker.connections[index]? = some connection)
    (hb' : Consistent (s.broker.handleClient root index sessionId (.portAttach pidText)).2)
    (hs' : Accounted (s.broker.handleClient root index sessionId (.portAttach pidText)).2) :
    Recorded (s.portAttach root index sessionId pidText) := by
  rcases handleClient_portAttach root hb sessionId pidText hc with
    ⟨⟨e, hstat⟩, hr⟩ | ⟨pid, hpid, hstat, hat⟩
  · have hrefused : s.portAttach root index sessionId pidText =
        { s with
          broker := (s.broker.handleClient root index sessionId (.portAttach pidText)).2 } := by
      unfold portAttach
      simp only [hstat]
    rw [hrefused]
    exact h.toRecorded.retains hb hr
  · obtain ⟨new, hnew, -⟩ := hat.getElem?_new hc
    have hserial := Broker.serialOf_eq hb'.fds (mem_of_getElem? hnew)
    have hrecorded := h.toRecorded.attach hb' hs' hc hat hnew
    unfold portAttach
    simp only [hstat, hnew, hpid, replayBroadcastEvents_eq, hserial]
    exact hrecorded

theorem handleClient_other (root : Bool) (index : ℕ) (sessionId : Name) (b : Broker) :
    ∃ sessions sessionClock, (b.handleClient root index sessionId .other).2 =
      { b with sessions := sessions, sessionClock := sessionClock } := by
  unfold handleClient
  cases b.connections[index]? with
  | none => exact ⟨b.sessions, b.sessionClock, rfl⟩
  | some connection =>
  cases hget : b.getSession sessionId with
  | none => exact ⟨b.sessions, b.sessionClock, rfl⟩
  | some found =>
    obtain ⟨session, b₁⟩ := found
    obtain ⟨_, clock, -, -, rfl, -⟩ := getSession_spec hget
    exact ⟨_, clock, rfl⟩

theorem portBroadcast_delivered {root : Bool} {index : ℕ} (h : Delivered s)
    (hb : Consistent s.broker) (hs : Accounted s.broker) (sessionId : Name) {payload : List UInt8}
    (hlen : payload.length ≤ maxPayload) :
    Recorded (s.portBroadcast root index sessionId payload) := by
  obtain ⟨sessions, clock, hbroker⟩ := handleClient_other root index sessionId s.broker
  have hsame : Delivered { s with
      broker := { s.broker with sessions := sessions, sessionClock := clock } } :=
    { h with claimed := ⟨h.claimed.fds, h.claimed.ids⟩ }
  have hmade := hsame.remember_deliver (hb.withSessions _ _ _) { hs with }
  unfold portBroadcast
  simp only [hbroker]
  cases (s.broker.handleClient root index sessionId .other).1 with
  | some e => exact hsame.toRecorded
  | none =>
  cases s.broker.connections[index]? with
  | none => exact hsame.toRecorded
  | some connection =>
  simp only
  by_cases hpeer : connection.peerPid ≤ 0
  · rw [if_pos hpeer]
    exact hsame.toRecorded
  · rw [if_neg hpeer]
    exact hmade connection.peerPid hlen

theorem broker_rememberBroadcastEvent (payload : List UInt8) (s : Relay) :
    (s.rememberBroadcastEvent payload).broker = s.broker := by
  unfold rememberBroadcastEvent
  split_ifs <;> rfl

theorem step_broker (root : Bool) {a : RelayAction} (ha : a.Possible s) :
    ∃ a', a'.Possible s.broker ∧ (s.step root a).broker = s.broker.step root a' := by
  cases a with
  | registry a =>
    refine ⟨a, ha, ?_⟩
    unfold Relay.step
    split
    · next index sessionId pidText heq =>
      obtain rfl := RelayAction.registry.inj heq
      simp only [Relay.noteLost, portAttach, replayBroadcastEvents_eq]
      split <;> rfl
    · next heq =>
      obtain rfl := RelayAction.registry.inj heq
      rfl
    · next heq => cases heq
  | broadcast index sessionId payload =>
  refine ⟨.request index sessionId .other, ha.1, ?_⟩
  simp only [Relay.step, Relay.noteLost, portBroadcast, deliver_eq]
  split
  · split_ifs
    · rfl
    · exact broker_rememberBroadcastEvent payload _
  · rfl

theorem run_broker {root : Bool} {n : ℕ} (h : (relayMachine root).Run n s) :
    (brokerMachine root).Run n s.broker := by
  induction h with
  | start => exact .start
  | step a _ ha ih =>
    obtain ⟨a', ha', heq⟩ := step_broker root ha
    exact heq ▸ run_step ih a' ha'

theorem step_delivered {root : Bool} {a : RelayAction} (ha : a.Possible s) (h : Delivered s)
    (hb : Consistent s.broker) (hs : Accounted s.broker) : Delivered (s.step root a) := by
  unfold Relay.step
  split
  · next index sessionId pidText =>
    have hreq : (Action.request index sessionId (.portAttach pidText)).Possible s.broker := ha
    exact (portAttach_delivered h hb sessionId pidText (getElem?_eq_getElem ha)
      (step_consistent hreq hb) (step_accounted hreq hb hs)).noteLost
  · next a hop =>
    exact (h.toRecorded.retains hb (step_retains ha hb hop)).noteLost
  · next index sessionId payload =>
    exact (portBroadcast_delivered h hb hs sessionId ha.2).noteLost

theorem run_delivered {root : Bool} {n : ℕ} (h : (relayMachine root).Run n s) : Delivered s := by
  refine Machine.Run.invariant (P := fun _ s => Delivered s) delivered_start ?_ h
    (Nat.lt_succ_self n)
  intro n s a _ hrun ha h
  have hbroker := run_broker hrun
  exact step_delivered ha h (run_consistent hbroker) (run_accounted hbroker)

end Records

end Relay

/-- **Broadcast delivery.** In every run, and for every channel that was ever attached, the
broadcast records written to its connection are the last 256 broadcasts made before it was
attached, or all of them if there were fewer, followed by those made while it was attached by a
process with another pid: in the order they were made, none twice and none left out. An attachment
counts as ended exactly when its channel is no longer in the table, every channel in the table is
one that was attached, a connection is attached at most once, and one that never was gets no
record. -/
theorem broadcast_delivery {root : Bool} {n : ℕ} {s : Relay} (h : (relayMachine root).Run n s) :
    (∀ a ∈ s.attachments,
      s.recordsOf a.serial = (a.replayed s.history ++ a.overheard s.history).map Broadcast.payload ∧
      (a.replayed s.history).length = min a.joined maxBroadcastEvents ∧
      (a.replayed s.history ++ a.overheard s.history).Sublist s.history ∧
      (a.left = none ↔ Relay.isAttached s.broker a = true)) ∧
    (∀ channel ∈ live s.broker.portChannels, ∃ a ∈ s.attachments,
      s.broker.serialOf channel.fd = some a.serial ∧ channel.pid = a.pid) ∧
    (s.attachments.map Attachment.serial).Nodup ∧
    ∀ serial, (∀ a ∈ s.attachments, a.serial ≠ serial) → s.recordsOf serial = [] := by
  have hs := Relay.run_delivered h
  refine ⟨fun a ha => ⟨hs.records a ha, Attachment.length_replayed (hs.joined a ha),
    a.heard_sublist s.history, hs.kept a ha, fun hattached => ?_⟩, hs.known, hs.once, hs.others⟩
  by_contra hleft
  rw [hs.lost a ha hleft] at hattached
  cases hattached

def newsTalk : List RelayAction :=
  [.registry (.accept 5 100), .broadcast 0 shellId (ascii "early"), .registry (.accept 6 200),
    .registry (.request 1 shellId (.portAttach (ascii "200"))),
    .broadcast 0 shellId (ascii "late"), .broadcast 1 shellId (ascii "own")]

def newsRelay : Relay := (relayMachine false).exec newsTalk Relay.start

theorem broadcast_delivery_news : newsRelay.recordsOf 1 = [ascii "early", ascii "late"] := by
  have hcan : (relayMachine false).CanExec newsTalk Relay.start := by decide +kernel
  have hrun : (relayMachine false).Run (0 + 6) newsRelay := Machine.Run.start.exec hcan
  have hattached : (⟨1, 200, 1, none⟩ : Attachment) ∈ newsRelay.attachments := by decide +kernel
  have hheard : ((⟨1, 200, 1, none⟩ : Attachment).replayed newsRelay.history ++
      (⟨1, 200, 1, none⟩ : Attachment).overheard newsRelay.history).map Broadcast.payload =
        [ascii "early", ascii "late"] := by decide +kernel
  exact ((broadcast_delivery hrun).1 _ hattached).1.trans hheard

end AceShell
