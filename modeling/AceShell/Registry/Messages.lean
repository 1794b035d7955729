import AceShell.Registry.Numbering

/-!
# Port messages are answered at most once, and only to their sender

A message in flight is a conversation: its id, the connection of the sender's channel and the pid
of the port's owner. The message table refines the ledger of conversations: ending messages writes
one entry for each (`Settles.endMessages`), what is in flight keeps its conversation while
connections come and go (`serialOf_congr`), and until the counter wraps, ids are handed out once
(`OpenedOnce`).
-/

namespace AceShell

open Text SlotTable Ledger List

variable {fd session n : ℕ} {message : PortMessage} {new log : PortLog} {root : Bool} {b : Broker}
  {a : Action}

namespace Broker

def conversation (b : Broker) (message : PortMessage) : Conversation ℕ (Option ℕ) ℤ :=
  ⟨message.id, b.serialOf message.senderChannelFd, message.ownerPid⟩

def inFlight (b : Broker) : List (Conversation ℕ (Option ℕ) ℤ) :=
  (live b.portMessages).map b.conversation

/-- The log and the tables agree. -/
structure Accounted (b : Broker) : Prop where
  kept : Kept b.log b.inFlight
  serials : (b.connections.map Connection.serial).Nodup
  serialsBelow : ∀ c ∈ b.connections, c.serial < b.nextSerial
  senders : ∀ c, .opened c ∈ b.log → ∃ serial < b.nextSerial, c.sender = some serial
  /-- A message is forgotten with the connection that waited, which does not come back. -/
  forgotten : ∀ id closed, .forgotten id closed ∈ b.log →
    ∃ serial < b.nextSerial, closed = some serial ∧ ∀ c ∈ b.connections, c.serial ≠ serial

/-- No id was handed out twice. -/
structure OpenedOnce (b : Broker) : Prop where
  ids : (b.log.filterMap Entry.openedId).Nodup
  below : ∀ id ∈ b.log.filterMap Entry.openedId, id < b.nextPortMessageId

theorem accounted_start : Accounted Broker.start := by
  constructor
  case kept => simpa [inFlight, Broker.start] using Kept.nil
  all_goals simp [Broker.start]

section Messages

variable {b b' b'' : Broker} {index : ℕ} {connection : Connection} {G : Option ℕ → Prop}

/-! ## Descriptors and connections -/

theorem serialOf_eq (hfds : b.fds.Nodup) {c : Connection} (hc : c ∈ b.connections) :
    b.serialOf c.fd = some c.serial := by
  unfold serialOf
  cases hfind : b.connections.find? (·.fd == c.fd) with
  | none =>
    have hother := find?_eq_none.mp hfind c hc
    simp at hother
  | some found =>
    have hfd : found.fd = c.fd := by simpa using find?_some hfind
    have heq := inj_on_of_nodup_map hfds (mem_of_find?_eq_some hfind) hc hfd
    rw [heq, Option.map_some]

theorem serialOf_congr (hfds : b.fds.Nodup) (hfds' : b'.fds.Nodup) (hfd : fd ∈ b.fds)
    (hstay : ∀ c ∈ b.connections, c.fd = fd →
      ∃ c' ∈ b'.connections, c'.fd = c.fd ∧ c'.serial = c.serial) :
    b'.serialOf fd = b.serialOf fd := by
  obtain ⟨c, hc, rfl⟩ := mem_map.mp hfd
  obtain ⟨c', hc', hsame, hser⟩ := hstay c hc rfl
  rw [serialOf_eq hfds hc, ← hsame, serialOf_eq hfds' hc', hser]

theorem kept_congr (h : Kept b.log b.inFlight) (hlog : b'.log = b.log)
    (hmsgs : b'.portMessages = b.portMessages) (hser : ∀ message ∈ live b.portMessages,
      b'.serialOf message.senderChannelFd = b.serialOf message.senderChannelFd) :
    Kept b'.log b'.inFlight := by
  have hsame : b'.inFlight = b.inFlight := by
    unfold inFlight
    rw [hmsgs]
    refine map_congr_left fun message hm => ?_
    unfold conversation
    rw [hser message hm]
  rwa [hlog, hsame]

/-! ## Ending conversations -/

/-- From `b` to `b'` conversations end. Those that are forgotten waited on a connection that
satisfies `G`. -/
structure Settles (G : Option ℕ → Prop) (b b' : Broker) : Prop where
  connections : b'.connections = b.connections
  nextSerial : b'.nextSerial = b.nextSerial
  nextId : b'.nextPortMessageId = b.nextPortMessageId
  kept : Kept b.log b.inFlight → Kept b'.log b'.inFlight
  log : ∃ new, b'.log = new ++ b.log ∧ ∀ e ∈ new, e.openedId = none ∧
    ∀ id closed, e = .forgotten id closed → G closed

theorem Settles.of_eq (hconns : b'.connections = b.connections)
    (hser : b'.nextSerial = b.nextSerial) (hid : b'.nextPortMessageId = b.nextPortMessageId)
    (hmsgs : b'.portMessages = b.portMessages) (hlog : b'.log = b.log) : Settles G b b' where
  connections := hconns
  nextSerial := hser
  nextId := hid
  kept hkept := kept_congr hkept hlog hmsgs fun message _ => by
    unfold serialOf
    rw [hconns]
  log := ⟨[], hlog, by simp⟩

theorem Settles.trans (h : Settles G b b') (h' : Settles G b' b'') : Settles G b b'' where
  connections := h'.connections.trans h.connections
  nextSerial := h'.nextSerial.trans h.nextSerial
  nextId := h'.nextId.trans h.nextId
  kept hkept := h'.kept (h.kept hkept)
  log := by
    obtain ⟨new, hlog, hnew⟩ := h.log
    obtain ⟨new', hlog', hnew'⟩ := h'.log
    refine ⟨new' ++ new, by rw [hlog', hlog, append_assoc], fun e he => ?_⟩
    exact (mem_append.mp he).elim (hnew' e) (hnew e)

theorem Settles.endMessages (p : PortMessage → Bool)
    (entry : Conversation ℕ (Option ℕ) ℤ → Entry ℕ (Option ℕ) ℤ) (hends : ∀ c, (entry c).Ends c)
    (hforgotten : ∀ message ∈ (live b.portMessages).filter p, ∀ id closed,
      entry (b.conversation message) = .forgotten id closed → G closed) :
    Settles G b { b with
      portMessages := clearWhere p b.portMessages
      log := (((live b.portMessages).filter p).map fun message =>
        entry (b.conversation message)).reverse ++ b.log } where
  connections := rfl
  nextSerial := rfl
  nextId := rfl
  kept hkept := by
    have hsplit : b.inFlight.Perm (((live b.portMessages).filter p).map b.conversation ++
        ((live b.portMessages).filter fun message => !p message).map b.conversation) := by
      rw [← map_append]
      exact (filter_append_perm p _).symm.map _
    have hall := (hkept.perm hsplit).end_all fun c _ => hends c
    rw [map_map] at hall
    unfold inFlight
    rw [live_clearWhere]
    exact hall
  log := by
    refine ⟨_, rfl, fun e he => ?_⟩
    obtain ⟨message, hm, rfl⟩ := mem_map.mp (mem_reverse.mp he)
    exact ⟨(hends _).openedId, hforgotten message hm⟩

theorem settles_abandonMessages (p : PortMessage → Bool) (b : Broker) :
    Settles G b (b.abandonMessages p) :=
  Settles.endMessages p (fun c => .abandoned c.id c.sender) (fun _ => ⟨rfl, rfl⟩)
    nofun

theorem settles_foldl_abandonMessages {β : Type*} (p : β → PortMessage → Bool) (xs : List β)
    (b : Broker) : Settles G b (xs.foldl (fun b x => b.abandonMessages (p x)) b) := by
  induction xs generalizing b with
  | nil => exact .of_eq rfl rfl rfl rfl rfl
  | cons x xs ih => exact (settles_abandonMessages (p x) b).trans (ih _)

theorem settles_reply {slot : ℕ} (hslot : b.portMessages[slot]? = some (some message)) {replier : ℤ}
    (howner : replier = message.ownerPid) :
    Settles G b { b with
      portMessages := release slot b.portMessages
      log := .answered message.id (b.serialOf message.senderChannelFd) replier :: b.log } where
  connections := rfl
  nextSerial := rfl
  nextId := rfl
  kept hkept := by
    have hperm : b.inFlight.Perm
        (b.conversation message :: (live (release slot b.portMessages)).map b.conversation) :=
      (live_release hslot).map b.conversation
    exact (hkept.perm hperm).ended ⟨rfl, rfl, howner⟩
  log := by
    refine ⟨[_], rfl, fun e he => ?_⟩
    obtain rfl := mem_singleton.mp he
    exact ⟨rfl, nofun⟩

theorem settles_replaceChannel (pid : ℤ) (b : Broker) : Settles G b (b.replaceChannel pid) := by
  rcases replaceChannel_cases pid b with ⟨heq, -⟩ | ⟨slot, channel, -, -, heq⟩
  · rw [heq]
    exact .of_eq rfl rfl rfl rfl rfl
  · rw [heq]
    exact (settles_abandonMessages _ b).trans (.of_eq rfl rfl rfl rfl rfl)

/-! ## What each action does to the account -/

theorem openedIds_append (hnew : ∀ e ∈ new, e.openedId = none) :
    (new ++ log).filterMap Entry.openedId = log.filterMap Entry.openedId := by
  rw [filterMap_append, filterMap_eq_nil_iff.mpr hnew, nil_append]

theorem opened_mem_append (hnew : ∀ e ∈ new, e.openedId = none) {c : Conversation ℕ (Option ℕ) ℤ}
    (h : .opened c ∈ new ++ log) : .opened c ∈ log := by
  refine (mem_append.mp h).resolve_left fun hin => ?_
  cases hnew _ hin

theorem Accounted.settles (h : Accounted b) (hs : Settles (fun _ => False) b b') :
    Accounted b' := by
  obtain ⟨new, hlog, hnew⟩ := hs.log
  constructor
  case kept => exact hs.kept h.kept
  case serials => exact hs.connections ▸ h.serials
  case serialsBelow => exact hs.connections ▸ hs.nextSerial ▸ h.serialsBelow
  case senders =>
    intro c hc
    rw [hlog] at hc
    rw [hs.nextSerial]
    exact h.senders c (opened_mem_append (fun e he => (hnew e he).1) hc)
  case forgotten =>
    intro id closed hin
    rw [hlog] at hin
    rw [hs.nextSerial, hs.connections]
    rcases mem_append.mp hin with hin | hin
    · exact ((hnew _ hin).2 id closed rfl).elim
    · exact h.forgotten id closed hin

theorem OpenedOnce.settles (h : OpenedOnce b) (hs : Settles G b b') : OpenedOnce b' := by
  obtain ⟨new, hlog, hnew⟩ := hs.log
  have hids : b'.log.filterMap Entry.openedId = b.log.filterMap Entry.openedId := by
    rw [hlog]
    exact openedIds_append fun e he => (hnew e he).1
  exact ⟨hids ▸ h.ids, hids ▸ hs.nextId ▸ h.below⟩

theorem Accounted.setConnection (h : Accounted b) (hb : Consistent b) (new : Connection)
    (hc : b.connections[index]? = some connection) (hfd : new.fd = connection.fd)
    (hser : new.serial = connection.serial) : Accounted (b.setConnection index new) := by
  have hsers : (b.setConnection index new).connections.map Connection.serial =
      b.connections.map Connection.serial := map_setConnection hc hser
  have hmem : ∀ {c}, c ∈ (b.setConnection index new).connections →
      ∃ c' ∈ b.connections, c'.serial = c.serial := by
    intro c hin
    exact mem_map.mp (hsers ▸ mem_map_of_mem hin)
  refine { h with
    kept := ?_
    serials := hsers ▸ h.serials
    serialsBelow := fun c hin => ?_
    forgotten := fun id closed hin => ?_ }
  · refine kept_congr h.kept rfl rfl fun message hm => ?_
    refine serialOf_congr hb.fds (fds_setConnection hc hfd ▸ hb.fds) (hb.messageFd message hm) ?_
    intro c hin _
    by_cases heq : c = connection
    · exact ⟨new, List.mem_set (List.getElem?_eq_some_iff.mp hc).1 new, heq ▸ hfd, heq ▸ hser⟩
    · exact ⟨c, mem_set_of_ne hc hin heq new, rfl, rfl⟩
  · obtain ⟨c', hc', heq⟩ := hmem hin
    exact heq ▸ h.serialsBelow c' hc'
  · obtain ⟨serial, hlt, hclosed, hgone⟩ := h.forgotten id closed hin
    refine ⟨serial, hlt, hclosed, fun c hin' => ?_⟩
    obtain ⟨c', hc', heq⟩ := hmem hin'
    exact heq ▸ hgone c' hc'

theorem Accounted.putMessage (h : Accounted b) (hb : Consistent b)
    {portMessages : List (Option PortMessage)} (hfd : message.senderChannelFd ∈ b.fds)
    (hplace : place message b.portMessages = some portMessages) (nextPortMessageId : ℕ) :
    Accounted { b with
      portMessages := portMessages
      nextPortMessageId := nextPortMessageId
      log := .opened (b.conversation message) :: b.log } := by
  have hperm : ((live portMessages).map b.conversation).Perm
      (b.conversation message :: b.inFlight) := (live_place hplace).map b.conversation
  refine { h with
    kept := (h.kept.opened _).perm hperm.symm
    senders := fun c hin => ?_
    forgotten := fun id closed hin => ?_ }
  · rcases mem_cons.mp hin with heq | hin
    · obtain ⟨sender, hsender, hsame⟩ := mem_map.mp hfd
      refine ⟨sender.serial, h.serialsBelow sender hsender, ?_⟩
      rw [Entry.opened.inj heq, ← serialOf_eq hb.fds hsender, hsame]
      rfl
    · exact h.senders c hin
  · exact h.forgotten id closed ((mem_cons.mp hin).resolve_left (by simp))

theorem OpenedOnce.putMessage (h : OpenedOnce b)
    (hnext : nextId b.nextPortMessageId = b.nextPortMessageId + 1) (c : Conversation ℕ (Option ℕ) ℤ)
    (hid : c.id = b.nextPortMessageId) (portMessages : List (Option PortMessage)) :
    OpenedOnce { b with
      portMessages := portMessages
      nextPortMessageId := nextId b.nextPortMessageId
      log := .opened c :: b.log } := by
  have hids : (Entry.opened c :: b.log).filterMap Entry.openedId =
      c.id :: b.log.filterMap Entry.openedId := filterMap_cons_some rfl
  constructor
  · refine hids ▸ nodup_cons.mpr ⟨fun hin => ?_, h.ids⟩
    exact absurd (h.below _ hin) (by omega)
  intro id hin
  show id < nextId b.nextPortMessageId
  rcases mem_cons.mp hin with rfl | hin
  · omega
  · have := h.below id hin
    omega

theorem Accounted.addConnection (h : Accounted b) (hb : Consistent b) (peerPid : ℤ)
    (hfresh : fd ∉ b.fds) :
    Accounted { b with
      connections := b.connections ++ [⟨b.nextSerial, fd, peerPid, none, 0, 0⟩]
      nextSerial := b.nextSerial + 1 } := by
  have hb' := hb.addConnection ⟨b.nextSerial, fd, peerPid, none, 0, 0⟩ hfresh (b.nextSerial + 1)
  refine { h with
    kept := ?_
    serials := ?_
    serialsBelow := fun c hin => ?_
    senders := fun c hin => ?_
    forgotten := fun id closed hin => ?_ }
  · refine kept_congr h.kept rfl rfl fun message hm => ?_
    refine serialOf_congr hb.fds hb'.fds (hb.messageFd message hm) fun c hin _ => ?_
    exact ⟨c, mem_append_left _ hin, rfl, rfl⟩
  · rw [map_append]
    refine nodup_append'.mpr ⟨h.serials, nodup_singleton _, fun serial hin hnew => ?_⟩
    obtain ⟨c, hc, rfl⟩ := mem_map.mp hin
    exact absurd (h.serialsBelow c hc) (mem_singleton.mp hnew ▸ Nat.lt_irrefl _)
  · rcases mem_append.mp hin with hin | hin
    · exact Nat.lt_succ_of_lt (h.serialsBelow c hin)
    · rw [mem_singleton.mp hin]
      exact Nat.lt_succ_self _
  · obtain ⟨serial, hlt, hsender⟩ := h.senders c hin
    exact ⟨serial, Nat.lt_succ_of_lt hlt, hsender⟩
  obtain ⟨serial, hlt, hclosed, hgone⟩ := h.forgotten id closed hin
  refine ⟨serial, Nat.lt_succ_of_lt hlt, hclosed, fun c hin' => ?_⟩
  rcases mem_append.mp hin' with hin' | hin'
  · exact hgone c hin'
  · rw [mem_singleton.mp hin']
    exact Nat.ne_of_gt hlt

theorem settles_dropTaskConnection (connection : Connection) (b : Broker) :
    Settles G b (b.dropTaskConnection connection) := by
  unfold dropTaskConnection
  by_cases hzero : connection.taskId = 0
  · rw [if_pos hzero]
    exact .of_eq rfl rfl rfl rfl rfl
  · rw [if_neg hzero]
    cases b.tasks.findIdx? fun slot => slot.any (·.id == connection.taskId) <;>
      exact .of_eq rfl rfl rfl rfl rfl

theorem settles_dropConnectionAnchor (root : Bool) (anchor : Option ℕ) (b : Broker) :
    Settles G b (b.dropConnectionAnchor root anchor) := by
  cases anchor <;> exact .of_eq rfl rfl rfl rfl rfl

theorem settles_dropConnectionPortMessages {waiting : Option ℕ}
    (hwaiting : b.serialOf fd = waiting) :
    Settles (· = waiting) b (b.dropConnectionPortMessages fd) := by
  refine Settles.endMessages (·.senderChannelFd == fd) (fun c => .forgotten c.id c.sender)
    (fun _ => ⟨rfl, rfl⟩) fun message hm id closed heq => ?_
  have hfd : message.senderChannelFd = fd := by simpa using (mem_filter.mp hm).2
  rw [← hwaiting, ← hfd]
  exact (Entry.forgotten.inj heq).2.symm

def teardown (root : Bool) (connection : Connection) (b : Broker) : Broker :=
  let b := b.dropTaskConnection connection
  let b := b.dropConnectionPorts connection.fd
  let b := b.dropConnectionPortChannels connection.fd
  let b := b.dropConnectionPortMessages connection.fd
  b.dropConnectionAnchor root connection.anchor

theorem dropConnection_eq (root : Bool) (hc : b.connections[index]? = some connection) :
    b.dropConnection root index =
      { b.teardown root connection with
        connections := swapRemove index (b.teardown root connection).connections } := by
  unfold dropConnection
  rw [hc]
  rfl

theorem settles_teardown (root : Bool) (hfds : b.fds.Nodup) (hc : connection ∈ b.connections) :
    Settles (· = some connection.serial) b (b.teardown root connection) := by
  have hports : ∀ b, Settles (· = some connection.serial) b
      (b.dropConnectionPorts connection.fd) := fun b =>
    (settles_foldl_abandonMessages (fun (port : BrokerPort) m => m.portId == port.id) _ b).trans
      (.of_eq rfl rfl rfl rfl rfl)
  have hchans : ∀ b, Settles (· = some connection.serial) b
      (b.dropConnectionPortChannels connection.fd) := fun b =>
    (settles_foldl_abandonMessages (fun (ch : PortChannel) m => m.ownerPid == ch.pid) _ b).trans
      (.of_eq rfl rfl rfl rfl rfl)
  have habandoned := (settles_dropTaskConnection connection b).trans ((hports _).trans (hchans _))
  refine habandoned.trans (.trans (settles_dropConnectionPortMessages ?_)
    (settles_dropConnectionAnchor root connection.anchor _))
  -- the connection is still open, so its descriptor leads to it
  unfold serialOf
  rw [habandoned.connections]
  exact serialOf_eq hfds hc

theorem Accounted.dropConnection (h : Accounted b) (hb : Consistent b) (root : Bool)
    (hc : b.connections[index]? = some connection) : Accounted (b.dropConnection root index) := by
  have hb' := hb.dropConnection root hc
  obtain ⟨hi, hget⟩ := List.getElem?_eq_some_iff.mp hc
  have hopen : connection ∈ b.connections := List.mem_of_getElem? hc
  have hs := settles_teardown root hb.fds hopen
  rw [dropConnection_eq root hc] at hb' ⊢
  rw [hs.connections] at hb' ⊢
  obtain ⟨new, hlog, hnew⟩ := hs.log
  have hnone : ∀ e ∈ new, e.openedId = none := fun e he => (hnew e he).1
  have hperm := perm_swapRemove hi
  rw [hget] at hperm
  have hstay : ∀ {c}, c ∈ swapRemove index b.connections → c ∈ b.connections := fun hin =>
    hperm.mem_iff.mpr (mem_cons_of_mem _ hin)
  have hserials := (hperm.map Connection.serial).nodup_iff.mp h.serials
  rw [map_cons, nodup_cons] at hserials
  constructor
  case kept =>
    refine kept_congr (hs.kept h.kept) rfl rfl fun message hm => ?_
    refine (serialOf_congr hb'.fds ?_ (hb'.messageFd message hm) fun c hin _ => ?_).symm
    · unfold Broker.fds
      rw [hs.connections]
      exact hb.fds
    · exact ⟨c, hs.connections ▸ hstay hin, rfl, rfl⟩
  case serials => exact hserials.2
  case serialsBelow => exact fun c hin => hs.nextSerial ▸ h.serialsBelow c (hstay hin)
  case senders =>
    simp only [hlog, hs.nextSerial]
    exact fun c hin => h.senders c (opened_mem_append hnone hin)
  case forgotten =>
    simp only [hlog, hs.nextSerial]
    intro id closed hin
    rcases mem_append.mp hin with hin | hin
    · refine ⟨connection.serial, h.serialsBelow connection hopen, (hnew _ hin).2 id closed rfl, ?_⟩
      exact fun c hc' heq => hserials.1 (heq ▸ mem_map_of_mem hc')
    · obtain ⟨serial, hlt, hclosed, hgone⟩ := h.forgotten id closed hin
      exact ⟨serial, hlt, hclosed, fun c hc' => hgone c (hstay hc')⟩

theorem Served.accounted (hserved : Served root index connection session b b')
    (hc : b.connections[index]? = some connection) (hb : Consistent b) (h : Accounted b) :
    Accounted b' := by
  cases hserved with
  | unchanged => exact h
  | attached =>
    have hset := h.setConnection hb { connection with anchor := some session } hc rfl rfl
    exact hset.settles (.of_eq rfl rfl rfl rfl rfl)
  | taskAttached =>
    have hset := h.setConnection hb { connection with taskId := b.nextTaskId } hc rfl rfl
    exact hset.settles (.of_eq rfl rfl rfl rfl rfl)
  | channelReplaced pid => exact h.settles (settles_replaceChannel pid b)
  | @channelAttached pid =>
    have hs := settles_replaceChannel (G := fun _ => False) pid b
    have hc' : (b.replaceChannel pid).connections[index]? = some connection := hs.connections ▸ hc
    have hset := (h.settles hs).setConnection (hb.replaceChannel pid).1
      { connection with portChannelId := (b.replaceChannel pid).nextPortChannelId } hc' rfl rfl
    exact hset.settles (.of_eq rfl rfl rfl rfl rfl)
  | portAdded => exact h.settles (.of_eq rfl rfl rfl rfl rfl)
  | portRemoved =>
    exact h.settles ((settles_abandonMessages _ b).trans (.of_eq rfl rfl rfl rfl rfl))
  | messageRefused => exact { h with }
  | messagePut _ _ _ hsender hplace => exact h.putMessage hb (hb.channelFd _ hsender) hplace _
  | messageReplied hslot howner => exact h.settles (settles_reply hslot howner)
  | sessionOpened hget =>
    obtain ⟨_, _, -, -, rfl, -⟩ := getSession_spec hget
    exact h.settles (.of_eq rfl rfl rfl rfl rfl)

theorem Served.openedOnce (hserved : Served root index connection session b b')
    (hnext : nextId b.nextPortMessageId = b.nextPortMessageId + 1) (h : OpenedOnce b) :
    OpenedOnce b' := by
  cases hserved with
  | channelReplaced pid => exact h.settles (settles_replaceChannel (G := fun _ => False) pid b)
  | @channelAttached pid =>
    have hreplaced := h.settles (settles_replaceChannel (G := fun _ => False) pid b)
    exact ⟨hreplaced.ids, hreplaced.below⟩
  | portRemoved =>
    exact h.settles (.trans (settles_abandonMessages (G := fun _ => False) _ b)
      (.of_eq rfl rfl rfl rfl rfl))
  | messageRefused => exact ⟨h.ids, fun id hin => hnext ▸ Nat.lt_succ_of_lt (h.below id hin)⟩
  | messagePut => exact h.putMessage hnext _ rfl _
  | messageReplied hslot howner =>
    exact h.settles (settles_reply (G := fun _ => False) hslot howner)
  | sessionOpened hget =>
    obtain ⟨_, _, -, -, rfl, -⟩ := getSession_spec hget
    exact ⟨h.ids, h.below⟩
  | unchanged | attached | taskAttached | portAdded => exact ⟨h.ids, h.below⟩

end Messages

/-! ## Runs -/

theorem step_accounted (ha : a.Possible b) (hb : Consistent b) (h : Accounted b)
    : Accounted (b.step root a) := by
  refine step_rule ha h (fun fd peerPid hfresh _ => h.addConnection hb peerPid fun hin => ?_)
    (fun _ _ _ _ _ _ hget hc hserved => hserved.accounted hc (hb.getSession hget) ?_)
    fun _ _ hc => h.dropConnection hb root hc
  · obtain ⟨c, hc, hfd⟩ := mem_map.mp hin
    exact hfresh c hc hfd
  · obtain ⟨_, _, -, -, rfl, -⟩ := getSession_spec hget
    exact h.settles (.of_eq rfl rfl rfl rfl rfl)

theorem run_accounted (h : (brokerMachine root).Run n b) : Accounted b :=
  Machine.Run.invariant (P := fun _ b => Accounted b) accounted_start
    (fun _ _ _ _ hrun ha h => step_accounted ha (run_consistent hrun) h) h (Nat.lt_succ_self n)

theorem step_openedOnce (ha : a.Possible b) (hb : Consistent b)
    (hnext : nextId b.nextPortMessageId = b.nextPortMessageId + 1) (h : OpenedOnce b)
    : OpenedOnce (b.step root a) := by
  refine step_rule ha h (fun _ _ _ _ => ⟨h.ids, h.below⟩)
    (fun _ _ _ _ _ _ hget _ hserved => ?_) fun _ _ hc => ?_
  · obtain ⟨_, _, -, -, rfl, -⟩ := getSession_spec hget
    exact hserved.openedOnce hnext ⟨h.ids, h.below⟩
  · rw [dropConnection_eq root hc]
    have htorn := h.settles (settles_teardown root hb.fds (mem_of_getElem? hc))
    exact ⟨htorn.ids, htorn.below⟩

theorem run_openedOnce (h : (brokerMachine root).Run n b) (hn : n < 2 ^ 64 - 1) : OpenedOnce b := by
  refine Machine.Run.invariant (P := fun _ b => OpenedOnce b) ?_ ?_ h hn
  · exact ⟨nodup_nil, by simp [brokerMachine, Broker.start]⟩
  intro n b a hn hrun ha h
  have hnumbered := run_numbering hrun (by omega)
  exact step_openedOnce ha (run_consistent hrun) (nextId_eq hnumbered.messageCount hn) h

end Broker

/-- **Port messages.** In every run, a record goes out only for a message that was put before,
to the connection that was its sender's channel then, and a reply comes from the pid that owned
the port then; what was put is in flight, or it has been answered, abandoned or forgotten; and it
is forgotten only when the connection of its sender has closed. Serial numbers tell connections
apart, whatever their descriptors. As long as the 64-bit counter of messages cannot have wrapped,
a put is followed by at most one record with its id. -/
theorem portMessage_answered_once {root : Bool} {n : ℕ} {b : Broker}
    (h : (brokerMachine root).Run n b) :
    (n < 2 ^ 64 - 1 → ∀ newer c older, b.log = newer ++ .opened c :: older →
      (newer.filterMap Entry.recordId).count c.id ≤ 1 ∧
      ((c ∈ b.inFlight ∧ c.id ∉ b.log.filterMap Entry.endedId) ∨
        c ∉ b.inFlight ∧ ∃ e ∈ b.log, e.Ends c)) ∧
    (∀ newer e older id, b.log = newer ++ e :: older → e.recordId = some id →
      ∃ c serial, .opened c ∈ older ∧ c.id = id ∧ c.sender = some serial ∧ e.Ends c) ∧
    (b.log.filterMap Entry.openedId).Perm
      ((live b.portMessages).map PortMessage.id ++ b.log.filterMap Entry.endedId) ∧
    (∀ id closed, .forgotten id closed ∈ b.log →
      ∃ serial < b.nextSerial, closed = some serial ∧ ∀ c ∈ b.connections, c.serial ≠ serial) ∧
    (b.connections.map Connection.serial).Nodup ∧ ∀ c ∈ b.connections, c.serial < b.nextSerial := by
  have hb := Broker.run_accounted h
  refine ⟨fun hn newer c older hlog => ⟨?_, ?_⟩, fun newer e older id hlog hrecord => ?_, ?_,
    hb.forgotten, hb.serials, hb.serialsBelow⟩
  · have hended := (hb.kept.endedIds_nodup (Broker.run_openedOnce h hn).ids).1
    have hnewer : newer.Sublist b.log := hlog ▸ sublist_append_left _ _
    have hrecords := (hnewer.filterMap Entry.recordId).trans (recordIds_sublist b.log)
    exact nodup_iff_count_le_one.mp (hended.sublist hrecords) c.id
  · refine hb.kept.open_or_ended (Broker.run_openedOnce h hn).ids ?_
    rw [hlog]
    exact mem_append_right _ mem_cons_self
  · obtain ⟨c, hid, hends, hopened⟩ := hb.kept.justified.2 newer e older id hlog
      (Entry.endedId_of_recordId hrecord)
    obtain ⟨serial, -, hsender⟩ := hb.senders c (by
      rw [hlog]
      exact mem_append_right _ (mem_cons_of_mem _ hopened))
    exact ⟨c, serial, hopened, hid, hsender, hends⟩
  · have hconserved := hb.kept.openedIds_perm
    unfold Broker.inFlight at hconserved
    rwa [map_map] at hconserved

/-- The message is answered; a second one is in flight when its sender's connection closes and its
descriptor is used again. -/
def rexxTalk : List Action :=
  rexxSetup ++ [.request 1 shellId (.portPut (ascii "REXX") true),
    .request 0 shellId (.portReply (ascii "1") true),
    .request 1 shellId (.portPut (ascii "REXX") true), .close 1, .accept 6 300]

def rexxTalked : Broker := (brokerMachine false).exec rexxTalk Broker.start

theorem portMessage_answered_once_rexx :
    rexxTalked.log = [.forgotten 2 (some 1), .opened ⟨2, some 1, 100⟩,
      .answered 1 (some 1) 100, .opened ⟨1, some 1, 100⟩] ∧
    ((rexxTalked.log.take 3).filterMap Entry.recordId).count 1 ≤ 1 ∧
    ∀ c ∈ rexxTalked.connections, c.serial ≠ 1 := by
  have hcan : (brokerMachine false).CanExec rexxTalk Broker.start := by decide +kernel
  have hrun : (brokerMachine false).Run (0 + 12) rexxTalked := Machine.Run.start.exec hcan
  have hlog : rexxTalked.log = [.forgotten 2 (some 1), .opened ⟨2, some 1, 100⟩,
      .answered 1 (some 1) 100, .opened ⟨1, some 1, 100⟩] := by decide +kernel
  obtain ⟨honce, -, -, hforgotten, -⟩ := portMessage_answered_once hrun
  refine ⟨hlog, ?_, ?_⟩
  · have hfirst := (honce (by decide) (rexxTalked.log.take 3) ⟨1, some 1, 100⟩ [] ?_).1
    · exact hfirst
    · rw [hlog]
      rfl
  · obtain ⟨serial, -, hclosed, hgone⟩ := hforgotten 2 (some 1) (by rw [hlog]; simp)
    obtain rfl := Option.some.inj hclosed
    exact hgone

/-! ## When the counter comes round

A put whose record cannot be written uses up an id and does nothing else, so the counter can be
led all the way round between two messages of one id. -/

/-- Two processes can talk, and nothing is in flight. -/
def portLap (next clock : ℕ) (log : PortLog) : Broker :=
  { Broker.start with
    connections := [⟨0, 5, 100, some 0, 1, 1⟩, ⟨1, 6, 200, none, 0, 2⟩]
    sessions := some ⟨shellId, clock, 1⟩ :: replicate 63 none
    sessionClock := clock
    tasks := some ⟨1, 5, 0, 100, ascii "RexxMast"⟩ :: replicate 255 none
    nextTaskId := 2
    ports := some ⟨1, 5, 0, 100, ascii "REXX"⟩ :: replicate 127 none
    nextPortId := 2
    portChannels := some ⟨1, 5, 100⟩ :: some ⟨2, 6, 200⟩ :: replicate 254 none
    nextPortChannelId := 3
    nextPortMessageId := next
    nextSerial := 2
    log := log }

section Wrap

variable {next clock n : ℕ} {log : PortLog}

theorem run_portLap_setup : (brokerMachine false).Run (0 + 7) (portLap 1 5 []) := by
  have hcan : (brokerMachine false).CanExec rexxSetup Broker.start := by decide +kernel
  have hsetup : (brokerMachine false).exec rexxSetup Broker.start = portLap 1 5 [] := by
    decide +kernel
  exact hsetup ▸ Machine.Run.start.exec hcan

theorem portLap_again :
    (portLap next clock log).step false (.request 1 shellId (.portPut (ascii "REXX") false)) =
      portLap (nextId next) ((clock + 1) % 2 ^ 64) log := rfl

theorem portLap_answered :
    ((portLap 1 clock log).step false (.request 1 shellId (.portPut (ascii "REXX") true))).step
      false (.request 0 shellId (.portReply (ascii "1") true)) =
        portLap 2 (((clock + 1) % 2 ^ 64 + 1) % 2 ^ 64)
          (.answered 1 (some 1) 100 :: .opened ⟨1, some 1, 100⟩ :: log) := rfl

theorem run_portLap_again (hrun : (brokerMachine false).Run n (portLap next clock log)) :
    ∃ n clock, (brokerMachine false).Run n (portLap (nextId next) clock log) := by
  have hput := run_step hrun (.request 1 shellId (.portPut (ascii "REXX") false)) Nat.one_lt_two
  exact ⟨_, _, portLap_again ▸ hput⟩

theorem run_portLap_answered (hrun : (brokerMachine false).Run n (portLap 1 clock log)) :
    ∃ n clock, (brokerMachine false).Run n
      (portLap 2 clock (.answered 1 (some 1) 100 :: .opened ⟨1, some 1, 100⟩ :: log)) := by
  have hput := run_step hrun (.request 1 shellId (.portPut (ascii "REXX") true)) Nat.one_lt_two
  have hreply := run_step hput (.request 0 shellId (.portReply (ascii "1") true)) Nat.zero_lt_two
  exact ⟨_, _, portLap_answered ▸ hreply⟩

theorem run_portLap_until (hrun : (brokerMachine false).Run n (portLap 2 clock log))
    (hlow : 2 ≤ next) (hhigh : next ≤ 2 ^ 64 - 1) :
    ∃ n clock, (brokerMachine false).Run n (portLap next clock log) := by
  induction next, hlow using Nat.le_induction with
  | base => exact ⟨n, clock, hrun⟩
  | succ next hlow ih =>
    obtain ⟨_, _, hrun⟩ := ih (by omega)
    rw [← @nextId_succ next (by omega)]
    exact run_portLap_again hrun

end Wrap

/-- When the message counter has wrapped, a second message has the id of the first, and two
records follow the first put with that id. -/
theorem messageId_answered_twice :
    ∃ n b newer c older, (brokerMachine false).Run n b ∧ b.log = newer ++ .opened c :: older ∧
      (newer.filterMap Entry.recordId).count c.id = 2 := by
  obtain ⟨_, _, hfirst⟩ := run_portLap_answered run_portLap_setup
  obtain ⟨_, _, hlast⟩ := run_portLap_until hfirst (by decide) (Nat.le_refl (2 ^ 64 - 1))
  obtain ⟨_, _, hround⟩ := run_portLap_again hlast
  obtain ⟨n, _, hrun⟩ := run_portLap_answered hround
  exact ⟨n, _, [.answered 1 (some 1) 100, .opened ⟨1, some 1, 100⟩, .answered 1 (some 1) 100],
    ⟨1, some 1, 100⟩, [], hrun, rfl, by decide⟩

end AceShell
