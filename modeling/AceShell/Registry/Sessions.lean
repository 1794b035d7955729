import AceShell.Registry.Handle

/-!
# Sessions belong to their connections

A connection that attaches anchors its session, by the index of its slot, and slots are used again.
`Owned` says that each session counts the connections anchored to its slot, that none is anchored to
a free slot, and that the count of root shells is that of anchored connections. So a session that is
counted is never taken for another id.
-/

namespace AceShell

open Text SlotTable Ledger List Option

variable {new : Connection} {id : Name} {slot : ℕ} {held : BrokerSession}

namespace Broker

def anchorList (b : Broker) : List (Option ℕ) := b.connections.map Connection.anchor

structure Owned (root : Bool) (b : Broker) : Prop where
  anchors : ∀ index session, b.sessions[index]? = some (some session) →
    session.anchors = b.anchorList.count (some index)
  occupied : ∀ index, some index ∈ b.anchorList →
    ∃ session, b.sessions[index]? = some (some session)
  rootShells : b.rootShells = if root then b.anchorList.countP isSome else 0
  ids : ((live b.sessions).map BrokerSession.id).Nodup
  /-- The 32-bit counts stay far from wrapping. -/
  room : b.anchorList.length ≤ maxConnections

theorem owned_start (root : Bool) : Owned root Broker.start := by
  constructor
  case anchors =>
    intro index session h
    have hfree := eq_of_mem_replicate (mem_of_getElem? h)
    cases hfree
  all_goals simp [Broker.start, anchorList]

section Sessions

variable {root : Bool} {b b' : Broker} {index session : ℕ} {connection : Connection}

theorem Owned.recount (h : Owned root b)
    (hcnt : ∀ index, b'.anchorList.count (some index) = b.anchorList.count (some index))
    (hshells : b'.anchorList.countP isSome = b.anchorList.countP isSome)
    (hroom : b'.anchorList.length ≤ maxConnections) (hsessions : b'.sessions = b.sessions)
    (hroot : b'.rootShells = b.rootShells) : Owned root b' where
  anchors index session hslot := by
    rw [hsessions] at hslot
    exact (h.anchors index session hslot).trans (hcnt index).symm
  occupied index hin := by
    rw [← count_pos_iff, hcnt, count_pos_iff] at hin
    rw [hsessions]
    exact h.occupied index hin
  rootShells := by rw [hroot, hshells, h.rootShells]
  ids := hsessions ▸ h.ids
  room := hroom

theorem Owned.congr (h : Owned root b) (hancs : b'.anchorList = b.anchorList)
    (hsessions : b'.sessions = b.sessions) (hroot : b'.rootShells = b.rootShells) : Owned root b' :=
  h.recount (fun _ => by rw [hancs]) (by rw [hancs]) (hancs ▸ h.room) hsessions hroot

theorem anchorList_setConnection (hc : b.connections[index]? = some connection)
    (hanc : new.anchor = connection.anchor) :
    (b.setConnection index new).anchorList = b.anchorList :=
  map_setConnection hc hanc

/-! ## Opening sessions -/

theorem Owned.count_eq_zero (h : Owned root b)
    (hold : ∀ old, b.sessions[index]? = some (some old) → old.anchors = 0) :
    b.anchorList.count (some index) = 0 := by
  by_contra hne
  obtain ⟨old, hslot⟩ := h.occupied index (count_pos_iff.mp (Nat.pos_of_ne_zero hne))
  exact hne ((h.anchors index old hslot).symm.trans (hold old hslot))

/-- A slot is written, and the anchors may change for this slot only. -/
theorem Owned.setSlot (h : Owned root b) {value : Option BrokerSession}
    (hlt : slot < b.sessions.length) (hsessions : b'.sessions = b.sessions.set slot value)
    (hother : ∀ other, other ≠ slot →
      b'.anchorList.count (some other) = b.anchorList.count (some other))
    (hvalue : ∀ found ∈ value, found.anchors = b'.anchorList.count (some slot))
    (hfree : value = none → b'.anchorList.count (some slot) = 0)
    (hids : ((live (b.sessions.set slot value)).map BrokerSession.id).Nodup)
    (hroot : b'.rootShells = if root then b'.anchorList.countP isSome else 0)
    (hroom : b'.anchorList.length ≤ maxConnections) : Owned root b' where
  anchors other found hfound := by
    rw [hsessions] at hfound
    by_cases heq : other = slot
    · subst heq
      rw [getElem?_set_self hlt] at hfound
      exact hvalue found (some.inj hfound)
    · rw [getElem?_set_ne (Ne.symm heq)] at hfound
      exact (h.anchors other found hfound).trans (hother other heq).symm
  occupied other hin := by
    have hpos := count_pos_iff.mpr hin
    rw [hsessions]
    by_cases heq : other = slot
    · subst heq
      rw [getElem?_set_self hlt]
      cases value with
      | none => exact absurd (hfree rfl) (Nat.ne_of_gt hpos)
      | some found => exact ⟨found, rfl⟩
    · rw [getElem?_set_ne (Ne.symm heq)]
      exact h.occupied other (count_pos_iff.mp (hother other heq ▸ hpos))
  rootShells := hroot
  ids := hsessions ▸ hids
  room := hroom

theorem Owned.getSession (h : Owned root b) (hget : b.getSession id = some (session, b'))
    : Owned root b' := by
  obtain ⟨opened, clock, hid, hi, rfl, hcase⟩ := getSession_spec hget
  refine h.setSlot hi rfl (fun _ _ => rfl) ?_ nofun ?_ h.rootShells h.room
  · rintro found ⟨⟩
    rcases hcase with ⟨old, hold, -, hsame⟩ | ⟨-, hzero, hold⟩
    · exact hsame.trans (h.anchors session old hold)
    · exact hzero.trans (h.count_eq_zero hold).symm
  rcases hcase with ⟨old, hold, hsame, -⟩ | ⟨hnew, -⟩
  · exact (map_live_set hold (hid.trans hsame.symm)) ▸ h.ids
  refine ((live_set_some hi opened).map _).nodup_iff.mpr (nodup_cons.mpr ⟨fun hin => ?_, ?_⟩)
  · obtain ⟨other, hother, heq⟩ := mem_map.mp hin
    exact hnew other ((live_release_sublist _ _).subset hother) (heq.trans hid)
  · exact h.ids.sublist ((live_release_sublist _ _).map _)

theorem getSession_slot (hget : b.getSession id = some (session, b')) :
    ∃ opened, b'.sessions[session]? = some (some opened) := by
  obtain ⟨opened, clock, -, hi, rfl, -⟩ := getSession_spec hget
  exact ⟨opened, getElem?_set_self hi⟩

/-! ## Anchors -/

theorem count_of_gain {before after : List (Option ℕ)} (h : (some session :: before).Perm after) :
    after.count (some session) = before.count (some session) + 1 ∧
      (∀ other, other ≠ session → after.count (some other) = before.count (some other)) ∧
      after.countP isSome = before.countP isSome + 1 := by
  refine ⟨?_, fun other hne => ?_, ?_⟩
  · rw [← h.count_eq, count_cons_self]
  · rw [← h.count_eq, count_cons_of_ne (by simpa using Ne.symm hne)]
  · rw [← h.countP_eq, countP_cons_of_pos (by rfl)]

theorem count_none_cons (anchors : List (Option ℕ)) :
    (∀ index, (none :: anchors).count (some index) = anchors.count (some index)) ∧
      (none :: anchors).countP isSome = anchors.countP isSome :=
  ⟨fun _ => count_cons_of_ne (by simp), countP_cons_of_neg (by simp)⟩

theorem Owned.attach (h : Owned root b) (hc : b.connections[index]? = some connection)
    (hanc : connection.anchor = none) {found : BrokerSession}
    (hslot : b.sessions[session]? = some (some found)) :
    Owned root { b.setConnection index { connection with anchor := some session } with
      sessions := b.sessions.modify session
        (Option.map fun s => { s with anchors := (s.anchors + 1) % 2 ^ 32 })
      rootShells := if root then (b.rootShells + 1) % 2 ^ 32 else b.rootShells } := by
  obtain ⟨hi, hget⟩ := List.getElem?_eq_some_iff.mp hc
  have hgain : (some session :: b.anchorList).Perm
      (none :: (b.setConnection index { connection with anchor := some session }).anchorList) := by
    have hperm := (perm_set hi { connection with anchor := some session }).map Connection.anchor
    rwa [map_cons, map_cons, hget, hanc] at hperm
  obtain ⟨hself, hother, hshells⟩ := count_of_gain hgain
  have hlength := Nat.succ.inj hgain.length_eq
  simp only [count_none_cons] at hself hother hshells
  have hsmall : maxConnections < 2 ^ 32 := by decide
  have hroom := h.room
  have hle := hself ▸ count_le_length
  have hlt := hshells ▸ countP_le_length
  rw [modify_eq_set hslot, map_some]
  refine h.setSlot (List.getElem?_eq_some_iff.mp hslot).1 rfl hother ?_ nofun ?_
    ?_ (hlength ▸ h.room)
  · rintro held ⟨⟩
    rw [h.anchors session found hslot, Nat.mod_eq_of_lt (by omega)]
    exact hself.symm
  · refine (congrArg List.Nodup (map_live_set hslot ?_)).mpr h.ids
    rfl
  cases root with
  | false => exact h.rootShells
  | true =>
    show (b.rootShells + 1) % 2 ^ 32 = _
    rw [h.rootShells, if_pos rfl, Nat.mod_eq_of_lt (by omega)]
    exact hshells.symm

theorem dropAnchor_eq_none : Broker.dropAnchor held = none ↔ held.anchors = 1 := by
  unfold Broker.dropAnchor
  by_cases hzero : held.anchors = 0
  · simp [hzero]
  rw [if_neg hzero]
  by_cases hlast : held.anchors - 1 = 0
  · simp only [if_pos hlast, true_iff]
    omega
  · simp only [if_neg hlast, reduceCtorEq, false_iff]
    omega

theorem dropAnchor_id {later : BrokerSession} (h : Broker.dropAnchor held = some later) :
    later.id = held.id := by
  unfold Broker.dropAnchor at h
  by_cases hzero : held.anchors = 0
  · rw [if_pos hzero] at h
    rw [some.inj h]
  rw [if_neg hzero] at h
  by_cases hlast : held.anchors - 1 = 0
  · simp [hlast] at h
  · rw [if_neg hlast] at h
    rw [← some.inj h]

theorem Owned.dropAnchor (h : Owned root b) {connections : List Connection}
    (hlose : (some slot :: connections.map Connection.anchor).Perm b.anchorList) :
    Owned root { b.dropConnectionAnchor root (some slot) with connections := connections } := by
  obtain ⟨hself, hother, hshells⟩ := count_of_gain hlose
  obtain ⟨held, hheld⟩ := h.occupied slot (hlose.mem_iff.mp mem_cons_self)
  have hanchors := h.anchors slot held hheld
  have hlt := (List.getElem?_eq_some_iff.mp hheld).1
  unfold dropConnectionAnchor
  simp only [modify_eq_set hheld, bind_some]
  have hslot : ∀ found, Broker.dropAnchor held = some found → found.id = held.id ∧
      found.anchors = (connections.map Connection.anchor).count (some slot) := by
    intro found hfound
    unfold Broker.dropAnchor at hfound
    rw [if_neg (by omega)] at hfound
    by_cases hlast : held.anchors - 1 = 0
    · simp [hlast] at hfound
    rw [if_neg hlast] at hfound
    obtain rfl := some.inj hfound
    refine ⟨rfl, ?_⟩
    show held.anchors - 1 = _
    omega
  refine h.setSlot hlt rfl (fun other heq => (hother other heq).symm)
    (fun found hfound => (hslot found hfound).2) (fun hnone => ?_) ?_ ?_ ?_
  · -- another connection anchored here would have kept the session
    have hlast := dropAnchor_eq_none.mp hnone
    show (connections.map Connection.anchor).count (some slot) = 0
    omega
  · cases hdrop : Broker.dropAnchor held with
    | none => exact h.ids.sublist ((live_release_sublist slot _).map _)
    | some found =>
      rw [map_live_set hheld (hslot found hdrop).1]
      exact h.ids
  · cases root with
    | false => exact h.rootShells
    | true =>
      rw [h.rootShells, hshells]
      rfl
  · have hlength := hlose.length_eq
    have hroom := h.room
    show (connections.map Connection.anchor).length ≤ _
    rw [length_cons] at hlength
    omega

theorem Owned.dropConnection (h : Owned root b) (hc : b.connections[index]? = some connection) :
    Owned root (b.dropConnection root index) := by
  obtain ⟨hi, hget⟩ := List.getElem?_eq_some_iff.mp hc
  have hlose : (connection.anchor :: (swapRemove index b.connections).map
      Connection.anchor).Perm b.anchorList := by
    have hperm := (perm_swapRemove hi).map Connection.anchor
    rw [hget] at hperm
    exact hperm.symm
  obtain ⟨_, _, heq, -⟩ := dropConnection_spec root hc
  rw [heq]
  cases hanc : connection.anchor with
  | none =>
    rw [hanc] at hlose
    obtain ⟨hcnt, hshells⟩ := count_none_cons ((swapRemove index b.connections).map
      Connection.anchor)
    have hlength := hlose.length_eq
    rw [length_cons] at hlength
    have hroom := h.room
    refine h.recount (fun other => ?_) ?_ ?_ rfl rfl
    · exact (hcnt other).symm.trans (hlose.count_eq _)
    · exact hshells.symm.trans (hlose.countP_eq _)
    · show ((swapRemove index b.connections).map Connection.anchor).length ≤ _
      omega
  | some slot =>
    rw [hanc] at hlose
    exact (h.dropAnchor hlose).congr rfl rfl rfl

theorem Owned.addConnection (h : Owned root b) (hspace : b.connections.length ≠ maxConnections)
    (hanc : new.anchor = none) (nextSerial : ℕ) :
    Owned root { b with connections := b.connections ++ [new], nextSerial := nextSerial } := by
  have hroom := h.room
  unfold anchorList at hroom
  rw [length_map] at hroom
  refine h.recount (fun other => ?_) ?_ ?_ rfl rfl
  · unfold anchorList
    simp [hanc]
  · unfold anchorList
    simp [hanc]
  · unfold anchorList
    rw [length_map, length_append, length_singleton]
    omega

theorem Served.owned (hserved : Served root index connection session b b')
    (hc : b.connections[index]? = some connection)
    (hslot : ∃ opened, b.sessions[session]? = some (some opened)) (h : Owned root b) :
    Owned root b' := by
  obtain ⟨opened, hslot⟩ := hslot
  cases hserved with
  | attached hanc => exact h.attach hc hanc hslot
  | taskAttached =>
    exact h.congr (anchorList_setConnection (b := b) hc (by rfl)) rfl rfl
  | channelReplaced pid =>
    obtain ⟨_, _, _, heq⟩ := replaceChannel_eq pid b
    rw [heq]
    exact h.congr rfl rfl rfl
  | @channelAttached pid =>
    obtain ⟨_, _, _, heq⟩ := replaceChannel_eq pid b
    rw [heq]
    exact h.congr (anchorList_setConnection (b := b) hc (by rfl)) rfl rfl
  | sessionOpened hget => exact h.getSession hget
  | unchanged | portAdded | portRemoved | messageRefused | messagePut | messageReplied =>
    exact h.congr rfl rfl rfl

theorem step_owned {a : Action} (ha : a.Possible b) (h : Owned root b) :
    Owned root (b.step root a) :=
  step_rule ha h (fun _ _ _ hspace => h.addConnection hspace rfl _)
    (fun _ _ _ _ _ _ hget hc hserved =>
      hserved.owned hc (getSession_slot hget) (h.getSession hget))
    fun _ _ hc => h.dropConnection hc

theorem run_owned {n : ℕ} (h : (brokerMachine root).Run n b) : Owned root b :=
  Machine.Run.invariant (P := fun _ b => Owned root b) (owned_start root)
    (fun _ _ _ _ _ ha h => step_owned ha h) h (Nat.lt_succ_self n)

/-! ## What becomes of a slot -/

section Held

variable (hheld : b.sessions[slot]? = some (some held))

include hheld

theorem getSession_keeps (hget : b.getSession id = some (session, b')) :
    ∃ later, b'.sessions[slot]? = some (some later) ∧
      (0 < held.anchors → later.id = held.id ∧ later.anchors = held.anchors) := by
  obtain ⟨opened, clock, hid, hi, rfl, hcase⟩ := getSession_spec hget
  by_cases heq : slot = session
  · subst heq
    refine ⟨opened, getElem?_set_self hi, fun hpos => ?_⟩
    rcases hcase with ⟨old, hold, hsame, hancs⟩ | ⟨-, -, hfree⟩
    · rw [hheld] at hold
      obtain rfl := some.inj (some.inj hold)
      exact ⟨hid.trans hsame.symm, hancs⟩
    · exact absurd (hfree held hheld) (Nat.ne_of_gt hpos)
  · exact ⟨held, (getElem?_set_ne (Ne.symm heq)).trans hheld, fun _ => ⟨rfl, rfl⟩⟩

theorem Served.keeps (hserved : Served root index connection session b b') :
    ∃ later, b'.sessions[slot]? = some (some later) ∧ (0 < held.anchors → later.id = held.id) := by
  cases hserved with
  | attached =>
    simp only [getElem?_modify_slot hheld]
    by_cases heq : session = slot
    · rw [if_pos heq]
      exact ⟨_, rfl, fun _ => rfl⟩
    · rw [if_neg heq]
      exact ⟨held, rfl, fun _ => rfl⟩
  | channelReplaced pid =>
    obtain ⟨_, _, _, heq⟩ := replaceChannel_eq pid b
    rw [heq]
    exact ⟨held, hheld, fun _ => rfl⟩
  | @channelAttached pid =>
    obtain ⟨_, _, _, heq⟩ := replaceChannel_eq pid b
    rw [heq]
    exact ⟨held, hheld, fun _ => rfl⟩
  | sessionOpened hget =>
    obtain ⟨later, hlater, hkept⟩ := getSession_keeps hheld hget
    exact ⟨later, hlater, fun hpos => (hkept hpos).1⟩
  | unchanged | taskAttached | portAdded | portRemoved | messageRefused | messagePut
  | messageReplied => exact ⟨held, hheld, fun _ => rfl⟩

theorem handleClient_keeps (sessionId : Name) (operation : Operation) :
    ∃ later, (b.handleClient root index sessionId operation).2.sessions[slot]? =
      some (some later) ∧ (0 < held.anchors → later.id = held.id) := by
  rcases handleClient_cases root index sessionId operation b with
    heq | ⟨connection, session, b₁, -, hget, hserved⟩
  · rw [heq]
    exact ⟨held, hheld, fun _ => rfl⟩
  obtain ⟨opened, hopened, hkept⟩ := getSession_keeps hheld hget
  obtain ⟨later, hlater, hkept'⟩ := hserved.keeps hopened
  refine ⟨later, hlater, fun hpos => ?_⟩
  obtain ⟨hid, hancs⟩ := hkept hpos
  exact (hkept' (hancs ▸ hpos)).trans hid

theorem dropConnection_slot (hc : b.connections[index]? = some connection) :
    (b.dropConnection root index).sessions[slot]? =
      some (if connection.anchor = some slot then Broker.dropAnchor held else some held) := by
  obtain ⟨_, _, heq, -⟩ := dropConnection_spec root hc
  rw [heq]
  unfold dropConnectionAnchor
  cases connection.anchor with
  | none => simpa using hheld
  | some anchored => simp only [getElem?_modify_slot hheld, some.injEq, bind_some]

theorem dropConnection_slot_cases (root : Bool) (hc : b.connections[index]? = some connection) :
    ((b.dropConnection root index).sessions[slot]? = some none ↔
        connection.anchor = some slot ∧ held.anchors = 1) ∧
      ((b.dropConnection root index).sessions[slot]? = some none ∨
        ∃ later, (b.dropConnection root index).sessions[slot]? = some (some later) ∧
          later.id = held.id) := by
  rw [dropConnection_slot hheld hc]
  by_cases hanc : connection.anchor = some slot
  · rw [if_pos hanc, some.injEq, dropAnchor_eq_none]
    refine ⟨⟨fun hlast => ⟨hanc, hlast⟩, And.right⟩, ?_⟩
    cases hdrop : Broker.dropAnchor held with
    | none => exact .inl (dropAnchor_eq_none.mp hdrop)
    | some later => exact .inr ⟨later, rfl, dropAnchor_id hdrop⟩
  · rw [if_neg hanc]
    exact ⟨⟨nofun, fun h => absurd h.1 hanc⟩, .inr ⟨held, rfl, rfl⟩⟩

end Held

theorem sessions_acceptConnection (fd : ℕ) (peerPid : ℤ) :
    (b.acceptConnection fd peerPid).sessions = b.sessions := by
  unfold acceptConnection
  by_cases hfull : b.connections.length = maxConnections
  · rw [if_pos hfull]
  · rw [if_neg hfull]

end Sessions

end Broker

/-- **Session ownership.** In every run a session counts the connections anchored to its slot, no
connection is anchored to a free slot, the count of root shells is that of the anchored
connections in root mode and 0 otherwise, and session ids are distinct. Whatever happens next, a
slot in use is freed just when the only connection anchored to it closes, and otherwise a session
with anchors stays in its slot under its id. -/
theorem session_ownership {root : Bool} {n : ℕ} {b : Broker} (h : (brokerMachine root).Run n b) :
    (∀ slot session, b.sessions[slot]? = some (some session) →
      session.anchors = b.connections.countP (·.anchor == some slot)) ∧
    (∀ connection ∈ b.connections, ∀ slot, connection.anchor = some slot →
      ∃ session, b.sessions[slot]? = some (some session)) ∧
    b.rootShells = (if root then b.connections.countP (·.anchor.isSome) else 0) ∧
    ((live b.sessions).map BrokerSession.id).Nodup ∧
    ∀ a, a.Possible b → ∀ slot session, b.sessions[slot]? = some (some session) →
      ((b.step root a).sessions[slot]? = some none ↔
        ∃ index connection, a = .close index ∧ b.connections[index]? = some connection ∧
          connection.anchor = some slot ∧ session.anchors = 1) ∧
      (0 < session.anchors → (b.step root a).sessions[slot]? = some none ∨
        ∃ later, (b.step root a).sessions[slot]? = some (some later) ∧ later.id = session.id) := by
  have hb := Broker.run_owned h
  refine ⟨fun slot session hslot => ?_, fun connection hc slot hanchor => ?_, ?_, hb.ids,
    fun a ha slot session hslot => ?_⟩
  · rw [hb.anchors slot session hslot]
    unfold Broker.anchorList
    rw [count_eq_countP, countP_map]
    rfl
  · exact hb.occupied slot (hanchor ▸ mem_map_of_mem hc)
  · rw [hb.rootShells]
    unfold Broker.anchorList
    rw [countP_map]
    rfl
  cases a with
  | accept fd peerPid =>
    have hsame : (b.step root (.accept fd peerPid)).sessions = b.sessions :=
      Broker.sessions_acceptConnection fd peerPid
    rw [hsame, hslot]
    exact ⟨by simp, fun _ => .inr ⟨session, rfl, rfl⟩⟩
  | request index sessionId operation =>
    have hkeeps : ∃ later, (b.step root (.request index sessionId operation)).sessions[slot]? =
        some (some later) ∧ (0 < session.anchors → later.id = session.id) :=
      Broker.handleClient_keeps hslot sessionId operation
    obtain ⟨later, hlater, hkept⟩ := hkeeps
    rw [hlater]
    exact ⟨by simp, fun hpos => .inr ⟨later, rfl, hkept hpos⟩⟩
  | close index =>
  have hc : b.connections[index]? = some _ := getElem?_eq_getElem ha
  obtain ⟨hfreed, hkept⟩ := Broker.dropConnection_slot_cases hslot root hc
  refine ⟨⟨fun hnone => ?_, ?_⟩, fun _ => hkept⟩
  · exact ⟨index, _, rfl, hc, hfreed.mp hnone⟩
  rintro ⟨other, connection, heq, hc', hlast⟩
  obtain rfl := Action.close.inj heq
  obtain rfl := some.inj (hc.symm.trans hc')
  exact hfreed.mpr hlast

/-- Two shells attach to one session, another process only uses it, and the first shell goes. -/
def twoShells : List Action :=
  let shell : Name := ascii "shell"
  [.accept 5 100, .accept 6 200, .accept 7 300, .request 0 shell (.attach none),
    .request 1 shell (.attach none), .request 2 shell .other, .close 0]

def oneShell : Broker := (brokerMachine true).exec twoShells Broker.start

theorem session_ownership_oneShell :
    oneShell.sessions[0]? = some (some ⟨ascii "shell", 3, 1⟩) ∧
    oneShell.connections.countP (·.anchor == some 0) = 1 ∧
    oneShell.rootShells = oneShell.connections.countP (·.anchor.isSome) ∧
    (oneShell.step true (.close 0)).sessions[0]? ≠ some none ∧
    (oneShell.step true (.close 1)).sessions[0]? = some none := by
  have hcan : (brokerMachine true).CanExec twoShells Broker.start := by decide +kernel
  have hrun : (brokerMachine true).Run (0 + 7) oneShell := Machine.Run.start.exec hcan
  have hslot : oneShell.sessions[0]? = some (some ⟨ascii "shell", 3, 1⟩) := by decide +kernel
  obtain ⟨hanchors, -, hshells, -⟩ := session_ownership hrun
  exact ⟨hslot, (hanchors 0 _ hslot).symm, hshells, by decide +kernel, by decide +kernel⟩

end AceShell
