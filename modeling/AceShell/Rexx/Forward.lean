import AceShell.Lib.Machine
import AceShell.Rexx.Wire

/-!
# Sending to another process

After `ace_rexx_port_forward`, `take_sent` and the part of `bridge_handler` that handles replies. A
message is recorded in `sent_messages` and passed to the broker; the record gets the broker's
identifier when `native_broker_port_put` returns, and the delivery thread looks it up by that. The
answer may come before the identifier is stored; then there is no such record, and nothing will ever
release the sender (`released_once_iff`).
-/

namespace AceShell.Rexx

open List Option

/-! ## Answers -/

/-- `RXCOMM` -/
def rxComm : UInt32 := 0x01000000

/-- `RC_FATAL` -/
def rcFatal : UInt32 := 20

/-- What the broker tells a sender about its message: `AMIGA_BROKER_PORT_REPLY` with a payload, or
`AMIGA_BROKER_PORT_ABANDONED`. -/
inductive Answer
  | reply (payload : List UInt8)
  | abandoned

def fatal (message : RexxMsg) : RexxMsg := { message with result1 := rcFatal, result2 := .nothing }

def answered (order : ByteOrder) (message : RexxMsg) : Answer → RexxMsg
  | .abandoned => fatal message
  | .reply payload =>
    let memory := fun i => payload.getD i 0
    let outcome := deserialise order memory { message with result1 := 0, result2 := .nothing }
      payload.length false
    if outcome.1 then
      { outcome.2.message with result1 := (Wire.decode order (fetch memory 0 wireSize)).result1 }
    else fatal outcome.2.message

/-! ## The steps -/

/-- How far a call is: `native_broker_port_put` has not returned, it has succeeded and the
identifier is in the record, or it failed. -/
inductive Progress
  | sending
  | recorded
  | failed
  deriving DecidableEq

/-- A call with the sender's message. The rest is history: the broker's identifier, or 0; the answer
handled, and whether before the identifier was stored; and what was put on the reply port. -/
structure Call where
  message : RexxMsg
  progress : Progress := .sending
  id : ℕ := 0
  answer : Option Answer := none
  early : Bool := false
  released : List RexxMsg := []

structure Sent where
  messageId : ℕ := 0
  call : ℕ
  deriving DecidableEq

structure Bridge where
  sent : List Sent := []
  calls : ℕ → Option Call := fun _ => none
  count : ℕ := 0

/-- A call changes. -/
def Bridge.put (s : Bridge) (i : ℕ) (call : Call) : Bridge :=
  { s with calls := fun j => if j = i then some call else s.calls j }

/-- `take_sent` -/
def takeSent (id : ℕ) (sent : List Sent) : Option Sent × List Sent :=
  (sent.find? (·.messageId == id), sent.eraseP (·.messageId == id))

/-- What can happen. -/
inductive Action
  | start (message : RexxMsg)
  | accept (i id : ℕ)
  | fail (i : ℕ)
  | record (i : ℕ)
  | handle (i : ℕ) (answer : Answer)

def emptyCommand (message : RexxMsg) : Bool :=
  rexxActionCode message.action == rxComm &&
    match message.slotAt 0 with
    | .string s => lengthArgstring s == 0
    | _ => true

section Steps

variable (order : ByteOrder) (route : RexxMsg → Option PrivateRoute)

def start (message : RexxMsg) (s : Bridge) : Bridge :=
  { s.put s.count { message := message } with
    sent := { call := s.count } :: s.sent
    count := s.count + 1 }

/-- `native_broker_port_put` fails, before or after the broker has accepted the message: the record
is removed and the sender released. -/
def sendFailed (i : ℕ) (call : Call) (s : Bridge) : Bridge :=
  { s.put i { call with
        progress := .failed
        released := call.released ++ [fatal call.message] } with
    sent := s.sent.eraseP (·.call == i) }

def storeId (i : ℕ) (call : Call) (s : Bridge) : Bridge :=
  { s.put i { call with progress := .recorded } with
    sent := s.sent.map fun sent =>
      if sent.call = i then { sent with messageId := call.id } else sent }

def noted (answer : Answer) (call : Call) : Call :=
  { call with answer := some answer, early := call.progress == .sending }

def handle (i : ℕ) (answer : Answer) (call : Call) (s : Bridge) : Bridge :=
  let s := s.put i (noted answer call)
  match takeSent call.id s.sent with
  | (none, _) => s
  | (some record, sent) =>
    match s.calls record.call with
    | none => { s with sent := sent }
    | some owner =>
      { s.put record.call
          { owner with released := owner.released ++ [answered order owner.message answer] } with
        sent := sent }

/-- One step. -/
def act : Action → Bridge → Bridge
  | .start message, s => start message s
  | .accept i id, s => ((s.calls i).map fun call => s.put i { call with id := id }).getD s
  | .fail i, s => ((s.calls i).map fun call => sendFailed i call s).getD s
  | .record i, s => ((s.calls i).map fun call => storeId i call s).getD s
  | .handle i answer, s => ((s.calls i).map fun call => handle order i answer call s).getD s

/-- When a step can be taken. The broker gives each message it accepts an identifier of its own, and
sends one record about it. -/
def Possible : Action → Bridge → Prop
  | .start message, _ => emptyCommand message = false ∧ (serialise order route message).isSome
  | .accept i id, s => ∃ call, s.calls i = some call ∧ call.progress = .sending ∧ call.id = 0 ∧
      id ≠ 0 ∧ ∀ j other, s.calls j = some other → other.id ≠ id
  | .fail i, s => ∃ call, s.calls i = some call ∧ call.progress = .sending
  | .record i, s => ∃ call, s.calls i = some call ∧ call.progress = .sending ∧ call.id ≠ 0
  | .handle i _, s => ∃ call, s.calls i = some call ∧ call.id ≠ 0 ∧ call.answer = none

def bridge : Machine Bridge Action where
  init := {}
  possible := Possible order route
  step := act order

end Steps

/-! ## What holds of the records and the calls -/

def Call.Waiting (call : Call) : Prop :=
  match call.progress with
  | .sending => True
  | .recorded => call.answer = none ∨ call.early = true
  | .failed => False

def Call.recordId (call : Call) : ℕ :=
  match call.progress with
  | .recorded => call.id
  | _ => 0

def Call.due (order : ByteOrder) (call : Call) : List RexxMsg :=
  match call.progress with
  | .sending => []
  | .failed => [fatal call.message]
  | .recorded =>
    match call.answer with
    | none => []
    | some answer => if call.early then [] else [answered order call.message answer]

def Call.Over (call : Call) : Prop :=
  call.progress = .failed ∨ call.progress = .recorded ∧ call.answer ≠ none

def Call.ReleasedOnce (order : ByteOrder) (call : Call) : Prop :=
  ∃ results, call.released = [results] ∧ (results = fatal call.message ∨
    ∃ answer, call.answer = some answer ∧ results = answered order call.message answer)

/-- What holds of each call. -/
structure Call.Sound (order : ByteOrder) (call : Call) : Prop where
  released : call.released = call.due order
  early : call.early = true → call.answer ≠ none
  sending : call.progress = .sending → call.answer ≠ none → call.early = true
  recorded : call.progress = .recorded → call.id ≠ 0

/-- The list has the records of the waiting calls, each once, and the identifiers tell the calls
apart. -/
structure Bridge.Sound (order : ByteOrder) (s : Bridge) : Prop where
  distinct : s.sent.Nodup
  mem_sent : ∀ record, record ∈ s.sent ↔ ∃ call, s.calls record.call = some call ∧
    call.Waiting ∧ record.messageId = call.recordId
  calls : ∀ i call, s.calls i = some call → call.Sound order
  ids : ∀ i j call other, s.calls i = some call → s.calls j = some other → call.id ≠ 0 →
    call.id = other.id → i = j
  count : ∀ i, s.count ≤ i → s.calls i = none

variable {i j id : ℕ} {record other : Sent} {call : Call} {sent : List Sent}

section Sound

variable {order : ByteOrder} {route : RexxMsg → Option PrivateRoute} {s : Bridge}

@[simp] theorem Bridge.put_self (s : Bridge) (i : ℕ) (call : Call) :
    (s.put i call).calls i = some call := if_pos rfl

theorem Bridge.put_of_ne (s : Bridge) (h : j ≠ i) (call : Call) :
    (s.put i call).calls j = s.calls j := if_neg h

theorem Bridge.Sound.record_unique (h : s.Sound order) (hrec : record ∈ s.sent)
    (hother : other ∈ s.sent) (hcall : record.call = other.call) : record = other := by
  obtain ⟨call, hcalls, -, hid⟩ := (h.mem_sent record).mp hrec
  obtain ⟨call', hcalls', -, hid'⟩ := (h.mem_sent other).mp hother
  obtain rfl : call = call' := some.inj (hcalls.symm.trans (hcall ▸ hcalls'))
  exact Sent.mk.injEq .. ▸ ⟨hid.trans hid'.symm, hcall⟩

theorem Call.recordId_ne_zero (h : call.recordId ≠ 0) :
    call.progress = .recorded ∧ call.recordId = call.id := by
  unfold Call.recordId at h ⊢
  cases hprog : call.progress with
  | recorded => exact ⟨rfl, rfl⟩
  | sending => exact absurd (by rw [hprog]) h
  | failed => exact absurd (by rw [hprog]) h

theorem Call.length_due_le (order : ByteOrder) (call : Call) : (call.due order).length ≤ 1 := by
  unfold Call.due
  split
  · exact Nat.zero_le 1
  · exact Nat.le_refl 1
  split
  · exact Nat.zero_le 1
  split_ifs
  · exact Nat.zero_le 1
  · exact Nat.le_refl 1

theorem Call.due_answered {answer : Answer} (hrecorded : call.progress = .recorded)
    (hans : call.answer = some answer) (hlate : call.early = false) :
    call.due order = [answered order call.message answer] := by
  unfold Call.due
  rw [hrecorded]
  rw [hans, hlate]
  rfl

theorem Bridge.Sound.id_unique (h : s.Sound order) (hrec : record ∈ s.sent)
    (hother : other ∈ s.sent) (hid : record.messageId ≠ 0)
    (hsame : record.messageId = other.messageId) : record = other := by
  obtain ⟨call, hcall, -, hcallId⟩ := (h.mem_sent record).mp hrec
  obtain ⟨call', hcall', -, hcallId'⟩ := (h.mem_sent other).mp hother
  obtain ⟨-, hbroker⟩ := Call.recordId_ne_zero (hcallId ▸ hid)
  obtain ⟨-, hbroker'⟩ := Call.recordId_ne_zero (hcallId' ▸ hsame ▸ hid)
  have hids : call.id = call'.id := by
    rw [← hbroker, ← hbroker', ← hcallId, ← hcallId', hsame]
  have hne : call.id ≠ 0 := by
    rw [← hbroker, ← hcallId]
    exact hid
  exact h.record_unique hrec hother (h.ids _ _ _ _ hcall hcall' hne hids)

theorem mem_eraseP_of_unique {p : Sent → Bool} (hdist : sent.Nodup)
    (huniq : ∀ record ∈ sent, ∀ other ∈ sent, p record = true → p other = true → record = other)
    (record : Sent) : record ∈ sent.eraseP p ↔ record ∈ sent ∧ p record = false := by
  induction sent with
  | nil => simp
  | cons first rest ih =>
  obtain ⟨hnew, hdist⟩ := nodup_cons.mp hdist
  have hrest := ih hdist fun record hrec other hother =>
    huniq record (mem_cons_of_mem _ hrec) other (mem_cons_of_mem _ hother)
  rw [eraseP_cons]
  cases hfst : p first with
  | true =>
    rw [mem_cons]
    constructor
    · intro hrec
      refine ⟨.inr hrec, ?_⟩
      by_contra hp
      have hsame := huniq record (mem_cons_of_mem _ hrec) first mem_cons_self
        ((Bool.not_eq_false _).mp hp) hfst
      exact hnew (hsame ▸ hrec)
    · rintro ⟨rfl | hrec, hp⟩
      · exact nomatch (hp.symm.trans hfst)
      · exact hrec
  | false =>
  rw [cond_false, mem_cons, mem_cons, hrest]
  constructor
  · rintro (rfl | ⟨hrec, hp⟩)
    · exact ⟨.inl rfl, hfst⟩
    · exact ⟨.inr hrec, hp⟩
  · rintro ⟨rfl | hrec, hp⟩
    · exact .inl rfl
    · exact .inr ⟨hrec, hp⟩

theorem Bridge.Sound.put (h : s.Sound order) {count : ℕ} (hdist : sent.Nodup)
    (hothers : ∀ record : Sent, record.call ≠ i → (record ∈ sent ↔ record ∈ s.sent))
    (hself : ∀ record : Sent, record.call = i →
      (record ∈ sent ↔ call.Waiting ∧ record.messageId = call.recordId)) (hcall : call.Sound order)
    (hids : call.id ≠ 0 → ∀ j other, j ≠ i → s.calls j = some other → call.id ≠ other.id)
    (hi : i < count) (hcnt : s.count ≤ count) :
    Bridge.Sound order ⟨sent, (s.put i call).calls, count⟩ where
  distinct := hdist
  mem_sent record := by
    by_cases hrec : record.call = i
    · rw [hself record hrec, hrec, Bridge.put_self]
      constructor
      · exact fun hwaiting => ⟨call, rfl, hwaiting⟩
      · rintro ⟨_, hsame, hwaiting⟩
        exact some.inj hsame ▸ hwaiting
    · rw [hothers record hrec, h.mem_sent, Bridge.put_of_ne s hrec]
  calls j other hother := by
    by_cases hj : j = i
    · subst hj
      rw [Bridge.put_self] at hother
      exact some.inj hother ▸ hcall
    · rw [Bridge.put_of_ne s hj] at hother
      exact h.calls j other hother
  ids j k first second hfst hsnd hne hsame := by
    by_cases hj : j = i
    · by_cases hk : k = i
      · rw [hj, hk]
      subst hj
      rw [Bridge.put_self] at hfst
      rw [Bridge.put_of_ne s hk] at hsnd
      obtain rfl := some.inj hfst
      exact absurd hsame (hids hne k second hk hsnd)
    rw [Bridge.put_of_ne s hj] at hfst
    by_cases hk : k = i
    · subst hk
      rw [Bridge.put_self] at hsnd
      obtain rfl := some.inj hsnd
      exact absurd hsame.symm (hids (hsame ▸ hne) j first hj hfst)
    · rw [Bridge.put_of_ne s hk] at hsnd
      exact h.ids j k first second hfst hsnd hne hsame
  count j hj := by
    rw [Bridge.put_of_ne s (by dsimp only at hj; omega)]
    exact h.count j (Nat.le_trans hcnt hj)

section Calls

variable (h : s.Sound order) (hcall : s.calls i = some call)
include h hcall

theorem Bridge.Sound.mem_of_call (hrec : record.call = i) :
    record ∈ s.sent ↔ call.Waiting ∧ record.messageId = call.recordId := by
  rw [h.mem_sent, hrec, hcall]
  constructor
  · rintro ⟨_, hsame, hwaiting⟩
    exact some.inj hsame ▸ hwaiting
  · exact fun hwaiting => ⟨call, rfl, hwaiting⟩

theorem Bridge.Sound.lt_count : i < s.count := by
  by_contra hle
  have hnone := h.count i (Nat.not_lt.mp hle)
  exact some_ne_none call (hcall.symm.trans hnone)

theorem Bridge.Sound.ids_ne (hne : call.id ≠ 0)
    {other : Call} (hj : j ≠ i) (hother : s.calls j = some other) : call.id ≠ other.id :=
  fun hsame => hj (h.ids i j call other hcall hother hne hsame).symm

/-! ### Each step -/

omit hcall in
theorem Bridge.Sound.start (message : RexxMsg) : (start message s).Sound order := by
  have hnone : s.calls s.count = none := h.count s.count (Nat.le_refl _)
  have hfresh : ∀ record : Sent, record.call = s.count → record ∉ s.sent := by
    intro record hrec hmem
    obtain ⟨call, hcall, -⟩ := (h.mem_sent record).mp hmem
    rw [hrec, hnone] at hcall
    exact nomatch hcall
  refine h.put (nodup_cons.mpr ⟨hfresh _ rfl, h.distinct⟩) ?_ ?_ ?_ ?_ (Nat.lt_succ_self _)
    (Nat.le_succ _)
  · intro record hrec
    rw [mem_cons]
    exact or_iff_right fun hsame => hrec (congrArg Sent.call hsame)
  · intro record hrec
    rw [mem_cons, or_iff_left (hfresh record hrec)]
    obtain ⟨messageId, call⟩ := record
    subst hrec
    constructor
    · intro hsame
      exact ⟨trivial, congrArg Sent.messageId hsame⟩
    · rintro ⟨-, hid⟩
      exact congrArg (Sent.mk · s.count) hid
  · exact ⟨rfl, nofun, fun _ hno => absurd rfl hno, nofun⟩
  · exact fun hno => absurd rfl hno

theorem Bridge.Sound.accept (hsending : call.progress = .sending)
    (hnew : ∀ j other, s.calls j = some other → other.id ≠ id) :
    (s.put i { call with id := id }).Sound order := by
  have hsound := h.calls i call hcall
  refine h.put h.distinct (fun _ _ => Iff.rfl) ?_ ?_ ?_ (h.lt_count hcall) (Nat.le_refl _)
  · intro record hrec
    rw [h.mem_of_call hcall hrec]
    unfold Call.Waiting Call.recordId
    rw [hsending]
  · have hdue : Call.due order { call with id := id } = call.due order := rfl
    exact ⟨hsound.released.trans hdue.symm, hsound.early, hsound.sending,
      (fun hrecorded => nomatch hsending.symm.trans hrecorded)⟩
  · exact fun _ j other _ hother hsame => hnew j other hother hsame.symm

theorem Bridge.Sound.sendFailed (hsending : call.progress = .sending) :
    (sendFailed i call s).Sound order := by
  have hsound := h.calls i call hcall
  have hremoved := mem_eraseP_of_unique (p := (·.call == i)) h.distinct
    fun record hrec other hother hcall hcall' => h.record_unique hrec hother
      ((beq_iff_eq.mp hcall).trans (beq_iff_eq.mp hcall').symm)
  refine h.put (h.distinct.sublist eraseP_sublist) ?_ ?_ ?_ ?_ (h.lt_count hcall) (Nat.le_refl _)
  · intro record hrec
    rw [hremoved, beq_eq_false_iff_ne]
    exact and_iff_left hrec
  · intro record hrec
    rw [hremoved, beq_eq_false_iff_ne]
    exact ⟨fun hno => absurd hrec hno.2, fun hno => hno.1.elim⟩
  · have hdue : call.due order = [] := by
      unfold Call.due
      rw [hsending]
    refine ⟨?_, hsound.early, nofun, nofun⟩
    show call.released ++ [fatal call.message] = [fatal call.message]
    rw [hsound.released, hdue, nil_append]
  · exact fun hne j other hj hother => h.ids_ne hcall hne hj hother

theorem Bridge.Sound.storeId (hsending : call.progress = .sending) (hid : call.id ≠ 0) :
    (storeId i call s).Sound order := by
  have hsound := h.calls i call hcall
  -- The record is still in the list, without an identifier.
  have hrec : (⟨0, i⟩ : Sent) ∈ s.sent := by
    rw [h.mem_of_call hcall rfl]
    unfold Call.Waiting Call.recordId
    rw [hsending]
    exact ⟨trivial, rfl⟩
  have hkeeps (record : Sent) :
      (if record.call = i then { record with messageId := call.id } else record).call =
        record.call := by
    split_ifs <;> rfl
  refine h.put ?_ ?_ ?_ ?_ ?_ (h.lt_count hcall) (Nat.le_refl _)
  · refine List.Nodup.map_on ?_ h.distinct
    intro record hmem other hmem' hsame
    have hcalls := congrArg Sent.call hsame
    rw [hkeeps, hkeeps] at hcalls
    exact h.record_unique hmem hmem' hcalls
  · intro record hother
    rw [List.mem_map]
    constructor
    · rintro ⟨old, hold, rfl⟩
      rw [hkeeps] at hother
      rwa [if_neg hother]
    · exact fun hmem => ⟨record, hmem, if_neg hother⟩
  · intro record hself
    have hwaiting : Call.Waiting { call with progress := .recorded } := by
      by_cases hans : call.answer = none
      · exact .inl hans
      · exact .inr (hsound.sending hsending hans)
    rw [List.mem_map]
    constructor
    · rintro ⟨old, hold, rfl⟩
      rw [hkeeps] at hself
      rw [if_pos hself]
      exact ⟨hwaiting, rfl⟩
    rintro ⟨-, hmsgId⟩
    refine ⟨⟨0, i⟩, hrec, ?_⟩
    obtain ⟨messageId, number⟩ := record
    dsimp only at hself hmsgId
    rw [if_pos rfl, hself, hmsgId]
    rfl
  · refine ⟨?_, hsound.early, nofun, fun _ => hid⟩
    have hnone : call.released = [] := by
      rw [hsound.released]
      unfold Call.due
      rw [hsending]
    show call.released = _
    rw [hnone]
    unfold Call.due
    cases hans : call.answer with
    | none => rfl
    | some answer =>
      have hearly := hsound.sending hsending (by rw [hans]; exact some_ne_none _)
      dsimp only
      rw [if_pos hearly]
  · exact fun hne j other hj hother => h.ids_ne hcall hne hj hother

omit h hcall in
theorem takeSent_none (h : ∀ record ∈ sent, record.messageId ≠ id) :
    takeSent id sent = (none, sent) := by
  have hnone : ∀ record ∈ sent, ¬ (record.messageId == id) = true :=
    fun record hrec hid => h record hrec (beq_iff_eq.mp hid)
  exact Prod.ext (find?_eq_none.mpr hnone) (eraseP_of_forall_not hnone)

theorem Bridge.Sound.takeSent_recorded
    (hrecorded : call.progress = .recorded) (hans : call.answer = none) :
    takeSent call.id s.sent = (some ⟨call.id, i⟩, s.sent.eraseP (·.messageId == call.id)) := by
  have hid := (h.calls i call hcall).recorded hrecorded
  have hmem : (⟨call.id, i⟩ : Sent) ∈ s.sent := by
    rw [h.mem_of_call hcall rfl]
    unfold Call.Waiting Call.recordId
    rw [hrecorded]
    exact ⟨.inl hans, rfl⟩
  refine Prod.ext ?_ rfl
  show s.sent.find? (·.messageId == call.id) = some ⟨call.id, i⟩
  cases hfind : s.sent.find? (·.messageId == call.id) with
  | none => exact absurd BEq.rfl (find?_eq_none.mp hfind _ hmem)
  | some found =>
  have hfound : found.messageId = call.id :=
    beq_iff_eq.mp (find?_some (p := fun record : Sent => record.messageId == call.id) hfind)
  have hsame := h.id_unique (mem_of_find?_eq_some hfind) hmem (hfound ▸ hid) hfound
  exact congrArg some hsame

theorem Bridge.Sound.takeSent_unrecorded (hid : call.id ≠ 0) (hprog : call.progress ≠ .recorded) :
    takeSent call.id s.sent = (none, s.sent) := by
  refine takeSent_none fun record hrec hsame => ?_
  obtain ⟨owner, howner, -, hownerId⟩ := (h.mem_sent record).mp hrec
  have hne : owner.recordId ≠ 0 := by
    rw [← hownerId, hsame]
    exact hid
  obtain ⟨hrecorded, hbroker⟩ := Call.recordId_ne_zero hne
  have hown : i = record.call := h.ids i record.call call owner hcall howner hid
    (hsame.symm.trans (hownerId.trans hbroker))
  rw [← hown, hcall] at howner
  exact hprog (some.inj howner ▸ hrecorded)

theorem Bridge.Sound.handle_recorded (answer : Answer) (hrecorded : call.progress = .recorded)
    (hans : call.answer = none) :
    handle order i answer call s =
      { s.put i { noted answer call with
          released := call.released ++ [answered order call.message answer] } with
        sent := s.sent.eraseP (·.messageId == call.id) } := by
  have htaken : takeSent call.id (s.put i (noted answer call)).sent = _ :=
    h.takeSent_recorded hcall hrecorded hans
  have hcalls : (s.put i (noted answer call)).calls i = some (noted answer call) := s.put_self i _
  unfold Rexx.handle
  dsimp only
  rw [htaken]
  dsimp only
  rw [hcalls]
  refine Bridge.mk.injEq .. ▸ ⟨rfl, ?_, rfl⟩
  funext j
  unfold Bridge.put
  dsimp only
  split_ifs <;> rfl

theorem Bridge.Sound.handle_unrecorded (answer : Answer) (hid : call.id ≠ 0)
    (hprog : call.progress ≠ .recorded) :
    handle order i answer call s = s.put i (noted answer call) := by
  have hmissing : takeSent call.id (s.put i (noted answer call)).sent = _ :=
    h.takeSent_unrecorded hcall hid hprog
  unfold Rexx.handle
  dsimp only
  rw [hmissing]

theorem Bridge.Sound.handle (answer : Answer) (hid : call.id ≠ 0) (hans : call.answer = none) :
    (handle order i answer call s).Sound order := by
  have hsound := h.calls i call hcall
  have hids : call.id ≠ 0 → ∀ j other, j ≠ i → s.calls j = some other → call.id ≠ other.id :=
    fun hne j other hj hother => h.ids_ne hcall hne hj hother
  have hsome : (noted answer call).answer ≠ none := some_ne_none answer
  by_cases hrecorded : call.progress = .recorded
  · rw [h.handle_recorded hcall answer hrecorded hans]
    have hremoved := mem_eraseP_of_unique (p := (·.messageId == call.id)) h.distinct
      fun record hrec other hother hfst hsnd => h.id_unique hrec hother
        (beq_iff_eq.mp hfst ▸ hid) ((beq_iff_eq.mp hfst).trans (beq_iff_eq.mp hsnd).symm)
    have hlate : (noted answer call).early = false := by
      unfold noted
      rw [hrecorded]
      rfl
    have hnone : call.released = [] := by
      rw [hsound.released]
      unfold Call.due
      rw [hrecorded, hans]
    have howned (record : Sent) (hmem : record ∈ s.sent) :
        record.messageId = call.id ↔ record.call = i := by
      constructor
      · intro hsame
        have hown : (⟨call.id, i⟩ : Sent) ∈ s.sent := by
          rw [h.mem_of_call hcall rfl]
          unfold Call.Waiting Call.recordId
          rw [hrecorded]
          exact ⟨.inl hans, rfl⟩
        exact congrArg Sent.call (h.id_unique hmem hown (hsame ▸ hid) hsame)
      · intro hown
        have hmessageId := ((h.mem_of_call hcall hown).mp hmem).2
        unfold Call.recordId at hmessageId
        rwa [hrecorded] at hmessageId
    refine h.put (h.distinct.sublist eraseP_sublist) ?_ ?_ ?_ hids (h.lt_count hcall)
      (Nat.le_refl _)
    · intro record hrec
      rw [hremoved, beq_eq_false_iff_ne]
      exact and_iff_left_of_imp fun hmem hsame => hrec ((howned record hmem).mp hsame)
    · intro record hrec
      rw [hremoved, beq_eq_false_iff_ne]
      constructor
      · rintro ⟨hmem, hne⟩
        exact absurd ((howned record hmem).mpr hrec) hne
      rintro ⟨hwaiting, -⟩
      unfold Call.Waiting at hwaiting
      dsimp only [noted] at hwaiting
      rw [hrecorded] at hwaiting
      rcases hwaiting with hno | hno
      · exact nomatch hno
      · exact nomatch hno
    · refine ⟨?_, fun _ => hsome, ?_, fun _ => hid⟩
      · have hdue : Call.due order { noted answer call with
            released := call.released ++ [answered order call.message answer] } = _ :=
          Call.due_answered hrecorded rfl hlate
        rw [hdue, hnone]
        rfl
      · intro hsending
        exact nomatch hrecorded.symm.trans hsending
  · rw [h.handle_unrecorded hcall answer hid hrecorded]
    refine h.put h.distinct (fun _ _ => Iff.rfl) ?_ ?_ hids (h.lt_count hcall) (Nat.le_refl _)
    · intro record hrec
      rw [h.mem_of_call hcall hrec]
      unfold Call.Waiting Call.recordId noted
      cases hprog : call.progress with
      | recorded => exact absurd hprog hrecorded
      | sending => rfl
      | failed => rfl
    refine ⟨?_, fun _ => hsome, ?_, fun hno => absurd hno hrecorded⟩
    · show call.released = _
      rw [hsound.released]
      unfold Call.due noted
      cases hprog : call.progress with
      | recorded => exact absurd hprog hrecorded
      | sending => rfl
      | failed => rfl
    · intro hsending _
      exact beq_iff_eq.mpr hsending

end Calls

theorem Bridge.Sound.act (h : s.Sound order) {a : Action} (hposs : Possible order route a s) :
    (act order a s).Sound order := by
  cases a with
  | start message => exact h.start message
  | accept i id =>
    obtain ⟨call, hcall, hsending, -, -, hnew⟩ := hposs
    show Bridge.Sound order (((s.calls i).map _).getD s)
    rw [hcall]
    exact h.accept hcall hsending hnew
  | fail i =>
    obtain ⟨call, hcall, hsending⟩ := hposs
    show Bridge.Sound order (((s.calls i).map _).getD s)
    rw [hcall]
    exact h.sendFailed hcall hsending
  | record i =>
    obtain ⟨call, hcall, hsending, hid⟩ := hposs
    show Bridge.Sound order (((s.calls i).map _).getD s)
    rw [hcall]
    exact h.storeId hcall hsending hid
  | handle i answer =>
  obtain ⟨call, hcall, hid, hans⟩ := hposs
  show Bridge.Sound order (((s.calls i).map _).getD s)
  rw [hcall]
  exact h.handle hcall answer hid hans

theorem bridge_sound {n : ℕ} (hrun : (bridge order route).Run n s) : s.Sound order := by
  have hinit : Bridge.Sound order ({} : Bridge) :=
    ⟨nodup_nil,
      fun _ => ⟨nofun, fun ⟨_, hno, _⟩ => (nomatch hno)⟩,
      (fun _ _ hno => nomatch hno), (fun _ _ _ _ hno => nomatch hno), fun _ _ => rfl⟩
  exact hrun.invariant (P := fun _ s => Bridge.Sound order s) hinit
    (fun _ _ _ _ _ hposs h => h.act hposs) (Nat.lt_succ_self n)

end Sound

/-- **A sender is released once, except by an answer that comes too early.** In every run, nobody is
released twice. A call is over when the send has failed, or when the identifier is stored and the
answer handled. Its sender has then been released once, with the answer's results or with
`RC_FATAL`, if and only if the send failed or the answer was handled after the identifier had been
stored. -/
theorem released_once_iff (order : ByteOrder) (route : RexxMsg → Option PrivateRoute) {n : ℕ}
    {s : Bridge} (hrun : (bridge order route).Run n s) {i : ℕ} {call : Call}
    (hcall : s.calls i = some call) :
    call.released.length ≤ 1 ∧
      (call.Over → (call.ReleasedOnce order ↔ call.progress = .failed ∨ call.early = false)) := by
  have hsound := (bridge_sound hrun).calls i call hcall
  refine ⟨?_, fun hover => ?_⟩
  · rw [hsound.released]
    exact call.length_due_le order
  unfold Call.ReleasedOnce
  rw [hsound.released]
  rcases hover with hfailed | ⟨hrecorded, hanswer⟩
  · have hdue : call.due order = [fatal call.message] := by
      unfold Call.due
      rw [hfailed]
    exact ⟨fun _ => .inl hfailed, fun _ => ⟨_, hdue, .inl rfl⟩⟩
  obtain ⟨answer, hsome⟩ := ne_none_iff_exists'.mp hanswer
  cases hearly : call.early with
  | false =>
    exact ⟨fun _ => .inr rfl, fun _ =>
      ⟨_, Call.due_answered hrecorded hsome hearly, .inr ⟨answer, hsome, rfl⟩⟩⟩
  | true =>
  have hdue : call.due order = [] := by
    unfold Call.due
    rw [hrecorded]
    rw [hsome, hearly]
    rfl
  rw [hdue, hrecorded]
  exact ⟨fun ⟨_, hno, _⟩ => (nomatch hno), fun hno => (by simp at hno)⟩

/-- The command `A`. -/
def commandA : RexxMsg where
  action := rxComm
  args := .string (createArgstring [65]) :: replicate 15 .nothing

def oneProcess : Machine Bridge Action := bridge .little fun _ => none

/-- The state after some actions. -/
def after (actions : List Action) : Bridge := oneProcess.exec actions oneProcess.init

theorem oneProcess_accepted : oneProcess.Run 2 (after [.start commandA, .accept 0 1]) := by
  have hsend : oneProcess.possible (.start commandA) oneProcess.init :=
    ⟨by decide, by decide⟩
  have haccept : oneProcess.possible (.accept 0 1) (after [.start commandA]) := by
    refine ⟨_, rfl, rfl, rfl, Nat.one_ne_zero, ?_⟩
    intro j other hother
    by_cases hj : j = 0
    · subst hj
      cases hother
      exact Nat.zero_ne_one
    · have hnone : (after [.start commandA]).calls j = none := if_neg hj
      exact nomatch hother.symm.trans hnone
  exact (Machine.Run.start.step _ hsend).step _ haccept

theorem released_once_iff_abandoned :
    ∃ call, (after [.start commandA, .accept 0 1, .record 0, .handle 0 .abandoned]).calls 0 =
      some call ∧ call.ReleasedOnce .little := by
  have hrecord : oneProcess.possible (.record 0)
      (after [.start commandA, .accept 0 1]) := ⟨_, rfl, rfl, Nat.one_ne_zero⟩
  have hhandle : oneProcess.possible (.handle 0 .abandoned)
      (after [.start commandA, .accept 0 1, .record 0]) := ⟨_, rfl, Nat.one_ne_zero, rfl⟩
  have hrun := (oneProcess_accepted.step _ hrecord).step _ hhandle
  have hrelease := released_once_iff .little (fun _ => none) hrun (i := 0) rfl
  exact ⟨_, rfl, (hrelease.2 (.inr ⟨rfl, some_ne_none _⟩)).mpr (.inr rfl)⟩

/-- The delivery thread is told that nobody will answer before the identifier is stored: the sender
is never released. -/
theorem early_answer_lost :
    ∃ (n : ℕ) (s : Bridge) (call : Call), oneProcess.Run n s ∧ s.calls 0 = some call ∧
      call.Over ∧ call.released = [] := by
  have hhandle : oneProcess.possible (.handle 0 .abandoned)
      (after [.start commandA, .accept 0 1]) := ⟨_, rfl, Nat.one_ne_zero, rfl⟩
  have hrecord : oneProcess.possible (.record 0)
      (after [.start commandA, .accept 0 1, .handle 0 .abandoned]) :=
    ⟨_, rfl, rfl, Nat.one_ne_zero⟩
  have hrun := (oneProcess_accepted.step _ hhandle).step _ hrecord
  exact ⟨_, _, _, hrun, rfl, .inr ⟨rfl, some_ne_none _⟩, rfl⟩

end AceShell.Rexx
