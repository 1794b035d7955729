import AceShell.Privilege.Containment

/-!
# The CRM's serve loop

After `ace_crm_serve`. A record's payload is received into the front of a buffer that is not
cleared, and `decode` goes by the length that the header declares. A request that does not carry the
payload it declares is decided by what earlier ones left behind (`stale_bytes_complete_request`).
-/

namespace AceShell

open Text List

/-! ## One datagram -/

/-- `recvmsg` writes the bytes that came over the front of the buffer. -/
def receive (carried buffer : List UInt8) : List UInt8 :=
  carried.take privilegeMaxPayload ++ buffer.drop carried.length

def Datagram.fill (buffer : List UInt8) : Datagram → List UInt8
  | .short => buffer
  | .record _ carried => receive carried buffer

/-- Leave without an answer, answer and stay or not, reject a payload, or act for a request. -/
inductive CrmDecision
  | leave
  | answer (status : PrivilegeStatus) (stays : Bool)
  | reject (status : PrivilegeStatus)
  | act (request : PrivilegeRequest) (action : CrmAction)
  deriving DecidableEq

def crmDecide (datagram : Datagram) (buffer : List UInt8) : CrmDecision :=
  match datagram with
  | .short => .leave
  | .record request carried =>
    if request.goodMagic = false ∨ privilegeMaxPayload < request.payloadLength then
      .answer .protocolError false
    else
      match request.opcode with
      | some .ping | some .cancel => .answer .ok true
      | some .shutdown | some .dropPrivilege => .answer .ok false
      | _ =>
        if classOf request.operation ≠ .access then .answer .refused true
        else
          match decode request (receive carried buffer) with
          | .error status => .reject status
          | .ok action => .act request action

def Datagram.Overlong : Datagram → Prop
  | .short => False
  | .record request carried => carried.length < request.payloadLength

def Datagram.BadHeader : Datagram → Prop
  | .short => False
  | .record request _ =>
    request.goodMagic = false ∨ privilegeMaxPayload < request.payloadLength

section Decode

variable {payload buffer carried : List UInt8} {length : ℕ}

theorem head?_take_of_pos (h : 0 < length) : (payload.take length).head? = payload.head? := by
  rw [head?_take, if_neg (by omega)]

theorem checkedRelative_take :
    checkedRelative (payload.take length) length = checkedRelative payload length := by
  unfold checkedRelative
  by_cases hlen : length < 2
  · rw [if_pos (.inl hlen), if_pos (.inl hlen)]
  · rw [head?_take_of_pos (by omega), getElem?_take_of_lt (by omega), take_take, min_self]

theorem checkedPair_take {firstLength : ℕ} {secondIsPath : Bool} :
    checkedPair (payload.take length) firstLength length secondIsPath =
      checkedPair payload firstLength length secondIsPath := by
  unfold checkedPair
  by_cases hlen : firstLength < 2 ∨ length ≤ firstLength
  · rw [if_pos (by tauto), if_pos (by tauto)]
  rw [head?_take_of_pos (by omega), getElem?_take_of_lt (by omega),
    getElem?_take_of_lt (by omega), take_take, take_take, min_self,
    min_eq_left (by omega)]

theorem decode_take (request : PrivilegeRequest) (payload : List UInt8) :
    decode request (payload.take request.payloadLength) = decode request payload := by
  unfold decode
  simp only [checkedRelative_take, checkedPair_take]

theorem take_receive (hcarried : length ≤ carried.length) (hmax : length ≤ privilegeMaxPayload) :
    (receive carried buffer).take length = carried.take length := by
  unfold receive
  rw [take_append_of_le_length (by simp; omega), take_take, min_eq_left hmax]

end Decode

variable {datagram : Datagram}

theorem crmDecide_eq (h : datagram.Overlong → datagram.BadHeader) (buffer : List UInt8)
    : crmDecide datagram buffer = crmDecide datagram [] := by
  cases datagram with
  | short => rfl
  | record request carried =>
  unfold crmDecide
  dsimp only
  by_cases hbad : request.goodMagic = false ∨ privilegeMaxPayload < request.payloadLength
  · rw [if_pos hbad, if_pos hbad]
  have hcarried : request.payloadLength ≤ carried.length := by
    by_contra hlt
    exact hbad (h (by simpa [Datagram.Overlong] using hlt))
  have hmax : request.payloadLength ≤ privilegeMaxPayload := by
    omega
  rw [← decode_take request (receive carried buffer), take_receive hcarried hmax,
    ← decode_take request (receive carried []), take_receive hcarried hmax]

theorem crmDecide_overlong (h : datagram.Overlong → datagram.BadHeader)
    (hoverlong : datagram.Overlong) (buffer : List UInt8) :
    crmDecide datagram buffer = .answer .protocolError false := by
  cases datagram with
  | short => exact hoverlong.elim
  | record request carried =>
    exact if_pos (h hoverlong)

/-! ## The loop -/

/-- The decision, the reply and the calls made for it, whether the worker serves on, and the buffer
and the file system then. -/
structure CrmTurn (σ : Type) where
  decision : CrmDecision
  reply : Option CrmReply
  calls : List (Call × σ × σ)
  serving : Bool
  buffer : List UInt8
  state : σ

variable {sent : Bool} {buffer carried : List UInt8} {request : PrivilegeRequest}

section Serve

variable {σ : Type} (kernel : Kernel σ) (roots : CrmRoots)

/-- The body of the loop. `sent` says whether a reply can be sent, which only the replies of
`perform` depend on. -/
def crmTurn (datagram : Datagram) (sent : Bool) (buffer : List UInt8) (s : σ) : CrmTurn σ :=
  let decision := crmDecide datagram buffer
  let filled := datagram.fill buffer
  match decision with
  | .leave => ⟨decision, none, [], false, filled, s⟩
  | .answer status stays => ⟨decision, some ⟨status, none, none⟩, [], stays, filled, s⟩
  | .reject status => ⟨decision, some (.fail status), [], sent, filled, s⟩
  | .act request action =>
    let done := performAction kernel roots action request s
    ⟨decision, some done.reply, done.calls, sent, filled, done.state⟩

def crmServe : List (Datagram × Bool) → List UInt8 → σ → List (CrmTurn σ)
  | [], _, _ => []
  | (datagram, sent) :: rest, buffer, s =>
    let turn := crmTurn kernel roots datagram sent buffer s
    turn :: if turn.serving then crmServe rest turn.buffer turn.state else []

variable {kernel roots}

theorem crmTurn_calls {s : σ}
    (h : ∀ request action, crmDecide datagram buffer ≠ .act request action) :
    (crmTurn kernel roots datagram sent buffer s).calls = [] ∧
      (crmTurn kernel roots datagram sent buffer s).state = s := by
  unfold crmTurn
  dsimp only
  split <;> first | exact ⟨rfl, rfl⟩ | skip
  next request action hdecision => exact absurd hdecision (h request action)

@[simp] theorem crmTurn_decision {s : σ} :
    (crmTurn kernel roots datagram sent buffer s).decision = crmDecide datagram buffer := by
  unfold crmTurn
  dsimp only
  split <;> rfl

theorem crmServe_turn {arrivals : List (Datagram × Bool)} {s : σ} {n : ℕ} {turn : CrmTurn σ}
    (h : (crmServe kernel roots arrivals buffer s)[n]? = some turn) :
    ∃ arrival buffer s, arrivals[n]? = some arrival ∧
      turn = crmTurn kernel roots arrival.1 arrival.2 buffer s := by
  induction arrivals generalizing buffer s n with
  | nil => simp [crmServe] at h
  | cons arrival rest ih =>
  cases n with
  | zero =>
    refine ⟨arrival, buffer, s, rfl, ?_⟩
    simpa [crmServe] using h.symm
  | succ n =>
  simp only [crmServe, getElem?_cons_succ] at h
  split at h
  · simpa using ih h
  · simp at h

/-- **Requests are independent.** Where a datagram carries the payload that its header declares, or
has a bad header, what the worker does for it is decided by that datagram alone, whatever the buffer
held and whatever came before; and one that declares more than it carries is a protocol error and
makes no call. -/
theorem crmServe_independent (arrivals : List (Datagram × Bool)) (buffer : List UInt8) (s : σ)
    (hcarried : ∀ arrival ∈ arrivals, arrival.1.Overlong → arrival.1.BadHeader) (n : ℕ)
    (turn : CrmTurn σ) (hturn : (crmServe kernel roots arrivals buffer s)[n]? = some turn) :
    ∃ arrival, arrivals[n]? = some arrival ∧ turn.decision = crmDecide arrival.1 [] ∧
      (arrival.1.Overlong → turn.decision = .answer .protocolError false ∧ turn.calls = []) := by
  obtain ⟨arrival, buffer', s', harrival, rfl⟩ := crmServe_turn hturn
  have hhonest := hcarried arrival (mem_of_getElem? harrival)
  refine ⟨arrival, harrival, ?_, fun hoverlong => ?_⟩
  · rw [crmTurn_decision, crmDecide_eq hhonest]
  have herror := crmDecide_overlong hhonest hoverlong buffer'
  refine ⟨crmTurn_decision.trans herror, (crmTurn_calls ?_).1⟩
  simp [herror]

end Serve

/-! ## Stale bytes -/

def twoFiles : Disk where
  entries := [((1, ascii "abc"), 2), ((1, ascii "xyz"), 3)]
  next := 4

/-- A datagram with one path. -/
def pathDatagram (opcode : Opcode) (path : Name) : Datagram :=
  .record (pathRequest opcode path) (path ++ [0])

def bareDatagram (opcode : Opcode) (path : Name) : Datagram := .record (pathRequest opcode path) []

def threeRequests : List (Datagram × Bool) :=
  [(pathDatagram .stat (ascii "abc"), true), (pathDatagram .mkdir (ascii "directory"), true),
    (pathDatagram .unlink (ascii "xyz"), true)]

/-- The third request deletes the file that it names, behind a longer name in the buffer. -/
theorem crmServe_independent_third :
    ∃ turn, (crmServe Disk.kernel viewRoots threeRequests (ascii "left over") twoFiles)[2]? =
        some turn ∧
      turn.decision = .act (pathRequest .unlink (ascii "xyz")) (.named .unlink (ascii "xyz")) ∧
      turn.decision = crmDecide (pathDatagram .unlink (ascii "xyz")) [] ∧
      turn.state.entries = [((1, ascii "directory"), 4), ((1, ascii "abc"), 2)] := by
  have hrun : ((crmServe Disk.kernel viewRoots threeRequests (ascii "left over") twoFiles).map
      fun turn => (turn.decision, turn.state.entries))[2]? =
      some (.act (pathRequest .unlink (ascii "xyz")) (.named .unlink (ascii "xyz")),
        [((1, ascii "directory"), 4), ((1, ascii "abc"), 2)]) := by
    decide
  rw [getElem?_map, Option.map_eq_some_iff] at hrun
  obtain ⟨turn, hturn, heq⟩ := hrun
  obtain ⟨hact, hentries⟩ := Prod.mk.inj heq
  have hcarried : ∀ arrival ∈ threeRequests, arrival.1.Overlong → arrival.1.BadHeader := by
    simp [threeRequests, pathDatagram, pathRequest, Datagram.Overlong]
  obtain ⟨arrival, harrival, hdecision, -⟩ :=
    crmServe_independent threeRequests _ twoFiles hcarried 2 turn hturn
  obtain rfl : _ = arrival := Option.some.inj harrival
  exact ⟨turn, hturn, hact, hdecision, hentries⟩

/-- The second request of these runs is the same: a header for a path of three letters, and no
payload. It deletes the file that the request before it was about. -/
theorem stale_bytes_complete_request :
    ((crmServe Disk.kernel viewRoots
      [(pathDatagram .stat (ascii "abc"), true), (bareDatagram .unlink (ascii "..."), true)]
      [] twoFiles).map fun turn => (turn.decision, turn.state.entries))[1]? =
      some (.act (pathRequest .unlink (ascii "...")) (.named .unlink (ascii "abc")),
        [((1, ascii "xyz"), 3)]) ∧
    ((crmServe Disk.kernel viewRoots
      [(pathDatagram .stat (ascii "xyz"), true), (bareDatagram .unlink (ascii "..."), true)]
      [] twoFiles).map fun turn => (turn.decision, turn.state.entries))[1]? =
      some (.act (pathRequest .unlink (ascii "...")) (.named .unlink (ascii "xyz")),
        [((1, ascii "abc"), 2)]) ∧
    (bareDatagram .unlink (ascii "...")).Overlong := by
  refine ⟨by decide, by decide, ?_⟩
  simp only [bareDatagram, pathRequest, Datagram.Overlong]
  decide

end AceShell
