import AceShell.Client.Exchange

/-!
# Two attempts

After `broker_connection`, `broker_request_bytes` and `native_broker_privop` in `broker_client.c`.
When an exchange breaks, the request is sent again on a new connection, however far the first
exchange came. What happens on the way, and in which state the broker is then, is an input.
-/

namespace AceShell.Client

open List

/-! ## One exchange -/

/-- How far an exchange comes: the bytes of the request that are written, those the broker, in this
state, reads, and those of its response that are read. -/
structure Passage (σ : Type) where
  service : σ
  sent : ℕ
  carried : ℕ
  returned : ℕ
  deriving DecidableEq

/-- What happens when a connection is opened, with the passage of the `ATTACH` on it. -/
structure Dial (σ : Type) where
  connects : Bool
  attach : Passage σ
  deriving DecidableEq

/-- One attempt: the connection is opened, and if that fails once more when the broker has been
started. -/
structure Attempt (σ : Type) where
  first : Dial σ
  ensured : Bool
  second : Dial σ
  passage : Passage σ
  deriving DecidableEq

section Model

variable {σ : Type} (service : Service σ) (order : ByteOrder) (magic mode ownerUid : UInt32)

def Passage.received (p : Passage σ) (request : Request) : List UInt8 :=
  ((request.frame order magic).take p.sent).take p.carried

def Stage.readAll (kind : Kind) (octets : List Octet) : Stage :=
  octets.foldl (fun stage octet => Stage.receive order magic kind octet stage) (.header [])

/-- `broker_exchange_bytes`, or `privop_exchange`. -/
def exchangeBytes (call : Call) (p : Passage σ) : Outcome :=
  if p.sent < (call.request.frame order magic).length then .lost
  else
    match handleClient service magic mode ownerUid order p.service
        (p.received order magic call.request) with
    | none => .lost
    | some (_, reply, _) =>
      match Stage.readAll order magic call.kind ((reply.octets order magic).take p.returned) with
      | .returned outcome => outcome
      | _ => .lost

/-- The broker comes to the operation: it has the whole request, accepts the header and has a
session. -/
def performs (s : σ) (received : List UInt8) : Bool :=
  let h := RequestHeader.decode order received
  let body := received.drop requestSize
  decide (requestSize ≤ received.length) && (rejection magic mode ownerUid h).isNone &&
    decide (h.sessionLength.toNat + h.pathLength.toNat + h.valueLength.toNat ≤ body.length) &&
    (service.getSession s (texts h body).1).isSome

/-! ## Attempts -/

def opAttach : UInt32 := 16

def attachCall (request : Request) : Call where
  kind := .ordinary 1
  request := { operation := opAttach, session := request.session, mode := request.mode,
               ownerUid := request.ownerUid }

variable (held attached : Bool)

def brokerConnection (request : Request) (dial : Dial σ) : Bool :=
  held || dial.connects && (!attached ||
    !(exchangeBytes service order magic mode ownerUid (attachCall request) dial.attach).broken)

def Attempt.reaches (request : Request) (a : Attempt σ) : Bool :=
  brokerConnection service order magic mode ownerUid held attached request a.first ||
    a.ensured && brokerConnection service order magic mode ownerUid false attached request a.second

/-- The attempts: what the call returns, and how often the broker has carried out the request. -/
def attempts (attached : Bool) (call : Call) : Bool → List (Attempt σ) → Outcome × ℕ
  | _, [] => (.lost, 0)
  | held, a :: rest =>
    if a.reaches service order magic mode ownerUid held attached call.request then
      let outcome := exchangeBytes service order magic mode ownerUid call a.passage
      let count := if performs service order magic mode ownerUid a.passage.service
        (a.passage.received order magic call.request) then 1 else 0
      if outcome.broken then
        let (result, more) := attempts attached call false rest
        (result, count + more)
      else (outcome, count)
    else (.lost, 0)

def brokerRequestBytes (resultSize : ℕ) (request : Request)
    (a b : Attempt σ) : Outcome × ℕ :=
  if 2 ^ 32 ≤ request.session.length ∨ 2 ^ 32 ≤ request.path.length ∨
      2 ^ 32 ≤ request.value.length then (.lost, 0)
  else
    attempts service order magic mode ownerUid attached ⟨.ordinary resultSize, request⟩ held [a, b]

/-- `native_broker_privop`. -/
def nativeBrokerPrivop (request : Request) (a b : Attempt σ) :
    Outcome × ℕ :=
  attempts service order magic mode ownerUid attached ⟨.privileged, request⟩ held [a, b]

def Call.issue (call : Call) (a b : Attempt σ) : Outcome × ℕ :=
  match call.kind with
  | .ordinary resultSize =>
    brokerRequestBytes service order magic mode ownerUid held attached resultSize call.request a b
  | .privileged =>
    nativeBrokerPrivop service order magic mode ownerUid held attached call.request a b

/-! ## What should not happen -/

def Attempt.Executes (call : Call) (a : Attempt σ) : Prop :=
  a.reaches service order magic mode ownerUid held attached call.request = true ∧
    performs service order magic mode ownerUid a.passage.service
      (a.passage.received order magic call.request) = true

/-- The bytes of the response that the exchange waits for: a privileged one only for the header. -/
def Passage.awaited (call : Call) (p : Passage σ) : ℕ :=
  match call.kind with
  | .ordinary _ =>
    let received := p.received order magic call.request
    responseSize + (answer service p.service (RequestHeader.decode order received)
      (received.drop requestSize)).2.payload.length
  | .privileged => responseSize

def Passage.Fails (call : Call) (p : Passage σ) : Prop :=
  p.sent < (call.request.frame order magic).length ∨ p.returned < p.awaited service order magic call

def Call.Checked (call : Call) : Prop :=
  call.kind ≠ .privileged → call.request.Fits

end Model

variable {reply : Reply} {call : Call}

section Proofs

variable {σ : Type} {service : Service σ} {order : ByteOrder} {magic mode ownerUid : UInt32}

/-! ## Reading a response -/

/-- How far an exchange is behind the first `n` bytes of a reply. -/
def stageAfter (order : ByteOrder) (magic : UInt32) (kind : Kind) (reply : Reply) (n : ℕ) : Stage :=
  if n < responseSize then .header ((reply.octets order magic).take n)
  else if kind = .privileged ∨ reply.payload = [] then .returned (reply.outcome kind)
  else if n < responseSize + reply.payload.length then
    .payload (reply.header magic) (reply.payload.take (n - responseSize))
  else .returned (reply.outcome kind)

theorem readAll_take (h : reply.Sendable) (kind : Kind) (n : ℕ)
    (hn : n ≤ (reply.octets order magic).length) :
    Stage.readAll order magic kind ((reply.octets order magic).take n) =
      stageAfter order magic kind reply n := by
  induction n with
  | zero => rfl
  | succ n ih =>
  have hsize := reply.length_octets order magic
  have hbytes := reply.octets_fst order magic
  set octets := reply.octets order magic
  have hlt : n < octets.length := hn
  have hstep : Stage.readAll order magic kind (octets.take (n + 1)) =
      (stageAfter order magic kind reply n).receive order magic kind octets[n] := by
    rw [← ih (Nat.le_of_lt hlt), take_succ_eq_append_getElem hlt]
    exact foldl_append
  rw [hstep]
  unfold stageAfter
  by_cases hhdr : n < responseSize
  · have hsplit : octets.take n ++ octets[n] :: octets.drop (n + 1) = octets := by
      rw [← drop_eq_getElem_cons hlt, take_append_drop]
    have hlen : (octets.take n).length = n := by
      rw [length_take]
      omega
    rw [if_pos hhdr, receive_header h kind hsplit (by rw [hlen]; exact hhdr), hlen,
      ← take_succ_eq_append_getElem hlt]
    by_cases hmore : n + 1 < responseSize
    · rw [if_pos hmore, if_pos hmore]
    rw [if_neg hmore, if_neg hmore]
    by_cases hend : kind = .privileged ∨ reply.payload = []
    · rw [if_pos hend, if_pos hend]
    have hpos := length_pos_iff.mpr (not_or.mp hend).2
    have hzero : n + 1 - responseSize = 0 := by omega
    rw [if_neg hend, if_neg hend, if_pos (by omega), hzero, take_zero]
  have hpast : ¬ n + 1 < responseSize := by omega
  rw [if_neg hhdr, if_neg hpast]
  by_cases hend : kind = .privileged ∨ reply.payload = []
  · rw [if_pos hend, if_pos hend]
    rfl
  have hwithin : n < responseSize + reply.payload.length := by omega
  rw [if_neg hend, if_neg hend, if_pos hwithin]
  obtain ⟨resultSize, rfl⟩ : ∃ size, kind = .ordinary size := by
    cases kind with
    | ordinary size => exact ⟨size, rfl⟩
    | privileged => exact absurd (.inl rfl) hend
  have hidx : n - responseSize < reply.payload.length := by omega
  have hbyte : (octets[n]).1 = reply.payload[n - responseSize] := by
    have hfst : (octets.map Prod.fst)[n]? = some (octets[n]).1 := by
      rw [getElem?_map, getElem?_eq_getElem hlt]
      rfl
    have hencode := (reply.header magic).length_encode order
    rw [hbytes, getElem?_append_right (by omega), hencode, getElem?_eq_getElem hidx] at hfst
    exact (Option.some.inj hfst).symm
  have hsplit : reply.payload.take (n - responseSize) ++
      (octets[n]).1 :: reply.payload.drop (n - responseSize + 1) = reply.payload := by
    rw [hbyte, ← drop_eq_getElem_cons hidx, take_append_drop]
  rw [receive_payload h resultSize hsplit]
  by_cases hlast : n + 1 < responseSize + reply.payload.length
  · have hnext : n + 1 - responseSize = n - responseSize + 1 := by omega
    rw [if_pos hlast, if_neg (by rw [drop_eq_nil_iff]; omega), hbyte, hnext,
      ← take_succ_eq_append_getElem hidx]
  · rw [if_neg hlast, if_pos (by rw [drop_eq_nil_iff]; omega)]

theorem exchangeBytes_reply {p : Passage σ} {s : σ} {stays : Bool}
    (hsent : ¬ p.sent < (call.request.frame order magic).length)
    (hreply : handleClient service magic mode ownerUid order p.service
      (p.received order magic call.request) = some (s, reply, stays)) (h : reply.Sendable) :
    exchangeBytes service order magic mode ownerUid call p =
      if p.returned < responseSize ∨
          call.kind ≠ .privileged ∧ p.returned < responseSize + reply.payload.length then .lost
      else reply.outcome call.kind := by
  have hsize := reply.length_octets order magic
  -- Bytes behind the end of the response do not come.
  have hread : Stage.readAll order magic call.kind ((reply.octets order magic).take p.returned) =
      stageAfter order magic call.kind reply
        (min p.returned (reply.octets order magic).length) := by
    rw [← readAll_take h call.kind _ (Nat.min_le_right ..), ← take_eq_take_min]
  unfold exchangeBytes
  rw [if_neg hsent, hreply]
  dsimp only
  rw [hread, hsize]
  unfold stageAfter
  by_cases hhdr : p.returned < responseSize
  · have hmin : min p.returned (responseSize + reply.payload.length) < responseSize := by omega
    rw [if_pos hmin, if_pos (.inl hhdr)]
  have hmin : ¬ min p.returned (responseSize + reply.payload.length) < responseSize := by omega
  rw [if_neg hmin]
  by_cases hend : call.kind = .privileged ∨ reply.payload = []
  · have hwhole : ¬ (p.returned < responseSize ∨ call.kind ≠ .privileged ∧
        p.returned < responseSize + reply.payload.length) := by
      rintro (hno | ⟨hkind, hno⟩)
      · exact hhdr hno
      · rw [hend.resolve_left hkind] at hno
        exact hhdr hno
    rw [if_pos hend, if_neg hwhole]
  rw [if_neg hend]
  by_cases hshort : p.returned < responseSize + reply.payload.length
  · have hmore : min p.returned (responseSize + reply.payload.length) <
        responseSize + reply.payload.length := by omega
    rw [if_pos hmore, if_pos (.inr ⟨(not_or.mp hend).1, hshort⟩)]
  · have hall : ¬ min p.returned (responseSize + reply.payload.length) <
        responseSize + reply.payload.length := by omega
    rw [if_neg hall, if_neg (by omega)]

/-! ## The broker's part -/

theorem handleClient_of_performs {s : σ} {received : List UInt8}
    (h : performs service order magic mode ownerUid s received = true) :
    handleClient service magic mode ownerUid order s received =
      some ((answer service s (RequestHeader.decode order received) (received.drop requestSize)).1,
        (answer service s (RequestHeader.decode order received) (received.drop requestSize)).2,
        true) := by
  unfold performs at h
  simp only [Bool.and_eq_true, decide_eq_true_eq, Option.isNone_iff_eq_none] at h
  obtain ⟨⟨⟨hlen, haccept⟩, hbody⟩, -⟩ := h
  unfold handleClient
  rw [if_neg (Nat.not_lt.mpr hlen)]
  dsimp only
  rw [haccept]
  rw [if_neg (Nat.not_lt.mpr hbody)]

theorem Reply.outcome_not_broken (kind : Kind) (reply : Reply) :
    (reply.outcome kind).broken = false := by
  unfold Reply.outcome
  by_cases hstat : reply.status ≠ 0
  · rw [if_pos hstat]
    rfl
  rw [if_neg hstat]
  cases kind with
  | ordinary resultSize =>
    dsimp only
    split_ifs <;> rfl
  | privileged => rfl

theorem broken_iff_fails {p : Passage σ} (h : performs service order magic mode ownerUid p.service
      (p.received order magic call.request) = true) :
    (exchangeBytes service order magic mode ownerUid call p).broken = true ↔
      p.Fails service order magic call := by
  by_cases hsent : p.sent < (call.request.frame order magic).length
  · have hlost : exchangeBytes service order magic mode ownerUid call p = .lost := by
      unfold exchangeBytes
      rw [if_pos hsent]
    rw [hlost]
    exact iff_of_true rfl (.inl hsent)
  rw [exchangeBytes_reply hsent (handleClient_of_performs h) (answer_sendable ..)]
  have hawaited : p.returned < p.awaited service order magic call ↔
      p.returned < responseSize ∨ call.kind ≠ .privileged ∧
        p.returned < responseSize + (answer service p.service
          (RequestHeader.decode order (p.received order magic call.request))
          ((p.received order magic call.request).drop requestSize)).2.payload.length := by
    unfold Passage.awaited
    cases call.kind with
    | ordinary resultSize =>
      dsimp only
      have hkind : Kind.ordinary resultSize ≠ .privileged := nofun
      constructor
      · exact fun hlt => .inr ⟨hkind, hlt⟩
      · rintro (hlt | ⟨-, hlt⟩) <;> omega
    | privileged =>
    refine ⟨.inl, ?_⟩
    rintro (hlt | ⟨hno, -⟩)
    · exact hlt
    · exact absurd rfl hno
  by_cases hshort : p.returned < p.awaited service order magic call
  · rw [if_pos (hawaited.mp hshort)]
    exact iff_of_true rfl (.inr hshort)
  rw [if_neg (mt hawaited.mpr hshort), Reply.outcome_not_broken]
  refine iff_of_false Bool.false_ne_true ?_
  rintro (hno | hno)
  · exact hsent hno
  · exact hshort hno

/-! ## The attempts -/

theorem attempts_last (attached : Bool) (call : Call) (held : Bool) (a : Attempt σ) :
    (attempts service order magic mode ownerUid attached call held [a]).2 ≤ 1 ∧
      ((attempts service order magic mode ownerUid attached call held [a]).2 = 1 ↔
        a.Executes service order magic mode ownerUid held attached call) := by
  unfold attempts Attempt.Executes
  by_cases hreach : a.reaches service order magic mode ownerUid held attached call.request = true
  · dsimp only [attempts]
    split_ifs <;> simp_all
  · rw [if_neg hreach]
    exact ⟨Nat.zero_le 1, iff_of_false Nat.zero_ne_one fun hno => hreach hno.1⟩

theorem attempts_once_iff (held attached : Bool) (call : Call) (a b : Attempt σ) :
    (attempts service order magic mode ownerUid attached call held [a, b]).2 ≤ 1 ↔
      ¬ (a.Executes service order magic mode ownerUid held attached call ∧
        a.passage.Fails service order magic call ∧
        b.Executes service order magic mode ownerUid false attached call) := by
  obtain ⟨hle, hone⟩ :
      (attempts service order magic mode ownerUid attached call false [b]).2 ≤ 1 ∧ _ :=
    attempts_last attached call false b
  rw [← hone]
  generalize hmore : attempts service order magic mode ownerUid attached call false [b] = more at *
  unfold attempts
  rw [hmore]
  by_cases hreach : a.reaches service order magic mode ownerUid held attached call.request = true
  · rw [if_pos hreach]
    dsimp only
    by_cases hperf : performs service order magic mode ownerUid a.passage.service
        (a.passage.received order magic call.request) = true
    · have hexec : a.Executes service order magic mode ownerUid held attached call :=
        ⟨hreach, hperf⟩
      have hbroken := broken_iff_fails hperf
      rw [if_pos hperf]
      by_cases hfails : a.passage.Fails service order magic call
      · rw [if_pos (hbroken.mpr hfails)]
        constructor
        · rintro hcnt ⟨-, -, hsnd⟩
          omega
        · intro hnot
          have hsnd : more.2 ≠ 1 := fun hno => hnot ⟨hexec, hfails, hno⟩
          omega
      · rw [if_neg (mt hbroken.mp hfails)]
        exact iff_of_true (Nat.le_refl 1) fun hno => hfails hno.2.1
    · have hnever : ¬ a.Executes service order magic mode ownerUid held attached call :=
        fun hno => hperf hno.2
      refine iff_of_true ?_ fun hno => hnever hno.1
      split_ifs
      · exact (Nat.zero_add more.2).trans_le hle
      · exact Nat.zero_le 1
  · rw [if_neg hreach]
    exact iff_of_true (Nat.zero_le 1) fun hno => hreach hno.1.1

/-- **A request is carried out twice just when its answer is lost.** For every request, every state
of the connection and everything that can happen to the two attempts: the broker carries out the
request at most once unless the first exchange comes to the operation and then fails before the
answer is read, and the second one comes to the operation too. -/
theorem carried_out_once_iff (held attached : Bool) (call : Call) (a b : Attempt σ) :
    (call.issue service order magic mode ownerUid held attached a b).2 ≤ 1 ↔
      ¬ (call.Checked ∧ a.Executes service order magic mode ownerUid held attached call ∧
        a.passage.Fails service order magic call ∧
        b.Executes service order magic mode ownerUid false attached call) := by
  obtain ⟨kind, request⟩ := call
  unfold Call.issue Call.Checked
  cases kind with
  | ordinary resultSize =>
    dsimp only
    have hordinary : Kind.ordinary resultSize ≠ .privileged := nofun
    unfold brokerRequestBytes
    by_cases hlong : 2 ^ 32 ≤ request.session.length ∨ 2 ^ 32 ≤ request.path.length ∨
        2 ^ 32 ≤ request.value.length
    · rw [if_pos hlong]
      refine iff_of_true (Nat.zero_le 1) ?_
      rintro ⟨hchecked, -⟩
      obtain ⟨hsession, hpath, hvalue⟩ := hchecked hordinary
      omega
    · have hfits : request.Fits := ⟨by omega, by omega, by omega⟩
      rw [if_neg hlong, attempts_once_iff]
      exact not_congr ⟨fun h => ⟨fun _ => hfits, h⟩, fun h => h.2⟩
  | privileged =>
    unfold nativeBrokerPrivop
    rw [attempts_once_iff]
    exact not_congr ⟨fun h => ⟨fun hno => absurd rfl hno, h⟩, fun h => h.2⟩

end Proofs

/-! ## A file is removed twice -/

/-- A broker with one file, which a request removes; a second one finds none. -/
def removalService : Service Bool where
  getSession := fun s _ => some s
  perform := fun s _ _ _ => (false, if s then 0 else 2, [], false)
  strerror := fun _ => []
  result_length := fun _ _ _ _ => show 0 < maxPayload by decide
  strerror_length := silentService.strerror_length

/-- The first answer is lost with the connection; the second is that of the broker as the first
request has left it. -/
def lostAnswer (s : Bool) (returned : ℕ) : Attempt Bool where
  first := ⟨true, ⟨s, 0, 0, 0⟩⟩
  ensured := true
  second := ⟨true, ⟨s, 0, 0, 0⟩⟩
  passage := ⟨s, 64, 64, returned⟩

/-- The file was there and was removed, the request is carried out twice, and the caller is told
that there is no such file. -/
theorem removed_twice :
    (bareCall .privileged opPrivop).issue removalService .little magicBase 0 0 true false
      (lostAnswer true 0) (lostAnswer false 16) = (.refused 2, 2) := by
  decide +kernel

end AceShell.Client
