import AceShell.Client.Wire
import AceShell.Lib.Machine

/-!
# Many threads on one connection

After `broker_exchange_bytes`, `privop_exchange` and `broker_disconnect` in `broker_client.c`. All
threads of a process share one connection. An ordinary exchange holds `broker_lock` from its first
byte to its last; a privileged one does not take the lock, and does not read the payload of its
response. Bytes carry the number of the exchange that wrote them, so that it can be said whose
response an exchange returns.
-/

namespace AceShell.Client

open List

/-! ## Exchanges -/

/-- An exchange of `broker_exchange_bytes` with room for so many bytes of result, or one of
`privop_exchange`. -/
inductive Kind
  | ordinary (resultSize : ℕ)
  | privileged
  deriving DecidableEq

structure Call where
  kind : Kind
  request : Request
  deriving DecidableEq

/-- What an exchange returns: -1, as the connection failed or what came is no response; 1 with an
error, or as the result does not fit; or 0. -/
inductive Outcome
  | lost
  | garbled
  | refused (status : UInt32)
  | tooLong
  | done (payload : List UInt8) (descriptor : Bool)
  deriving DecidableEq

def Outcome.broken : Outcome → Bool
  | .lost => true
  | .garbled => true
  | _ => false

/-- How far an exchange is. -/
inductive Stage
  | sending (rest : List UInt8)
  | header (got : List Octet)
  | payload (h : ResponseHeader) (got : List UInt8)
  | returned (outcome : Outcome)
  deriving DecidableEq

def Stage.isOver : Stage → Bool
  | .returned _ => true
  | _ => false

structure Exchange where
  call : Call
  stage : Stage
  deriving DecidableEq

def finishOrdinary (resultSize : ℕ) (h : ResponseHeader) (payload : List UInt8) : Outcome :=
  if h.status ≠ 0 then .refused h.status
  else if resultSize = 0 then .done [] false
  else if resultSize ≤ payload.length then .tooLong
  else .done payload false

/-- What an exchange does with the header of the response, and the descriptors that came with
it. -/
def afterHeader (magic : UInt32) (kind : Kind) (h : ResponseHeader) (descriptors : ℕ) : Stage :=
  if h.magic ≠ magic then .returned .garbled
  else
    match kind with
    | .ordinary resultSize =>
      if maxPayload < h.payloadLength.toNat then .returned .garbled
      else if h.payloadLength = 0 then .returned (finishOrdinary resultSize h [])
      else .payload h []
    | .privileged =>
      if h.flags &&& 1 ≠ 0 ∧ descriptors ≠ 1 then .returned .garbled
      else if h.status ≠ 0 then .returned (.refused h.status)
      else .returned (.done [] (decide (h.flags &&& 1 ≠ 0)))

/-- One more byte of the response. -/
def Stage.receive (order : ByteOrder) (magic : UInt32) (kind : Kind) (octet : Octet) :
    Stage → Stage
  | .header got =>
    let got := got ++ [octet]
    if got.length < responseSize then .header got
    else
      afterHeader magic kind (ResponseHeader.decode order (got.map Prod.fst))
        ((got.map Prod.snd).getD 0 0)
  | .payload h got =>
    let got := got ++ [octet.1]
    if got.length < h.payloadLength.toNat then .payload h got
    else
      match kind with
      | .ordinary resultSize => .returned (finishOrdinary resultSize h got)
      | .privileged => .payload h got
  | stage => stage

/-! ## The connection -/

abbrev Tagged := List (ℕ × UInt8)

/-- The connection with its exchanges, and the broker, which has read `received` of a request.
`sent`, `written` and `produced` (requests with their replies) are history. -/
structure Link (σ : Type) where
  service : σ
  toBroker : Tagged := []
  received : Tagged := []
  toClient : List Octet := []
  brokerOpen : Bool := true
  clientOpen : Bool := true
  lock : Option ℕ := none
  calls : ℕ → Option Exchange := fun _ => none
  sent : Tagged := []
  written : List Octet := []
  produced : List (Tagged × Reply) := []

/-- An exchange gets further. One that is over gives back the lock, and if it failed the connection
is closed. -/
def Link.put {σ : Type} (link : Link σ) (i : ℕ) (call : Call) (stage : Stage) : Link σ :=
  { link with
    calls := fun j => if j = i then some ⟨call, stage⟩ else link.calls j
    lock := if stage.isOver && link.lock == some i then none else link.lock
    clientOpen := link.clientOpen && match stage with
      | .returned outcome => !outcome.broken
      | _ => true }

inductive LinkStep
  | start (i : ℕ) (call : Call)
  | send (i : ℕ)
  | receive (i : ℕ)
  | fail (i : ℕ)
  | broker
  deriving DecidableEq

section Steps

variable {σ : Type} (service : Service σ) (order : ByteOrder) (magic mode ownerUid : UInt32)

def Link.read (byte : ℕ × UInt8) (link : Link σ) : Link σ :=
  let received := link.received ++ [byte]
  match handleClient service magic mode ownerUid order link.service (received.map Prod.snd) with
  | none => { link with received }
  | some (s, reply, stays) =>
    { link with
      service := s
      received := []
      toClient := link.toClient ++ reply.octets order magic
      brokerOpen := stays
      written := link.written ++ reply.octets order magic
      produced := link.produced ++ [(received, reply)] }

/-- One step. -/
def Link.act : LinkStep → Link σ → Link σ
  | .start i call, link =>
    let link := link.put i call (.sending (call.request.frame order magic))
    match call.kind with
    | .ordinary _ => { link with lock := some i }
    | .privileged => link
  | .send i, link =>
    match link.calls i with
    | some ⟨call, .sending (byte :: rest)⟩ =>
      { link.put i call (if rest = [] then .header [] else .sending rest) with
        toBroker := link.toBroker ++ [(i, byte)]
        sent := link.sent ++ [(i, byte)] }
    | _ => link
  | .receive i, link =>
    match link.calls i, link.toClient with
    | some ⟨call, stage⟩, octet :: rest =>
      { link.put i call (stage.receive order magic call.kind octet) with toClient := rest }
    | _, _ => link
  | .fail i, link =>
    match link.calls i with
    | some ⟨call, _⟩ => link.put i call (.returned .lost)
    | none => link
  | .broker, link =>
    match link.toBroker with
    | byte :: rest => { link with toBroker := rest }.read service order magic mode ownerUid byte
    | [] => link

def channelOperations : List UInt32 := [23, 33]

def Call.WellFormed (call : Call) : Prop :=
  call.request.Fits ∧
    match call.kind with
    | .ordinary _ =>
      call.request.operation ≠ opPrivop ∧ call.request.operation ∉ channelOperations
    | .privileged => call.request.operation = opPrivop

/-- When a step can be taken. -/
def Link.Enabled : LinkStep → Link σ → Prop
  | .start i call, link => link.clientOpen = true ∧ link.calls i = none ∧ call.WellFormed ∧
      (call.kind ≠ .privileged → link.lock = none)
  | .send i, link => link.clientOpen = true ∧ link.brokerOpen = true ∧
      ∃ call byte rest, link.calls i = some ⟨call, .sending (byte :: rest)⟩
  | .receive i, link => link.clientOpen = true ∧ link.toClient ≠ [] ∧
      ∃ call, (∃ got, link.calls i = some ⟨call, .header got⟩) ∨
        ∃ h got, link.calls i = some ⟨call, .payload h got⟩
  | .fail i, link => ∃ e, link.calls i = some e ∧ e.stage.isOver = false
  | .broker, link => link.brokerOpen = true ∧ link.toBroker ≠ []

/-- No privileged exchange runs beside another exchange, and the broker has room for the session of
a privileged request. -/
def Link.Careful : LinkStep → Link σ → Prop
  | .start _ call, link => ∀ j e, link.calls j = some e →
      (call.kind = .privileged ∨ e.call.kind = .privileged) → e.stage.isOver = true
  | .broker, link => ∀ byte ∈ link.toBroker.head?,
      let received := (link.received ++ [byte]).map Prod.snd
      let h := RequestHeader.decode order received
      h.operation = opPrivop → rejection magic mode ownerUid h = none →
        service.getSession link.service (texts h (received.drop requestSize)).1 ≠ none
  | _, _ => True

/-- The threads and the broker. -/
def linkMachine (s : σ) : Machine (Link σ) LinkStep where
  init := { service := s }
  possible := Link.Enabled
  step := Link.act service order magic mode ownerUid

def carefulLink (s : σ) : Machine (Link σ) LinkStep where
  init := { service := s }
  possible := fun a link =>
    link.Enabled a ∧ link.Careful service order magic mode ownerUid a
  step := Link.act service order magic mode ownerUid

/-! ## What should hold -/

/-- The bytes of an exchange. -/
def tag (i : ℕ) (bytes : List UInt8) : Tagged := bytes.map (i, ·)

def Reply.outcome (kind : Kind) (reply : Reply) : Outcome :=
  if reply.status ≠ 0 then .refused reply.status
  else
    match kind with
    | .ordinary resultSize =>
      if resultSize = 0 then .done [] false
      else if resultSize ≤ reply.payload.length then .tooLong
      else .done reply.payload false
    | .privileged => .done [] (decide (reply.descriptors ≠ 0))

/-- The broker has read this request, all of it unless it rejected the header, from the bytes of the
exchange. -/
def RequestOf (i : ℕ) (call : Call) (read : Tagged) : Prop :=
  read <+: tag i (call.request.frame order magic) ∧
    (rejection magic mode ownerUid (call.request.header magic) = none →
      read = tag i (call.request.frame order magic))

def Link.Own (link : Link σ) (i : ℕ) (call : Call) (outcome : Outcome) : Prop :=
  ∃ entry ∈ link.produced, RequestOf order magic mode ownerUid i call entry.1 ∧
    outcome = entry.2.outcome call.kind

/-- What was sent are blocks, each with first bytes of the request of one exchange, and what was
written are the replies. -/
def Link.Contiguous (link : Link σ) : Prop :=
  (∃ blocks : List (ℕ × List UInt8), (blocks.map Prod.fst).Nodup ∧
    (∀ block ∈ blocks, ∃ e, link.calls block.1 = some e ∧
      block.2 <+: e.call.request.frame order magic) ∧
    link.sent = blocks.flatMap fun block => tag block.1 block.2) ∧
  link.written = link.produced.flatMap fun entry => entry.2.octets order magic

end Steps

/-! ## Replies -/

variable {reply : Reply} {got rest : List Octet} {octet : Octet}

section Replies

variable {σ : Type} {h : RequestHeader} {service : Service σ} {order : ByteOrder}
  {magic mode ownerUid : UInt32}

/-- What the broker can reply. -/
structure Reply.Sendable (reply : Reply) : Prop where
  payload : reply.payload.length < maxPayload
  descriptors : reply.descriptors ≤ 1

theorem rejection_sendable (hreject : rejection magic mode ownerUid h = some reply)
    : reply.Sendable := by
  have hhex (n : UInt32) : (hex8 n).length = 8 := by
    unfold hex8
    rw [length_map, length_range]
  unfold rejection at hreject
  split_ifs at hreject
  · rw [← Option.some.inj hreject]
    refine ⟨?_, Nat.zero_le 1⟩
    rw [length_append, length_append, length_append, hhex, hhex]
    decide
  · rw [← Option.some.inj hreject]
    exact ⟨by decide, Nat.zero_le 1⟩
  · rw [← Option.some.inj hreject]
    exact ⟨by decide, Nat.zero_le 1⟩

theorem answer_sendable (s : σ) (h : RequestHeader) (body : List UInt8) :
    (answer service s h body).2.Sendable := by
  have hnone : ([] : List UInt8).length < maxPayload := by decide
  have htext : (Text.ascii "too many sessions").length < maxPayload := by decide
  unfold answer
  split
  · exact ⟨htext, Nat.zero_le 1⟩
  dsimp only
  split_ifs
  · exact ⟨hnone, Nat.le_refl 1⟩
  · exact ⟨hnone, Nat.zero_le 1⟩
  · exact ⟨service.strerror_length _, Nat.zero_le 1⟩
  · exact ⟨service.result_length .., Nat.zero_le 1⟩
  · exact ⟨hnone, Nat.zero_le 1⟩

theorem answer_privileged {s : σ} {body : List UInt8} (hop : h.operation = opPrivop)
    (hsess : service.getSession s (texts h body).1 ≠ none) :
    (answer service s h body).2.payload = [] := by
  unfold answer
  split
  · rename_i hnone
    exact absurd hnone hsess
  · dsimp only
    rw [if_pos hop]

theorem Reply.octets_fst (reply : Reply) (order : ByteOrder) (magic : UInt32) :
    (reply.octets order magic).map Prod.fst =
      (reply.header magic).encode order ++ reply.payload := by
  unfold Reply.octets
  split
  · rename_i hnil
    rw [hnil]
    rfl
  · rename_i hcons
    rw [hcons, map_cons, map_map]
    exact congrArg _ (map_id _)

theorem Reply.length_octets (reply : Reply) (order : ByteOrder) (magic : UInt32) :
    (reply.octets order magic).length = responseSize + reply.payload.length := by
  rw [← length_map Prod.fst, reply.octets_fst, length_append, ResponseHeader.length_encode]

theorem Reply.octets_snd (reply : Reply) (order : ByteOrder) (magic : UInt32) :
    ((reply.octets order magic).map Prod.snd).getD 0 0 = reply.descriptors := by
  have hlength := reply.length_octets order magic
  unfold Reply.octets at hlength ⊢
  split
  · rename_i hnil
    rw [hnil] at hlength
    exact absurd hlength (by unfold responseSize; simp; omega)
  · rfl

theorem Reply.Sendable.payloadLength (h : reply.Sendable) :
    (reply.header magic).payloadLength.toNat = reply.payload.length := by
  have hlt : reply.payload.length < 2 ^ 32 := lt_trans h.payload (by decide)
  exact toNat_ofNat_of_lt hlt

theorem finishOrdinary_reply (resultSize : ℕ) (reply : Reply) :
    finishOrdinary resultSize (reply.header magic) reply.payload =
      reply.outcome (.ordinary resultSize) := rfl

theorem afterHeader_reply (h : reply.Sendable) (kind : Kind) :
    afterHeader magic kind (reply.header magic) reply.descriptors =
      if kind = .privileged ∨ reply.payload = [] then .returned (reply.outcome kind)
      else .payload (reply.header magic) [] := by
  have hmagic : ¬ (reply.header magic).magic ≠ magic := not_not.mpr rfl
  unfold afterHeader
  rw [if_neg hmagic]
  cases kind with
  | ordinary resultSize =>
    have hlen : (reply.header magic).payloadLength.toNat = _ := h.payloadLength
    have hzero : (reply.header magic).payloadLength = 0 ↔ reply.payload = [] := by
      rw [← UInt32.toNat_inj, hlen]
      exact length_eq_zero_iff
    dsimp only
    rw [hlen, if_neg (Nat.not_lt.mpr (le_of_lt h.payload))]
    by_cases hnil : reply.payload = []
    · rw [if_pos (hzero.mpr hnil), if_pos (.inr hnil), ← finishOrdinary_reply, hnil]
    have hneither : ¬ (Kind.ordinary resultSize = .privileged ∨ reply.payload = []) := by
      rintro (hno | hno)
      · exact nomatch hno
      · exact hnil hno
    rw [if_neg (fun hno => hnil (hzero.mp hno)), if_neg hneither]
  | privileged =>
  unfold Reply.outcome Reply.header
  rcases Nat.le_one_iff_eq_zero_or_eq_one.mp h.descriptors with hzero | hone
  · rw [hzero]
    by_cases hstat : reply.status ≠ 0 <;> simp [hstat]
  · rw [hone]
    by_cases hstat : reply.status ≠ 0 <;> simp [hstat]

theorem receive_header (h : reply.Sendable) (kind : Kind)
    (hgot : got ++ octet :: rest = reply.octets order magic) (hshort : got.length < responseSize) :
    (Stage.header got).receive order magic kind octet =
      if got.length + 1 < responseSize then .header (got ++ [octet])
      else if kind = .privileged ∨ reply.payload = [] then .returned (reply.outcome kind)
      else .payload (reply.header magic) [] := by
  have hlen : (got ++ [octet]).length = got.length + 1 := length_append
  unfold Stage.receive
  dsimp only
  rw [hlen]
  by_cases hmore : got.length + 1 < responseSize
  · rw [if_pos hmore, if_pos hmore]
  rw [if_neg hmore, if_neg hmore, ← afterHeader_reply h]
  have hwhole : (got ++ [octet]).length = responseSize := by omega
  have hsplit : (got ++ [octet]) ++ rest = reply.octets order magic := by
    rw [append_assoc]
    exact hgot
  have hbytes : (got ++ [octet]).map Prod.fst = (reply.header magic).encode order := by
    have hfst := congrArg (map Prod.fst) hsplit
    rw [map_append, reply.octets_fst] at hfst
    refine (append_inj hfst ?_).1
    rw [length_map, hwhole, ResponseHeader.length_encode]
  have hdescs : ((got ++ [octet]).map Prod.snd).getD 0 0 = reply.descriptors := by
    rw [← reply.octets_snd order magic, ← hsplit]
    cases got <;> rfl
  rw [hbytes, ResponseHeader.decode_encode, hdescs]

theorem receive_payload (h : reply.Sendable) (resultSize : ℕ) {got rest : List UInt8}
    (hgot : got ++ octet.1 :: rest = reply.payload) :
    (Stage.payload (reply.header magic) got).receive order magic (.ordinary resultSize) octet =
      if rest = [] then .returned (reply.outcome (.ordinary resultSize))
      else .payload (reply.header magic) (got ++ [octet.1]) := by
  have hsplit : got ++ [octet.1] ++ rest = reply.payload := by
    rw [append_assoc]
    exact hgot
  have hlength := congrArg length hsplit
  rw [length_append] at hlength
  unfold Stage.receive
  dsimp only
  rw [h.payloadLength]
  by_cases hrest : rest = []
  · rw [if_pos hrest]
    rw [hrest, append_nil] at hsplit
    rw [hsplit, if_neg (Nat.lt_irrefl _), finishOrdinary_reply]
  · have hpos := length_pos_iff.mpr hrest
    rw [if_neg hrest, if_pos (by omega)]

end Replies

/-! ## One exchange at a time -/

section Sound

variable {σ : Type} (order : ByteOrder) (magic mode ownerUid : UInt32)

/-- Nothing is on its way. -/
structure Link.Empty (link : Link σ) : Prop where
  toBroker : link.toBroker = []
  received : link.received = []
  toClient : link.toClient = []

/-- The broker has replied to the exchange. While the connection is open nothing is behind the
request, and a privileged one gets no payload. -/
structure Link.Answered (link : Link σ) (i : ℕ) (call : Call) (reply : Reply) : Prop where
  produced : ∃ read, (read, reply) ∈ link.produced ∧ RequestOf order magic mode ownerUid i call read
  sendable : reply.Sendable
  behind : link.brokerOpen = true →
    link.toBroker = [] ∧ link.received = [] ∧ (call.kind = .privileged → reply.payload = [])

def Link.Doing (link : Link σ) (i : ℕ) (call : Call) : Stage → Prop
  | .sending rest => rest ≠ [] ∧ ∃ before, call.request.frame order magic = before ++ rest ∧
      (link.brokerOpen = true → link.received ++ link.toBroker = tag i before ∧ link.toClient = [])
  | .header got =>
      (got = [] ∧ link.brokerOpen = true ∧ link.toClient = [] ∧
        link.received ++ link.toBroker = tag i (call.request.frame order magic)) ∨
      ∃ reply, link.Answered order magic mode ownerUid i call reply ∧
        got ++ link.toClient = reply.octets order magic ∧ got.length < responseSize
  | .payload h got => ∃ reply, link.Answered order magic mode ownerUid i call reply ∧
      h = reply.header magic ∧ call.kind ≠ .privileged ∧ link.toClient ≠ [] ∧
      got ++ link.toClient.map Prod.fst = reply.payload
  | .returned _ => False

structure Link.Sound (link : Link σ) : Prop where
  finished : ∀ i call outcome, link.calls i = some ⟨call, .returned outcome⟩ →
    outcome = .lost ∨ link.Own order magic mode ownerUid i call outcome
  doing : ∀ i call stage, link.calls i = some ⟨call, stage⟩ → stage.isOver = false →
    call.WellFormed ∧ link.Doing order magic mode ownerUid i call stage
  alone : ∀ i j e f, link.calls i = some e → link.calls j = some f →
    e.stage.isOver = false → f.stage.isOver = false → i = j
  idle : (∀ i e, link.calls i = some e → e.stage.isOver = true) → link.clientOpen = true →
    link.brokerOpen = true → link.Empty
  locked : ∀ i e, link.calls i = some e → e.stage.isOver = false → e.call.kind ≠ .privileged →
    link.lock = some i
  written : link.written = link.produced.flatMap fun entry => entry.2.octets order magic

/-- What was sent are blocks, and that of the exchange that is sending is the last. -/
def Link.Blocks (link : Link σ) (blocks : List (ℕ × List UInt8)) : Prop :=
  (blocks.map Prod.fst).Nodup ∧
  (∀ block ∈ blocks, ∃ e, link.calls block.1 = some e ∧
    block.2 <+: e.call.request.frame order magic) ∧
  link.sent = (blocks.flatMap fun block => tag block.1 block.2) ∧
  ∀ i call rest, link.calls i = some ⟨call, .sending rest⟩ →
    ∃ earlier before, blocks = earlier ++ [(i, before)] ∧
      call.request.frame order magic = before ++ rest

end Sound

variable {stage old : Stage} {byte : ℕ × UInt8} {a : LinkStep} {blocks : List (ℕ × List UInt8)}

section Steps

variable {σ : Type} {service : Service σ} {order : ByteOrder} {magic mode ownerUid : UInt32}
  {link link' : Link σ} {i : ℕ} {call : Call}

@[simp] theorem Link.put_calls (link : Link σ) (i : ℕ) (call : Call) (stage : Stage) (j : ℕ) :
    (link.put i call stage).calls j = if j = i then some ⟨call, stage⟩ else link.calls j := rfl

theorem Link.put_calls_self (link : Link σ) (i : ℕ) (call : Call) (stage : Stage) :
    (link.put i call stage).calls i = some ⟨call, stage⟩ := if_pos rfl

theorem Link.Own.mono {outcome : Outcome} (h : link.Own order magic mode ownerUid i call outcome)
    (hprod : link.produced ⊆ link'.produced) :
    link'.Own order magic mode ownerUid i call outcome := by
  obtain ⟨entry, hmem, hrest⟩ := h
  exact ⟨entry, hprod hmem, hrest⟩

theorem Link.Answered.own (h : link.Answered order magic mode ownerUid i call reply) :
    link.Own order magic mode ownerUid i call (reply.outcome call.kind) := by
  obtain ⟨read, hmem, hof⟩ := h.produced
  exact ⟨(read, reply), hmem, hof, rfl⟩

section Steps

variable (h : link.Sound order magic mode ownerUid)
include h

section Stages

variable (hcalls : link'.calls = (link.put i call stage).calls)
  (hprod : link'.produced = link.produced) (hwritten : link'.written = link.written)
  (hdoing : stage.isOver = false → link'.Doing order magic mode ownerUid i call stage)
  (hover : ∀ outcome, stage = .returned outcome →
    (outcome = .lost ∨ link.Own order magic mode ownerUid i call outcome) ∧
    (link'.clientOpen = true → link'.brokerOpen = true → link'.Empty))

include hcalls hprod hwritten hdoing hover

theorem Link.Sound.advance (hall : ∀ j e, j ≠ i → link.calls j = some e → e.stage.isOver = true)
    (hwell : call.WellFormed)
    (hlock : stage.isOver = false → call.kind ≠ .privileged → link'.lock = some i) :
    link'.Sound order magic mode ownerUid := by
  have hself : link'.calls i = some ⟨call, stage⟩ := by rw [hcalls, link.put_calls_self]
  have hother {j : ℕ} (hj : j ≠ i) : link'.calls j = link.calls j := by
    rw [hcalls, Link.put_calls, if_neg hj]
  have honly {j : ℕ} {e : Exchange} (he : link'.calls j = some e) (hnot : e.stage.isOver = false) :
      j = i := by
    by_contra hj
    rw [hother hj] at he
    exact Bool.false_ne_true (hnot.symm.trans (hall j e hj he))
  refine ⟨?_, ?_, ?_, ?_, ?_, ?_⟩
  · intro j call' outcome he
    by_cases hj : j = i
    · subst hj
      rw [hself] at he
      obtain ⟨rfl, hstage⟩ := Exchange.mk.inj (Option.some.inj he)
      exact (hover outcome hstage).1.imp_right fun hown =>
        hown.mono (by rw [hprod]; exact List.Subset.refl _)
    · rw [hother hj] at he
      exact (h.finished j call' outcome he).imp_right fun hown =>
        hown.mono (by rw [hprod]; exact List.Subset.refl _)
  · intro j call' stage' he hnot
    obtain rfl := honly he hnot
    rw [hself] at he
    obtain ⟨rfl, rfl⟩ := Exchange.mk.inj (Option.some.inj he)
    exact ⟨hwell, hdoing hnot⟩
  · intro j k e f he hf hje hkf
    rw [honly he hje, honly hf hkf]
  · intro hnone hopen hbroker
    have hstage : stage.isOver = true := hnone i _ hself
    cases stage with
    | returned outcome => exact (hover outcome rfl).2 hopen hbroker
    | _ => exact nomatch hstage
  · intro j e he hnot hkind
    obtain rfl := honly he hnot
    rw [hself] at he
    obtain rfl := Option.some.inj he
    exact hlock hnot hkind
  · rw [hwritten, hprod]
    exact h.written

/-- An exchange that is under way gets further. Every other one was over before. -/
theorem Link.Sound.goOn (hcall : link.calls i = some ⟨call, old⟩) (hunder : old.isOver = false)
    (hlock : link'.lock = (link.put i call stage).lock) :
    link'.Sound order magic mode ownerUid := by
  refine h.advance hcalls hprod hwritten hdoing hover ?_ (h.doing _ _ _ hcall hunder).1 ?_
  · intro j e hj he
    by_contra hnot
    exact hj (h.alone j i e ⟨call, old⟩ he hcall (Bool.eq_false_iff.mpr hnot) hunder)
  intro hnot hkind
  have hold : link.lock = some i := h.locked i _ hcall hunder hkind
  rw [hlock]
  unfold Link.put
  rw [hnot, Bool.false_and, if_neg Bool.false_ne_true, hold]

end Stages

theorem Link.Sound.idle_at_start (hen : link.Enabled (.start i call))
    (hcare : link.Careful service order magic mode ownerUid (.start i call)) :
    ∀ j e, link.calls j = some e → e.stage.isOver = true := by
  intro j e he
  by_cases hpriv : call.kind = .privileged ∨ e.call.kind = .privileged
  · exact hcare j e he hpriv
  rw [not_or] at hpriv
  by_contra hnot
  have hlock := h.locked j e he (Bool.eq_false_iff.mpr hnot) hpriv.2
  rw [hen.2.2.2 hpriv.1] at hlock
  exact nomatch hlock

omit h in
theorem Request.frame_ne_nil (r : Request) : r.frame order magic ≠ [] := by
  intro hnil
  have hlength := r.length_frame order magic
  rw [hnil] at hlength
  unfold requestSize at hlength
  simp only [length_nil] at hlength
  omega

omit h in
theorem Link.act_start (link : Link σ) (i : ℕ) (call : Call) :
    ∃ lock, (call.kind ≠ .privileged → lock = some i) ∧
      link.act service order magic mode ownerUid (.start i call) =
        { link.put i call (.sending (call.request.frame order magic)) with lock } := by
  unfold Link.act
  dsimp only
  cases hkind : call.kind with
  | ordinary n => exact ⟨some i, fun _ => rfl, rfl⟩
  | privileged => exact ⟨link.lock, fun hno => absurd rfl hno, rfl⟩

theorem Link.Sound.start (hen : link.Enabled (.start i call))
    (hcare : link.Careful service order magic mode ownerUid (.start i call)) :
    (link.act service order magic mode ownerUid (.start i call)).Sound order magic mode
      ownerUid := by
  have hall := h.idle_at_start hen hcare
  have hempty := h.idle hall hen.1
  have hwell := hen.2.2.1
  obtain ⟨lock, hlock, hact⟩ := link.act_start i call
  rw [hact]
  refine h.advance rfl rfl rfl ?_ nofun (fun j e _ => hall j e) hwell
    (fun _ => hlock)
  refine fun _ => ⟨Request.frame_ne_nil _, [], rfl, fun hbroker => ?_⟩
  obtain ⟨hto, hre, hcl⟩ := hempty hbroker
  change link.received ++ link.toBroker = _ ∧ _
  rw [hto, hre]
  exact ⟨rfl, hcl⟩

omit h in
theorem tag_append (i : ℕ) (xs ys : List UInt8) : tag i (xs ++ ys) = tag i xs ++ tag i ys :=
  map_append

omit h in
theorem Link.act_send {byte : UInt8} {rest : List UInt8}
    (hcall : link.calls i = some ⟨call, .sending (byte :: rest)⟩) :
    link.act service order magic mode ownerUid (.send i) =
      { link.put i call (if rest = [] then .header [] else .sending rest) with
        toBroker := link.toBroker ++ [(i, byte)]
        sent := link.sent ++ [(i, byte)] } := by
  unfold Link.act
  dsimp only
  rw [hcall]

theorem Link.Sound.send (hen : link.Enabled (.send i)) :
    (link.act service order magic mode ownerUid (.send i)).Sound order magic mode ownerUid := by
  obtain ⟨-, hopen, call, byte, rest, hcall⟩ := hen
  obtain ⟨-, -, before, hframe, htraffic⟩ := h.doing i call _ hcall rfl
  obtain ⟨hqueue, hclient⟩ := htraffic hopen
  have hqueue' : link.received ++ (link.toBroker ++ [(i, byte)]) = tag i (before ++ [byte]) := by
    rw [← append_assoc, hqueue, tag_append]
    rfl
  rw [Link.act_send hcall]
  refine h.goOn rfl rfl rfl ?_ ?_ hcall rfl rfl
  · intro _
    by_cases hrest : rest = []
    · rw [if_pos hrest]
      rw [hrest] at hframe
      rw [← hframe] at hqueue'
      exact .inl ⟨rfl, hopen, hclient, hqueue'⟩
    · rw [if_neg hrest]
      refine ⟨hrest, before ++ [byte], ?_, fun _ => ⟨hqueue', hclient⟩⟩
      rw [hframe, append_assoc]
      rfl
  · intro outcome hover
    split_ifs at hover

omit h in
theorem Link.act_receive (hcall : link.calls i = some ⟨call, stage⟩)
    (hqueue : link.toClient = octet :: rest) :
    link.act service order magic mode ownerUid (.receive i) =
      { link.put i call (stage.receive order magic call.kind octet) with toClient := rest } := by
  unfold Link.act
  dsimp only
  rw [hcall, hqueue]

omit h in
theorem Link.Answered.finish (h : link.Answered order magic mode ownerUid i call reply)
    (hclient : link'.toClient = rest) (hto : link'.toBroker = link.toBroker)
    (hrecv : link'.received = link.received) (hopen : link'.brokerOpen = link.brokerOpen)
    (hrest : link.brokerOpen = true → rest = []) :
    ∀ outcome, Stage.returned (reply.outcome call.kind) = .returned outcome →
      (outcome = .lost ∨ link.Own order magic mode ownerUid i call outcome) ∧
      (link'.clientOpen = true → link'.brokerOpen = true → link'.Empty) := by
  intro outcome hover
  obtain rfl := Stage.returned.inj hover
  refine ⟨.inr h.own, fun _ hbroker => ?_⟩
  rw [hopen] at hbroker
  obtain ⟨hbehind, hread, -⟩ := h.behind hbroker
  exact ⟨hto.trans hbehind, hrecv.trans hread, hclient.trans (hrest hbroker)⟩

theorem Link.Sound.receive_header
    (hcall : link.calls i = some ⟨call, .header got⟩) (hqueue : link.toClient = octet :: rest) :
    (link.act service order magic mode ownerUid (.receive i)).Sound order magic mode ownerUid := by
  rw [Link.act_receive hcall hqueue]
  obtain ⟨-, hdoing⟩ := h.doing i call _ hcall rfl
  rcases hdoing with ⟨-, -, hnone, -⟩ | ⟨reply, hanswered, hoctets, hshort⟩
  · exact absurd (hqueue.symm.trans hnone) (cons_ne_nil _ _)
  rw [hqueue] at hoctets
  have hlength := congrArg length hoctets
  rw [reply.length_octets, length_append, length_cons] at hlength
  have hsplit : got ++ [octet] ++ rest = reply.octets order magic := by
    rw [append_assoc]
    exact hoctets
  rw [Client.receive_header hanswered.sendable call.kind hoctets hshort]
  by_cases hmore : got.length + 1 < responseSize
  · rw [if_pos hmore]
    refine h.goOn rfl rfl rfl (fun _ => .inr ⟨reply, ?_, hsplit, ?_⟩) ?_ hcall rfl rfl
    · exact { hanswered with }
    · rw [length_append]
      exact hmore
    · exact nofun
  rw [if_neg hmore]
  by_cases hend : call.kind = .privileged ∨ reply.payload = []
  · rw [if_pos hend]
    refine h.goOn rfl rfl rfl nofun
      (hanswered.finish rfl rfl rfl rfl fun hbroker => ?_) hcall rfl rfl
    change rest = []
    have hpay : reply.payload = [] := hend.elim (hanswered.behind hbroker).2.2 id
    rw [hpay, length_nil] at hlength
    exact length_eq_zero_iff.mp (by omega)
  rw [if_neg hend]
  rw [not_or] at hend
  have hpos := length_pos_iff.mpr hend.2
  refine h.goOn rfl rfl rfl (fun _ => ⟨reply, { hanswered with }, rfl, hend.1, ?_, ?_⟩)
    nofun hcall rfl rfl
  · intro hnil
    change rest = [] at hnil
    rw [hnil, length_nil] at hlength
    omega
  have hfst := congrArg (map Prod.fst) hsplit
  rw [map_append, reply.octets_fst] at hfst
  refine (append_inj hfst ?_).2
  rw [length_map, length_append, ResponseHeader.length_encode, length_singleton]
  omega

theorem Link.Sound.receive_payload {header : ResponseHeader} {got : List UInt8}
    (hcall : link.calls i = some ⟨call, .payload header got⟩)
    (hqueue : link.toClient = octet :: rest) :
    (link.act service order magic mode ownerUid (.receive i)).Sound order magic mode ownerUid := by
  rw [Link.act_receive hcall hqueue]
  obtain ⟨-, reply, hanswered, rfl, hkind, -, hpay⟩ := h.doing i call _ hcall rfl
  rw [hqueue] at hpay
  obtain ⟨resultSize, hordinary⟩ : ∃ n, call.kind = .ordinary n := by
    cases hcase : call.kind with
    | ordinary n => exact ⟨n, rfl⟩
    | privileged => exact absurd hcase hkind
  rw [hordinary, Client.receive_payload hanswered.sendable resultSize hpay, ← hordinary]
  by_cases hrest : rest = []
  · rw [if_pos (by rw [hrest]; rfl)]
    exact h.goOn rfl rfl rfl nofun
      (hanswered.finish rfl rfl rfl rfl fun _ => hrest) hcall rfl rfl
  rw [if_neg (by rw [map_eq_nil_iff]; exact hrest)]
  refine h.goOn rfl rfl rfl (fun _ => ⟨reply, { hanswered with }, rfl, hkind, hrest, ?_⟩)
    nofun hcall rfl rfl
  rw [append_assoc]
  exact hpay

theorem Link.Sound.receive (hen : link.Enabled (.receive i)) :
    (link.act service order magic mode ownerUid (.receive i)).Sound order magic mode ownerUid := by
  obtain ⟨-, hsome, call, hstage⟩ := hen
  obtain ⟨octet, rest, hqueue⟩ := exists_cons_of_ne_nil hsome
  rcases hstage with ⟨got, hcall⟩ | ⟨header, got, hcall⟩
  · exact h.receive_header hcall hqueue
  · exact h.receive_payload hcall hqueue

omit h in
theorem Link.act_fail (hcall : link.calls i = some ⟨call, stage⟩) :
    link.act service order magic mode ownerUid (.fail i) = link.put i call (.returned .lost) := by
  unfold Link.act
  dsimp only
  rw [hcall]

theorem Link.Sound.fail (hen : link.Enabled (.fail i)) :
    (link.act service order magic mode ownerUid (.fail i)).Sound order magic mode ownerUid := by
  obtain ⟨⟨call, stage⟩, hcall, hunder⟩ := hen
  rw [Link.act_fail hcall]
  refine h.goOn rfl rfl rfl nofun ?_ hcall hunder rfl
  intro outcome hover
  refine ⟨.inl (Stage.returned.inj hover).symm, fun hopen => ?_⟩
  -- The connection is closed behind a failure.
  have hclosed : (link.put i call (.returned .lost)).clientOpen = false := Bool.and_false _
  exact nomatch (hclosed.symm.trans hopen)

omit h in
theorem tag_snd (i : ℕ) (bytes : List UInt8) : (tag i bytes).map Prod.snd = bytes := by
  unfold tag
  rw [map_map]
  exact map_id _

omit h in
theorem eq_tag_of_isPrefix {read : Tagged} {bytes : List UInt8} (h : read <+: tag i bytes) :
    read = tag i (read.map Prod.snd) ∧ read.map Prod.snd <+: bytes := by
  have hsnd : read.map Prod.snd <+: bytes := by
    rw [← tag_snd i bytes]
    exact h.map Prod.snd
  refine ⟨?_, hsnd⟩
  have htag : tag i (read.map Prod.snd) <+: tag i bytes := hsnd.map _
  refine (prefix_of_prefix_length_le h htag ?_).eq_of_length ?_
  · unfold tag
    rw [length_map, length_map]
  · unfold tag
    rw [length_map, length_map]

omit h in
/-- The broker reads a byte of a request: it waits for more, or it replies, and the connection stays
open only if this was the last byte. -/
theorem Link.read_spec (link : Link σ) (hfits : call.request.Fits)
    (hread : link.received ++ [byte] <+: tag i (call.request.frame order magic)) :
    link.read service order magic mode ownerUid byte =
        { link with received := link.received ++ [byte] } ∨
      ∃ s reply stays,
        link.read service order magic mode ownerUid byte =
          { link with
            service := s
            received := []
            toClient := link.toClient ++ reply.octets order magic
            brokerOpen := stays
            written := link.written ++ reply.octets order magic
            produced := link.produced ++ [(link.received ++ [byte], reply)] } ∧
        RequestOf order magic mode ownerUid i call (link.received ++ [byte]) ∧
        reply.Sendable ∧
        (stays = true → link.received ++ [byte] = tag i (call.request.frame order magic) ∧
          rejection magic mode ownerUid (call.request.header magic) = none ∧
          reply = (answer service link.service (call.request.header magic)
            (call.request.session ++ call.request.path ++ call.request.value)).2) := by
  obtain ⟨htag, hbytes⟩ := eq_tag_of_isPrefix hread
  have hspec : handleClient service magic mode ownerUid order link.service
      ((link.received ++ [byte]).map Prod.snd) = _ :=
    handleClient_isPrefix service hfits hbytes
  unfold Link.read
  dsimp only
  rw [hspec]
  by_cases hshort : ((link.received ++ [byte]).map Prod.snd).length < requestSize
  · rw [if_pos hshort]
    exact .inl rfl
  rw [if_neg hshort]
  cases hreject : rejection magic mode ownerUid (call.request.header magic) with
  | some reply =>
    refine .inr ⟨link.service, reply, false, rfl, ⟨hread, ?_⟩, rejection_sendable hreject, ?_⟩
    · intro hno
      exact nomatch hreject.symm.trans hno
    · exact nofun
  | none =>
  by_cases hwhole : (link.received ++ [byte]).map Prod.snd = call.request.frame order magic
  · rw [if_pos hwhole]
    rw [hwhole] at htag
    exact .inr ⟨_, _, true, rfl, ⟨hread, fun _ => htag⟩, answer_sendable .., fun _ =>
      ⟨htag, rfl, rfl⟩⟩
  · rw [if_neg hwhole]
    exact .inl rfl

omit h in
theorem Link.read_history (service : Service σ) (link : Link σ) (byte : ℕ × UInt8)
    (hwritten : link.written = link.produced.flatMap fun entry => entry.2.octets order magic) :
    let read := link.read service order magic mode ownerUid byte
    read.calls = link.calls ∧ read.lock = link.lock ∧ read.clientOpen = link.clientOpen ∧
      read.sent = link.sent ∧ link.produced ⊆ read.produced ∧
      read.written = read.produced.flatMap fun entry => entry.2.octets order magic := by
  unfold Link.read
  dsimp only
  split
  · exact ⟨rfl, rfl, rfl, rfl, List.Subset.refl _, hwritten⟩
  · refine ⟨rfl, rfl, rfl, rfl, subset_append_left _ _, ?_⟩
    rw [hwritten, flatMap_append, flatMap_singleton]

theorem Link.Sound.serve (hcalls : link'.calls = link.calls) (hlock : link'.lock = link.lock)
    (hclient : link'.clientOpen = link.clientOpen) (hopen : link.brokerOpen = true)
    (hbusy : link.toBroker ≠ []) (hprod : link.produced ⊆ link'.produced)
    (hwritten : link'.written = link'.produced.flatMap fun entry => entry.2.octets order magic)
    (hdoing : ∀ i call stage, link.calls i = some ⟨call, stage⟩ → stage.isOver = false →
      link'.Doing order magic mode ownerUid i call stage) :
    link'.Sound order magic mode ownerUid := by
  refine ⟨?_, ?_, ?_, ?_, ?_, hwritten⟩
  · intro j call' outcome he
    rw [hcalls] at he
    exact (h.finished j call' outcome he).imp_right fun hown => hown.mono hprod
  · intro j call' stage he hnot
    rw [hcalls] at he
    exact ⟨(h.doing j call' stage he hnot).1, hdoing j call' stage he hnot⟩
  · rw [hcalls]
    exact h.alone
  · rw [hcalls, hclient]
    intro hall hclientOpen _
    exact absurd (h.idle hall hclientOpen hopen).toBroker hbusy
  · rw [hcalls, hlock]
    exact h.locked

omit h in
/-- While bytes are on their way to the broker, an exchange that is under way is sending, or has
just sent its last byte. -/
theorem Link.Doing.unread (h : link.Doing order magic mode ownerUid i call stage)
    (hopen : link.brokerOpen = true) (hbusy : link.toBroker ≠ []) :
    ∃ before after, call.request.frame order magic = before ++ after ∧
      link.received ++ link.toBroker = tag i before ∧ link.toClient = [] ∧
      (after ≠ [] ∧ stage = .sending after ∨ after = [] ∧ stage = .header []) := by
  cases stage with
  | sending rest =>
    obtain ⟨hrest, before, hframe, htraffic⟩ := h
    obtain ⟨hqueue, hclient⟩ := htraffic hopen
    exact ⟨before, rest, hframe, hqueue, hclient, .inl ⟨hrest, rfl⟩⟩
  | header got =>
    rcases h with ⟨rfl, -, hclient, hqueue⟩ | ⟨reply, hanswered, -⟩
    · exact ⟨_, [], (append_nil _).symm, hqueue, hclient, .inr ⟨rfl, rfl⟩⟩
    · exact absurd (hanswered.behind hopen).1 hbusy
  | payload header got =>
    obtain ⟨reply, hanswered, -⟩ := h
    exact absurd (hanswered.behind hopen).1 hbusy
  | returned outcome => exact h.elim

omit h in
theorem Link.act_broker {rest : Tagged} (hqueue : link.toBroker = byte :: rest) :
    link.act service order magic mode ownerUid .broker =
      { link with toBroker := rest }.read service order magic mode ownerUid byte := by
  unfold Link.act
  dsimp only
  rw [hqueue]

omit h in
theorem Link.Careful.no_payload {rest : Tagged}
    (h : link.Careful service order magic mode ownerUid .broker)
    (hqueue : link.toBroker = byte :: rest) (hwell : call.WellFormed)
    (hread : link.received ++ [byte] = tag i (call.request.frame order magic))
    (haccept : rejection magic mode ownerUid (call.request.header magic) = none)
    (hkind : call.kind = .privileged) :
    (answer service link.service (call.request.header magic)
      (call.request.session ++ call.request.path ++ call.request.value)).2.payload = [] := by
  obtain ⟨-, hop⟩ := hwell
  rw [hkind] at hop
  have hbyte : byte ∈ link.toBroker.head? := by
    rw [hqueue]
    rfl
  have hsession := h byte hbyte
  have hbytes : (link.received ++ [byte]).map Prod.snd = call.request.frame order magic := by
    rw [hread, tag_snd]
  have hdec : RequestHeader.decode order (call.request.frame order magic) =
      call.request.header magic := RequestHeader.decode_encode ..
  have hbody : (call.request.frame order magic).drop requestSize =
      call.request.session ++ call.request.path ++ call.request.value :=
    drop_left' (RequestHeader.length_encode ..)
  dsimp only at hsession
  rw [hbytes, hdec, hbody] at hsession
  exact answer_privileged hop (hsession hop haccept)

theorem Link.Sound.broker (hen : link.Enabled .broker)
    (hcare : link.Careful service order magic mode ownerUid .broker) :
    (link.act service order magic mode ownerUid .broker).Sound order magic mode ownerUid := by
  obtain ⟨hopen, hbusy⟩ := hen
  obtain ⟨byte, rest, hqueue⟩ := exists_cons_of_ne_nil hbusy
  rw [Link.act_broker hqueue]
  obtain ⟨hcalls, hlock, hclient, -, hprod, hwritten⟩ :=
    Link.read_history service { link with toBroker := rest } byte h.written
  refine h.serve hcalls hlock hclient hopen hbusy hprod hwritten ?_
  intro i call stage hcall hunder
  obtain ⟨hwell, hdoing⟩ := h.doing i call stage hcall hunder
  obtain ⟨before, after, hframe, hsofar, hnone, hstage⟩ := hdoing.unread hopen hbusy
  rw [hqueue] at hsofar
  have hsplit : (link.received ++ [byte]) ++ rest = tag i before := by
    rw [append_assoc]
    exact hsofar
  have hread : link.received ++ [byte] <+: tag i (call.request.frame order magic) := by
    rw [hframe, tag_append, ← hsplit, append_assoc]
    exact prefix_append _ _
  rcases Link.read_spec { link with toBroker := rest } hwell.1 hread with
    hmore | ⟨s, reply, stays, hreply, hof, hsendable, hstays⟩
  · rw [hmore]
    rcases hstage with ⟨hafter, rfl⟩ | ⟨rfl, rfl⟩
    · exact ⟨hafter, before, hframe, fun _ => ⟨hsplit, hnone⟩⟩
    rw [append_nil] at hframe
    rw [← hframe] at hsplit
    exact .inl ⟨rfl, hopen, hnone, hsplit⟩
  -- If the connection stays open, the broker has read everything that is to be sent.
  have hend (hopen' : stays = true) : rest = [] ∧ after = [] := by
    have hwhole := (hstays hopen').1
    have hlength := congrArg length hsplit
    rw [hwhole, hframe] at hlength
    unfold tag at hlength
    simp only [length_append, length_map] at hlength
    exact ⟨length_eq_zero_iff.mp (by omega), length_eq_zero_iff.mp (by omega)⟩
  rw [hreply]
  rcases hstage with ⟨hafter, rfl⟩ | ⟨rfl, rfl⟩
  · refine ⟨hafter, before, hframe, fun hopen' => ?_⟩
    exact absurd (hend hopen').2 hafter
  refine .inr ⟨reply, ⟨⟨_, mem_append_right _ (mem_singleton_self _), hof⟩, hsendable,
    fun hopen' => ⟨(hend hopen').1, rfl, fun hkind => ?_⟩⟩, ?_, by decide⟩
  · obtain ⟨hwhole, haccept, rfl⟩ := hstays hopen'
    exact hcare.no_payload hqueue hwell hwhole haccept hkind
  · dsimp only
    rw [hnone]
    rfl

theorem Link.Sound.act (hen : link.Enabled a)
    (hcare : link.Careful service order magic mode ownerUid a) :
    (link.act service order magic mode ownerUid a).Sound order magic mode ownerUid := by
  cases a with
  | start i call => exact h.start hen hcare
  | send i => exact h.send hen
  | receive i => exact h.receive hen
  | fail i => exact h.fail hen
  | broker => exact h.broker hen hcare

end Steps

theorem Link.Sound.initial (s : σ) :
    Link.Sound order magic mode ownerUid ({ service := s } : Link σ) where
  finished := nofun
  doing := nofun
  alone := nofun
  idle := fun _ _ _ => ⟨rfl, rfl, rfl⟩
  locked := nofun
  written := rfl

/-! ## The blocks -/

theorem Link.Blocks.put (h : link.Blocks order magic blocks)
    (hcall : link.calls i = some ⟨call, old⟩) (hstage : ∀ rest, stage ≠ .sending rest)
    (hcalls : link'.calls = (link.put i call stage).calls) (hsent : link'.sent = link.sent) :
    link'.Blocks order magic blocks := by
  obtain ⟨hnodup, hblocks, hflat, hlast⟩ := h
  refine ⟨hnodup, ?_, hsent.trans hflat, ?_⟩
  · intro block hmem
    obtain ⟨e, he, hpre⟩ := hblocks block hmem
    by_cases hi : block.1 = i
    · rw [hi, hcall] at he
      obtain rfl := Option.some.inj he
      exact ⟨⟨call, stage⟩, by rw [hcalls, hi, link.put_calls_self], hpre⟩
    · exact ⟨e, by rw [hcalls, Link.put_calls, if_neg hi, he], hpre⟩
  · intro j call' rest he
    rw [hcalls, Link.put_calls] at he
    by_cases hj : j = i
    · rw [if_pos hj] at he
      exact absurd (Exchange.mk.inj (Option.some.inj he)).2 (hstage rest)
    · rw [if_neg hj] at he
      exact hlast j call' rest he

theorem Link.Blocks.start (h : link.Blocks order magic blocks)
    (hall : ∀ j e, link.calls j = some e → e.stage.isOver = true) (hnew : link.calls i = none) :
    (link.act service order magic mode ownerUid (.start i call)).Blocks order magic
      (blocks ++ [(i, [])]) := by
  obtain ⟨hnodup, hblocks, hflat, -⟩ := h
  obtain ⟨lock, -, hact⟩ := link.act_start i call
  rw [hact]
  have hfresh : ∀ block ∈ blocks, block.1 ≠ i := by
    intro block hmem hi
    obtain ⟨e, he, -⟩ := hblocks block hmem
    rw [hi, hnew] at he
    exact nomatch he
  refine ⟨?_, ?_, ?_, ?_⟩
  · rw [map_append, nodup_append]
    refine ⟨hnodup, pairwise_singleton _ _, ?_⟩
    intro j hj k hk
    obtain ⟨block, hmem, rfl⟩ := mem_map.mp hj
    rw [mem_singleton.mp hk]
    exact hfresh block hmem
  · intro block hmem
    rcases mem_append.mp hmem with hold | hlast
    · obtain ⟨e, he, hpre⟩ := hblocks block hold
      exact ⟨e, by rw [Link.put_calls, if_neg (hfresh block hold), he], hpre⟩
    · rw [mem_singleton.mp hlast]
      exact ⟨_, link.put_calls_self .., nil_prefix⟩
  · rw [flatMap_append, ← hflat]
    exact (append_nil _).symm
  intro j call' rest he
  rw [Link.put_calls] at he
  by_cases hj : j = i
  · rw [if_pos hj] at he
    obtain ⟨rfl, hrest⟩ := Exchange.mk.inj (Option.some.inj he)
    rw [hj, Stage.sending.inj hrest]
    exact ⟨blocks, [], rfl, rfl⟩
  · rw [if_neg hj] at he
    exact nomatch (hall j _ he)

theorem Link.Blocks.send (h : link.Blocks order magic blocks)
    (halone : ∀ j k e f, link.calls j = some e → link.calls k = some f →
      e.stage.isOver = false → f.stage.isOver = false → j = k) (hen : link.Enabled (.send i)) :
    ∃ blocks', (link.act service order magic mode ownerUid (.send i)).Blocks order magic
      blocks' := by
  obtain ⟨-, -, call, byte, rest, hcall⟩ := hen
  obtain ⟨hnodup, hblocks, hflat, hlast⟩ := h
  obtain ⟨earlier, before, rfl, hframe⟩ := hlast i call _ hcall
  rw [Link.act_send hcall]
  have hnext : call.request.frame order magic = before ++ [byte] ++ rest := by
    rw [hframe, append_assoc]
    rfl
  have hdist : ∀ block ∈ earlier, block.1 ≠ i := by
    rw [map_append, nodup_append] at hnodup
    intro block hmem
    exact hnodup.2.2 _ (mem_map_of_mem hmem) _ (mem_singleton_self i)
  refine ⟨earlier ++ [(i, before ++ [byte])], ?_, ?_, ?_, ?_⟩
  · rw [map_append] at hnodup ⊢
    exact hnodup
  · intro block hmem
    rcases mem_append.mp hmem with hold | hnew
    · obtain ⟨e, he, hpre⟩ := hblocks block (mem_append_left _ hold)
      refine ⟨e, ?_, hpre⟩
      rw [Link.put_calls, if_neg (hdist block hold), he]
    rw [mem_singleton.mp hnew]
    refine ⟨_, link.put_calls_self i call _, ?_⟩
    rw [hnext]
    exact prefix_append _ _
  · dsimp only
    rw [hflat, flatMap_append, flatMap_append, append_assoc]
    refine congrArg _ ?_
    rw [flatMap_singleton, flatMap_singleton, tag_append]
    rfl
  intro j call' rest' he
  rw [Link.put_calls] at he
  by_cases hj : j = i
  · rw [if_pos hj] at he
    obtain ⟨rfl, hstage⟩ := Exchange.mk.inj (Option.some.inj he)
    split_ifs at hstage
    rw [hj, ← Stage.sending.inj hstage]
    exact ⟨earlier, _, rfl, hnext⟩
  · rw [if_neg hj] at he
    exact absurd (halone j i _ _ he hcall rfl rfl) hj

theorem Stage.receive_ne_sending {kind : Kind} (hstage : ∀ rest, stage ≠ .sending rest)
    (rest : List UInt8) : stage.receive order magic kind octet ≠ .sending rest := by
  cases stage with
  | sending more => exact absurd rfl (hstage more)
  | header got =>
    unfold Stage.receive afterHeader
    dsimp only
    cases kind <;> split_ifs <;> exact Stage.noConfusion
  | payload header got =>
    unfold Stage.receive
    dsimp only
    cases kind <;> split_ifs <;> exact nofun
  | returned outcome => exact nofun

theorem Link.Blocks.act (h : link.Blocks order magic blocks)
    (hsound : link.Sound order magic mode ownerUid) (hen : link.Enabled a)
    (hcare : link.Careful service order magic mode ownerUid a) :
    ∃ blocks', (link.act service order magic mode ownerUid a).Blocks order magic blocks' := by
  cases a with
  | start i call =>
    exact ⟨_, h.start (hsound.idle_at_start hen hcare) hen.2.1⟩
  | send i => exact h.send hsound.alone hen
  | receive i =>
    obtain ⟨-, hsome, call, hreading⟩ := hen
    obtain ⟨octet, rest, hqueue⟩ := exists_cons_of_ne_nil hsome
    obtain ⟨stage, hcall, hstage⟩ :
        ∃ stage, link.calls i = some ⟨call, stage⟩ ∧ ∀ rest, stage ≠ .sending rest := by
      rcases hreading with ⟨got, hcall⟩ | ⟨header, got, hcall⟩
      · exact ⟨_, hcall, nofun⟩
      · exact ⟨_, hcall, nofun⟩
    rw [Link.act_receive hcall hqueue]
    exact ⟨blocks, h.put hcall (Stage.receive_ne_sending hstage) rfl rfl⟩
  | fail i =>
    obtain ⟨⟨call, stage⟩, hcall, -⟩ := hen
    have hover : ∀ rest, Stage.returned .lost ≠ .sending rest := nofun
    rw [Link.act_fail hcall]
    exact ⟨blocks, h.put hcall hover rfl rfl⟩
  | broker =>
  obtain ⟨byte, rest, hqueue⟩ := exists_cons_of_ne_nil hen.2
  rw [Link.act_broker hqueue]
  obtain ⟨hcalls, -, -, hsent, -⟩ :=
    Link.read_history service { link with toBroker := rest } byte hsound.written
  obtain ⟨hnodup, hblocks, hflat, hlast⟩ := h
  refine ⟨blocks, hnodup, ?_, hsent.trans hflat, ?_⟩
  · rw [hcalls]
    exact hblocks
  · rw [hcalls]
    exact hlast

end Steps

/-! ## Every run -/

section Runs

variable {σ : Type} {service : Service σ} {order : ByteOrder} {magic mode ownerUid : UInt32}

theorem carefulLink_sound {s : σ} {n : ℕ} {link : Link σ}
    (hrun : (carefulLink service order magic mode ownerUid s).Run n link) :
    link.Sound order magic mode ownerUid ∧ ∃ blocks, link.Blocks order magic blocks := by
  refine hrun.invariant
    (P := fun _ l => l.Sound order magic mode ownerUid ∧ ∃ blocks, l.Blocks order magic blocks)
    ?_ ?_ (Nat.lt_succ_self n)
  · refine ⟨Link.Sound.initial s, [], List.Pairwise.nil, ?_, rfl, ?_⟩
    · exact nofun
    · intro i call rest hno
      exact nomatch hno
  · rintro _ l a - - ⟨hen, hcare⟩ ⟨hsound, blocks, hblocks⟩
    exact ⟨hsound.act hen hcare, hblocks.act hsound hen hcare⟩

end Runs

def silentService : Service Unit where
  getSession := fun s _ => some s
  perform := fun s _ _ _ => (s, 0, [], false)
  strerror := fun _ => []
  result_length := fun _ _ _ _ => show 0 < maxPayload by decide
  strerror_length := fun _ => by decide

def bareCall (kind : Kind) (operation : UInt32) : Call where
  kind
  request := { operation, session := Text.ascii "1" }

theorem bareCall_wellFormed_ordinary : (bareCall (.ordinary 0) 2).WellFormed :=
  ⟨⟨by decide, by decide, by decide⟩, by decide, by decide⟩

theorem bareCall_wellFormed_privileged : (bareCall .privileged opPrivop).WellFormed :=
  ⟨⟨by decide, by decide, by decide⟩, rfl⟩

def answeringService : Service Unit :=
  { silentService with
    perform := fun s h _ _ =>
      (s, 0, if h.operation = opPrivop then [] else Text.ascii "SYS:", false)
    result_length := fun _ h _ _ => by dsimp only; split_ifs <;> decide }

def answeringLink : Machine (Link Unit) LinkStep :=
  carefulLink answeringService .little magicBase 0 0 ()

/-- An exchange is carried on, or the broker reads, and there is something to send or to read. -/
def Link.ready (link : Link Unit) : LinkStep → Bool
  | .send i => link.clientOpen && link.brokerOpen && match link.calls i with
    | some ⟨_, .sending (_ :: _)⟩ => true
    | _ => false
  | .receive i => link.clientOpen && link.toClient != [] && match link.calls i with
    | some ⟨_, .header _⟩ | some ⟨_, .payload _ _⟩ => true
    | _ => false
  | .broker => link.brokerOpen && link.toBroker != []
  | _ => false

def Link.readyAll : List LinkStep → Link Unit → Bool
  | [], _ => true
  | a :: actions, link => link.ready a && readyAll actions (answeringLink.step a link)

theorem possible_of_ready {link : Link Unit} {a : LinkStep} (h : link.ready a = true) :
    answeringLink.possible a link := by
  unfold Link.ready at h
  cases a with
  | start i call => cases h
  | fail i => cases h
  | broker =>
    rw [Bool.and_eq_true, bne_iff_ne] at h
    exact ⟨h, fun _ _ _ _ => Option.some_ne_none _⟩
  | send i =>
    simp only [Bool.and_eq_true] at h
    refine ⟨⟨h.1.1, h.1.2, ?_⟩, trivial⟩
    have hcall := h.2
    split at hcall
    next call byte rest heq => exact ⟨call, byte, rest, heq⟩
    next => cases hcall
  | receive i =>
    simp only [Bool.and_eq_true, bne_iff_ne] at h
    refine ⟨⟨h.1.1, h.1.2, ?_⟩, trivial⟩
    have hcall := h.2
    split at hcall
    next call got heq => exact ⟨call, .inl ⟨got, heq⟩⟩
    next call header got heq => exact ⟨call, .inr ⟨header, got, heq⟩⟩
    next => cases hcall

theorem canExec_of_ready {actions : List LinkStep} {link : Link Unit}
    (h : link.readyAll actions = true) : answeringLink.CanExec actions link := by
  induction actions generalizing link with
  | nil => trivial
  | cons a actions ih =>
    rw [Link.readyAll, Bool.and_eq_true] at h
    exact ⟨possible_of_ready h.1, ih h.2⟩

def LinkStep.exchange : LinkStep → Option ℕ
  | .start i _ | .send i | .receive i | .fail i => some i
  | .broker => none

theorem exec_calls {actions : List LinkStep} {j : ℕ} (h : ∀ a ∈ actions, a.exchange ≠ some j)
    (link : Link Unit) : (answeringLink.exec actions link).calls j = link.calls j := by
  induction actions generalizing link with
  | nil => rfl
  | cons a actions ih =>
    refine (ih (fun b hb => h b (mem_cons_of_mem _ hb)) _).trans ?_
    have hne := h a mem_cons_self
    change (link.act answeringService .little magicBase 0 0 a).calls j = _
    cases a <;> simp only [LinkStep.exchange, ne_eq, Option.some.injEq] at hne <;>
      simp only [Link.act, Link.read] <;> (repeat' split) <;> simp [Ne.symm hne]

/-- A whole exchange: the request is sent, the broker reads it, and the response is read. -/
def roundTrip (i : ℕ) (call : Call) (responseLength : ℕ) : List LinkStep :=
  let requestLength := (call.request.frame .little magicBase).length
  .start i call :: (replicate requestLength (.send i) ++ replicate requestLength .broker ++
    replicate responseLength (.receive i))

def ordinaryTrip : List LinkStep := roundTrip 0 (bareCall (.ordinary 8) 2) 20

def privilegedTrip : List LinkStep := roundTrip 1 (bareCall .privileged opPrivop) 16

def afterOrdinary : Link Unit := answeringLink.exec ordinaryTrip answeringLink.init

theorem ordinaryTrip_canExec : answeringLink.CanExec ordinaryTrip answeringLink.init := by
  refine ⟨⟨⟨rfl, rfl, ?_, fun _ => rfl⟩, nofun⟩, canExec_of_ready (by decide +kernel)⟩
  exact ⟨⟨by decide, by decide, by decide⟩, by decide, by decide⟩

theorem privilegedTrip_canExec : answeringLink.CanExec privilegedTrip afterOrdinary := by
  have hsteps : ∀ a ∈ ordinaryTrip, a.exchange = some 0 ∨ a.exchange = none := by decide +kernel
  have hother (j : ℕ) (hj : j ≠ 0) : afterOrdinary.calls j = none := by
    unfold afterOrdinary
    rw [exec_calls]
    · rfl
    intro a ha
    rcases hsteps a ha with h | h <;> simp [h, hj.symm]
  refine ⟨⟨⟨by decide +kernel, hother 1 one_ne_zero, bareCall_wellFormed_privileged,
    fun hno => absurd rfl hno⟩, ?_⟩, canExec_of_ready (by decide +kernel)⟩
  intro j e he _
  by_cases hj : j = 0
  · have hover : (afterOrdinary.calls 0).all (·.stage.isOver) = true := by decide +kernel
    rw [hj] at he
    simpa [he] using hover
  · exact nomatch (hother j hj).symm.trans he

theorem not_blocks_of_return {i j : ℕ} {a b c : UInt8} (hnodup : (blocks.map Prod.fst).Nodup)
    (hij : i ≠ j) :
    (blocks.flatMap fun block => tag block.1 block.2) ≠ [(i, a), (j, b), (i, c)] := by
  induction blocks with
  | nil => exact (cons_ne_nil _ _).symm
  | cons block blocks ih =>
  obtain ⟨k, bytes⟩ := block
  rw [map_cons, nodup_cons] at hnodup
  intro heq
  rcases bytes with - | ⟨x, - | ⟨y, rest⟩⟩
  · exact ih hnodup.2 heq
  · obtain ⟨hfst, hrest⟩ := cons.inj heq
    obtain ⟨rfl, -⟩ := Prod.mk.inj hfst
    have hmem : (k, c) ∈ blocks.flatMap fun block => tag block.1 block.2 := by
      change (blocks.flatMap fun block => tag block.1 block.2) = _ at hrest
      rw [hrest]
      exact mem_cons_of_mem _ (mem_singleton_self _)
    obtain ⟨block, hblock, htag⟩ := mem_flatMap.mp hmem
    obtain ⟨byte, -, hbyte⟩ := mem_map.mp htag
    exact hnodup.1 (mem_map.mpr ⟨block, hblock, (Prod.mk.inj hbyte).1⟩)
  · obtain ⟨hfst, hrest⟩ := cons.inj heq
    obtain ⟨hsnd, -⟩ := cons.inj hrest
    exact hij ((Prod.mk.inj hfst).1.symm.trans (Prod.mk.inj hsnd).1)

def crossingSteps : List LinkStep :=
  [.start 0 (bareCall (.ordinary 0) 2), .send 0, .start 1 (bareCall .privileged opPrivop), .send 1,
    .send 0]

end AceShell.Client
