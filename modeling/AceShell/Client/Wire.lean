import AceShell.Lib.ByteOrder
import AceShell.Lib.Text

/-!
# Requests and responses on a connection to the broker

The records of `broker_protocol.h`, and the way `handle_client` in `broker.c` takes a request from
the connection and answers it. Nothing on the connection says which response belongs to which
request. What the broker does for a request is a parameter, `Service`. Client and broker are of one
build, so that both use one magic number.
-/

namespace AceShell.Client

open Text List

/-- `AMIGA_BROKER_PRIVOP` -/
def opPrivop : UInt32 := 39

/-- `AMIGA_BROKER_MAX_PAYLOAD` -/
def maxPayload : ℕ := 16384

/-! ## Records -/

/-- `struct amiga_broker_request` -/
structure RequestHeader where
  magic : UInt32
  operation : UInt32
  sessionLength : UInt32
  pathLength : UInt32
  valueLength : UInt32
  flags : UInt32
  mode : UInt32
  ownerUid : UInt32
  privop : UInt32
  privopMode : UInt32
  privopTime : UInt64
  deriving DecidableEq

/-- The words of a request. -/
def RequestHeader.words (h : RequestHeader) : List ℕ :=
  [h.magic.toNat, h.operation.toNat, h.sessionLength.toNat, h.pathLength.toNat,
    h.valueLength.toNat, h.flags.toNat, h.mode.toNat, h.ownerUid.toNat, h.privop.toNat,
    h.privopMode.toNat]

def requestSize : ℕ := 48

def RequestHeader.encode (order : ByteOrder) (h : RequestHeader) : List UInt8 :=
  order.encodeWords 4 h.words ++ order.encode 8 h.privopTime.toNat

def RequestHeader.decode (order : ByteOrder) (bytes : List UInt8) : RequestHeader :=
  let word := fun k => UInt32.ofNat ((order.decodeWords 4 10 bytes).getD k 0)
  { magic := word 0, operation := word 1, sessionLength := word 2, pathLength := word 3
    valueLength := word 4, flags := word 5, mode := word 6, ownerUid := word 7, privop := word 8
    privopMode := word 9
    privopTime := UInt64.ofNat (order.decode ((bytes.drop 40).take 8)) }

/-- `struct amiga_broker_response`; the status is given by its bits. -/
structure ResponseHeader where
  magic : UInt32
  status : UInt32
  payloadLength : UInt32
  flags : UInt32
  deriving DecidableEq

def responseSize : ℕ := 16

def ResponseHeader.words (h : ResponseHeader) : List ℕ :=
  [h.magic.toNat, h.status.toNat, h.payloadLength.toNat, h.flags.toNat]

def ResponseHeader.encode (order : ByteOrder) (h : ResponseHeader) : List UInt8 :=
  order.encodeWords 4 h.words

def ResponseHeader.decode (order : ByteOrder) (bytes : List UInt8) : ResponseHeader :=
  let word := fun k => UInt32.ofNat ((order.decodeWords 4 4 bytes).getD k 0)
  { magic := word 0, status := word 1, payloadLength := word 2, flags := word 3 }

/-- What a client asks for. -/
structure Request where
  operation : UInt32
  session : List UInt8
  path : List UInt8 := []
  value : List UInt8 := []
  flags : UInt32 := 0
  mode : UInt32 := 0
  ownerUid : UInt32 := 0
  privop : UInt32 := 0
  privopMode : UInt32 := 0
  privopTime : UInt64 := 0
  deriving DecidableEq

structure Request.Fits (r : Request) : Prop where
  session : r.session.length < 2 ^ 32
  path : r.path.length < 2 ^ 32
  value : r.value.length < 2 ^ 32

structure Reply where
  status : UInt32
  payload : List UInt8 := []
  descriptors : ℕ := 0
  deriving DecidableEq

/-- A byte on the way to the client, with the descriptors that ride with it. -/
abbrev Octet := UInt8 × ℕ

section Wire

variable (order : ByteOrder) (magic : UInt32)

def Request.header (r : Request) : RequestHeader where
  magic := magic
  operation := r.operation
  sessionLength := UInt32.ofNat r.session.length
  pathLength := UInt32.ofNat r.path.length
  valueLength := UInt32.ofNat r.value.length
  flags := r.flags
  mode := r.mode
  ownerUid := r.ownerUid
  privop := r.privop
  privopMode := r.privopMode
  privopTime := r.privopTime

/-- The bytes of a request. -/
def Request.frame (r : Request) : List UInt8 :=
  (r.header magic).encode order ++ (r.session ++ r.path ++ r.value)

def Reply.header (r : Reply) : ResponseHeader where
  magic := magic
  status := r.status
  payloadLength := UInt32.ofNat r.payload.length
  flags := if r.descriptors = 0 then 0 else 1

def Reply.octets (r : Reply) : List Octet :=
  match (r.header magic).encode order ++ r.payload with
  | [] => []
  | byte :: bytes => (byte, r.descriptors) :: bytes.map (·, 0)

end Wire

/-! ## The broker's side -/

def hexDigit (n : ℕ) : UInt8 := UInt8.ofNat (if n < 10 then 48 + n else 87 + n)

def hex8 (n : UInt32) : List UInt8 :=
  (range 8).map fun k => hexDigit (n.toNat / 16 ^ (7 - k) % 16)

/-- `AMIGA_BROKER_MAGIC_BASE` -/
def magicBase : UInt32 := 0x414D4742

/-- Errors of the broker's own: `EPROTO`, `EXDEV`, `ENOSPC`. -/
def eproto : UInt32 := 71

def exdev : UInt32 := 18

def enospc : UInt32 := 28

/-- What the broker does with a request: `getSession` finds or makes the session, `perform` gives a
status, the text in `result`, and a descriptor. -/
structure Service (σ : Type) where
  getSession : σ → List UInt8 → Option σ
  perform : σ → RequestHeader → List UInt8 → List UInt8 → σ × UInt32 × List UInt8 × Bool
  strerror : UInt32 → List UInt8
  /-- `result` is an array of `AMIGA_BROKER_MAX_PAYLOAD` bytes with a NUL in it. -/
  result_length : ∀ s h path value, (perform s h path value).2.2.1.length < maxPayload
  strerror_length : ∀ status, (strerror status).length < maxPayload

def carriesResult : List UInt32 :=
  [1, 19, 17, 2, 5, 10, 11, 8, 40, 15, 18, 21, 23, 24, 30, 32, 33, 34, 37, 28, 38, 29, 42]

section Broker

variable {σ : Type} (service : Service σ) (magic mode ownerUid : UInt32)

def valueLimit (operation : UInt32) : ℕ :=
  if operation = 34 ∨ operation = 35 ∨ operation = 37 then maxPayload else 4096

/-- The answer to a header that is not even looked at: the connection is closed behind it. -/
def rejection (h : RequestHeader) : Option Reply :=
  if h.magic ≠ magic then
    some ⟨eproto, ascii "broker protocol 0x" ++ hex8 (magic ^^^ magicBase) ++
      ascii ", client sent 0x" ++ hex8 (h.magic ^^^ magicBase), 0⟩
  else if h.mode ≠ mode ∨ h.ownerUid ≠ ownerUid then
    some ⟨exdev, ascii "broker mode mismatch", 0⟩
  else if 4096 < h.sessionLength.toNat ∨ 4096 < h.pathLength.toNat ∨
      valueLimit h.operation < h.valueLength.toNat then
    some ⟨eproto, ascii "invalid request", 0⟩
  else none

/-- The texts behind a header. -/
def texts (h : RequestHeader) (bytes : List UInt8) : List UInt8 × List UInt8 × List UInt8 :=
  (bytes.take h.sessionLength.toNat,
    (bytes.drop h.sessionLength.toNat).take h.pathLength.toNat,
    (bytes.drop (h.sessionLength.toNat + h.pathLength.toNat)).take h.valueLength.toNat)

/-- The answer to a whole request. -/
def answer (s : σ) (h : RequestHeader) (body : List UInt8) : σ × Reply :=
  match service.getSession s (texts h body).1 with
  | none => (s, ⟨enospc, ascii "too many sessions", 0⟩)
  | some s =>
    let (s, status, result, descriptor) := service.perform s h (texts h body).2.1 (texts h body).2.2
    if h.operation = opPrivop then (s, ⟨status, [], if descriptor then 1 else 0⟩)
    else if status ≠ 0 then (s, ⟨status, service.strerror status, 0⟩)
    else if h.operation ∈ carriesResult then (s, ⟨0, result, 0⟩)
    else (s, ⟨0, [], 0⟩)

/-- What `handle_client` makes of the bytes read so far: nothing yet, or an answer, and whether the
connection stays open. -/
def handleClient (order : ByteOrder) (s : σ) (received : List UInt8) : Option (σ × Reply × Bool) :=
  if received.length < requestSize then none
  else
    let h := RequestHeader.decode order received
    match rejection magic mode ownerUid h with
    | some reply => some (s, reply, false)
    | none =>
      let body := received.drop requestSize
      if body.length < h.sessionLength.toNat + h.pathLength.toNat + h.valueLength.toNat then none
      else
        let (s, reply) := answer service s h body
        some (s, reply, true)

end Broker

/-! ## What is read back -/

theorem RequestHeader.length_encode (order : ByteOrder) (h : RequestHeader) :
    (h.encode order).length = requestSize := by
  unfold RequestHeader.encode
  rw [length_append, ByteOrder.length_encodeWords, ByteOrder.length_encode]
  rfl

theorem RequestHeader.words_lt (h : RequestHeader) : ∀ word ∈ h.words, word < 256 ^ 4 := by
  intro word hword
  have hlt (n : UInt32) : n.toNat < 256 ^ 4 := n.toNat_lt
  unfold RequestHeader.words at hword
  simp only [mem_cons, not_mem_nil, or_false] at hword
  rcases hword with rfl | rfl | rfl | rfl | rfl | rfl | rfl | rfl | rfl | rfl <;> exact hlt _

theorem RequestHeader.decode_encode (order : ByteOrder) (h : RequestHeader) (rest : List UInt8) :
    RequestHeader.decode order (h.encode order ++ rest) = h := by
  have hwords : order.decodeWords 4 10 (h.encode order ++ rest) = h.words := by
    unfold RequestHeader.encode
    rw [append_assoc]
    exact order.decodeWords_encodeWords h.words_lt _
  have htime : ((h.encode order ++ rest).drop 40).take 8 = order.encode 8 h.privopTime.toNat := by
    unfold RequestHeader.encode
    rw [append_assoc, drop_left' (by rw [ByteOrder.length_encodeWords]; rfl),
      take_left' (ByteOrder.length_encode ..)]
  have hdec : order.decode (order.encode 8 h.privopTime.toNat) = h.privopTime.toNat :=
    order.decode_encode h.privopTime.toNat_lt
  unfold RequestHeader.decode
  rw [hwords, htime, hdec]
  simp only [RequestHeader.words, getD_cons_zero, getD_cons_succ, UInt32.ofNat_toNat,
    UInt64.ofNat_toNat]

theorem ResponseHeader.length_encode (order : ByteOrder) (h : ResponseHeader) :
    (h.encode order).length = responseSize := ByteOrder.length_encodeWords ..

theorem ResponseHeader.decode_encode (order : ByteOrder) (h : ResponseHeader) :
    ResponseHeader.decode order (h.encode order) = h := by
  have hlt : ∀ word ∈ h.words, word < 256 ^ 4 := by
    intro word hword
    have hlt (n : UInt32) : n.toNat < 256 ^ 4 := n.toNat_lt
    unfold ResponseHeader.words at hword
    simp only [mem_cons, not_mem_nil, or_false] at hword
    rcases hword with rfl | rfl | rfl | rfl <;> exact hlt _
  have hwords : order.decodeWords 4 4 (h.encode order) = h.words := by
    have hround := order.decodeWords_encodeWords hlt []
    rwa [append_nil] at hround
  unfold ResponseHeader.decode
  rw [hwords]
  simp only [ResponseHeader.words, getD_cons_zero, getD_cons_succ, UInt32.ofNat_toNat]

section Framing

variable {σ : Type} (service : Service σ) {order : ByteOrder} {magic mode ownerUid : UInt32}
  {r : Request} {s : σ} {received : List UInt8}

theorem toNat_ofNat_of_lt {n : ℕ} (h : n < 2 ^ 32) : (UInt32.ofNat n).toNat = n := by
  exact Nat.mod_eq_of_lt h

theorem Request.length_frame (r : Request) (order : ByteOrder) (magic : UInt32) :
    (r.frame order magic).length =
      requestSize + (r.session.length + r.path.length + r.value.length) := by
  unfold Request.frame
  rw [length_append, RequestHeader.length_encode, length_append, length_append]

theorem Request.Fits.announced (h : r.Fits) :
    (r.header magic).sessionLength.toNat + (r.header magic).pathLength.toNat +
        (r.header magic).valueLength.toNat =
      r.session.length + r.path.length + r.value.length := by
  unfold Request.header
  rw [toNat_ofNat_of_lt h.session, toNat_ofNat_of_lt h.path, toNat_ofNat_of_lt h.value]

theorem decode_of_isPrefix (hpre : received <+: r.frame order magic)
    (hlen : requestSize ≤ received.length) :
    RequestHeader.decode order received = r.header magic := by
  obtain ⟨rest, hrest⟩ := hpre
  have hsize := RequestHeader.length_encode order (r.header magic)
  have htake : received.take requestSize = (r.header magic).encode order := by
    have hframe : (received ++ rest).take requestSize = (r.header magic).encode order := by
      rw [hrest]
      exact take_left' hsize
    rwa [take_append_of_le_length hlen] at hframe
  rw [← take_append_drop requestSize received, htake, RequestHeader.decode_encode]

theorem handleClient_isPrefix (hfits : r.Fits) (hpre : received <+: r.frame order magic) :
    handleClient service magic mode ownerUid order s received =
      if received.length < requestSize then none
      else match rejection magic mode ownerUid (r.header magic) with
        | some reply => some (s, reply, false)
        | none =>
          if received = r.frame order magic then
            some ((answer service s (r.header magic) (r.session ++ r.path ++ r.value)).1,
              (answer service s (r.header magic) (r.session ++ r.path ++ r.value)).2, true)
          else none := by
  unfold handleClient
  by_cases hshort : received.length < requestSize
  · rw [if_pos hshort, if_pos hshort]
  rw [if_neg hshort, if_neg hshort, decode_of_isPrefix hpre (Nat.not_lt.mp hshort)]
  dsimp only
  cases rejection magic mode ownerUid (r.header magic) with
  | some reply => rfl
  | none =>
  rw [hfits.announced, length_drop]
  have hlength := r.length_frame order magic
  by_cases hwhole : received = r.frame order magic
  · rw [if_pos hwhole, if_neg (by rw [hwhole, hlength]; omega), hwhole]
    have hbody : (r.frame order magic).drop requestSize = r.session ++ r.path ++ r.value :=
      drop_left' (RequestHeader.length_encode ..)
    rw [hbody]
  · have hlt : received.length < (r.frame order magic).length := by
      refine lt_of_le_of_ne hpre.length_le fun hsame => hwhole ?_
      exact hpre.eq_of_length hsame
    rw [if_neg hwhole, if_pos (by omega)]

end Framing

end AceShell.Client
