import AceShell.Lib.Overlay
import AceShell.Clipboard.Bridge

/-!
# The clipboard device

After `clipboard_device.c`. A unit has a committed clip and one pending clip, and counts the
identifiers it gives out to readers and writers. A write or a read under the identifier 0 begins a
session; a read session refreshes the unit from the store first. A client may also post a clip that
it will write when it is asked for. What a unit's lock protects are functions on the unit.
-/

namespace AceShell.Clipboard

/-- The error codes of the device. -/
inductive IOError
  | aborted | noCommand | badLength | badAddress
  deriving DecidableEq

/-- How a request ends: with 0, with an error, or not yet, as it waits on the unit's condition. -/
inductive Outcome
  | done
  | error (code : IOError)
  | waits
  deriving DecidableEq

/-- `struct IOClipReq`. The data of a request is missing (`NULL`) or a buffer of `length` bytes. -/
structure IOClipReq where
  clipId : ℤ := 0
  offset : ℕ := 0
  length : ℕ := 0
  data : Option (List UInt8) := none
  actual : ℕ := 0

/-- `struct ace_clipboard_unit`. The committed clip is `none` while `committed_valid` is 0, and its
size is 0 then. -/
structure ClipUnit where
  committed : Option (List UInt8) := none
  pending : List UInt8 := []
  readId : ℤ := 0
  writeId : ℤ := 0
  postId : ℤ := 0
  writeActive : Bool := false

/-- What a request leaves. -/
structure Reply (σ : Type) where
  outcome : Outcome
  state : σ
  request : IOClipReq

/-- `next_id` -/
def nextId (id : ℤ) : ℤ := if id = 0 ∨ id = 2147483647 then 1 else id + 1

/-! ## Refreshing -/

variable (loaded : Option (List UInt8))

def lockedRefresh (unit : ClipUnit) : ClipUnit :=
  if loaded = unit.committed then unit
  else { unit with committed := loaded, writeId := nextId unit.writeId, postId := 0 }

@[simp] theorem lockedRefresh_committed (unit : ClipUnit) :
    (lockedRefresh loaded unit).committed = loaded := by
  unfold lockedRefresh
  split_ifs with hsame
  · exact hsame.symm
  · rfl

@[simp] theorem lockedRefresh_readId (unit : ClipUnit) :
    (lockedRefresh loaded unit).readId = unit.readId := by
  unfold lockedRefresh
  split_ifs <;> rfl

/-! ## Reading -/

variable (unit : ClipUnit)

variable (request : IOClipReq)

def copyOut : IOClipReq :=
  let clip := unit.committed.getD []
  if clip.length ≤ request.offset then { request with actual := 0, clipId := -1 }
  else
    let actual := min request.length (clip.length - request.offset)
    { request with
      data := request.data.map fun buffer =>
        overlay buffer 0 ((clip.drop request.offset).take actual)
      actual := actual
      offset := (request.offset + actual) % 2 ^ 32 }

def ClipUnit.Posted : Prop := unit.postId ≠ 0 ∧ unit.postId = unit.writeId

instance (unit : ClipUnit) : Decidable unit.Posted := inferInstanceAs (Decidable (_ ∧ _))

def lockedRead (cancelled : Bool) (unit : ClipUnit) (request : IOClipReq) : Reply ClipUnit :=
  if request.clipId = 0 then
    if unit.Posted then
      if cancelled then ⟨.error .aborted, unit, { request with clipId := -1 }⟩
      else ⟨.waits, unit, request⟩
    else if unit.committed = none then ⟨.done, unit, { request with actual := 0, clipId := -1 }⟩
    else
      let id := nextId unit.readId
      let unit := { unit with readId := id }
      ⟨.done, unit, copyOut unit { request with clipId := id }⟩
  else if request.clipId ≠ unit.readId then ⟨.error .aborted, unit, request⟩
  else ⟨.done, unit, copyOut unit request⟩

/-! ## Writing -/

def ClipUnit.Begins : Prop :=
  request.clipId = 0 ∨ request.clipId = unit.postId

instance (unit : ClipUnit) (request : IOClipReq) : Decidable (unit.Begins request) :=
  inferInstanceAs (Decidable (_ ∨ _))

def ClipUnit.Continues : Prop :=
  unit.writeActive ∧ request.clipId = unit.writeId

instance (unit : ClipUnit) (request : IOClipReq) : Decidable (unit.Continues request) :=
  inferInstanceAs (Decidable (_ ∧ _))

def beginWrite : ClipUnit :=
  { unit with
    writeId := if request.clipId = 0 then nextId unit.writeId else unit.writeId
    postId := 0
    pending := []
    writeActive := true }

/-- The bytes that a write brings. -/
def IOClipReq.bytes : List UInt8 := (request.data.getD []).take request.length

def fillPending (grows : Bool) (unit : ClipUnit) (request : IOClipReq) : Reply ClipUnit :=
  if grows then
    ⟨.done, { unit with pending := overlay unit.pending request.offset request.bytes },
      { request with
        actual := request.length
        offset := (request.offset + request.length) % 2 ^ 32 }⟩
  else ⟨.error .badLength, unit, request⟩

/-- `write_clip` -/
def writeClip (grows : Bool) (unit : ClipUnit) (request : IOClipReq) : Reply ClipUnit :=
  if request.length ≠ 0 ∧ request.data = none then ⟨.error .badAddress, unit, request⟩
  else if unit.Begins request then
    let unit := beginWrite unit request
    fillPending grows unit { request with clipId := unit.writeId }
  else if ¬ unit.Continues request then ⟨.error .aborted, unit, request⟩
  else fillPending grows unit request

def closeWrite : ClipUnit :=
  { unit with committed := some unit.pending, pending := [], writeActive := false, postId := 0 }

/-- `update_clip`, where `commit` is `ace_clipboard_store_commit` on the states `σ` of the store. -/
def updateClip {σ : Type} (commit : List UInt8 → σ → Option σ) (unit : ClipUnit) (store : σ)
    (request : IOClipReq) : Reply (ClipUnit × σ) :=
  if ¬ unit.Continues request then
    ⟨.error .aborted, (unit, store), { request with clipId := -1 }⟩
  else
    match commit unit.pending store with
    | none => ⟨.error .badLength, (unit, store), request⟩
    | some store => ⟨.done, (closeWrite unit, store), { request with clipId := -1 }⟩

theorem updateClip_cases {σ : Type} (commit : List UInt8 → σ → Option σ) (unit : ClipUnit)
    (store : σ) (request : IOClipReq) :
    ((updateClip commit unit store request).outcome ≠ .done ∧
      (updateClip commit unit store request).state = (unit, store)) ∨
    (unit.Continues request ∧ ∃ stored, commit unit.pending store = some stored ∧
      updateClip commit unit store request =
        ⟨.done, (closeWrite unit, stored), { request with clipId := -1 }⟩) := by
  unfold updateClip
  by_cases hcont : unit.Continues request
  · rw [if_neg (not_not_intro hcont)]
    cases commit unit.pending store with
    | none => exact .inl ⟨nofun, rfl⟩
    | some stored => exact .inr ⟨hcont, stored, rfl, rfl⟩
  · rw [if_pos hcont]
    exact .inl ⟨nofun, rfl⟩

/-- `CBD_POST` -/
def post : Reply ClipUnit :=
  let id := nextId unit.writeId
  ⟨.done, { unit with writeId := id, postId := id }, { request with clipId := id }⟩

/-! ## Requests -/

structure System (η : Type) where
  unit : ClipUnit := {}
  store : Option (List UInt8) := none
  host : Host η

inductive Command
  | read | write | update | post | currentReadId | currentWriteId
  deriving DecidableEq

/-- Whether memory can be had, the store be read and be written, and whether a request is cancelled
when it waits. -/
structure Luck where
  grows : Bool := true
  loads : Bool := true
  writes : Bool := true
  cancelled : Bool := false

section Requests

variable {η : Type} (program : HostProgram η) (number : ℕ)

variable (luck : Luck)

variable (s : System η)

/-- `refresh_unit_from_store` -/
def refreshUnitFromStore : Option (System η) :=
  match storeLoad luck.loads s.store with
  | .ok data => some { s with unit := lockedRefresh (some data) s.unit }
  | .error .missing => some { s with unit := lockedRefresh none s.unit }
  | .error .failed => none

def refreshFromHost : System η :=
  if number = 0 then { s with store := hostRefresh program luck.loads luck.writes s.host s.store }
  else s

theorem refreshFromHost_unit :
    (refreshFromHost program number luck s).unit = s.unit := by
  unfold refreshFromHost
  split_ifs <;> rfl

/-- `read_clip` -/
def readClip (request : IOClipReq) : Reply (System η) :=
  let locked (s : System η) : Reply (System η) :=
    let reply := lockedRead luck.cancelled s.unit request
    ⟨reply.outcome, { s with unit := reply.state }, reply.request⟩
  if request.clipId = 0 then
    let s := refreshFromHost program number luck s
    match refreshUnitFromStore luck s with
    | none => ⟨.error .badLength, s, request⟩
    | some s => locked s
  else locked s

def commit (data : List UInt8) (state : Option (List UInt8) × Host η) :
    Option (Option (List UInt8) × Host η) :=
  (storeCommit program number luck.writes state.2 data).map fun stored => (some stored.1, stored.2)

/-- Both refreshes, whose failures `CBD_CURRENTREADID` and `CBD_CURRENTWRITEID` pass over. -/
def refreshed : System η :=
  let s := refreshFromHost program number luck s
  (refreshUnitFromStore luck s).getD s

/-- `ace_clipboard_device_io` -/
def deviceIo (command : Command) (s : System η) (request : IOClipReq) :
    Reply (System η) :=
  let request := { request with actual := 0 }
  match command with
  | .read => readClip program number luck s request
  | .write =>
    let reply := writeClip luck.grows s.unit request
    ⟨reply.outcome, { s with unit := reply.state }, reply.request⟩
  | .update =>
    let reply := updateClip (commit program number luck) s.unit (s.store, s.host) request
    ⟨reply.outcome, ⟨reply.state.1, reply.state.2.1, reply.state.2.2⟩, reply.request⟩
  | .post =>
    let reply := post s.unit request
    ⟨reply.outcome, { s with unit := reply.state }, reply.request⟩
  | .currentReadId =>
    let s := refreshed program number luck s
    ⟨.done, s, { request with clipId := s.unit.readId }⟩
  | .currentWriteId =>
    let s := refreshed program number luck s
    ⟨.done, s, { request with clipId := s.unit.writeId }⟩

end Requests

end AceShell.Clipboard
