import AceShell.Lib.ByteOrder
import AceShell.Lib.Decimal
import AceShell.Lib.Text

/-!
# ARexx messages on the wire

How a `RexxMsg` is flattened for another process and rebuilt there, after `serialise` and
`deserialise` of `rexx_port_bridge.c`. A header with the lengths of nineteen slots (sixteen
arguments, the second result, the names of a host and of a file extension) goes in front of their
bytes. Most slots hold argstrings; for `RXADDCON` and `RXREMCON` some hold C strings or counted
bytes. `route` stands for the tables of the interpreter's private actions.
-/

namespace AceShell.Rexx

open Text List Decimal

/-! ## Messages -/

/-- What a string pointer points at: bytes, with a NUL behind them, and the field `ra_Length` in
front of them. -/
structure RexxString where
  raLength : UInt16
  bytes : List UInt8
  deriving DecidableEq

/-- `CreateArgstring` -/
def createArgstring (bytes : List UInt8) : RexxString := ⟨UInt16.ofNat bytes.length, bytes⟩

/-- `LengthArgstring` -/
def lengthArgstring (string : RexxString) : ℕ := string.raLength.toNat

/-- The value of a slot, an `IPTR`: zero, a pointer, or an integer. -/
inductive Slot
  | nothing
  | string (string : RexxString)
  | number (value : UInt64)
  deriving DecidableEq

/-- The fields of `struct RexxMsg` that travel. A LONG is given by its bits. -/
structure RexxMsg where
  action : UInt32 := 0
  result1 : UInt32 := 0
  result2 : Slot := .nothing
  args : List Slot := replicate 16 .nothing
  commAddr : Slot := .nothing
  fileExt : Slot := .nothing
  args_length : args.length = 16 := by rfl
  deriving DecidableEq

/-- `ACE_REXX_SLOT_RESULT2` -/
def slotResult2 : ℕ := 16

/-- `ACE_REXX_SLOT_COMMADDR` -/
def slotCommAddr : ℕ := 17

/-- `ACE_REXX_SLOTS` -/
def slotCount : ℕ := 19

def RexxMsg.slotAt (message : RexxMsg) (index : ℕ) : Slot :=
  if index < 16 then message.args.getD index .nothing
  else if index = slotResult2 then message.result2
  else if index = slotCommAddr then message.commAddr
  else message.fileExt

def RexxMsg.setSlot (message : RexxMsg) (index : ℕ) (slot : Slot) : RexxMsg :=
  if index < 16 then
    { message with
      args := message.args.set index slot
      args_length := (length_set ..).trans message.args_length }
  else if index = slotResult2 then { message with result2 := slot }
  else if index = slotCommAddr then { message with commAddr := slot }
  else { message with fileExt := slot }

/-! ## Actions -/

/-- `RXADDCON` -/
def rxAddCon : UInt32 := 0x0A000000

/-- `RXREMCON` -/
def rxRemCon : UInt32 := 0x0B000000

/-- `RXADDRSRC` -/
def rxAddRsrc : UInt32 := 0xF0000000

/-- `RXREMRSRC` -/
def rxRemRsrc : UInt32 := 0xF1000000

/-- `rexx_action_code` -/
def rexxActionCode (action : UInt32) : UInt32 := action &&& 0xFF000000

/-- `is_private_action` -/
def isPrivateAction (action : UInt32) : Bool := rxAddRsrc ≤ rexxActionCode action

/-- `is_private_resource_action` -/
def isPrivateResourceAction (action : UInt32) : Bool :=
  rexxActionCode action == rxAddRsrc || rexxActionCode action == rxRemRsrc

/-! ## The header -/

/-- `ACE_REXX_WIRE_MAGIC` -/
def wireMagic : UInt32 := 0x52584d32

/-- `ACE_REXX_ABSENT` -/
def absent : UInt32 := 0xffffffff

/-- `ACE_REXX_RESULT2_NUMBER` -/
def result2NumberFlag : UInt32 := 4

/-- `AMIGA_BROKER_MAX_PAYLOAD` -/
def maxPayload : ℕ := 16384

/-- `sizeof(struct ace_rexx_wire)` -/
def wireSize : ℕ := 200

/-- `struct ace_rexx_wire` -/
structure Wire where
  magic : UInt32 := wireMagic
  action : UInt32
  result1 : UInt32
  slots : UInt32 := UInt32.ofNat slotCount
  flags : UInt32 := 0
  result2Number : UInt64 := 0
  privatePortToken : UInt64 := 0
  privateTsdToken : UInt64 := 0
  privateArg0Token : UInt64 := 0
  privateNameLength : UInt32 := 0
  privatePortName : List UInt8 := replicate 64 0
  length : List UInt32

/-- The words in front of the name, with the four bytes that align `result2_number`. -/
def Wire.words (order : ByteOrder) (header : Wire) : List UInt8 :=
  order.encode 4 header.magic.toNat ++ order.encode 4 header.action.toNat ++
  order.encode 4 header.result1.toNat ++ order.encode 4 header.slots.toNat ++
  order.encode 4 header.flags.toNat ++ replicate 4 0 ++
  order.encode 8 header.result2Number.toNat ++ order.encode 8 header.privatePortToken.toNat ++
  order.encode 8 header.privateTsdToken.toNat ++ order.encode 8 header.privateArg0Token.toNat ++
  order.encode 4 header.privateNameLength.toNat

/-- The header in memory. -/
def Wire.encode (order : ByteOrder) (header : Wire) : List UInt8 :=
  header.words order ++ header.privatePortName ++
    header.length.flatMap fun length => order.encode 4 length.toNat

def wordAt (order : ByteOrder) (bytes : List UInt8) (offset width : ℕ) : ℕ :=
  order.decode ((bytes.drop offset).take width)

def Wire.decode (order : ByteOrder) (bytes : List UInt8) : Wire where
  magic := UInt32.ofNat (wordAt order bytes 0 4)
  action := UInt32.ofNat (wordAt order bytes 4 4)
  result1 := UInt32.ofNat (wordAt order bytes 8 4)
  slots := UInt32.ofNat (wordAt order bytes 12 4)
  flags := UInt32.ofNat (wordAt order bytes 16 4)
  result2Number := UInt64.ofNat (wordAt order bytes 24 8)
  privatePortToken := UInt64.ofNat (wordAt order bytes 32 8)
  privateTsdToken := UInt64.ofNat (wordAt order bytes 40 8)
  privateArg0Token := UInt64.ofNat (wordAt order bytes 48 8)
  privateNameLength := UInt32.ofNat (wordAt order bytes 56 4)
  privatePortName := (bytes.drop 60).take 64
  length := (range slotCount).map fun i => UInt32.ofNat (wordAt order bytes (124 + 4 * i) 4)

/-! ## Sending -/

def Slot.argstring : Slot → Option (List UInt8)
  | .string s => some (s.bytes.take (lengthArgstring s))
  | _ => none

/-- A C string. -/
def Slot.cstring : Slot → Option (List UInt8)
  | .string s => some (cstr s.bytes)
  | _ => none

/-- An integer. -/
def Slot.integer : Slot → UInt64
  | .number value => value
  | _ => 0

/-- Counted bytes. -/
def Slot.counted (count : UInt64) : Slot → Option (List UInt8)
  | .string s => some (s.bytes.take count.toNat)
  | _ => none

def RexxMsg.numberResult (message : RexxMsg) : Bool :=
  isPrivateAction message.action && 0 < message.result2.integer && message.result2.integer < 4096

def slotBytes (message : RexxMsg) (index : ℕ) : Option (List UInt8) :=
  let code := rexxActionCode message.action
  let slot := message.slotAt index
  if index < 16 then
    if code = rxAddCon ∧ index = 0 then slot.cstring
    else if code = rxAddCon ∧ index = 1 then slot.counted (message.slotAt 2).integer
    else if code = rxAddCon ∧ index = 2 then some (print slot.integer.toNat)
    else if code = rxRemCon ∧ index = 0 then slot.cstring
    else if isPrivateResourceAction message.action ∧ index = 0 then none
    else slot.argstring
  else if index = slotResult2 then if message.numberResult then none else slot.argstring
  else slot.cstring

def slotLength (message : RexxMsg) (index : ℕ) : UInt32 :=
  match slotBytes message index with
  | none => absent
  | some bytes => UInt32.ofNat bytes.length

structure PrivateRoute where
  flags : UInt32 := 0
  portToken : UInt64 := 0
  tsdToken : UInt64 := 0
  arg0Token : UInt64 := 0
  nameLength : UInt32 := 0
  name : List UInt8 := replicate 64 0

section Sending

variable (order : ByteOrder) (route : RexxMsg → Option PrivateRoute)

variable (message : RexxMsg)

/-- `fill_private_header` -/
def fillPrivateHeader : Option PrivateRoute :=
  if isPrivateAction message.action then route message else some {}

/-- The header of a message. -/
def headerOf (routed : PrivateRoute) : Wire where
  action := message.action
  result1 := message.result1
  flags := if message.numberResult then routed.flags ||| result2NumberFlag else routed.flags
  result2Number := if message.numberResult then message.result2.integer else 0
  privatePortToken := routed.portToken
  privateTsdToken := routed.tsdToken
  privateArg0Token := routed.arg0Token
  privateNameLength := routed.nameLength
  privatePortName := routed.name
  length := (range slotCount).map (slotLength message)

def bytesOf (indices : List ℕ) : List UInt8 :=
  indices.flatMap fun index => (slotBytes message index).getD []

/-- The bytes behind the header. -/
def bodyOf : List UInt8 := bytesOf message (range slotCount)

/-- `serialise` -/
def serialise : Option (List UInt8) :=
  match fillPrivateHeader route message with
  | none => none
  | some routed =>
    if maxPayload < wireSize + (bodyOf message).length then none
    else some ((headerOf message routed).encode order ++ bodyOf message)

end Sending

/-! ## Receiving -/

/-- White space of the C locale. -/
def isSpace (byte : UInt8) : Bool := byte == 32 || (9 ≤ byte && byte ≤ 13)

def splitSign : List UInt8 → Bool × List UInt8
  | [] => (false, [])
  | byte :: rest =>
    if byte = 45 then (true, rest) else if byte = 43 then (false, rest) else (false, byte :: rest)

/-- `strtoull` in base ten on a text that ends at its first NUL: the number, if the whole text is
one that fits. -/
def parseCount (text : List UInt8) : Option UInt64 :=
  let signed := splitSign ((cstr text).dropWhile isSpace)
  let digits := signed.2.takeWhile isDigit
  if digits = [] ∨ signed.2.dropWhile isDigit ≠ [] ∨ 2 ^ 64 ≤ value digits then none
  else if signed.1 then some (0 - UInt64.ofNat (value digits))
  else some (UInt64.ofNat (value digits))

/-- The message as far as it is rebuilt, the offset of the cursor, what remains behind it, and which
bytes were read. -/
structure Decoding where
  message : RexxMsg
  cursor : ℕ := 0
  remaining : ℕ := 0
  reads : List (ℕ × ℕ) := []

section Receiving

variable (order : ByteOrder) (memory : ℕ → UInt8)

def fetch (offset count : ℕ) : List UInt8 := (range count).map fun i => memory (offset + i)

def Decoding.skip (d : Decoding) (length : ℕ) : Decoding :=
  { d with cursor := d.cursor + length, remaining := d.remaining - length }

/-- The bytes of a slot are read. -/
def Decoding.noted (d : Decoding) (length : ℕ) : Decoding :=
  { d with reads := d.reads ++ [(d.cursor, length)] }

/-- The message gets a slot. -/
def Decoding.set (d : Decoding) (index : ℕ) (slot : Slot) : Decoding :=
  { d with message := d.message.setSlot index slot }

/-- One round of the loop of `deserialise`, which says whether it goes on. -/
def decodeSlot (withResults : Bool) (code : UInt32) (index : ℕ) (length : UInt32) (d : Decoding) :
    Bool × Decoding :=
  if length = absent then (true, d)
  else if d.remaining < length.toNat then (false, d)
  else if !withResults && index != slotResult2 then (true, d.skip length.toNat)
  else if index = 2 ∧ code = rxAddCon then
    if length = 0 ∨ 32 ≤ length then (false, d)
    else
      match parseCount (fetch memory d.cursor length.toNat) with
      | none => (false, d.noted length.toNat)
      | some value => (true, ((d.noted length.toNat).skip length.toNat).set index (.number value))
  else
    let copy := createArgstring (fetch memory d.cursor length.toNat)
    (true, ((d.noted length.toNat).skip length.toNat).set index (.string copy))

def decodeSlots (withResults : Bool) (code : UInt32) :
    List (ℕ × UInt32) → Decoding → Bool × Decoding
  | [], d => (true, d)
  | (index, length) :: slots, d =>
    match decodeSlot memory withResults code index length d with
    | (false, d) => (false, d)
    | (true, d) => decodeSlots withResults code slots d

def deserialise (message : RexxMsg) (payloadLength : ℕ) (withResults : Bool) : Bool × Decoding :=
  if payloadLength < wireSize then (false, { message := message })
  else
    let header := Wire.decode order (fetch memory 0 wireSize)
    let reads := [(0, wireSize)]
    if header.magic ≠ wireMagic ∨ header.slots ≠ UInt32.ofNat slotCount then
      (false, { message := message, reads := reads })
    else
      let message :=
        if withResults then { message with action := header.action, result1 := header.result1 }
        else message
      let message :=
        if header.flags &&& result2NumberFlag ≠ 0 then
          { message with result2 := .number header.result2Number }
        else message
      decodeSlots memory withResults
        (rexxActionCode (if withResults then header.action else message.action))
        ((range slotCount).zip header.length)
        { message := message
          cursor := wireSize
          remaining := payloadLength - wireSize
          reads := reads }

end Receiving

end AceShell.Rexx
