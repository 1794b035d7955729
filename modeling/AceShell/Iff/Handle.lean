import AceShell.Lib.BigEndian
import AceShell.Lib.Overlay

/-!
# IFF on a clipboard unit

The reader and the writer of IFF files, after `iffparse_clipboard.c`. FORM, LIST, CAT and PROP
chunks hold a type and more chunks; all others hold data. The writer puts sizes it did not know into
the headers when the chunks are closed. The reader takes the whole tree apart when the file is
opened.
-/

namespace AceShell.Iff

open BigEndian

/-! ## Constants -/

/-- `MAKE_ID` -/
def makeId (a b c d : Char) : UInt32 :=
  UInt32.ofNat (a.toNat * 2 ^ 24 + b.toNat * 2 ^ 16 + c.toNat * 2 ^ 8 + d.toNat)

/-- `ID_FORM` -/
def idForm : UInt32 := makeId 'F' 'O' 'R' 'M'

/-- `ID_LIST` -/
def idList : UInt32 := makeId 'L' 'I' 'S' 'T'

/-- `ID_CAT` -/
def idCat : UInt32 := makeId 'C' 'A' 'T' ' '

/-- `ID_PROP` -/
def idProp : UInt32 := makeId 'P' 'R' 'O' 'P'

/-- `ID_NULL` -/
def idNull : UInt32 := makeId ' ' ' ' ' ' ' '

inductive IffError
  | eof | eoc | noScope | read | write | mangled | syntaxError | notIff
  deriving DecidableEq

/-- `is_composite` -/
def isComposite (id : UInt32) : Bool := id == idForm || id == idList || id == idCat || id == idProp

/-- `IFFSIZE_UNKNOWN` -/
def sizeUnknown : ℤ := -1

/-- `UINT32_MAX` -/
def uint32Max : ℕ := 2 ^ 32 - 1

/-! ## State -/

structure Clip where
  stored : List UInt8 := []
  pending : List UInt8 := []
  deriving DecidableEq

/-- `struct ace_iff_chunk`. Its size and the position of the reader are LONGs, here by their
bits. -/
structure Chunk where
  id : UInt32
  type : UInt32
  size : UInt32
  scan : UInt32 := 0
  dataOffset : ℕ
  depth : ℕ
  composite : Bool
  deriving DecidableEq

/-- `struct ace_iff_event` -/
structure Event where
  chunkIndex : ℕ
  entering : Bool
  deriving DecidableEq

/-- `struct ace_iff_write_chunk` -/
structure WriteChunk where
  id : UInt32
  type : UInt32
  size : ℤ
  scan : ℤ
  headerOffset : ℕ
  composite : Bool
  knownSize : Bool
  deriving DecidableEq

/-- `struct ace_iff_handle`, with the unit its stream leads to. The innermost chunk is the first of
the write stack. -/
structure Handle where
  clip : Clip := {}
  writing : Bool := false
  isOpen : Bool := false
  depth : ℕ := 0
  input : List UInt8 := []
  chunks : List Chunk := []
  events : List Event := []
  stops : List (UInt32 × UInt32) := []
  scanCursor : ℕ := 0
  eventCursor : ℕ := 0
  current : Option ℕ := none
  writeStack : List WriteChunk := []
  writeOffset : ℕ := 0
  writeStarted : Bool := false
  deriving DecidableEq

/-! ## Reading a file -/

structure Parsed where
  chunks : List Chunk := []
  events : List Event := []
  deriving DecidableEq

/-- `append_chunk` -/
def Parsed.appendChunk (p : Parsed) (chunk : Chunk) : Parsed :=
  { p with chunks := p.chunks ++ [chunk] }

/-- `append_event` -/
def Parsed.appendEvent (p : Parsed) (chunkIndex : ℕ) (entering : Bool) : Parsed :=
  { p with events := p.events ++ [⟨chunkIndex, entering⟩] }

def Parsed.appendData (p : Parsed) (chunk : Chunk) : Parsed :=
  ((p.appendChunk chunk).appendEvent p.chunks.length true).appendEvent p.chunks.length false

/-- The error of the parser, or that its count is used up. -/
inductive ParseError
  | mangled | exhausted
  deriving DecidableEq

mutual

/-- `parse_chunk`: the offset behind the chunk. A count of two more than there are bytes is always
enough (`parseChunk_ends`). -/
def parseChunk (input : List UInt8) : ℕ → ℕ → ℕ → UInt32 → ℕ → Parsed →
    Except ParseError (ℕ × Parsed)
  | 0, _, _, _, _, _ => .error .exhausted
  | fuel + 1, offset, limit, parentType, depth, p =>
    if limit < offset ∨ limit - offset < 8 then .error .mangled
    else
      let id := read32 (input.drop offset)
      let size := read32 (input.drop (offset + 4))
      let payloadOffset := offset + 8
      if limit - payloadOffset < size.toNat then .error .mangled
      else
        let endOffset := payloadOffset + size.toNat
        let alignedEnd := endOffset + size.toNat % 2
        if limit < alignedEnd then .error .mangled
        else if isComposite id then
          if size.toNat < 4 then .error .mangled
          else
            let type := read32 (input.drop payloadOffset)
            let chunk : Chunk :=
              { id, type, size, dataOffset := payloadOffset + 4, depth, composite := true }
            let entered := (p.appendChunk chunk).appendEvent p.chunks.length true
            match parseChildren input fuel chunk.dataOffset endOffset type (depth + 1) entered with
            | .error error => .error error
            | .ok q => .ok (alignedEnd, q.appendEvent p.chunks.length false)
        else
          let chunk : Chunk :=
            { id, type := parentType, size, dataOffset := payloadOffset, depth, composite := false }
          .ok (alignedEnd, p.appendData chunk)

/-- The chunks up to the end of a composite one. -/
def parseChildren (input : List UInt8) :
    ℕ → ℕ → ℕ → UInt32 → ℕ → Parsed → Except ParseError Parsed
  | 0, _, _, _, _, _ => .error .exhausted
  | fuel + 1, offset, endOffset, type, depth, p =>
    if offset < endOffset then
      match parseChunk input fuel offset endOffset type depth p with
      | .error error => .error error
      | .ok (childEnd, q) => parseChildren input fuel childEnd endOffset type depth q
    else if offset = endOffset then .ok p
    else .error .mangled

end

def loadClipboard (content : List UInt8) : Except IffError Parsed :=
  if content = [] then .error .notIff
  else if !isComposite (read32 content) then .error .notIff
  else
    match parseChunk content (content.length + 2) 0 content.length 0 0 {} with
    | .error _ => .error .mangled
    | .ok (nextOffset, p) => if nextOffset = content.length then .ok p else .error .mangled

namespace Handle

variable (h : Handle)

/-! ## Writing -/

def writeAt (data : List UInt8) (offset : ℕ) (advance : Bool) : Option IffError × Handle :=
  if offset > uint32Max ∨ data.length > uint32Max ∨ offset > uint32Max - data.length then
    (some .write, h)
  else
    let pending := if h.writeStarted then h.clip.pending else []
    (none, { h with clip := { h.clip with pending := overlay pending offset data }
                    writeStarted := true
                    writeOffset := if advance then offset + data.length else h.writeOffset })

/-- `write_stream` -/
def writeStream (data : List UInt8) : Option IffError × Handle := h.writeAt data h.writeOffset true

/-- `update_clipboard` -/
def updateClipboard : Handle :=
  if !h.writeStarted then h
  else { h with clip := { stored := h.clip.pending, pending := [] }, writeStarted := false }

def within (id : UInt32) : Bool := (h.writeStack.head?.map WriteChunk.id) == some id

def header (type id : UInt32) (size : ℤ) : List UInt8 :=
  write32 id ++ write32 (if size = sizeUnknown then 0 else UInt32.ofNat size.toNat) ++
    if isComposite id then write32 type else []

/-- `PushChunk` -/
def pushChunk (type id : UInt32) (size : ℤ) : Option IffError × Handle :=
  if !h.isOpen || !h.writing then (some .syntaxError, h)
  else if h.writeStack = [] ∧ id ≠ idForm ∧ id ≠ idList ∧ id ≠ idCat then (some .notIff, h)
  else if h.writeStack ≠ [] ∧ !isComposite id ∧ !h.within idForm ∧ !h.within idProp then
    (some .syntaxError, h)
  else if isComposite id ∧ type = idNull then (some .notIff, h)
  else if id = idProp ∧ !h.within idList then (some .syntaxError, h)
  else if size < sizeUnknown then (some .syntaxError, h)
  else
    match h.writeStream (header type id size) with
    | (some error, h) => (some error, h)
    | (none, h) =>
      (none, { h with
        writeStack :=
          { id, type, size, scan := if isComposite id then 4 else 0
            headerOffset := h.writeOffset - if isComposite id then 12 else 8
            composite := isComposite id, knownSize := decide (size ≠ sizeUnknown) } :: h.writeStack
        depth := h.writeStack.length + 1 })

/-- `WriteChunkBytes`; the bytes that did not fit a declared size are not written. -/
def writeChunkBytes (bytes : List UInt8) : Option IffError × Handle :=
  if !h.isOpen || !h.writing then (some .noScope, h)
  else
    match h.writeStack with
    | [] => (some .noScope, h)
    | chunk :: outer =>
      -- The difference is a size_t: it wraps where more was written than declared.
      let remaining := ((chunk.size - chunk.scan) % 2 ^ 64).toNat
      let data := if chunk.knownSize then bytes.take remaining else bytes
      match h.writeStream data with
      | (some error, h) => (some error, h)
      | (none, h) =>
        (none, { h with writeStack := { chunk with scan := chunk.scan + data.length } :: outer })

def grow (size : UInt32) : List WriteChunk → List WriteChunk
  | [] => []
  | parent :: outer =>
    { parent with scan := parent.scan + (8 + size.toNat + size.toNat % 2) } :: outer

def closeChunk (size : UInt32) (outer : List WriteChunk) : Option IffError × Handle :=
  match if size.toNat % 2 = 1 then h.writeStream [0] else (none, h) with
  | (some error, h) => (some error, h)
  | (none, h) => (none, { h with writeStack := grow size outer, depth := outer.length })

/-- `PopChunk` -/
def popChunk : Option IffError × Handle :=
  if !h.isOpen || !h.writing then (some .noScope, h)
  else
    match h.writeStack with
    | [] => (some .noScope, h)
    | chunk :: outer =>
      if chunk.knownSize then
        if chunk.scan > chunk.size then (some .write, h)
        else h.closeChunk (UInt32.ofNat chunk.size.toNat) outer
      else
        let size := UInt32.ofNat chunk.scan.toNat
        match h.writeAt (write32 size) (chunk.headerOffset + 4) false with
        | (some error, h) => (some error, h)
        | (none, h) => h.closeChunk size outer

def popAll : ℕ → Handle → Handle
  | 0, h => h
  | count + 1, h =>
    if h.writeStack = [] then h
    else
      match h.popChunk with
      | (some _, h) => h
      | (none, h) => popAll count h

/-! ## Opening and closing -/

/-- `OpenIFF`, with a stream. -/
def openIff (write : Bool) : Option IffError × Handle :=
  if h.isOpen then (some .syntaxError, h)
  else
    let h := { h with
      input := [], chunks := [], events := [], scanCursor := 0, eventCursor := 0, current := none
      writeStack := [], writeOffset := 0, writeStarted := false
      isOpen := true, depth := 0, writing := write }
    if write then (none, h)
    else
      match loadClipboard h.clip.stored with
      | .error error => (some error, { h with isOpen := false })
      | .ok p => (none, { h with input := h.clip.stored, chunks := p.chunks, events := p.events })

/-- `CloseIFF` -/
def closeIff : Handle :=
  if !h.isOpen then h
  else
    let h := if h.writing then (h.popAll h.writeStack.length).updateClipboard else h
    { h with isOpen := false, depth := 0 }

/-! ## Reading chunks -/

/-- `is_stopped` -/
def isStopped (chunk : Chunk) : Bool :=
  h.stops.any fun stop => stop.1 == chunk.type && stop.2 == chunk.id

/-- `IFFPARSE_…` -/
inductive Mode
  | scan | step | rawStep
  deriving DecidableEq

/-- The loop of `ParseIFF` in the mode SCAN, over the chunks that are left: the place of the next
one to stop at. -/
def nextStop (h : Handle) : ℕ → List Chunk → Option ℕ
  | _, [] => none
  | index, chunk :: rest => if h.isStopped chunk then some index else nextStop h (index + 1) rest

/-- The next event, for the other modes. The reader is not set to the beginning of the chunk. -/
def nextEvent : Option IffError × Handle :=
  match h.events[h.eventCursor]? with
  | none => (some .eof, h)
  | some event =>
    (if event.entering then none else some .eoc,
      { h with
        current := some event.chunkIndex, eventCursor := h.eventCursor + 1
        depth := (h.chunks[event.chunkIndex]?.map Chunk.depth).getD 0 + 1 })

/-- `ParseIFF` -/
def parseIff (mode : Mode) : Option IffError × Handle :=
  if !h.isOpen || h.writing then (some .notIff, h)
  else
    match mode with
    | .scan =>
      match h.nextStop h.scanCursor (h.chunks.drop h.scanCursor) with
      | none => (some .eof, { h with scanCursor := max h.scanCursor h.chunks.length })
      | some index =>
        (none, { h with
          chunks := h.chunks.modify index fun chunk => { chunk with scan := 0 }
          scanCursor := index + 1, current := some index
          depth := (h.chunks[index]?.map Chunk.depth).getD 0 + 1 })
    | _ => h.nextEvent

/-- A LONG from its bits. -/
def toLong (bits : UInt32) : ℤ := if bits.toNat < 2 ^ 31 then bits.toNat else bits.toNat - 2 ^ 32

/-- The byte at an address counted from the start of the input. Outside of the input, memory holds
whatever it does. -/
def fetch (beyond : ℤ → UInt8) (address : ℤ) : UInt8 :=
  if 0 ≤ address ∧ address < h.input.length then h.input.getD address.toNat 0 else beyond address

/-- How much `ReadChunkBytes` copies. A LONG that becomes a size_t keeps its sign. -/
def amount (chunk : Chunk) (bytes : ℤ) : ℕ :=
  min bytes.toNat ((toLong chunk.size - toLong chunk.scan) % 2 ^ 64).toNat

def addresses (chunk : Chunk) (count : ℕ) : List ℤ :=
  (List.range count).map fun i : ℕ => (chunk.dataOffset : ℤ) + toLong chunk.scan + i

def readChunkBytes (beyond : ℤ → UInt8) (bytes : ℤ) : Except IffError (List UInt8) × Handle :=
  if bytes < 0 then (.error .read, h)
  else if !h.isOpen || h.writing then (.error .noScope, h)
  else
    match h.current with
    | none => (.error .noScope, h)
    | some index =>
      match h.chunks[index]? with
      | none => (.error .noScope, h)
      | some chunk =>
        if chunk.size < chunk.scan then (.error .read, h)
        else
          let count := amount chunk bytes
          let after := { chunk with scan := UInt32.ofNat (chunk.scan.toNat + count) }
          (.ok ((addresses chunk count).map (h.fetch beyond)),
            { h with chunks := h.chunks.set index after })

end Handle

end AceShell.Iff
