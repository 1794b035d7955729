import AceShell.Iff.Handle

/-!
# Reading stays within the chunk

The size of a composite chunk counts its type, and its data begins behind the type. `ReadChunkBytes`
takes the size for the length of the data all the same, so that it goes four bytes too far. It stays
within the chunk exactly if nobody asks for these bytes (`reads_inside_iff`).
-/

namespace AceShell.Iff

open BigEndian Handle List

def Chunk.ownSize (chunk : Chunk) : ℕ :=
  if chunk.composite then chunk.size.toNat - 4 else chunk.size.toNat

/-- The chunk's own data. -/
def Chunk.ownData (chunk : Chunk) (content : List UInt8) : List UInt8 :=
  (content.drop chunk.dataOffset).take chunk.ownSize

/-! ## Chunks lie within the content -/

/-- The chunk's own data is part of a content of the given length, and the reader is in it. -/
structure Chunk.Within (length : ℕ) (chunk : Chunk) : Prop where
  header : 8 ≤ chunk.dataOffset
  typed : chunk.composite = true → 4 ≤ chunk.size.toNat
  inside : chunk.dataOffset + chunk.ownSize ≤ length
  reached : chunk.scan.toNat ≤ chunk.ownSize

variable {length payloadOffset depth : ℕ} {id type size : UInt32}

theorem within_composite (hhdr : 8 ≤ payloadOffset) (htyped : 4 ≤ size.toNat)
    (hend : payloadOffset + size.toNat ≤ length) :
    Chunk.Within length ⟨id, type, size, 0, payloadOffset + 4, depth, true⟩ where
  header := Nat.le_add_right_of_le hhdr
  typed := fun _ => htyped
  inside := by
    show payloadOffset + 4 + (size.toNat - 4) ≤ length
    omega
  reached := Nat.zero_le _

theorem within_data (hhdr : 8 ≤ payloadOffset) (hend : payloadOffset + size.toNat ≤ length) :
    Chunk.Within length ⟨id, type, size, 0, payloadOffset, depth, false⟩ where
  header := hhdr
  typed := nofun
  inside := hend
  reached := Nat.zero_le _

structure Parsed.Within (length : ℕ) (p : Parsed) : Prop where
  chunks : ∀ chunk ∈ p.chunks, chunk.Within length
  events : ∀ event ∈ p.events, event.chunkIndex < p.chunks.length

variable {p : Parsed} {chunk : Chunk}

theorem Parsed.Within.appendChunk (h : p.Within length) (hchunk : chunk.Within length)
    : (p.appendChunk chunk).Within length where
  chunks := by
    exact forall_mem_append.mpr ⟨h.chunks, forall_mem_singleton.mpr hchunk⟩
  events := by
    intro event hevent
    have hlt := h.events event hevent
    unfold Parsed.appendChunk
    rw [length_append]
    omega

variable {index : ℕ}

theorem Parsed.Within.appendEvent {entering : Bool} (h : p.Within length)
    (hidx : index < p.chunks.length) :
    (p.appendEvent index entering).Within length where
  chunks := h.chunks
  events := forall_mem_append.mpr ⟨h.events, forall_mem_singleton.mpr hidx⟩

def Keeps (length : ℕ) (p q : Parsed) : Prop :=
  p.Within length → q.Within length ∧ p.chunks.length ≤ q.chunks.length

variable {q : Parsed}

theorem keeps_composite (hchunk : chunk.Within length)
    (h : Keeps length ((p.appendChunk chunk).appendEvent p.chunks.length true) q) :
    Keeps length p (q.appendEvent p.chunks.length false) := by
  intro hp
  have hcnt : (p.appendChunk chunk).chunks.length = p.chunks.length + 1 := by
    unfold Parsed.appendChunk
    rw [length_append]
    rfl
  obtain ⟨hq, hle⟩ := h ((hp.appendChunk hchunk).appendEvent (by omega))
  have hle' : p.chunks.length + 1 ≤ q.chunks.length := hcnt ▸ hle
  exact ⟨hq.appendEvent (by omega), Nat.le_of_succ_le hle'⟩

theorem keeps_data (hchunk : chunk.Within length) : Keeps length p (p.appendData chunk) := by
  intro hp
  have hcnt : (p.appendChunk chunk).chunks.length = p.chunks.length + 1 := by
    unfold Parsed.appendChunk
    rw [length_append]
    rfl
  have hidx : p.chunks.length < (p.appendChunk chunk).chunks.length := by omega
  refine ⟨((hp.appendChunk hchunk).appendEvent hidx).appendEvent hidx, ?_⟩
  show p.chunks.length ≤ (p.appendChunk chunk).chunks.length
  omega

theorem parse_keeps (input : List UInt8) (fuel : ℕ) :
    (∀ offset limit parentType depth p next q, limit ≤ input.length →
      parseChunk input fuel offset limit parentType depth p = .ok (next, q) →
        Keeps input.length p q) ∧
    ∀ offset endOffset type depth p q, endOffset ≤ input.length →
      parseChildren input fuel offset endOffset type depth p = .ok q → Keeps input.length p q := by
  induction fuel with
  | zero =>
    constructor
    · intro offset limit parentType depth p next q hlim h
      rw [parseChunk] at h
      cases h
    · intro offset endOffset type depth p q hend h
      rw [parseChildren] at h
      cases h
  | succ fuel ih =>
  constructor
  · intro offset limit parentType depth p next q hlim h
    unfold parseChunk at h
    dsimp only at h
    split_ifs at h with hshort hsize hpad hcomp htyped
    · generalize hres : parseChildren input fuel _ _ _ _ _ = result at h
      obtain error | children := result
      · cases h
      cases h
      refine keeps_composite ?_ (ih.2 _ _ _ _ _ _ (by omega) hres)
      exact within_composite (by omega) (by omega) (by omega)
    · cases h
      exact keeps_data (within_data (by omega) (by omega))
  · intro offset endOffset type depth p q hend h
    unfold parseChildren at h
    split_ifs at h with hmore hdone
    · generalize hres : parseChunk input fuel _ _ _ _ _ = result at h
      obtain error | ⟨childEnd, child⟩ := result
      · cases h
      intro hp
      obtain ⟨hchild, hle⟩ := ih.1 _ _ _ _ _ _ _ hend hres hp
      obtain ⟨hq, hle'⟩ := ih.2 _ _ _ _ _ _ hend h hchild
      exact ⟨hq, Nat.le_trans hle hle'⟩
    · rw [← Except.ok.inj h]
      exact fun hp => ⟨hp, Nat.le_refl _⟩

variable {fuel : ℕ}

theorem parseChunk_next {input : List UInt8} {offset limit next : ℕ} {parentType : UInt32}
    (h : parseChunk input fuel offset limit parentType depth p = .ok (next, q)) :
    offset + 8 ≤ next := by
  cases fuel with
  | zero =>
    rw [parseChunk] at h
    cases h
  | succ fuel =>
  unfold parseChunk at h
  dsimp only at h
  split_ifs at h
  · generalize parseChildren input fuel _ _ _ _ _ = result at h
    obtain error | children := result
    · cases h
    · rw [← (Prod.mk.inj (Except.ok.inj h)).1]
      omega
  · rw [← (Prod.mk.inj (Except.ok.inj h)).1]
    omega

theorem parse_ends (input : List UInt8) (fuel : ℕ) :
    (∀ offset limit parentType depth p, limit - offset < fuel →
      parseChunk input fuel offset limit parentType depth p ≠ .error .exhausted) ∧
    ∀ offset endOffset type depth p, endOffset - offset + 1 < fuel →
      parseChildren input fuel offset endOffset type depth p ≠ .error .exhausted := by
  induction fuel with
  | zero =>
    constructor
    · omega
    · omega
  | succ fuel ih =>
  constructor
  · intro offset limit parentType depth p hfuel
    unfold parseChunk
    dsimp only
    split_ifs with hshort
    · exact nofun
    · exact nofun
    · exact nofun
    · exact nofun
    · generalize hres : parseChildren input fuel _ _ _ _ _ = result
      obtain error | children := result
      · intro heq
        cases heq
        exact ih.2 _ _ _ _ _ (by omega) hres
      · exact nofun
    · exact nofun
  · intro offset endOffset type depth p hfuel
    unfold parseChildren
    split_ifs
    · generalize hres : parseChunk input fuel _ _ _ _ _ = result
      obtain error | ⟨childEnd, q⟩ := result
      · intro heq
        cases heq
        exact ih.1 _ _ _ _ _ (by omega) hres
      · have hnext := parseChunk_next hres
        exact ih.2 _ _ _ _ _ (by omega)
    · exact nofun
    · exact nofun

/-- **The parser ends.** A count that exceeds the number of bytes by two is never used up. -/
theorem parseChunk_ends (content : List UInt8) (more : ℕ) :
    parseChunk content (content.length + 2 + more) 0 content.length 0 0 {} ≠ .error .exhausted :=
  (parse_ends content _).1 0 content.length 0 0 {} (by omega)

theorem within_loadClipboard {content : List UInt8} (h : loadClipboard content = .ok p)
    : p.Within content.length := by
  unfold loadClipboard at h
  split_ifs at h
  generalize hres : parseChunk content _ _ _ _ _ _ = result at h
  obtain error | ⟨next, q⟩ := result
  · exact nomatch h
  dsimp only at h
  split_ifs at h
  rw [← Except.ok.inj h]
  have hempty : Parsed.Within content.length {} :=
    ⟨nofun, nofun⟩
  exact ((parse_keeps content _).1 _ _ _ _ _ _ _ (Nat.le_refl _) hres hempty).1

/-! ## Calls -/

/-- The chunk that is current. -/
def Handle.currentChunk (h : Handle) : Option Chunk := h.current.bind fun index => h.chunks[index]?

/-- The calls of a reader. -/
inductive Call
  | parse (mode : Mode)
  | read (bytes : ℤ)

/-- A reader at work: `start` is where it was when the chunk became current, `bytes` what it was
given since, `places` where these came from. -/
structure Reader where
  handle : Handle
  start : ℕ := 0
  bytes : List UInt8 := []
  places : List ℤ := []

namespace Reader

variable (beyond : ℤ → UInt8) (r : Reader)

def call : Call → Reader
  | .parse mode =>
    match r.handle.parseIff mode with
    | (none, h) => { handle := h, start := (h.currentChunk.map (·.scan.toNat)).getD 0 }
    | (some .eoc, h) => { handle := h, start := (h.currentChunk.map (·.scan.toNat)).getD 0 }
    | (some _, h) => { r with handle := h }
  | .read bytes =>
    match r.handle.readChunkBytes beyond bytes, r.handle.currentChunk with
    | (.ok data, h), some chunk =>
      { r with handle := h, bytes := r.bytes ++ data
               places := r.places ++ addresses chunk (amount chunk bytes) }
    | (_, h), _ => { r with handle := h }

/-- What was read of the current chunk is a contiguous part of its own data. -/
def Inside (content : List UInt8) : Prop :=
  ∀ chunk, r.handle.currentChunk = some chunk →
    r.places = (range r.places.length).map
        (fun i : ℕ => ((chunk.dataOffset + r.start + i : ℕ) : ℤ)) ∧
      r.start + r.places.length ≤ chunk.ownSize ∧
      r.bytes = ((chunk.ownData content).drop r.start).take r.places.length

/-- A read of a composite chunk leaves out the last four bytes of its size. -/
def Meets : Call → Prop
  | .parse _ => True
  | .read bytes => ∀ chunk, r.handle.currentChunk = some chunk → chunk.composite = true →
    chunk.scan.toNat + bytes ≤ chunk.size.toNat - 4

def AllInside (content : List UInt8) : List Call → Reader → Prop
  | [], _ => True
  | c :: calls, r =>
    (r.call beyond c).Inside content ∧ AllInside content calls (r.call beyond c)

def AllMeet : List Call → Reader → Prop
  | [], _ => True
  | c :: calls, r => r.Meets c ∧ AllMeet calls (r.call beyond c)

end Reader

/-! ## The state of a good reader -/

structure Handle.Reads (content : List UInt8) (h : Handle) : Prop where
  isOpen : h.isOpen = true
  notWriting : h.writing = false
  input : h.input = content
  chunks : ∀ chunk ∈ h.chunks, chunk.Within content.length
  events : ∀ event ∈ h.events, event.chunkIndex < h.chunks.length

structure Reader.Good (content : List UInt8) (r : Reader) : Prop where
  handle : r.handle.Reads content
  reached : ∀ chunk, r.handle.currentChunk = some chunk →
    r.start + r.places.length = chunk.scan.toNat
  inside : r.Inside content

variable {bytes : ℤ}

section Good

variable {content : List UInt8} {h : Handle} {r : Reader} {beyond : ℤ → UInt8}

theorem Handle.Reads.within_current (hr : h.Reads content) (hcur : h.currentChunk = some chunk)
    : chunk.Within content.length := by
  obtain ⟨index, -, hchunk⟩ := Option.bind_eq_some_iff.mp hcur
  exact hr.chunks chunk (mem_of_getElem? hchunk)

theorem Handle.Reads.opened (hr : h.Reads content) : (!h.isOpen || h.writing) = false := by
  rw [hr.isOpen, hr.notWriting]
  rfl

theorem good_fresh (hr : h.Reads content) :
    Reader.Good content { handle := h, start := (h.currentChunk.map (·.scan.toNat)).getD 0 } where
  handle := hr
  reached := by
    intro chunk hcur
    rw [hcur]
    rfl
  inside := by
    intro chunk hcur
    have hwithin := hr.within_current hcur
    rw [hcur]
    exact ⟨rfl, hwithin.reached, rfl⟩

theorem Handle.Reads.modify (hr : h.Reads content) (index : ℕ) :
    ∀ chunk ∈ h.chunks.modify index fun chunk => { chunk with scan := 0 },
      chunk.Within content.length := by
  intro chunk hmem
  obtain ⟨i, hi, rfl⟩ := getElem_of_mem hmem
  rw [length_modify] at hi
  have hold := hr.chunks _ (getElem_mem hi)
  rw [getElem_modify]
  split_ifs
  · exact { hold with reached := Nat.zero_le _ }
  · exact hold

theorem nextEvent_cases (hr : h.Reads content) :
    h.nextEvent = (some .eof, h) ∨
    ∃ h', h'.Reads content ∧ (h.nextEvent = (none, h') ∨ h.nextEvent = (some .eoc, h')) := by
  unfold Handle.nextEvent
  cases h.events[h.eventCursor]? with
  | none => exact Or.inl rfl
  | some event =>
  right
  dsimp only
  cases event.entering with
  | true =>
    refine ⟨_, ?_, Or.inl rfl⟩
    exact { hr with }
  | false =>
    refine ⟨_, ?_, Or.inr rfl⟩
    exact { hr with }

theorem good_parse (beyond : ℤ → UInt8) (hr : r.Good content) (mode : Mode) :
    (r.call beyond (.parse mode)).Good content := by
  have hevent : mode ≠ .scan → r.handle.parseIff mode = r.handle.nextEvent := by
    intro hmode
    unfold Handle.parseIff
    rw [hr.handle.opened]
    cases mode with
    | scan => exact absurd rfl hmode
    | step => rfl
    | rawStep => rfl
  unfold Reader.call
  dsimp only
  by_cases hmode : mode = .scan
  · unfold Handle.parseIff
    rw [hr.handle.opened, hmode]
    cases r.handle.nextStop r.handle.scanCursor (r.handle.chunks.drop r.handle.scanCursor) with
    | none => exact { hr with handle := { hr.handle with } }
    | some index =>
      refine good_fresh { hr.handle with chunks := hr.handle.modify index, events := ?_ }
      rw [length_modify]
      exact hr.handle.events
  · rw [hevent hmode]
    rcases nextEvent_cases hr.handle with heq | ⟨h', hreads, heq | heq⟩
    · rw [heq]
      exact hr
    · rw [heq]
      exact good_fresh hreads
    · rw [heq]
      exact good_fresh hreads

/-! ## Reading bytes -/

theorem toLong_of_lt {bits : UInt32} (h : bits.toNat < 2 ^ 31) : toLong bits = bits.toNat :=
  if_pos h

theorem Chunk.Within.size_lt (hw : chunk.Within content.length) (hlen : content.length < 2 ^ 31)
    : chunk.size.toNat < 2 ^ 31 := by
  have hheader := hw.header
  have hinside := hw.inside
  unfold Chunk.ownSize at hinside
  split_ifs at hinside <;> omega

theorem Chunk.Within.scan_le (hw : chunk.Within content.length) :
    chunk.scan.toNat ≤ chunk.size.toNat := by
  have hreached := hw.reached
  unfold Chunk.ownSize at hreached
  split_ifs at hreached <;> omega

theorem amount_eq (hw : chunk.Within content.length) (hlen : content.length < 2 ^ 31) (bytes : ℤ) :
    amount chunk bytes = min bytes.toNat (chunk.size.toNat - chunk.scan.toNat) := by
  have hsize := hw.size_lt hlen
  have hscan := hw.scan_le
  unfold Handle.amount
  rw [toLong_of_lt hsize, toLong_of_lt (Nat.lt_of_le_of_lt hscan hsize)]
  omega

theorem addresses_eq (hw : chunk.Within content.length) (hlen : content.length < 2 ^ 31)
    (count : ℕ) :
    addresses chunk count =
      (range count).map fun i : ℕ => ((chunk.dataOffset + chunk.scan.toNat + i : ℕ) : ℤ) := by
  have hsize := hw.size_lt hlen
  have hscan := hw.scan_le
  unfold Handle.addresses
  rw [toLong_of_lt (Nat.lt_of_le_of_lt hscan hsize)]
  refine map_congr_left fun i _ => ?_
  rfl

theorem fetch_eq (hr : h.Reads content) (hw : chunk.Within content.length) {scan count : ℕ}
    (hend : scan + count ≤ chunk.ownSize) :
    ((range count).map fun i : ℕ => ((chunk.dataOffset + scan + i : ℕ) : ℤ)).map
        (h.fetch beyond) = ((chunk.ownData content).drop scan).take count := by
  have hinside := hw.inside
  apply ext_getElem?
  intro i
  by_cases hi : i < count
  · have hlt : chunk.dataOffset + (scan + i) < content.length := by omega
    unfold Chunk.ownData
    rw [getElem?_take_of_lt hi, getElem?_drop, getElem?_take_of_lt (by omega), getElem?_drop,
      getElem?_map, getElem?_map, getElem?_range hi]
    show some (h.fetch beyond ↑(chunk.dataOffset + scan + i)) = _
    rw [Nat.add_assoc]
    unfold Handle.fetch
    rw [hr.input, if_pos ⟨Int.natCast_nonneg _, by exact_mod_cast hlt⟩, Int.toNat_natCast,
      getD_eq_getElem?_getD, getElem?_eq_getElem hlt]
    rfl
  · rw [getElem?_eq_none, getElem?_eq_none]
    · rw [length_take]
      omega
    · rw [length_map, length_map, length_range]
      omega

theorem call_read (beyond : ℤ → UInt8) (hr : r.Good content) (hbytes : 0 ≤ bytes)
    (hcur : r.handle.currentChunk = some chunk) :
    ∃ index, r.handle.current = some index ∧ r.handle.chunks[index]? = some chunk ∧
      r.call beyond (.read bytes) =
        { r with
          handle := { r.handle with
            chunks := r.handle.chunks.set index
              { chunk with scan := UInt32.ofNat (chunk.scan.toNat + amount chunk bytes) } }
          bytes := r.bytes ++ (addresses chunk (amount chunk bytes)).map (r.handle.fetch beyond)
          places := r.places ++ addresses chunk (amount chunk bytes) } := by
  have hw := hr.handle.within_current hcur
  have hscan : ¬chunk.size < chunk.scan := by
    rw [UInt32.lt_iff_toNat_lt]
    have := hw.scan_le
    omega
  obtain ⟨index, hidx, hchunk⟩ := Option.bind_eq_some_iff.mp hcur
  refine ⟨index, hidx, hchunk, ?_⟩
  unfold Reader.call Handle.readChunkBytes
  dsimp only
  rw [if_neg (by omega), hr.handle.opened, if_neg Bool.false_ne_true, hidx]
  dsimp only
  rw [hchunk]
  dsimp only
  rw [if_neg hscan, hcur]

theorem currentChunk_set (after : Chunk) (hidx : h.current = some index)
    (hchunk : h.chunks[index]? = some chunk) :
    ({ h with chunks := h.chunks.set index after } : Handle).currentChunk = some after := by
  rw [hidx]
  show (h.chunks.set index after)[index]? = some after
  rw [List.getElem?_set_self (List.getElem?_eq_some_iff.mp hchunk).1]

theorem length_places_read (hr : r.Good content) (bytes : ℤ)
    (hcur : r.handle.currentChunk = some chunk) :
    r.start + (r.places ++ addresses chunk (amount chunk bytes)).length =
      chunk.scan.toNat + amount chunk bytes := by
  have hreached := hr.reached chunk hcur
  unfold Handle.addresses
  rw [length_append, length_map, length_range]
  omega

theorem reads_set (hr : h.Reads content) {after : Chunk} (hafter : after.Within content.length) :
    Handle.Reads content { h with chunks := h.chunks.set index after } := by
  refine { hr with chunks := fun chunk hmem => ?_, events := ?_ }
  · rcases mem_or_eq_of_mem_set hmem with hmem | rfl
    · exact hr.chunks chunk hmem
    · exact hafter
  · rw [length_set]
    exact hr.events

/-- **A read within bounds** keeps a good reader good. -/
theorem good_read (hr : r.Good content) (hlen : content.length < 2 ^ 31) (hbytes : 0 ≤ bytes)
    (hcur : r.handle.currentChunk = some chunk)
    (hend : chunk.scan.toNat + amount chunk bytes ≤ chunk.ownSize) :
    (r.call beyond (.read bytes)).Good content := by
  have hw := hr.handle.within_current hcur
  have hsize := hw.size_lt hlen
  have hle : chunk.scan.toNat + amount chunk bytes ≤ chunk.size.toNat := by
    have hscan := hw.scan_le
    rw [amount_eq hw hlen]
    omega
  obtain ⟨index, hidx, hchunk, heq⟩ := call_read beyond hr hbytes hcur
  have hscan : (UInt32.ofNat (chunk.scan.toNat + amount chunk bytes)).toNat =
      chunk.scan.toNat + amount chunk bytes := by
    rw [UInt32.toNat_ofNat', Nat.mod_eq_of_lt (by omega)]
  have hlengths := length_places_read hr bytes hcur
  have hreached := hr.reached chunk hcur
  obtain ⟨hplaces, -, hread⟩ := hr.inside chunk hcur
  rw [heq]
  refine ⟨reads_set hr.handle { hw with reached := ?_ }, ?_, ?_⟩
  · rw [hscan]
    exact hend
  · intro it hit
    rw [currentChunk_set _ hidx hchunk] at hit
    rw [← Option.some.inj hit]
    rw [hscan]
    exact hlengths
  intro it hit
  dsimp only at hit ⊢
  rw [currentChunk_set _ hidx hchunk] at hit
  rw [← Option.some.inj hit]
  refine ⟨?_, hlengths ▸ hend, ?_⟩
  · rw [addresses_eq hw hlen, length_append, length_map, length_range, range_add, map_append,
      map_map]
    congr 1
    refine map_congr_left fun i _ => ?_
    show _ = ((chunk.dataOffset + r.start + (r.places.length + i) : ℕ) : ℤ)
    omega
  · rw [addresses_eq hw hlen, fetch_eq hr.handle hw hend, hread, length_append,
      length_map, length_range, take_add, drop_drop, hreached]
    rfl

/-- **A read out of bounds** leaves the chunk. -/
theorem not_inside_read (hr : r.Good content) (hbytes : 0 ≤ bytes)
    (hcur : r.handle.currentChunk = some chunk)
    (hend : chunk.ownSize < chunk.scan.toNat + amount chunk bytes) :
    ¬(r.call beyond (.read bytes)).Inside content := by
  obtain ⟨index, hidx, hchunk, heq⟩ := call_read beyond hr hbytes hcur
  have hlengths := length_places_read hr bytes hcur
  intro hin
  rw [heq] at hin
  obtain ⟨-, hle, -⟩ := hin _ (currentChunk_set _ hidx hchunk)
  have hle' : r.start + (r.places ++ addresses chunk (amount chunk bytes)).length ≤
      chunk.ownSize := hle
  omega

theorem call_read_refused (hr : r.Good content) (h : bytes < 0 ∨ r.handle.currentChunk = none)
    : r.call beyond (.read bytes) = r := by
  unfold Reader.call Handle.readChunkBytes
  dsimp only
  by_cases hbytes : bytes < 0
  · rw [if_pos hbytes]
  rw [if_neg hbytes, hr.handle.opened, if_neg Bool.false_ne_true]
  have hnone := h.resolve_left hbytes
  unfold Handle.currentChunk at hnone
  cases hidx : r.handle.current with
  | none => rfl
  | some index =>
  rw [hidx] at hnone
  have hchunk : r.handle.chunks[index]? = none := hnone
  dsimp only
  rw [hchunk]

theorem meets_iff (hr : r.Good content) (hlen : content.length < 2 ^ 31) (hbytes : 0 ≤ bytes)
    (hcur : r.handle.currentChunk = some chunk) :
    r.Meets (.read bytes) ↔ chunk.scan.toNat + amount chunk bytes ≤ chunk.ownSize := by
  have hw := hr.handle.within_current hcur
  have hreached := hw.reached
  have htyped := hw.typed
  rw [amount_eq hw hlen]
  unfold Chunk.ownSize at hreached ⊢
  constructor
  · intro hmeets
    split_ifs at hreached ⊢ with hcomp
    · have := hmeets chunk hcur hcomp
      omega
    · omega
  intro hend it hit hcomp
  rw [hcur] at hit
  rw [← Option.some.inj hit] at hcomp ⊢
  rw [if_pos hcomp] at hend hreached
  have := htyped hcomp
  omega

theorem meets_refused (hr : r.Good content) (h : bytes < 0 ∨ r.handle.currentChunk = none)
    : r.Meets (.read bytes) := by
  intro chunk hcur hcomp
  have hw := hr.handle.within_current hcur
  have hreached := hw.reached
  have htyped := hw.typed hcomp
  rcases h with hbytes | hnone
  · unfold Chunk.ownSize at hreached
    rw [if_pos hcomp] at hreached
    omega
  · rw [hnone] at hcur
    exact nomatch hcur

theorem call_inside_iff (beyond : ℤ → UInt8) (hr : r.Good content)
    (hlen : content.length < 2 ^ 31) (c : Call) :
    ((r.call beyond c).Inside content ↔ r.Meets c) ∧
      (r.Meets c → (r.call beyond c).Good content) := by
  cases c with
  | parse mode =>
    have hgood := good_parse beyond hr mode
    exact ⟨⟨fun _ => trivial, fun _ => hgood.inside⟩, fun _ => hgood⟩
  | read bytes =>
  by_cases hrefused : bytes < 0 ∨ r.handle.currentChunk = none
  · rw [call_read_refused hr hrefused]
    exact ⟨⟨fun _ => meets_refused hr hrefused, fun _ => hr.inside⟩, fun _ => hr⟩
  rw [not_or] at hrefused
  obtain ⟨chunk, hcur⟩ := Option.ne_none_iff_exists'.mp hrefused.2
  have hbytes : 0 ≤ bytes := Int.not_lt.mp hrefused.1
  rw [meets_iff hr hlen hbytes hcur]
  refine ⟨⟨fun hin => ?_, fun hend => ?_⟩, good_read hr hlen hbytes hcur⟩
  · by_contra hend
    exact not_inside_read hr hbytes hcur (Nat.lt_of_not_le hend) hin
  · exact (good_read hr hlen hbytes hcur hend).inside

theorem allInside_iff (hr : r.Good content) (hlen : content.length < 2 ^ 31) (calls : List Call) :
    Reader.AllInside beyond content calls r ↔ Reader.AllMeet beyond calls r := by
  induction calls generalizing r with
  | nil => exact Iff.rfl
  | cons c calls ih =>
  obtain ⟨hin, hgood⟩ := call_inside_iff beyond hr hlen c
  unfold Reader.AllInside
  rw [hin]
  exact and_congr_right fun hmeets => ih (hgood hmeets)

end Good

theorem openIff_read {h : Handle} (hclosed : h.isOpen = false) :
    h.openIff false =
      match loadClipboard h.clip.stored with
      | .error error => (some error, { clip := h.clip, stops := h.stops })
      | .ok p => (none, { clip := h.clip, stops := h.stops, isOpen := true, input := h.clip.stored
                          chunks := p.chunks, events := p.events }) := by
  unfold Handle.openIff
  rw [hclosed]
  rfl

/-- **Reads stay within their chunk** exactly if none of them asks for the last four bytes that the
size of a composite chunk counts. -/
theorem reads_inside_iff {h h' : Handle} (hopen : h.openIff false = (none, h'))
    (hlength : h.clip.stored.length < 2 ^ 31) (beyond : ℤ → UInt8) (calls : List Call) :
    Reader.AllInside beyond h.clip.stored calls { handle := h' } ↔
      Reader.AllMeet beyond calls { handle := h' } := by
  refine allInside_iff ?_ hlength calls
  cases hclosed : h.isOpen with
  | true =>
    unfold Handle.openIff at hopen
    rw [hclosed] at hopen
    exact nomatch hopen
  | false =>
  rw [openIff_read hclosed] at hopen
  cases hload : loadClipboard h.clip.stored with
  | error error =>
    rw [hload] at hopen
    exact nomatch hopen
  | ok p =>
  have hwithin := within_loadClipboard hload
  rw [hload] at hopen
  rw [← (Prod.mk.inj hopen).2]
  exact ⟨⟨rfl, rfl, rfl, hwithin.chunks, hwithin.events⟩,
    nofun, nofun⟩

theorem meets_of_plain {r : Reader} (h : r.handle.currentChunk.all (!·.composite) = true)
    (bytes : ℤ) : r.Meets (.read bytes) := by
  intro chunk hcur hcomposite
  rw [hcur, Option.all_some, hcomposite] at h
  exact absurd h Bool.false_ne_true

/-- A FORM with one chunk of three bytes, where parsing stops. -/
def textForm : Handle where
  clip.stored := write32 idForm ++ write32 16 ++ write32 (makeId 'F' 'T' 'X' 'T') ++
    write32 (makeId 'C' 'H' 'R' 'S') ++ write32 3 ++ [97, 98, 99, 0]
  stops := [(makeId 'F' 'T' 'X' 'T', makeId 'C' 'H' 'R' 'S')]

def textForm.calls : List Call := [.parse .scan, .read 2, .read 5]

/-- Two bytes are read, and then the one that is left. -/
theorem reads_inside_iff_textForm :
    Reader.AllInside (fun _ => 0) textForm.clip.stored textForm.calls
        { handle := (textForm.openIff false).2 } ∧
      (textForm.calls.foldl (Reader.call fun _ => 0)
        { handle := (textForm.openIff false).2 }).places = [20, 21, 22] ∧
      (textForm.calls.foldl (Reader.call fun _ => 0)
        { handle := (textForm.openIff false).2 }).bytes = [97, 98, 99] := by
  have hopen : textForm.openIff false = (none, (textForm.openIff false).2) := by decide +kernel
  refine ⟨(reads_inside_iff hopen (by decide) _ _).mpr ⟨trivial, ?_, ?_, trivial⟩,
    by decide +kernel, by decide +kernel⟩
  · exact meets_of_plain (by decide +kernel) 2
  · exact meets_of_plain (by decide +kernel) 5

def emptyForm : Handle :=
  { clip := { stored := write32 idForm ++ write32 4 ++ write32 (makeId 'T' 'E' 'S' 'T') }
    stops := [(makeId 'T' 'E' 'S' 'T', idForm)] }

/-- The content has twelve bytes. A read of the FORM returns the four bytes that are behind it in
memory. -/
theorem emptyForm_read_leaves :
    emptyForm.clip.stored.length = 12 ∧ (emptyForm.openIff false).1 = none ∧
      ((({ handle := (emptyForm.openIff false).2 } : Reader).call (fun _ => 238)
        (.parse .scan)).call (fun _ => 238) (.read 4)).places = [12, 13, 14, 15] ∧
      ((({ handle := (emptyForm.openIff false).2 } : Reader).call (fun _ => 238)
        (.parse .scan)).call (fun _ => 238) (.read 4)).bytes = [238, 238, 238, 238] := by
  decide +kernel

end AceShell.Iff
