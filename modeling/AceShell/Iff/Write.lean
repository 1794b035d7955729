import AceShell.Iff.Plan

/-!
# Writing a tree

`PushChunk`, `WriteChunkBytes` and `PopChunk` put the encoding of a tree behind what was written
before (`Plan.write_encode`). Each chunk accounts in the chunk around it for its header, its size
and its pad byte, so that every size is right when it goes into its header.
-/

namespace AceShell.Iff

open BigEndian Handle List

/-! ## The calls -/

def andThen (result : Option IffError × Handle) (next : Handle → Option IffError × Handle) :
    Option IffError × Handle :=
  match result with
  | (some error, h) => (some error, h)
  | (none, h) => next h

/-- Data is written in pieces. -/
def writePieces : List (List UInt8) → Handle → Option IffError × Handle
  | [], h => (none, h)
  | piece :: rest, h => andThen (h.writeChunkBytes piece) (writePieces rest)

def Plan.givenSize (plan : Plan) (declared : Bool) : ℤ :=
  if declared then plan.size else sizeUnknown

mutual

/-- The calls that write a chunk. -/
def Plan.write : Plan → Handle → Option IffError × Handle
  | .data type id declared pieces, h =>
    andThen (h.pushChunk type id ((Plan.data type id declared pieces).givenSize declared)) fun h =>
      andThen (writePieces pieces h) popChunk
  | .group type id declared children, h =>
    andThen (h.pushChunk type id ((Plan.group type id declared children).givenSize declared))
      fun h => andThen (writeAll children h) popChunk

def writeAll : List Plan → Handle → Option IffError × Handle
  | [], h => (none, h)
  | plan :: rest, h => andThen (plan.write h) (writeAll rest)

end

/-! ## The state of the writer -/

structure Writing (h : Handle) (bytes : List UInt8) (stack : List WriteChunk) : Prop where
  isOpen : h.isOpen = true
  writing : h.writing = true
  stack : h.writeStack = stack
  offset : h.writeOffset = bytes.length
  written : (if h.writeStarted then h.clip.pending else []) = bytes
  started : bytes ≠ [] → h.writeStarted = true

variable {front behind : List UInt8} {type id : UInt32} {chunk : WriteChunk}
  {outer : List WriteChunk}

section Calls

variable {h : Handle} {bytes : List UInt8} {stack : List WriteChunk}

theorem writeStream_ok (hw : Writing h bytes stack) (data : List UInt8)
    (hroom : bytes.length + data.length < 2 ^ 32) :
    ∃ h', h.writeStream data = (none, h') ∧ Writing h' (bytes ++ data) stack := by
  unfold Handle.writeStream Handle.writeAt uint32Max
  rw [hw.offset, if_neg (by omega)]
  refine ⟨_, rfl, hw.isOpen, hw.writing, hw.stack, ?_, ?_, fun _ => rfl⟩
  · rw [length_append]
    rfl
  · show overlay (if h.writeStarted then h.clip.pending else []) bytes.length data = _
    rw [hw.written, overlay_length]

theorem writeAt_ok {old : List UInt8} (data : List UInt8)
    (hw : Writing h (front ++ old ++ behind) stack) (hlen : data.length = old.length)
    (hroom : (front ++ old ++ behind).length < 2 ^ 32) :
    ∃ h', h.writeAt data front.length false = (none, h') ∧
      Writing h' (front ++ data ++ behind) stack := by
  rw [length_append, length_append] at hroom
  have hoffset := hw.offset
  rw [length_append, length_append] at hoffset
  unfold Handle.writeAt uint32Max
  rw [if_neg (by omega)]
  refine ⟨_, rfl, hw.isOpen, hw.writing, hw.stack, ?_, ?_, fun _ => rfl⟩
  · show h.writeOffset = _
    rw [length_append, length_append]
    omega
  · show overlay (if h.writeStarted then h.clip.pending else []) front.length data = _
    rw [hw.written, overlay_middle _ _ _ hlen]

theorem length_header (type id : UInt32) (size : ℤ) :
    (header type id size).length = if isComposite id then 12 else 8 := by
  unfold Handle.header
  cases isComposite id with
  | true => rfl
  | false => rfl

def openedChunk (type id : UInt32) (size : ℤ) (headerOffset : ℕ) : WriteChunk where
  id := id
  type := type
  size := size
  scan := if isComposite id then 4 else 0
  headerOffset := headerOffset
  composite := isComposite id
  knownSize := decide (size ≠ sizeUnknown)

structure Allowed (parent : Option UInt32) (type id : UInt32) : Prop where
  root : parent = none → id = idForm ∨ id = idList ∨ id = idCat
  data : parent ≠ none → isComposite id = false → parent = some idForm ∨ parent = some idProp
  typed : isComposite id = true → type ≠ idNull
  prop : id = idProp → parent = some idList

theorem pushChunk_ok (hw : Writing h bytes stack) {size : ℤ}
    (hallowed : Allowed (stack.head?.map WriteChunk.id) type id) (hsize : sizeUnknown ≤ size)
    (hroom : bytes.length + 12 < 2 ^ 32) :
    ∃ h', h.pushChunk type id size = (none, h') ∧
      Writing h' (bytes ++ header type id size)
        (openedChunk type id size bytes.length :: stack) := by
  have hheader := length_header type id size
  have hroom' : bytes.length + (header type id size).length < 2 ^ 32 := by
    rw [hheader]
    split_ifs <;> omega
  obtain ⟨h', heq, hw'⟩ := writeStream_ok hw _ hroom'
  have houtside : ∀ id', (!h.within id') = true → stack.head?.map WriteChunk.id ≠ some id' := by
    intro id' hnot hpar
    have hwithin : h.within id' = true := by
      unfold Handle.within
      rw [hw.stack]
      exact beq_iff_eq.mpr hpar
    rw [hwithin] at hnot
    exact nomatch hnot
  unfold Handle.pushChunk
  rw [hw.isOpen, hw.writing, if_neg (by decide), hw.stack, if_neg ?_, if_neg ?_, if_neg ?_,
    if_neg ?_, if_neg (by omega), heq]
  · refine ⟨_, rfl, hw'.isOpen, hw'.writing, ?_, hw'.offset, hw'.written, hw'.started⟩
    show _ :: h'.writeStack = _
    rw [hw'.stack]
    congr 1
    congr 1
    rw [hw'.offset, length_append]
    omega
  · rintro ⟨rfl, hid⟩
    exact houtside idList hid (hallowed.prop rfl)
  · rintro ⟨hcomp, rfl⟩
    exact hallowed.typed hcomp rfl
  · rintro ⟨hstack, hcomp, hform, hprop⟩
    have hpar : stack.head?.map WriteChunk.id ≠ none := by
      cases stack with
      | nil => exact absurd rfl hstack
      | cons chunk outer => exact Option.some_ne_none _
    rcases hallowed.data hpar (Bool.not_eq_true' _ ▸ hcomp) with hid | hid
    · exact houtside idForm hform hid
    · exact houtside idProp hprop hid
  · rintro ⟨rfl, hform, hlist, hcat⟩
    rcases hallowed.root rfl with hid | hid | hid
    · exact hform hid
    · exact hlist hid
    · exact hcat hid

def WriteChunk.HasRoom (chunk : WriteChunk) (count : ℕ) : Prop :=
  chunk.knownSize = true → chunk.scan + count ≤ chunk.size ∧ chunk.size - chunk.scan < 2 ^ 64

theorem writeChunkBytes_ok (hw : Writing h bytes (chunk :: outer)) {data : List UInt8}
    (hfits : chunk.HasRoom data.length) (hroom : bytes.length + data.length < 2 ^ 32) :
    ∃ h', h.writeChunkBytes data = (none, h') ∧
      Writing h' (bytes ++ data) ({ chunk with scan := chunk.scan + data.length } :: outer) := by
  have hdata : (if chunk.knownSize then
      data.take ((chunk.size - chunk.scan) % 2 ^ 64).toNat else data) = data := by
    split_ifs with hknown
    · obtain ⟨hle, hlt⟩ := hfits hknown
      exact take_of_length_le (by omega)
    · rfl
  obtain ⟨h', heq, hw'⟩ := writeStream_ok hw _ hroom
  unfold Handle.writeChunkBytes
  rw [hw.isOpen, hw.writing, hw.stack]
  dsimp only
  rw [hdata, heq]
  exact ⟨_, rfl, hw'.isOpen, hw'.writing, rfl, hw'.offset, hw'.written, hw'.started⟩

/-- **Data in pieces** is written behind the rest. -/
theorem writePieces_ok (pieces : List (List UInt8)) {h : Handle} {bytes : List UInt8}
    (hw : Writing h bytes (chunk :: outer)) (hfits : chunk.HasRoom pieces.flatten.length)
    (hroom : bytes.length + pieces.flatten.length < 2 ^ 32) :
    ∃ h', writePieces pieces h = (none, h') ∧
      Writing h' (bytes ++ pieces.flatten)
        ({ chunk with scan := chunk.scan + pieces.flatten.length } :: outer) := by
  induction pieces generalizing h bytes chunk with
  | nil =>
    refine ⟨h, rfl, ?_⟩
    simpa using hw
  | cons piece rest ih =>
  rw [flatten_cons, length_append] at hfits hroom
  have hfst : chunk.HasRoom piece.length := by
    intro hknown
    have := hfits hknown
    omega
  obtain ⟨h', heq, hw'⟩ := writeChunkBytes_ok hw hfst (by omega)
  have hrest : ({ chunk with scan := chunk.scan + piece.length } : WriteChunk).HasRoom
      rest.flatten.length := by
    intro hknown
    have := hfits hknown
    dsimp only
    omega
  obtain ⟨h'', heq', hw''⟩ := ih hw' hrest (by rw [length_append]; omega)
  refine ⟨h'', ?_, ?_⟩
  · rw [writePieces, heq]
    exact heq'
  rw [flatten_cons, ← append_assoc, length_append]
  convert hw'' using 3
  push_cast
  omega

/-! ## Closing chunks -/

theorem closeChunk_ok (hw : Writing h bytes (chunk :: outer)) {size : UInt32}
    (hroom : bytes.length + 1 < 2 ^ 32) :
    ∃ h', h.closeChunk size outer = (none, h') ∧
      Writing h' (bytes ++ replicate (size.toNat % 2) 0) (grow size outer) := by
  unfold Handle.closeChunk
  rcases Nat.mod_two_eq_zero_or_one size.toNat with heven | hodd
  · rw [heven, replicate_zero, append_nil]
    exact ⟨_, rfl, hw.isOpen, hw.writing, rfl, hw.offset, hw.written, hw.started⟩
  · obtain ⟨h', heq, hw'⟩ := writeStream_ok hw [0] hroom
    rw [heq, hodd]
    exact ⟨_, rfl, hw'.isOpen, hw'.writing, rfl, hw'.offset, hw'.written, hw'.started⟩

/-- **`PopChunk`** puts a size that was unknown into the header. -/
theorem popChunk_ok (chunk : WriteChunk) {size : ℕ} (hw : Writing h (front ++ write32 id ++
      write32 (if chunk.knownSize then UInt32.ofNat size else 0) ++ behind) (chunk :: outer))
    (hoff : chunk.headerOffset = front.length) (hscan : chunk.scan = size)
    (hknown : chunk.knownSize = true → chunk.size = size)
    (hroom : front.length + 8 + behind.length + 1 < 2 ^ 32) :
    ∃ h', h.popChunk = (none, h') ∧
      Writing h' (front ++ write32 id ++ write32 (UInt32.ofNat size) ++ behind ++
        replicate ((UInt32.ofNat size).toNat % 2) 0) (grow (UInt32.ofNat size) outer) := by
  have hlen : ∀ value : UInt32, (front ++ write32 id ++ write32 value ++ behind).length =
      front.length + 8 + behind.length := by
    intro value
    simp only [length_append, length_write32]
  unfold Handle.popChunk
  rw [hw.isOpen, hw.writing, if_neg (by decide), hw.stack]
  dsimp only
  cases hdeclared : chunk.knownSize with
  | true =>
    rw [hdeclared] at hw
    rw [if_pos rfl, hknown hdeclared, if_neg (by omega)]
    exact closeChunk_ok hw (by rw [hlen]; omega)
  | false =>
  rw [hscan, Int.toNat_natCast, hoff]
  have hplace : front.length + 4 = (front ++ write32 id).length := by
    rw [length_append, length_write32]
  obtain ⟨h', heq, hw'⟩ := writeAt_ok (write32 (UInt32.ofNat size)) hw rfl (by rw [hlen]; omega)
  rw [hplace, heq]
  exact closeChunk_ok hw' (by rw [hlen]; omega)

end Calls

/-! ## Trees -/

variable (plan : Plan)

theorem givenSize_ge (declared : Bool) : sizeUnknown ≤ plan.givenSize declared := by
  unfold Plan.givenSize sizeUnknown
  split_ifs <;> omega

theorem givenSize_known (declared : Bool) :
    decide (plan.givenSize declared ≠ sizeUnknown) = declared := by
  unfold Plan.givenSize sizeUnknown
  cases declared with
  | true => exact decide_eq_true (by rw [if_pos rfl]; omega)
  | false => exact decide_eq_false (by rw [if_neg Bool.false_ne_true]; exact not_not_intro rfl)

theorem header_eq (type id : UInt32) (declared : Bool) :
    header type id (plan.givenSize declared) =
      write32 id ++ write32 (if declared then UInt32.ofNat plan.size else 0) ++
        if isComposite id then write32 type else [] := by
  have hknown := givenSize_known plan declared
  cases declared with
  | true =>
    rfl
  | false => rfl

variable {parent : Option UInt32} {declared : Bool}

theorem allowed_data {pieces : List (List UInt8)}
    (h : (Plan.data type id declared pieces).Shaped parent) :
    Allowed parent type id where
  root := by
    rintro rfl
    rcases h.2 with hpar | hpar
    · exact nomatch hpar
    · exact nomatch hpar
  data := fun _ _ => h.2
  typed := fun hcomp => nomatch (h.1.symm.trans hcomp)
  prop := by
    rintro rfl
    exact absurd h.1 (by decide)

theorem allowed_group {children : List Plan}
    (h : (Plan.group type id declared children).Shaped parent) (htyped : type ≠ idNull)
    : Allowed parent type id where
  root := by
    rintro rfl
    have hcomposite := h.1
    have hprop : id ≠ idProp := fun hid => nomatch h.2.1 hid
    unfold isComposite at hcomposite
    simp only [Bool.or_eq_true, beq_iff_eq] at hcomposite
    rcases hcomposite with ((hid | hid) | hid) | hid
    · exact Or.inl hid
    · exact Or.inr (Or.inl hid)
    · exact Or.inr (Or.inr hid)
    · exact absurd hid hprop
  data := fun _ hdata => nomatch (hdata.symm.trans h.1)
  typed := fun _ => htyped
  prop := h.2.1

theorem grow_encode (chunk : WriteChunk) (outer : List WriteChunk)
    (hsmall : plan.encode.length < 2 ^ 32) :
    grow (UInt32.ofNat plan.size) (chunk :: outer) =
      { chunk with scan := chunk.scan + plan.encode.length } :: outer := by
  have hlength := plan.length_encode
  have hsize : (UInt32.ofNat plan.size).toNat = plan.size := by
    rw [UInt32.toNat_ofNat', Nat.mod_eq_of_lt (by omega)]
  unfold Handle.grow
  rw [hsize, hlength]
  rfl

theorem popChunk_opened {plan : Plan} {h : Handle} {bytes body : List UInt8}
    {stack : List WriteChunk}
    (hw : Writing h (bytes ++ header type id (plan.givenSize declared) ++ body)
      ({ openedChunk type id (plan.givenSize declared) bytes.length with scan := plan.size } ::
        stack)) (hroom : bytes.length + body.length + 13 < 2 ^ 32) :
    ∃ h', h.popChunk = (none, h') ∧
      Writing h' (bytes ++ write32 id ++ write32 (UInt32.ofNat plan.size) ++
        ((if isComposite id then write32 type else []) ++ body) ++
          replicate ((UInt32.ofNat plan.size).toNat % 2) 0)
        (grow (UInt32.ofNat plan.size) stack) := by
  have hknown := givenSize_known plan declared
  have hhead : bytes ++ header type id (plan.givenSize declared) ++ body =
      bytes ++ write32 id ++ write32 (if declared then UInt32.ofNat plan.size else 0) ++
        ((if isComposite id then write32 type else []) ++ body) := by
    rw [header_eq]
    simp only [append_assoc]
  rw [hhead] at hw
  refine popChunk_ok { openedChunk type id (plan.givenSize declared) bytes.length with
    scan := plan.size } ?_ rfl rfl ?_ ?_
  · show Writing h (bytes ++ write32 id ++ write32
      (if decide (plan.givenSize declared ≠ sizeUnknown) then UInt32.ofNat plan.size else 0) ++ _) _
    rw [hknown]
    exact hw
  · intro hdeclared
    have hdeclared' : declared = true := hknown.symm.trans hdeclared
    show plan.givenSize declared = _
    unfold Plan.givenSize
    rw [hdeclared', if_pos rfl]
  rw [length_append]
  split_ifs
  · rw [length_write32]
    omega
  · rw [length_nil]
    omega

theorem length_opened (type id : UInt32) (declared : Bool) :
    (header type id (plan.givenSize declared)).length ≤ 12 := by
  rw [length_header]
  split_ifs <;> omega

theorem scan_opened (type id : UInt32) (size : ℤ) (offset : ℕ) :
    (openedChunk type id size offset).scan = if isComposite id then 4 else 0 := rfl

mutual

/-- **Writing a chunk** puts its encoding behind the rest. -/
theorem Plan.write_encode : (plan : Plan) →
    ∀ (h : Handle) (bytes : List UInt8) (stack : List WriteChunk), Writing h bytes stack →
      plan.Shaped (stack.head?.map WriteChunk.id) → plan.Typed →
      bytes.length + plan.encode.length < 2 ^ 31 →
      ∃ h', plan.write h = (none, h') ∧
        Writing h' (bytes ++ plan.encode) (grow (UInt32.ofNat plan.size) stack)
  | .data type id declared pieces => by
    intro h bytes stack hw hshaped _ hroom
    have hlength := Plan.length_encode (.data type id declared pieces)
    have hsize := Plan.size_data type id declared pieces
    have hopened := length_opened (.data type id declared pieces) type id declared
    have hknown := givenSize_known (.data type id declared pieces) declared
    obtain ⟨h₁, hpush, hw₁⟩ := pushChunk_ok hw (allowed_data hshaped)
      (givenSize_ge (.data type id declared pieces) declared) (by omega)
    have hfits : WriteChunk.HasRoom (openedChunk type id
        ((Plan.data type id declared pieces).givenSize declared) bytes.length)
        pieces.flatten.length := by
      intro hdeclared
      have hdeclared' : declared = true := hknown.symm.trans hdeclared
      rw [scan_opened, hshaped.1, if_neg Bool.false_ne_true]
      show 0 + _ ≤ (Plan.data type id declared pieces).givenSize declared ∧
        (Plan.data type id declared pieces).givenSize declared - 0 < 2 ^ 64
      unfold Plan.givenSize
      rw [hdeclared', if_pos rfl, Plan.size_data]
      omega
    obtain ⟨h₂, hpieces, hw₂⟩ := writePieces_ok pieces hw₁ hfits (by
      rw [length_append]
      omega)
    rw [scan_opened, hshaped.1, if_neg Bool.false_ne_true, Int.zero_add, ← hsize] at hw₂
    obtain ⟨h₃, hpop, hw₃⟩ := popChunk_opened hw₂ (by omega)
    refine ⟨h₃, ?_, ?_⟩
    · rw [Plan.write, hpush]
      show andThen (writePieces pieces h₁) popChunk = _
      rw [hpieces]
      exact hpop
    have hcnt : (UInt32.ofNat pieces.flatten.length).toNat = pieces.flatten.length := by
      rw [UInt32.toNat_ofNat', Nat.mod_eq_of_lt (by omega)]
    rw [hshaped.1, if_neg Bool.false_ne_true, nil_append, hsize, hcnt] at hw₃
    rw [Plan.encode, hsize]
    simpa only [append_assoc] using hw₃
  | .group type id declared children => by
    intro h bytes stack hw hshaped htyped hroom
    have hlength := Plan.length_encode (.group type id declared children)
    have heven := even_encodeAll children
    have hsize := Plan.size_group type id declared children
    have hopened := length_opened (.group type id declared children) type id declared
    obtain ⟨h₁, hpush, hw₁⟩ := pushChunk_ok hw (allowed_group hshaped htyped.1)
      (givenSize_ge (.group type id declared children) declared) (by omega)
    obtain ⟨h₂, hchildren, hw₂⟩ := writeAll_encode children h₁ _ _ _ hw₁ hshaped.2.2 htyped.2 (by
      rw [length_append]
      omega)
    have hscan : (4 : ℤ) + ((encodeAll children).length : ℤ) =
        ((Plan.group type id declared children).size : ℤ) := by
      rw [hsize]
      push_cast
      rfl
    rw [scan_opened, hshaped.1, if_pos rfl, hscan] at hw₂
    obtain ⟨h₃, hpop, hw₃⟩ := popChunk_opened hw₂ (by omega)
    refine ⟨h₃, ?_, ?_⟩
    · rw [Plan.write, hpush]
      show andThen (writeAll children h₁) popChunk = _
      rw [hchildren]
      exact hpop
    have hcnt : (UInt32.ofNat (4 + (encodeAll children).length)).toNat % 2 = 0 := by
      have hlt : 4 + (encodeAll children).length < 2 ^ 32 := by omega
      rw [UInt32.toNat_ofNat', Nat.mod_eq_of_lt hlt]
      omega
    rw [hshaped.1, if_pos rfl, hsize, hcnt, replicate_zero, append_nil] at hw₃
    rw [Plan.encode, hsize]
    simpa only [append_assoc] using hw₃

theorem writeAll_encode : (plans : List Plan) →
    ∀ (h : Handle) (bytes : List UInt8) (chunk : WriteChunk) (outer : List WriteChunk),
      Writing h bytes (chunk :: outer) → allShaped (some chunk.id) plans → allTyped plans →
      bytes.length + (encodeAll plans).length < 2 ^ 31 →
      ∃ h', writeAll plans h = (none, h') ∧ Writing h' (bytes ++ encodeAll plans)
        ({ chunk with scan := chunk.scan + (encodeAll plans).length } :: outer)
  | [] => by
    intro h bytes chunk outer hw _ _ _
    refine ⟨h, rfl, ?_⟩
    rw [encodeAll, append_nil, length_nil]
    simpa using hw
  | plan :: rest => by
    intro h bytes chunk outer hw hshaped htyped hroom
    rw [encodeAll, length_append] at hroom
    obtain ⟨h₁, hplan, hw₁⟩ := plan.write_encode h bytes (chunk :: outer) hw hshaped.1 htyped.1
      (by omega)
    rw [grow_encode plan chunk outer (by omega)] at hw₁
    obtain ⟨h₂, hrest, hw₂⟩ := writeAll_encode rest h₁ _ _ _ hw₁ hshaped.2 htyped.2
      (by rw [length_append]; omega)
    refine ⟨h₂, ?_, ?_⟩
    · rw [writeAll, hplan]
      exact hrest
    rw [encodeAll, ← append_assoc, length_append]
    convert hw₂ using 3
    push_cast
    omega

end

end AceShell.Iff
