import AceShell.Iff.Reading

/-!
# Trees of chunks

A file as it is to be written: the tree of its chunks, with how each chunk is written. `encode` are
the bytes of the file. The parser finds the chunks of the tree in them, in the order of the document
(`parse_encode`).
-/

namespace AceShell.Iff

open BigEndian Handle List

/-- A chunk to be written: its size is declared or unknown when it is opened; data is written in
pieces. -/
inductive Plan
  | data (type id : UInt32) (declared : Bool) (pieces : List (List UInt8))
  | group (type id : UInt32) (declared : Bool) (children : List Plan)

mutual

/-- The bytes of a chunk. -/
def Plan.encode : Plan → List UInt8
  | .data _ id _ pieces =>
    write32 id ++ write32 (UInt32.ofNat pieces.flatten.length) ++ pieces.flatten ++
      replicate (pieces.flatten.length % 2) 0
  | .group type id _ children =>
    write32 id ++ write32 (UInt32.ofNat (4 + (encodeAll children).length)) ++ write32 type ++
      encodeAll children

/-- The bytes of several chunks. -/
def encodeAll : List Plan → List UInt8
  | [] => []
  | plan :: rest => plan.encode ++ encodeAll rest

end

mutual

/-- The data chunks of a tree in the order of the document: the type they are in, their identifier
and their content. -/
def Plan.dataChunks : UInt32 → Plan → List (UInt32 × UInt32 × List UInt8)
  | parentType, .data _ id _ pieces => [(parentType, id, pieces.flatten)]
  | _, .group type _ _ children => allDataChunks type children

def allDataChunks : UInt32 → List Plan → List (UInt32 × UInt32 × List UInt8)
  | _, [] => []
  | type, plan :: rest => plan.dataChunks type ++ allDataChunks type rest

end

mutual

/-- Data chunks are in a FORM or PROP, and a PROP is in a LIST. `parent` is the identifier of the
chunk around, if there is one. -/
def Plan.Shaped : Option UInt32 → Plan → Prop
  | parent, .data _ id _ _ =>
    isComposite id = false ∧ (parent = some idForm ∨ parent = some idProp)
  | parent, .group _ id _ children =>
    isComposite id = true ∧ (id = idProp → parent = some idList) ∧ allShaped (some id) children

def allShaped : Option UInt32 → List Plan → Prop
  | _, [] => True
  | parent, plan :: rest => plan.Shaped parent ∧ allShaped parent rest

end

mutual

def Plan.Typed : Plan → Prop
  | .data _ _ _ _ => True
  | .group type _ _ children => type ≠ idNull ∧ allTyped children

def allTyped : List Plan → Prop
  | [] => True
  | plan :: rest => plan.Typed ∧ allTyped rest

end

def Plan.size : Plan → ℕ
  | .data _ _ _ pieces => pieces.flatten.length
  | .group _ _ _ children => 4 + (encodeAll children).length

theorem Plan.size_data (type id : UInt32) (declared : Bool) (pieces : List (List UInt8)) :
    (Plan.data type id declared pieces).size = pieces.flatten.length := rfl

theorem Plan.size_group (type id : UInt32) (declared : Bool) (children : List Plan) :
    (Plan.group type id declared children).size = 4 + (encodeAll children).length := rfl

mutual

theorem Plan.length_encode : (plan : Plan) → plan.encode.length = 8 + plan.size + plan.size % 2
  | .data type id declared pieces => by
    unfold Plan.encode Plan.size
    simp only [length_append, length_write32, length_replicate]
  | .group type id declared children => by
    have heven := even_encodeAll children
    unfold Plan.encode Plan.size
    simp only [length_append, length_write32]
    omega

theorem even_encodeAll : (plans : List Plan) → (encodeAll plans).length % 2 = 0
  | [] => rfl
  | plan :: rest => by
    have hplan := plan.length_encode
    have hrest := even_encodeAll rest
    unfold encodeAll
    rw [length_append]
    omega

end

/-! ## Parsing -/

/-- Where a chunk stands in a file. -/
structure Stands (input : List UInt8) (offset : ℕ) (bytes : List UInt8) : Prop where
  taken : (input.drop offset).take bytes.length = bytes

variable {input bytes more : List UInt8} {offset : ℕ}

theorem Stands.drop (h : Stands input offset (bytes ++ more))
    : Stands input (offset + bytes.length) more := by
  have htaken := congrArg (List.drop bytes.length) h.taken
  rw [List.drop_left, List.drop_take, List.length_append, Nat.add_sub_cancel_left,
    drop_drop] at htaken
  exact ⟨htaken⟩

theorem Stands.left (h : Stands input offset (bytes ++ more)) : Stands input offset bytes := by
  have htaken := congrArg (take bytes.length) h.taken
  rw [take_left, take_take, length_append, Nat.min_eq_left (Nat.le_add_right _ _)] at htaken
  exact ⟨htaken⟩

theorem Stands.read32 {value : UInt32} (h : Stands input offset (write32 value))
    : BigEndian.read32 (input.drop offset) = value := by
  have hsplit := take_append_drop 4 (input.drop offset)
  have htaken := h.taken
  rw [length_write32] at htaken
  rw [← hsplit, htaken, read32_write32_append]

mutual

def Plan.chunks : UInt32 → ℕ → ℕ → Plan → List Chunk
  | parentType, depth, offset, .data _ id _ pieces =>
    [⟨id, parentType, UInt32.ofNat pieces.flatten.length, 0, offset + 8, depth, false⟩]
  | _, depth, offset, .group type id _ children =>
    ⟨id, type, UInt32.ofNat (4 + (encodeAll children).length), 0, offset + 8 + 4, depth, true⟩ ::
      allChunks type (depth + 1) (offset + 8 + 4) children

def allChunks : UInt32 → ℕ → ℕ → List Plan → List Chunk
  | _, _, _, [] => []
  | type, depth, offset, plan :: rest =>
    plan.chunks type depth offset ++ allChunks type depth (offset + plan.encode.length) rest

end

variable {id : UInt32}

theorem parseChunk_header {fuel limit depth size : ℕ} {parentType : UInt32} {p : Parsed}
    (hid : read32 (input.drop offset) = id)
    (hsize : (read32 (input.drop (offset + 4))).toNat = size)
    (hlim : offset + 8 + size + size % 2 ≤ limit) :
    parseChunk input (fuel + 1) offset limit parentType depth p =
      if isComposite id then
        if size < 4 then .error .mangled
        else
          match parseChildren input fuel (offset + 8 + 4) (offset + 8 + size)
            (read32 (input.drop (offset + 8))) (depth + 1)
            ((p.appendChunk ⟨id, read32 (input.drop (offset + 8)),
              read32 (input.drop (offset + 4)), 0, offset + 8 + 4, depth, true⟩).appendEvent
                p.chunks.length true) with
          | .error error => .error error
          | .ok q => .ok (offset + 8 + size + size % 2, q.appendEvent p.chunks.length false)
      else
        .ok (offset + 8 + size + size % 2, p.appendData
          ⟨id, parentType, read32 (input.drop (offset + 4)), 0, offset + 8, depth, false⟩) := by
  unfold parseChunk
  dsimp only
  rw [hsize, hid, if_neg (by omega), if_neg (by omega)]
  exact if_neg (by omega)

mutual

/-- **The parser reads a chunk** that stands in its input. -/
theorem Plan.parse_encode {input : List UInt8} : (plan : Plan) →
    ∀ (parent : Option UInt32) (fuel offset limit : ℕ) (parentType : UInt32) (depth : ℕ)
      (p : Parsed), plan.Shaped parent → Stands input offset plan.encode →
      offset + plan.encode.length ≤ limit → plan.encode.length < fuel →
      plan.encode.length < 2 ^ 32 →
      ∃ q, parseChunk input fuel offset limit parentType depth p =
          .ok (offset + plan.encode.length, q) ∧
        q.chunks = p.chunks ++ plan.chunks parentType depth offset
  | .data type id declared pieces => by
    intro parent fuel offset limit parentType depth p hshaped hstands hlim hfuel hsmall
    obtain ⟨fuel, rfl⟩ : ∃ n, fuel = n + 1 := ⟨fuel - 1, by omega⟩
    have hlength := Plan.length_encode (.data type id declared pieces)
    rw [Plan.size_data] at hlength
    rw [hlength] at hlim hsmall ⊢
    unfold Plan.encode at hstands
    have hid := hstands.left.left.left.read32
    have hsize := hstands.left.left.drop.read32
    rw [length_write32] at hsize
    have hcnt : (read32 (input.drop (offset + 4))).toNat = pieces.flatten.length := by
      rw [hsize, UInt32.toNat_ofNat', Nat.mod_eq_of_lt (by omega)]
    rw [parseChunk_header hid hcnt (by omega), hshaped.1, if_neg Bool.false_ne_true, hsize]
    refine ⟨p.appendData ⟨id, parentType, UInt32.ofNat pieces.flatten.length, 0, offset + 8, depth,
      false⟩, ?_, rfl⟩
    congr 2
    omega
  | .group type id declared children => by
    intro parent fuel offset limit parentType depth p hshaped hstands hlim hfuel hsmall
    obtain ⟨fuel, rfl⟩ : ∃ n, fuel = n + 1 := ⟨fuel - 1, by omega⟩
    have hlength := Plan.length_encode (.group type id declared children)
    have heven := even_encodeAll children
    rw [Plan.size_group] at hlength
    rw [hlength] at hlim hsmall hfuel ⊢
    unfold Plan.encode at hstands
    have hid := hstands.left.left.left.read32
    have hsize := hstands.left.left.drop.read32
    have htype := hstands.left.drop.read32
    have hchildren := hstands.drop
    rw [length_write32] at hsize
    simp only [length_append, length_write32] at htype hchildren
    have hcnt : (read32 (input.drop (offset + 4))).toNat = 4 + (encodeAll children).length := by
      rw [hsize, UInt32.toNat_ofNat', Nat.mod_eq_of_lt (by omega)]
    obtain ⟨q, hq, hchunks⟩ := parse_encodeAll children (some id) fuel (offset + 8 + 4)
      (offset + 8 + (4 + (encodeAll children).length)) type (depth + 1)
      ((p.appendChunk ⟨id, type, UInt32.ofNat (4 + (encodeAll children).length), 0,
        offset + 8 + 4, depth, true⟩).appendEvent p.chunks.length true)
      hshaped.2.2 hchildren (by omega) (by omega) (by omega)
    rw [parseChunk_header hid hcnt (by omega), if_pos hshaped.1, if_neg (by omega), htype, hsize,
      hq]
    refine ⟨q.appendEvent p.chunks.length false, ?_, ?_⟩
    · dsimp only
      congr 2
      omega
    show q.chunks = _
    rw [hchunks]
    show p.chunks ++ [_] ++ _ = _
    rw [append_assoc]
    rfl

theorem parse_encodeAll {input : List UInt8} : (plans : List Plan) →
    ∀ (parent : Option UInt32) (fuel offset endOffset : ℕ) (type : UInt32) (depth : ℕ)
      (p : Parsed), allShaped parent plans → Stands input offset (encodeAll plans) →
      offset + (encodeAll plans).length = endOffset → (encodeAll plans).length + 1 < fuel →
      (encodeAll plans).length < 2 ^ 32 →
      ∃ q, parseChildren input fuel offset endOffset type depth p = .ok q ∧
        q.chunks = p.chunks ++ allChunks type depth offset plans
  | [] => by
    intro parent fuel offset endOffset type depth p _ _ hend hfuel _
    obtain ⟨fuel, rfl⟩ : ∃ n, fuel = n + 1 := ⟨fuel - 1, by omega⟩
    have hsame : offset = endOffset := hend
    refine ⟨p, ?_, (append_nil _).symm⟩
    rw [parseChildren, if_neg (by omega), if_pos hsame]
  | plan :: rest => by
    intro parent fuel offset endOffset type depth p hshaped hstands hend hfuel hsmall
    obtain ⟨fuel, rfl⟩ : ∃ n, fuel = n + 1 := ⟨fuel - 1, by omega⟩
    have hlength := plan.length_encode
    unfold encodeAll at hstands hend hfuel hsmall
    rw [length_append] at hend hfuel hsmall
    obtain ⟨q, hq, hchunks⟩ := plan.parse_encode parent fuel offset endOffset type depth p
      hshaped.1 hstands.left (by omega) (by omega) (by omega)
    obtain ⟨q', hq', hchunks'⟩ := parse_encodeAll rest parent fuel (offset + plan.encode.length)
      endOffset type depth q hshaped.2 hstands.drop (by omega) (by omega) (by omega)
    refine ⟨q', ?_, ?_⟩
    · rw [parseChildren, if_pos (by omega), hq]
      exact hq'
    · rw [hchunks', hchunks, append_assoc]
      rfl

end

/-! ## What the chunks hold -/

def Handle.stopsAt (h : Handle) (type id : UInt32) : Bool :=
  h.stops.any fun stop => stop.1 == type && stop.2 == id

def Handle.wants (h : Handle) (d : UInt32 × UInt32 × List UInt8) : Bool := h.stopsAt d.1 d.2.1

def Chunk.described (input : List UInt8) (chunk : Chunk) : UInt32 × UInt32 × List UInt8 :=
  (chunk.type, chunk.id, chunk.ownData input)

def Handle.StopsAtData (h : Handle) : Prop := ∀ stop ∈ h.stops, isComposite stop.2 = false

theorem Handle.StopsAtData.stopsAt {h : Handle} (hstops : h.StopsAtData) {type : UInt32}
    (hid : isComposite id = true) : h.stopsAt type id = false := by
  unfold Handle.stopsAt
  rw [any_eq_false]
  intro stop hstop heq
  rw [Bool.and_eq_true, beq_iff_eq, beq_iff_eq] at heq
  have hdata := hstops stop hstop
  rw [heq.2, hid] at hdata
  exact nomatch hdata

mutual

theorem Plan.composite_chunks : (plan : Plan) → ∀ (parent : Option UInt32) (parentType : UInt32)
    (depth offset : ℕ), plan.Shaped parent → ∀ c ∈ plan.chunks parentType depth offset,
      c.composite = true → isComposite c.id = true
  | .data type id declared pieces => by
    intro parent parentType depth offset _ c hc hcomp
    rw [Plan.chunks, mem_singleton] at hc
    rw [hc] at hcomp
    exact nomatch hcomp
  | .group type id declared children => by
    intro parent parentType depth offset hshaped c hc hcomp
    rw [Plan.chunks] at hc
    rcases mem_cons.mp hc with rfl | hc
    · exact hshaped.1
    · exact composite_allChunks children _ _ _ _ hshaped.2.2 c hc hcomp

theorem composite_allChunks : (plans : List Plan) → ∀ (parent : Option UInt32) (type : UInt32)
    (depth offset : ℕ), allShaped parent plans → ∀ c ∈ allChunks type depth offset plans,
      c.composite = true → isComposite c.id = true
  | [] => nofun
  | plan :: rest => by
    intro parent type depth offset hshaped c hc
    rcases mem_append.mp hc with hc | hc
    · exact plan.composite_chunks parent type depth offset hshaped.1 c hc
    · exact composite_allChunks rest parent type depth _ hshaped.2 c hc

end

mutual

/-- The chunks that are stopped at are the data chunks of the tree with such a type and identifier,
and hold their contents. -/
theorem Plan.described_chunks {input : List UInt8} {h : Handle} (hstops : h.StopsAtData) :
    (plan : Plan) → ∀ (parent : Option UInt32) (parentType : UInt32) (depth offset : ℕ),
      plan.Shaped parent → Stands input offset plan.encode → plan.encode.length < 2 ^ 32 →
      ((plan.chunks parentType depth offset).filter h.isStopped).map (Chunk.described input) =
        (plan.dataChunks parentType).filter h.wants
  | .data type id declared pieces => by
    intro parent parentType depth offset hshaped hstands hsmall
    have hlength := Plan.length_encode (.data type id declared pieces)
    rw [Plan.size_data] at hlength
    unfold Plan.encode at hstands
    have hcontent := hstands.left.drop.taken
    simp only [length_append, length_write32] at hcontent
    have hcnt : (UInt32.ofNat pieces.flatten.length).toNat = pieces.flatten.length := by
      rw [UInt32.toNat_ofNat', Nat.mod_eq_of_lt (by omega)]
    have hown : Chunk.ownData ⟨id, parentType, UInt32.ofNat pieces.flatten.length, 0, offset + 8,
        depth, false⟩ input = pieces.flatten := by
      show (input.drop (offset + 8)).take (UInt32.ofNat pieces.flatten.length).toNat = _
      rw [hcnt]
      exact hcontent
    have hstopped : h.isStopped ⟨id, parentType, UInt32.ofNat pieces.flatten.length, 0, offset + 8,
        depth, false⟩ = h.stopsAt parentType id := rfl
    have hwants : h.wants (parentType, id, pieces.flatten) = h.stopsAt parentType id := rfl
    unfold Plan.chunks Plan.dataChunks
    cases hstop : h.stopsAt parentType id with
    | true =>
      rw [filter_cons_of_pos (hstopped.trans hstop), filter_cons_of_pos (hwants.trans hstop)]
      simp only [filter_nil, map_cons, map_nil, Chunk.described, hown]
    | false =>
      rw [filter_cons_of_neg (by rw [hstopped, hstop]; exact Bool.false_ne_true),
        filter_cons_of_neg (by rw [hwants, hstop]; exact Bool.false_ne_true)]
      rfl
  | .group type id declared children => by
    intro parent parentType depth offset hshaped hstands hsmall
    have hlength := Plan.length_encode (.group type id declared children)
    rw [Plan.size_group] at hlength
    unfold Plan.encode at hstands
    have hchildren := hstands.drop
    simp only [length_append, length_write32] at hchildren
    have hnot : h.stopsAt type id = false := hstops.stopsAt hshaped.1
    unfold Plan.chunks Plan.dataChunks
    rw [filter_cons_of_neg]
    · exact described_allChunks hstops children (some id) type (depth + 1) (offset + 8 + 4)
        hshaped.2.2 hchildren (by omega)
    · show ¬h.stopsAt type id = true
      rw [hnot]
      exact Bool.false_ne_true

theorem described_allChunks {input : List UInt8} {h : Handle} (hstops : h.StopsAtData) :
    (plans : List Plan) → ∀ (parent : Option UInt32) (type : UInt32) (depth offset : ℕ),
      allShaped parent plans → Stands input offset (encodeAll plans) →
      (encodeAll plans).length < 2 ^ 32 →
      ((allChunks type depth offset plans).filter h.isStopped).map (Chunk.described input) =
        (allDataChunks type plans).filter h.wants
  | [] => fun _ _ _ _ _ _ _ => rfl
  | plan :: rest => by
    intro parent type depth offset hshaped hstands hsmall
    unfold encodeAll at hstands hsmall
    rw [length_append] at hsmall
    unfold allChunks allDataChunks
    rw [filter_append, map_append, filter_append,
      plan.described_chunks hstops parent type depth offset hshaped.1 hstands.left (by omega),
      described_allChunks hstops rest parent type depth _ hshaped.2 hstands.drop (by omega)]

end

/-- **The reader takes a whole file apart.** -/
theorem loadClipboard_encode {plan : Plan} (hshaped : plan.Shaped none)
    (hsmall : plan.encode.length < 2 ^ 32) :
    ∃ p, loadClipboard plan.encode = .ok p ∧ p.chunks = plan.chunks 0 0 0 := by
  have hstands : Stands plan.encode 0 plan.encode := ⟨take_length⟩
  obtain ⟨p, hp, hchunks⟩ := plan.parse_encode none (plan.encode.length + 2) 0 plan.encode.length
    0 0 {} hshaped hstands (by omega) (by omega) hsmall
  have hlength := plan.length_encode
  have hne : plan.encode ≠ [] := by
    rw [← length_pos_iff]
    omega
  have hroot : isComposite (read32 plan.encode) = true := by
    cases plan with
    | data type id declared pieces =>
      rcases hshaped.2 with hpar | hpar
      · exact nomatch hpar
      · exact nomatch hpar
    | group type id declared children =>
      unfold Plan.encode
      rw [append_assoc, append_assoc, read32_write32_append]
      exact hshaped.1
  refine ⟨p, ?_, hchunks⟩
  unfold loadClipboard
  rw [if_neg hne, hroot, if_neg (by decide), hp, Nat.zero_add]
  dsimp only
  rw [if_pos rfl]

end AceShell.Iff
