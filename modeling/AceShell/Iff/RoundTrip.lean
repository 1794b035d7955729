import AceShell.Iff.Write

/-!
# What is written can be read

A tree of chunks is written to a clipboard unit and read again. Scanning stops at the data chunks
that were asked for, in the order of the document, and reads return their contents
(`write_read`).
-/

namespace AceShell.Iff

open BigEndian Handle List

/-! ## Scanning -/

variable {h : Handle} {index total : ℕ} {skipped rest : List Chunk} {chunk : Chunk} {r : Reader}
  {stops : List (UInt32 × UInt32)}

section Scanning

variable {content : List UInt8} (beyond : ℤ → UInt8)

def Reader.scanned (r : Reader) (sizes : List ℕ) : Reader :=
  sizes.foldl (fun r (size : ℕ) => r.call beyond (.read size)) (r.call beyond (.parse .scan))

def Reader.scanAll : List (List ℕ) → Reader → List (Option IffError × List UInt8) × Reader
  | [], r => ([], r)
  | sizes :: rest, r =>
    let (results, r') := scanAll rest (r.scanned beyond sizes)
    (((r.handle.parseIff .scan).1, (r.scanned beyond sizes).bytes) :: results, r')

/-- A reader in a chunk of which `total` bytes were asked for, with the chunks that scanning has
still to look at. -/
structure Reader.At (content : List UInt8) (r : Reader) (chunk : Chunk) (total : ℕ)
    (rest : List Chunk) (stops : List (UInt32 × UInt32)) : Prop where
  good : r.Good content
  start : r.start = 0
  current : ∃ scan : UInt32, r.handle.currentChunk = some { chunk with scan } ∧
    scan.toNat = min total chunk.ownSize
  rest : r.handle.chunks.drop r.handle.scanCursor = rest
  before : ∃ index, r.handle.current = some index ∧ index < r.handle.scanCursor
  stops : r.handle.stops = stops

theorem nextStop_skip (hskip : ∀ c ∈ skipped, h.isStopped c = false)
    (hchunk : h.isStopped chunk = true) :
    h.nextStop index (skipped ++ chunk :: rest) = some (index + skipped.length) := by
  induction skipped generalizing index with
  | nil =>
    rw [nil_append, nextStop, if_pos hchunk]
    rfl
  | cons c skipped ih =>
  have hc := hskip c mem_cons_self
  rw [cons_append, nextStop, hc, if_neg Bool.false_ne_true,
    ih fun c hmem => hskip c (mem_cons_of_mem _ hmem), length_cons]
  congr 1
  omega

theorem nextStop_none (hrest : ∀ c ∈ rest, h.isStopped c = false)
    : h.nextStop index rest = none := by
  induction rest generalizing index with
  | nil => rfl
  | cons c rest ih =>
    rw [nextStop, hrest c mem_cons_self, if_neg Bool.false_ne_true,
      ih fun c hmem => hrest c (mem_cons_of_mem _ hmem)]

theorem parseIff_scan (hr : h.Reads content) :
    h.parseIff .scan =
      match h.nextStop h.scanCursor (h.chunks.drop h.scanCursor) with
      | none => (some .eof, { h with scanCursor := max h.scanCursor h.chunks.length })
      | some index =>
        (none, { h with
          chunks := h.chunks.modify index fun chunk => { chunk with scan := 0 }
          scanCursor := index + 1, current := some index
          depth := (h.chunks[index]?.map Chunk.depth).getD 0 + 1 }) := by
  unfold Handle.parseIff
  rw [hr.isOpen, hr.notWriting]
  rfl

/-- **Scanning** goes to the next chunk that is asked for. -/
theorem at_scan (hr : r.Good content)
    (hchunks : r.handle.chunks.drop r.handle.scanCursor = skipped ++ chunk :: rest)
    (hskip : ∀ c ∈ skipped, r.handle.isStopped c = false)
    (hchunk : r.handle.isStopped chunk = true) :
    (r.handle.parseIff .scan).1 = none ∧
      (r.call beyond (.parse .scan)).At content chunk 0 rest r.handle.stops := by
  have hparse := parseIff_scan hr.handle
  rw [hchunks, nextStop_skip hskip hchunk] at hparse
  have hgood := good_parse beyond hr .scan
  have hlookup : r.handle.chunks[r.handle.scanCursor + skipped.length]? = some chunk := by
    rw [← getElem?_drop, hchunks, getElem?_append_right (Nat.le_refl _), Nat.sub_self]
    rfl
  have hcall : r.call beyond (.parse .scan) =
      { handle := (r.handle.parseIff .scan).2
        start := ((r.handle.parseIff .scan).2.currentChunk.map (·.scan.toNat)).getD 0 } := by
    unfold Reader.call
    dsimp only
    rw [hparse]
  have hcur : (r.handle.parseIff .scan).2.currentChunk = some { chunk with scan := 0 } := by
    rw [hparse]
    show (r.handle.chunks.modify _ _)[_]? = _
    rw [getElem?_modify_eq, hlookup]
    rfl
  refine ⟨by rw [hparse], hgood, ?_, ⟨0, ?_, (Nat.zero_min _).symm⟩, ?_,
    ⟨r.handle.scanCursor + skipped.length, ?_⟩, ?_⟩
  · rw [hcall]
    rw [hcur]
    rfl
  · rw [hcall]
    exact hcur
  · rw [hcall, hparse]
    rw [drop_modify_of_lt _ _ _ _ (Nat.lt_add_one _), Nat.add_assoc, ← drop_drop, hchunks,
      ← drop_drop, drop_left]
    rfl
  · rw [hcall, hparse]
    exact ⟨rfl, Nat.lt_succ_self _⟩
  · rw [hcall, hparse]

theorem Reader.At.bytes_eq (h : r.At content chunk total rest stops) :
    r.bytes = (chunk.ownData content).take total := by
  obtain ⟨scan, hcur, hscan⟩ := h.current
  have hreached := h.good.reached _ hcur
  obtain ⟨-, -, hbytes⟩ := h.good.inside _ hcur
  rw [h.start, Nat.zero_add] at hreached
  rw [h.start, hreached] at hbytes
  rw [hbytes]
  show (chunk.ownData content).take scan.toNat = _
  rw [hscan]
  unfold Chunk.ownData
  rw [take_take, take_take, Nat.min_assoc, Nat.min_self]

/-- **Reading** goes on in the chunk. -/
theorem at_read (hlen : content.length < 2 ^ 31) (hdata : chunk.composite = false)
    (h : r.At content chunk total rest stops) (size : ℕ) :
    (r.call beyond (.read size)).At content chunk (total + size) rest stops := by
  obtain ⟨scan, hcur, hscan⟩ := h.current
  have hw := h.good.handle.within_current hcur
  have hsize : chunk.size.toNat < 2 ^ 31 := hw.size_lt hlen
  have hown : chunk.ownSize = chunk.size.toNat := by
    unfold Chunk.ownSize
    rw [hdata]
    rfl
  have hamount : amount { chunk with scan } size = min size (chunk.ownSize - scan.toNat) := by
    rw [amount_eq hw hlen, hown]
    rfl
  have hend : scan.toNat + amount { chunk with scan } size ≤ chunk.ownSize := by omega
  obtain ⟨index, hidx, hchunk, heq⟩ := call_read beyond h.good (Int.natCast_nonneg size) hcur
  obtain ⟨index', hidx', hbefore⟩ := h.before
  have hsame : index = index' := Option.some.inj (hidx.symm.trans hidx')
  have hset := currentChunk_set { chunk with
    scan := UInt32.ofNat (scan.toNat + amount { chunk with scan } size) } hidx hchunk
  refine ⟨good_read h.good hlen (Int.natCast_nonneg size) hcur hend, ?_,
    ⟨UInt32.ofNat (scan.toNat + amount { chunk with scan } size), ?_, ?_⟩, ?_, ⟨index, ?_⟩, ?_⟩
  · rw [heq]
    exact h.start
  · rw [heq]
    exact hset
  · rw [UInt32.toNat_ofNat']
    omega
  · rw [heq]
    show (r.handle.chunks.set index _).drop r.handle.scanCursor = rest
    rw [drop_set_of_lt (by omega)]
    exact h.rest
  · rw [heq]
    exact ⟨hidx, hsame ▸ hbefore⟩
  · rw [heq]
    exact h.stops

theorem at_reads (hlen : content.length < 2 ^ 31) (hdata : chunk.composite = false)
    (sizes : List ℕ) (h : r.At content chunk total rest stops) :
    (sizes.foldl (fun r (size : ℕ) => r.call beyond (.read size)) r).At content chunk
      (total + sizes.sum) rest stops := by
  induction sizes generalizing r total with
  | nil => exact h
  | cons size sizes ih =>
    have hrest := ih (at_read beyond hlen hdata h size)
    rwa [Nat.add_assoc] at hrest

theorem isStopped_of_stops {h' : Handle} (hstops : h'.stops = h.stops) (chunk : Chunk) :
    h'.isStopped chunk = h.isStopped chunk := by
  unfold Handle.isStopped
  rw [hstops]

def results (content : List UInt8) (chunks : List Chunk) (requests : List (List ℕ)) :
    List (Option IffError × List UInt8) :=
  zipWith (fun chunk sizes => (none, (chunk.ownData content).take sizes.sum)) chunks requests

/-- **Scanning all.** The chunks that are asked for come in their order, and then the end. -/
theorem scanAll_eq (hlen : content.length < 2 ^ 31) (requests : List (List ℕ)) (hr : r.Good content)
    (hstops : r.handle.stops = h.stops) (hrest : r.handle.chunks.drop r.handle.scanCursor = rest)
    (hdata : ∀ c ∈ rest, h.isStopped c = true → c.composite = false)
    (hcnt : requests.length = (rest.filter h.isStopped).length) :
    (r.scanAll beyond requests).1 = results content (rest.filter h.isStopped) requests ∧
      ((r.scanAll beyond requests).2.handle.parseIff .scan).1 = some .eof := by
  induction requests generalizing r rest with
  | nil =>
    have hnone : rest.filter h.isStopped = [] := length_eq_zero_iff.mp hcnt.symm
    rw [hnone]
    refine ⟨rfl, ?_⟩
    show (r.handle.parseIff .scan).1 = _
    rw [parseIff_scan hr.handle, hrest, nextStop_none]
    intro c hc
    rw [isStopped_of_stops hstops]
    exact Bool.eq_false_iff.mpr (filter_eq_nil_iff.mp hnone c hc)
  | cons sizes requests ih =>
  obtain ⟨chunk, tail, hfilter⟩ := exists_cons_of_length_pos
    (by rw [← hcnt]; exact Nat.succ_pos _ : 0 < (rest.filter h.isStopped).length)
  obtain ⟨skipped, behind, rfl, hskip, hchunk, htail⟩ := filter_eq_cons_iff.mp hfilter
  obtain ⟨hok, hat⟩ := at_scan beyond hr hrest
    (fun c hc => (isStopped_of_stops hstops c).trans (Bool.eq_false_iff.mpr (hskip c hc)))
    ((isStopped_of_stops hstops chunk).trans hchunk)
  have hcomposite := hdata chunk (by simp) hchunk
  have hread : (r.scanned beyond sizes).At content chunk sizes.sum behind r.handle.stops := by
    have hreads := at_reads beyond hlen hcomposite sizes hat
    rw [Nat.zero_add] at hreads
    exact hreads
  have hafter := ih hread.good (hread.stops.trans hstops) hread.rest
    (fun c hc => hdata c (by simp [hc])) (by
      rw [hfilter, length_cons, length_cons] at hcnt
      rw [htail]
      omega)
  rw [hfilter]
  refine ⟨?_, hafter.2⟩
  show (_, (r.scanned beyond sizes).bytes) :: _ = _
  rw [hok, hread.bytes_eq, hafter.1, htail]
  rfl

end Scanning

/-! ## The round trip -/

variable {plan : Plan}

theorem write_stored (hshaped : plan.Shaped none) (htyped : plan.Typed)
    (hsize : plan.encode.length < 2 ^ 31) (hclosed : h.isOpen = false) :
    ∃ h₁ h₂, h.openIff true = (none, h₁) ∧ plan.write h₁ = (none, h₂) ∧
      h₂.closeIff.clip.stored = plan.encode := by
  have hlength := plan.length_encode
  have hopen : h.openIff true =
      (none, { clip := h.clip, stops := h.stops, isOpen := true, writing := true }) := by
    unfold Handle.openIff
    rw [hclosed]
    rfl
  have hstart : Writing { clip := h.clip, stops := h.stops, isOpen := true, writing := true }
      [] [] := ⟨rfl, rfl, rfl, rfl, rfl, fun hne => absurd rfl hne⟩
  obtain ⟨h₂, hwrite, hw⟩ := plan.write_encode _ [] [] hstart hshaped htyped (by
    rw [length_nil]
    omega)
  refine ⟨_, h₂, hopen, hwrite, ?_⟩
  have hne : plan.encode ≠ [] := by
    rw [← length_pos_iff]
    omega
  have hstack : h₂.writeStack = [] := hw.stack
  have hpend : h₂.clip.pending = plan.encode := by
    have hwritten := hw.written
    rwa [hw.started hne] at hwritten
  unfold Handle.closeIff
  rw [hw.isOpen, hw.writing, hstack]
  show (updateClipboard h₂).clip.stored = _
  unfold Handle.updateClipboard
  rw [hw.started hne]
  exact hpend

theorem described_data {parentType : UInt32} {depth offset : ℕ} {parent : Option UInt32}
    (hstops : h.StopsAtData) (hshaped : plan.Shaped parent) :
    ∀ c ∈ plan.chunks parentType depth offset, h.isStopped c = true → c.composite = false := by
  intro c hc hstopped
  cases hcomp : c.composite with
  | false => rfl
  | true =>
    have hid := plan.composite_chunks parent parentType depth offset hshaped c hc hcomp
    have hnot : h.isStopped c = false := hstops.stopsAt hid
    exact nomatch (hnot.symm.trans hstopped)

/-- **What is written can be read.** For every tree of chunks, in which every composite chunk has a
type, writing succeeds however the data is split and the sizes are declared. Opening the file for
reading succeeds, and scanning for any data chunks returns their contents, in the order of the
document and in pieces of any sizes. -/
theorem write_read {plan : Plan} (hshaped : plan.Shaped none) (htyped : plan.Typed)
    (hsize : plan.encode.length < 2 ^ 31) {h : Handle} (hclosed : h.isOpen = false) :
    ∃ h₁ h₂, h.openIff true = (none, h₁) ∧ plan.write h₁ = (none, h₂) ∧
      ∀ reader : Handle, reader.isOpen = false → reader.clip = h₂.closeIff.clip →
        reader.StopsAtData →
        ∃ h₃, reader.openIff false = (none, h₃) ∧
          ∀ (beyond : ℤ → UInt8) (requests : List (List ℕ)),
            requests.length = ((plan.dataChunks 0).filter reader.wants).length →
            (Reader.scanAll beyond requests { handle := h₃ }).1 =
              zipWith (fun d sizes => (none, d.2.2.take sizes.sum))
                ((plan.dataChunks 0).filter reader.wants) requests ∧
            ((Reader.scanAll beyond requests { handle := h₃ }).2.handle.parseIff .scan).1 =
              some .eof := by
  obtain ⟨h₁, h₂, hopen, hwrite, hstored⟩ := write_stored hshaped htyped hsize hclosed
  refine ⟨h₁, h₂, hopen, hwrite, ?_⟩
  intro reader hreader hclip hstops
  obtain ⟨p, hload, hchunks⟩ := loadClipboard_encode hshaped (by omega)
  rw [← hstored, ← hclip] at hload
  have hread := openIff_read hreader
  rw [hload] at hread
  refine ⟨_, hread, ?_⟩
  intro beyond requests hcount
  have hcontent : reader.clip.stored = plan.encode := by rw [hclip, hstored]
  have hwithin := within_loadClipboard hload
  have hstands : Stands plan.encode 0 plan.encode := ⟨take_length⟩
  have hdescribed := plan.described_chunks hstops none 0 0 0 hshaped hstands (by omega)
  have hgood : Reader.Good plan.encode { handle :=
      { clip := reader.clip, stops := reader.stops, isOpen := true, input := reader.clip.stored
        chunks := p.chunks, events := p.events } } := by
    rw [hcontent] at hwithin ⊢
    exact ⟨⟨rfl, rfl, rfl, hwithin.chunks, hwithin.events⟩,
      nofun, nofun⟩
  have hdata : ∀ c ∈ p.chunks, reader.isStopped c = true → c.composite = false := by
    rw [hchunks]
    exact described_data hstops hshaped
  obtain ⟨hresults, hend⟩ := scanAll_eq beyond (h := reader) hsize requests hgood rfl rfl hdata (by
    rw [hcount, ← hdescribed, length_map, ← hchunks]
    rfl)
  refine ⟨?_, hend⟩
  rw [hresults, ← hdescribed, zipWith_map_left, ← hchunks]
  rfl

def smallForm : Plan :=
  .group (makeId 'T' 'E' 'S' 'T') idForm true [.data 0 (makeId 'B' 'O' 'D' 'Y') false [[1], [2, 3]]]

theorem write_read_smallForm :
    ∃ h₁ h₂, ({} : Handle).openIff true = (none, h₁) ∧ smallForm.write h₁ = (none, h₂) ∧
      ∀ reader : Handle, reader.isOpen = false → reader.clip = h₂.closeIff.clip →
        reader.StopsAtData →
        ∃ h₃, reader.openIff false = (none, h₃) ∧
          ∀ (beyond : ℤ → UInt8) (requests : List (List ℕ)),
            requests.length = ((smallForm.dataChunks 0).filter reader.wants).length →
            (Reader.scanAll beyond requests { handle := h₃ }).1 =
              zipWith (fun d sizes => (none, d.2.2.take sizes.sum))
                ((smallForm.dataChunks 0).filter reader.wants) requests ∧
            ((Reader.scanAll beyond requests { handle := h₃ }).2.handle.parseIff .scan).1 =
              some .eof := by
  have hdata : (Plan.data 0 (makeId 'B' 'O' 'D' 'Y') false [[1], [2, 3]]).Shaped (some idForm) :=
    ⟨by decide, Or.inl rfl⟩
  have hshaped : smallForm.Shaped none := ⟨by decide, fun h => absurd h (by decide), hdata, trivial⟩
  exact write_read hshaped ⟨by decide, trivial, trivial⟩ (by decide) rfl

/-- A FORM without a type cannot be written. -/
theorem untyped_form_refused :
    (Plan.group idNull idForm false []).Shaped none ∧
      ((Plan.group idNull idForm false []).write (({} : Handle).openIff true).2).1 = some .notIff :=
  ⟨⟨by decide, fun h => absurd h (by decide), trivial⟩, by decide +kernel⟩

end AceShell.Iff
