import AceShell.Names.Mapper

/-!
# The component round trip

Every spelling `mapComponent` gives an entry is a legal AmigaDOS component that `unmapComponent`
reads back as that entry: an escape is read where it was written (`escapeMarker_header`), its
payload decodes to the tail (`escapeText_literal`, `compressedPayloadDecode_best`), and a name
spelled as it is is the case variant `matchExistingCase` picks (`matchExistingCase_plain`).
-/

namespace AceShell

open Text List

variable {z : Zlib} {parent : Option (List Name)} {h : Name}

theorem LinuxName.nul_drop (hn : LinuxName h) (k : ℕ) : 0 ∉ h.drop k :=
  fun hm => hn.nul_notMem (mem_of_mem_drop hm)

theorem LinuxName.length_drop_le (hn : LinuxName h) (k : ℕ) : (h.drop k).length ≤ nameMax := by
  rw [length_drop]
  exact (Nat.sub_le _ _).trans hn.length_le

/-! ## The split point -/

theorem foldl_min_le {α : Type} (f : α → ℕ) (xs : List α) (n : ℕ) :
    xs.foldl (fun m x => min m (f x)) n ≤ n :=
  foldlRecOn (motive := (· ≤ n)) xs _ le_rfl fun _ hm _ _ => (min_le_left _ _).trans hm

theorem splitOf_le_unspellable (z : Zlib) (parent : Option (List Name)) (h : Name) :
    splitOf z parent h ≤ (firstUnspellableIndex z h).getD h.length := by
  refine (min_le_left _ _).trans ?_
  cases parent with
  | none => exact le_rfl
  | some stream => exact foldl_min_le _ _ _

theorem splitOf_le_length (z : Zlib) (parent : Option (List Name)) (h : Name) :
    splitOf z parent h ≤ h.length := min_le_right _ _

theorem compressSplit_le (split : ℕ) (h : Name) : compressSplit split h ≤ split := by
  unfold compressSplit
  split_ifs
  · exact Nat.zero_le _
  · exact le_rfl

/-! ## No separators -/

def Spellable (c : UInt8) : Prop := c ≠ colon ∧ c ≠ slash

variable {header : Name}

theorem spellable_escape {payload : Name} (hh : ∀ c ∈ header, Spellable c)
    (hp : ∀ c ∈ payload, Spellable c) : ∀ c ∈ header ++ mappedMarker :: payload, Spellable c := by
  exact forall_mem_append.mpr ⟨hh, forall_mem_cons.mpr ⟨⟨by decide, by decide⟩, hp⟩⟩

variable {n : ℕ}

theorem spellable_header (hn : n ≤ splitOf z parent h) : ∀ c ∈ h.take n, Spellable c :=
  ne_separator_of_take (hn.trans (splitOf_le_unspellable z parent h))

theorem firstUnspellableIndex_of_not_needs (hneed : componentNeedsMapping z h = false) :
    h.length ≤ amigaComponentLimit ∧ firstUnspellableIndex z h = none := by
  unfold componentNeedsMapping at hneed
  simpa using hneed

variable {s : Name}

/-- **Every spelling is an AmigaDOS component.** It fits a FileInfoBlock and has no separator. -/
theorem Spells.component (hs : Spells z parent h s) :
    s.length ≤ amigaComponentLimit ∧ ∀ c ∈ s, Spellable c := by
  cases hs with
  | fixed hs =>
    unfold amigaComponentForHost at hs
    unfold Spellable
    split_ifs at hs <;>
      (obtain rfl := Option.some.inj hs; exact ⟨by decide, all_iff_forall_prop.mp (by decide)⟩)
  | plain hfix hneed hcase =>
    obtain ⟨hlen, hnone⟩ := firstUnspellableIndex_of_not_needs hneed
    refine ⟨hlen, ?_⟩
    have := @ne_separator_of_take z h h.length (by rw [hnone]; exact le_rfl)
    rwa [take_length] at this
  | literal hfix hneed henc htail hlen =>
    refine ⟨hlen, spellable_escape (spellable_header le_rfl) fun c hc => ?_⟩
    have := payloadChar_of_base32Encode henc hc
    exact ⟨this.ne_colon, this.ne_slash⟩
  | compressed hfix hneed hlit htail hbest henc hlen =>
  refine ⟨hlen, spellable_escape (spellable_header (compressSplit_le _ _)) fun c hc => ?_⟩
  rcases mem_cons.mp hc with rfl | hc
  · exact ⟨by decide, by decide⟩
  · have := payloadChar_of_dense128Encode henc hc
    exact ⟨this.ne_colon, this.ne_slash⟩

/-! ## Reading an escape -/

theorem hostComponentForAmiga_escape (header payload : Name) :
    hostComponentForAmiga (header ++ mappedMarker :: payload) = none := by
  have hm : mappedMarker ∈ header ++ mappedMarker :: payload := by simp
  unfold hostComponentForAmiga
  rw [if_neg, if_neg]
  · intro he
    rw [he] at hm
    revert hm
    decide
  · intro he
    rw [he] at hm
    revert hm
    decide

theorem getElem?_after_marker (header payload : Name) :
    (header ++ mappedMarker :: payload)[header.length + 1]? = payload.head? := by
  rw [getElem?_append_right (Nat.le_add_right _ 1), Nat.add_sub_cancel_left]
  cases payload <;> rfl

theorem drop_after_marker (header payload : Name) (n : ℕ) :
    (header ++ mappedMarker :: payload).drop (header.length + 1 + n) = payload.drop n := by
  rw [Nat.add_assoc, ← drop_drop, drop_left, Nat.add_comm 1 n]
  rfl

def escapeText (z : Zlib) (suffix : Name) : Option Name :=
  if suffix.head? = some zeroDigit then compressedPayloadDecode z (suffix.drop 1) (nameMax + 2)
  else
    match base32Decode suffix (nameMax + 1) with
    | some payload => if payload.getLast? = some 0 then some payload.dropLast else none
    | none => none

theorem unmapComponent_escape {c : Name} {i : ℕ} (hi : escapeMarker z c = some i) :
    unmapComponent z parent c n =
      copyOut (((escapeText z (c.drop (i + 1))).map (c.take i ++ ·)).getD c) n := by
  obtain ⟨header, suffix, rfl, rfl, hv⟩ := escapeMarker_spec hi
  unfold unmapComponent
  rw [hostComponentForAmiga_escape, hi]
  simp only
  have hdrop := drop_after_marker header suffix
  rw [getElem?_after_marker, hdrop 1, hdrop 0, drop_zero]
  unfold escapeText
  by_cases h0 : suffix.head? = some zeroDigit
  · rw [if_pos h0, if_pos h0]
    cases compressedPayloadDecode z (suffix.drop 1) (nameMax + 2) <;> rfl
  rw [if_neg h0, if_neg h0]
  cases base32Decode suffix (nameMax + 1) with
  | none => rfl
  | some payload =>
  simp only
  by_cases hlast : payload.getLast? = some 0
  · rw [if_pos hlast, if_pos hlast]
    rfl
  · rw [if_neg hlast, if_neg hlast]
    rfl

variable {tailText : Name}

theorem unmap_escape {payload : Name} (hv : escapePayloadValid z payload = true)
    (ht : escapeText z payload = some tailText) :
    unmapComponent z parent (header ++ mappedMarker :: payload) n =
      copyOut (header ++ tailText) n := by
  rw [unmapComponent_escape (escapeMarker_header header hv), ← Nat.add_zero (header.length + 1),
    drop_after_marker, drop_zero, ht, take_left]
  rfl

theorem escapeText_compressed (payload : Name) :
    escapeText z (zeroDigit :: payload) = compressedPayloadDecode z payload (nameMax + 2) := by
  unfold escapeText
  rw [head?_cons, if_pos rfl, drop_succ_cons, drop_zero]

theorem escapePayloadValid_compressed (payload : Name) :
    escapePayloadValid z (zeroDigit :: payload) =
      (compressedPayloadDecode z payload (nameMax + 2)).isSome := by
  unfold escapePayloadValid
  rw [head?_cons, if_pos rfl, drop_succ_cons, drop_zero]

variable {encoded : Name}

theorem base32Decode_literal {m : ℕ} (htail : tailText.length < m)
    (he : base32Encode (tailText ++ [0]) n = some encoded) :
    base32Decode encoded m = some (tailText ++ [0]) := by
  refine base32Decode_encode (by simp) ?_ he
  rw [length_append]
  exact htail

theorem escapePayloadValid_literal (hnul : 0 ∉ tailText) (htail : tailText.length ≤ nameMax)
    (he : base32Encode (tailText ++ [0]) n = some encoded) :
    escapePayloadValid z encoded = true := by
  unfold escapePayloadValid
  rw [if_neg (head_of_base32Encode he), base32Decode_literal (by omega) he]
  simp only [literalPayload, getLast?_append, getLast?_singleton, Option.some_or,
    beq_self_eq_true, dropLast_concat, Bool.true_and, all_eq_true, bne_iff_ne]
  exact fun c hc h0 => hnul (h0 ▸ hc)

theorem escapeText_literal (htail : tailText.length ≤ nameMax)
    (he : base32Encode (tailText ++ [0]) n = some encoded) :
    escapeText z encoded = some tailText := by
  unfold escapeText
  rw [if_neg (head_of_base32Encode he), base32Decode_literal (by omega) he]
  simp

/-! ## Reading a compressed payload -/

variable {best : Name}

theorem bestCompressed_cases (hb : bestCompressed z tailText = some best) :
    (∃ packed, pack39Encodable tailText = true ∧
      pack39Encode tailText (nameMax + 1) = some packed ∧ best = packed ++ [pack39Trailer]) ∨
    (∃ out, deflateCompress z tailText (nameMax + 1) = some out ∧
      best = out ++ [deflateTrailer]) := by
  -- the packed candidate, if there is one, is of the first form
  have hpacked : ∀ {b : Name}, (if pack39Encodable tailText
      then (pack39Encode tailText (nameMax + 1)).map (· ++ [pack39Trailer]) else none) = some b →
      ∃ packed, pack39Encodable tailText = true ∧
        pack39Encode tailText (nameMax + 1) = some packed ∧ b = packed ++ [pack39Trailer] := by
    intro b hb
    split_ifs at hb with henc
    obtain ⟨packed, hp, rfl⟩ := Option.map_eq_some_iff.mp hb
    exact ⟨packed, henc, hp, rfl⟩
  unfold bestCompressed at hb
  simp only at hb
  split at hb
  · exact Or.inl (hpacked hb)
  rename_i out hout
  split at hb
  · exact Or.inr ⟨out, hout, (Option.some.inj hb).symm⟩
  rename_i b hbest
  split_ifs at hb
  · exact Or.inr ⟨out, hout, (Option.some.inj hb).symm⟩
  · exact Or.inl (hpacked (hbest.trans hb))

theorem compressedPayloadDecode_best (hnul : 0 ∉ tailText) (htail : tailText.length ≤ nameMax)
    (hb : bestCompressed z tailText = some best) (henc : dense128Encode best n = some encoded) :
    compressedPayloadDecode z encoded (nameMax + 2) = some tailText := by
  have hdec : ∀ {data : Name} {t : UInt8}, data.length ≤ nameMax + 1 → best = data ++ [t] →
      dense128Decode encoded (nameMax + 2) = some (data ++ [t]) := by
    rintro data t hlen rfl
    refine dense128Decode_encode (by simp) ?_ henc
    rw [length_append, length_singleton]
    omega
  unfold compressedPayloadDecode
  rcases bestCompressed_cases hb with ⟨packed, henc39, hp, hbest⟩ | ⟨out, hout, hbest⟩
  · obtain ⟨-, -, -, -, -, -, -, -, -, hlen⟩ := pack39Encode_spec hp
    rw [hdec hlen hbest]
    simp only [getLast?_append, getLast?_singleton, Option.some_or, if_true, dropLast_concat]
    rw [pack39Decode_encode (by omega) (by omega) hp]
    simp only
    rw [henc39, pack39Encode_mono (by omega) hp]
    simp
  have hlen : out.length ≤ nameMax + 1 := z.deflate_length hout
  have hne : deflateTrailer ≠ pack39Trailer := by decide
  rw [hdec hlen hbest]
  simp only [getLast?_append, getLast?_singleton, Option.some_or, Option.some.injEq,
    hne, if_false, if_true, dropLast_concat]
  have hinf : deflateDecompress z out (nameMax + 2) = some tailText := by
    unfold deflateDecompress
    rw [z.inflate_deflate hout (by omega)]
    simp only
    rw [if_neg (by omega), cstr_eq_self hnul]
  rw [hinf]
  simp only
  unfold deflateCompress
  rw [z.deflate_mono hout (by omega)]
  simp

/-! ## Reading a plain name -/

theorem mem_caseVariants {stream : List Name} {name entry : Name} :
    entry ∈ caseVariants stream name ↔
      entry ∈ stream ∧ entry ≠ dotName ∧ entry ≠ dotDotName ∧ caseEq entry name = true := by
  unfold caseVariants
  simp [mem_filter, and_assoc]

theorem filter_length_caseVariants (dir : Directory) (name : Name) :
    ((caseVariants dir.stream name).filter fun e => decide (e.length < nameMax + 1)) =
      caseVariants dir.stream name := by
  rw [filter_eq_self]
  intro e he
  obtain ⟨hmem, hdot, hdotDot, -⟩ := mem_caseVariants.mp he
  rcases dir.valid e hmem with rfl | rfl | hname
  · exact absurd rfl hdot
  · exact absurd rfl hdotDot
  · have := hname.length_le
    exact decide_eq_true (by omega)

theorem lexFirst_of_not_needs {dir : Directory}
    (hcase : hostCaseVariantNeedsMapping (some dir.stream) h = false) :
    lexFirst (caseVariants dir.stream h) = some h ∨
      lexFirst (caseVariants dir.stream h) = none := by
  by_cases hfst : lexFirst (caseVariants dir.stream h) = some h
  · exact Or.inl hfst
  -- otherwise nothing collides, and the scan can only have found `h`
  right
  have hnone : ∀ e ∈ caseVariants dir.stream h, e = h := by
    simpa [hostCaseVariantNeedsMapping, hfst] using hcase
  cases hbest : lexFirst (caseVariants dir.stream h) with
  | none => rfl
  | some best => exact absurd (hnone best (lexFirst_mem hbest) ▸ hbest) hfst

variable {dir : Option Directory}

theorem matchExistingCase_plain
    (hcase : hostCaseVariantNeedsMapping (dir.map Directory.stream) h = false) :
    matchExistingCase (dir.map Directory.stream) h n = h := by
  unfold matchExistingCase
  cases dir with
  | none => rfl
  | some dir =>
  simp only [Option.map_some]
  rw [filter_length_caseVariants]
  rcases lexFirst_of_not_needs hcase with hf | hf
  · rw [hf]
    simp
  · rw [hf]

theorem hostComponentForAmiga_linuxName (hn : LinuxName h) : hostComponentForAmiga h = none := by
  have hdot : h ≠ ascii "." := hn.ne_dot
  have hdotDot : h ≠ ascii ".." := hn.ne_dotDot
  unfold hostComponentForAmiga
  rw [if_neg hdot, if_neg hdotDot]

theorem unmap_plain (hn : LinuxName h) (hfit : h.length < n)
    (hneed : componentNeedsMapping z h = false)
    (hcase : hostCaseVariantNeedsMapping (dir.map Directory.stream) h = false) :
    unmapComponent z (dir.map Directory.stream) h n = .ok h := by
  have hmarker := escapeMarker_eq_none_of_spellable (firstUnspellableIndex_of_not_needs hneed).2
  unfold unmapComponent
  rw [hostComponentForAmiga_linuxName hn, hmarker]
  rw [copyOut_eq_ok.mpr ⟨hfit, rfl⟩]
  simp only [Except.map, matchExistingCase_plain hcase]

/-! ## The round trip -/

/-- A spelling reads back in the directory it was made for, whether or not the name is there and
whether or not the directory can be listed. -/
theorem Spells.unmap (hname : LinuxName h) (hn : nameMax < n)
    (hs : Spells z (dir.map Directory.stream) h s) :
    unmapComponent z (dir.map Directory.stream) s n = .ok h := by
  have hfit : h.length < n := hname.length_le.trans_lt hn
  cases hs with
  | fixed hs =>
    unfold amigaComponentForHost at hs
    have hbig : 2 < n := lt_trans (by decide) hn
    split_ifs at hs with h1 h2
    · obtain rfl := Option.some.inj hs
      subst h1
      exact copyOut_eq_ok.mpr ⟨lt_trans (by decide) hbig, rfl⟩
    · obtain rfl := Option.some.inj hs
      subst h2
      exact copyOut_eq_ok.mpr ⟨hbig, rfl⟩
  | plain hfix hneed hcase => exact unmap_plain hname hfit hneed hcase
  | literal hfix hneed henc _ _ =>
    rw [unmap_escape (escapePayloadValid_literal (hname.nul_drop _) (hname.length_drop_le _) henc)
      (escapeText_literal (hname.length_drop_le _) henc), take_append_drop]
    exact copyOut_eq_ok.mpr ⟨hfit, rfl⟩
  | compressed hfix hneed hlit _ hbest henc _ =>
    have hdec := compressedPayloadDecode_best (hname.nul_drop _) (hname.length_drop_le _) hbest henc
    rw [unmap_escape (by rw [escapePayloadValid_compressed, hdec]; rfl)
      ((escapeText_compressed _).trans hdec), take_append_drop]
    exact copyOut_eq_ok.mpr ⟨hfit, rfl⟩

/-- **Name codec round trip.** A spelling `map_component` gives an entry of a directory has at
most 107 bytes, neither colon nor slash, and `unmap_component` reads it back as that entry. The
result buffer of the decoder only has to hold a Linux name. -/
theorem unmapComponent_mapComponent (z : Zlib) (dir : Directory) {h s : Name} {mapSize n : ℕ}
    (he : dir.IsEntry h) (hn : nameMax < n)
    (hm : mapComponent z (some dir.stream) h mapSize = .ok s) :
    s.length ≤ 107 ∧ colon ∉ s ∧ slash ∉ s ∧
      unmapComponent z (some dir.stream) s n = .ok h := by
  have hs : Spells z ((some dir).map Directory.stream) h s := spells_of_map hm
  obtain ⟨hlen, hsep⟩ := hs.component
  exact ⟨hlen, fun hc => (hsep _ hc).1 rfl, fun hc => (hsep _ hc).2 rfl, hs.unmap he.2 hn⟩

/-- Two names that differ in case only: `Notes` comes first and keeps its spelling, `notes` is
escaped. -/
def notesDir : Directory :=
  .ofNames [ascii "notes", ascii "Notes"] (by decide)

theorem unmapComponent_mapComponent_notes :
    mapComponent storedZlib (some notesDir.stream) (ascii "notes") 108 = .ok (ascii "^NZXXIZLTAA") ∧
      unmapComponent storedZlib (some notesDir.stream) (ascii "^NZXXIZLTAA") pathMax =
        .ok (ascii "notes") := by
  have hm : mapComponent storedZlib (some notesDir.stream) (ascii "notes") 108 =
      .ok (ascii "^NZXXIZLTAA") := by decide +kernel
  have he : notesDir.IsEntry (ascii "notes") := ⟨by decide +kernel, by decide +kernel⟩
  exact ⟨hm, (unmapComponent_mapComponent storedZlib notesDir he (by decide) hm).2.2.2⟩

end AceShell
