import AceShell.Names.CaseFolding

/-!
# Looking a name up in another case

`unmap_component` folds case in two places: `match_existing_case` folds a name that opens no
escape, and the base32 digits stand for themselves in either case. The header of an escape is
copied as it was typed, and DENSE128 reads upper-case letters only. `unmapComponent_caseEq_iff`
says for which variants of a spelling the lookup still finds the entry.
-/

namespace AceShell

open Text List Option

variable {z : Zlib} {dir : Directory} {h s s' : Name} {n : ℕ}

/-- `s'` opens an escape exactly where `s` does, and has the same bytes before it. -/
structure KeepsEscape (z : Zlib) (s s' : Name) : Prop where
  marker : escapeMarker z s' = escapeMarker z s
  header : ∀ i, escapeMarker z s = some i → s'.take i = s.take i

/-- A host name that is itself, but for letter case, a text with the marker `^0`, which that text
names all the same: its payload decompresses to it, or its case keeps it from being one. -/
inductive SelfSpelled (z : Zlib) (dir : Directory) (h s' : Name) : Prop
  | decodes {header payload tailText : Name}
      (hs : s' = header ++ mappedMarker :: zeroDigit :: payload) (hc : caseEq h s' = true)
      (htext : compressedPayloadDecode z payload (nameMax + 2) = some tailText)
      (heq : h = header ++ tailText)
  | listed {header payload : Name}
      (hs : s' = header ++ mappedMarker :: zeroDigit :: payload) (hc : caseEq h s' = true)
      (hmarker : escapeMarker z s' = none)
      (hfirst : lexFirst (caseVariants dir.stream s') = some h)

/-! ## Names that open no escape -/

theorem hostComponentForAmiga_caseEq (hname : LinuxName h) (hc : caseEq s' h = true) :
    hostComponentForAmiga s' = none := by
  have hne : ∀ dots : Name, (∀ c ∈ dots, isLetter c = false) → h ≠ dots → s' ≠ dots := by
    rintro dots hletters hh rfl
    exact hh (eq_dots_of_map_toLower (caseEq_iff.mp (caseEq_symm hc)) hletters)
  have hdot : s' ≠ ascii "." := hne dotName (all_iff_forall_prop.mp (by decide)) hname.ne_dot
  have hdotDot : s' ≠ ascii ".." :=
    hne dotDotName (all_iff_forall_prop.mp (by decide)) hname.ne_dotDot
  unfold hostComponentForAmiga
  rw [if_neg hdot, if_neg hdotDot]

theorem unmap_unescaped (hhost : hostComponentForAmiga s' = none)
    (hmarker : escapeMarker z s' = none) (hfit : s'.length < n) :
    unmapComponent z (some dir.stream) s' n = .ok (matchExistingCase (some dir.stream) s' n) := by
  unfold unmapComponent
  rw [hhost]
  rw [hmarker]
  rw [copyOut_eq_ok.mpr ⟨hfit, rfl⟩]
  rfl

theorem matchExistingCase_first (hn : nameMax < n) :
    matchExistingCase (some dir.stream) s' n = (lexFirst (caseVariants dir.stream s')).getD s' := by
  unfold matchExistingCase
  simp only
  rw [filter_length_caseVariants]
  cases hfst : lexFirst (caseVariants dir.stream s') with
  | none => rfl
  | some best =>
    have hmem := lexFirst_mem hfst
    rw [← filter_length_caseVariants, mem_filter, decide_eq_true_iff] at hmem
    exact if_pos (by omega)

/-- **Case is ignored where no escape is opened.** Such a name finds an entry exactly when the
entry is the first one, in byte order, that it matches. -/
theorem unmap_listed_iff (he : dir.IsEntry h) (hhost : hostComponentForAmiga s' = none)
    (hmarker : escapeMarker z s' = none) (hfit : s'.length < n) (hn : nameMax < n) :
    unmapComponent z (some dir.stream) s' n = .ok h ↔
      lexFirst (caseVariants dir.stream s') = some h := by
  rw [unmap_unescaped hhost hmarker hfit, matchExistingCase_first hn, Except.ok.injEq]
  cases hfst : lexFirst (caseVariants dir.stream s') with
  | none =>
    -- then nothing matches, and `s'` is not an entry
    refine iff_of_false ?_ (by simp)
    rintro rfl
    have hmem : s' ∈ caseVariants dir.stream s' :=
      mem_caseVariants.mpr ⟨he.1, he.2.ne_dot, he.2.ne_dotDot, caseEq_refl s'⟩
    have := lexFirst_isSome hmem
    rw [hfst] at this
    simp at this
  | some best => simp

/-! ## Escapes -/

variable {header payload tailText : Name}

theorem unmap_escape_iff {header payload : Name} {k : ℕ} (hfit : h.length < n)
    (hv : escapePayloadValid z payload = true) (ht : escapeText z payload = some (h.drop k)) :
    unmapComponent z (some dir.stream) (header ++ mappedMarker :: payload) n = .ok h ↔
      header = h.take k := by
  rw [unmap_escape hv ht, copyOut_eq_ok]
  constructor
  · rintro ⟨-, heq⟩
    refine (append_left_inj (h.drop k)).mp ?_
    rw [heq, take_append_drop]
  · rintro rfl
    rw [take_append_drop]
    exact ⟨hfit, rfl⟩

theorem keepsEscape_escape {header' payload' : Name} (hlen : header'.length = header.length)
    (hv : escapePayloadValid z payload = true) (hv' : escapePayloadValid z payload' = true) :
    KeepsEscape z (header ++ mappedMarker :: payload) (header' ++ mappedMarker :: payload') ↔
      header' = header := by
  have hm := escapeMarker_header header hv
  have hm' := escapeMarker_header header' hv'
  constructor
  · intro hk
    have := hk.header _ hm
    rwa [take_left, take_left' hlen] at this
  rintro rfl
  refine ⟨hm'.trans hm.symm, fun i hi => ?_⟩
  obtain rfl := some.inj (hm.symm.trans hi)
  rw [take_left, take_left]

theorem escapeMarker_eq_none {header payload : Name} (hcaret : mappedMarker ∉ payload)
    (hv : escapePayloadValid z payload = false) :
    escapeMarker z (header ++ mappedMarker :: payload) = none := by
  by_contra hsome
  obtain ⟨i, hi⟩ := ne_none_iff_exists'.mp hsome
  obtain ⟨a, e, heq, -, hve⟩ := escapeMarker_spec hi
  have he : mappedMarker ∉ e := by
    intro hm
    rw [escapePayloadValid_marker hm] at hve
    simp at hve
  have hci : caseEq (header ++ mappedMarker :: payload) (a ++ mappedMarker :: e) = true := by
    rw [heq]
    exact caseEq_refl _
  have hlen := (caret_split hcaret he hci).1
  have hpay := (append_inj heq hlen).2
  rw [← (cons.inj hpay).2, hv] at hve
  simp at hve

variable {e e' : Name} {m : ℕ}

theorem eq_of_compressed_valid {data : Name} (he : dense128Encode data m = some e)
    (hc : caseEq e' e = true) (hdec : compressedPayloadDecode z e' (nameMax + 2) = some tailText)
    : e' = e := by
  have hupper : ∀ c ∈ e', toUpper c = c := by
    unfold compressedPayloadDecode at hdec
    cases hd : dense128Decode e' (nameMax + 2) with
    | none => rw [hd] at hdec; simp at hdec
    | some payload => exact fun c hm => upper_of_dense128Decode hd hm
  exact eq_of_caseEq_of_upper hupper (fun _ hm => (payloadChar_of_dense128Encode he hm).upper) hc

/-! ## Kind by kind -/

theorem unmap_of_selfSpelled (he : dir.IsEntry h) (hn : nameMax < n)
    (hself : SelfSpelled z dir h s') : unmapComponent z (some dir.stream) s' n = .ok h := by
  have hlen : h.length < n := he.2.length_le.trans_lt hn
  cases hself with
  | @decodes _ payload _ hs hc htext heq =>
    have hv : escapePayloadValid z (zeroDigit :: payload) = true := by
      rw [escapePayloadValid_compressed, htext]
      rfl
    rw [hs, unmap_escape hv (by rw [escapeText_compressed, htext]), ← heq]
    exact copyOut_eq_ok.mpr ⟨hlen, rfl⟩
  | listed hs hc hmarker hfst =>
    have hhost := hostComponentForAmiga_caseEq he.2 (caseEq_symm hc)
    refine (unmap_listed_iff he hhost hmarker ?_ hn).mpr hfst
    rwa [← caseEq_length hc]

theorem lookup_plain (he : dir.IsEntry h) (hn : nameMax < n)
    (hneed : componentNeedsMapping z h = false)
    (hcase : hostCaseVariantNeedsMapping (some dir.stream) h = false) (hc : caseEq s' h = true) :
    unmapComponent z (some dir.stream) s' n = .ok h ↔
      KeepsEscape z h s' ∨ SelfSpelled z dir h s' := by
  have hnone : escapeMarker z h = none :=
    escapeMarker_eq_none_of_spellable (firstUnspellableIndex_of_not_needs hneed).2
  cases hmarker : escapeMarker z s' with
  | none =>
    have hfst : lexFirst (caseVariants dir.stream s') = some h := by
      rw [caseVariants_congr dir.stream hc]
      exact lexFirst_of_plain he hcase
    have hfit : s'.length < n := by
      rw [caseEq_length hc]
      exact he.2.length_le.trans_lt hn
    have hkeeps : KeepsEscape z h s' :=
      ⟨hmarker.trans hnone.symm, fun i hi => by rw [hnone] at hi; simp at hi⟩
    have hhost := hostComponentForAmiga_caseEq he.2 hc
    exact iff_of_true ((unmap_listed_iff he hhost hmarker hfit hn).mpr hfst) (Or.inl hkeeps)
  | some i =>
  have hnot : ¬ KeepsEscape z h s' := by
    intro hk
    rw [hk.marker, hnone] at hmarker
    simp at hmarker
  rw [or_iff_right hnot]
  refine ⟨fun hu => ?_, unmap_of_selfSpelled he hn⟩
  obtain ⟨header, payload, rfl, rfl, hv⟩ := escapeMarker_spec hmarker
  obtain ⟨b, q, hq, -, -, hcq⟩ := split_of_caseEq (caseEq_symm hc)
  -- a base32 payload would have made `h` an escape too
  have hz : payload.head? = some zeroDigit := by
    by_contra h0
    rw [hq] at hneed
    exact firstUnspellableIndex_ne_none ((escapePayloadValid_base32 hcq h0).trans hv)
      (firstUnspellableIndex_of_not_needs hneed).2
  obtain ⟨payload, rfl⟩ := head?_eq_some_iff.mp hz
  have hdec := hv
  rw [escapePayloadValid_compressed] at hdec
  obtain ⟨tailText, ht⟩ := isSome_iff_exists.mp hdec
  rw [unmap_escape hv (by rw [escapeText_compressed, ht]), copyOut_eq_ok] at hu
  exact .decodes rfl (caseEq_symm hc) ht hu.2.symm

variable {k : ℕ}

theorem lookup_literal (he : dir.IsEntry h) (hn : nameMax < n)
    (henc : base32Encode (h.drop k ++ [0]) m = some e)
    (hc : caseEq s' (h.take k ++ mappedMarker :: e) = true) :
    unmapComponent z (some dir.stream) s' n = .ok h ↔
      KeepsEscape z (h.take k ++ mappedMarker :: e) s' := by
  have htail := he.2.length_drop_le k
  have hv : escapePayloadValid z e = true :=
    escapePayloadValid_literal (he.2.nul_drop k) htail henc
  obtain ⟨header, e', rfl, hlen, -, hce⟩ := split_of_caseEq hc
  have hhead := head_of_base32Encode henc
  have hv' : escapePayloadValid z e' = true := (escapePayloadValid_base32 hce hhead).trans hv
  have htext : escapeText z e' = some (h.drop k) :=
    (escapeText_base32 hce hhead).trans (escapeText_literal htail henc)
  rw [unmap_escape_iff (he.2.length_le.trans_lt hn) hv' htext, keepsEscape_escape hlen hv hv']

theorem lookup_compressed {best : Name} (he : dir.IsEntry h) (hn : nameMax < n)
    (hbest : bestCompressed z (h.drop k) = some best) (henc : dense128Encode best m = some e)
    (hlen : (h.take k ++ mappedMarker :: zeroDigit :: e).length ≤ amigaComponentLimit)
    (hc : caseEq s' (h.take k ++ mappedMarker :: zeroDigit :: e) = true) :
    unmapComponent z (some dir.stream) s' n = .ok h ↔
      KeepsEscape z (h.take k ++ mappedMarker :: zeroDigit :: e) s' ∨ SelfSpelled z dir h s' := by
  have hdec := compressedPayloadDecode_best (he.2.nul_drop k) (he.2.length_drop_le k) hbest henc
  have hv : escapePayloadValid z (zeroDigit :: e) = true := by
    rw [escapePayloadValid_compressed, hdec]
    rfl
  have hfit : s'.length < n := by
    rw [caseEq_length hc]
    exact hlen.trans_lt (lt_trans (by decide) hn)
  obtain ⟨header, e', rfl, hlen', -, hce⟩ := split_of_caseEq hc
  have hz : e'.head? = some zeroDigit := (head_zeroDigit_of_caseEq hce).mpr rfl
  obtain ⟨payload, rfl⟩ := head?_eq_some_iff.mp hz
  have hpay : caseEq payload e = true := caseEq_drop hce 1
  by_cases hv' : escapePayloadValid z (zeroDigit :: payload) = true
  · have hdec' := hv'
    obtain ⟨tailText, ht⟩ := isSome_iff_exists.mp hdec'
    obtain rfl := eq_of_compressed_valid henc hpay ht
    have htext := (escapeText_compressed payload).trans hdec
    have hiff := @unmap_escape_iff z dir h n header _ k (he.2.length_le.trans_lt hn) hv htext
    have hkeeps := keepsEscape_escape hlen' hv hv'
    constructor
    · exact fun hu => Or.inl (hkeeps.mpr (hiff.mp hu))
    rintro (hk | hself)
    · exact hiff.mpr (hkeeps.mp hk)
    · exact unmap_of_selfSpelled he hn hself
  rw [Bool.not_eq_true] at hv'
  have hcaret : mappedMarker ∉ zeroDigit :: payload := by
    rw [mem_iff_of_caseEq hce (by decide)]
    exact marker_notMem_dense128 henc
  have hmarker := @escapeMarker_eq_none z header _ hcaret hv'
  have hnot : ¬ KeepsEscape z (h.take k ++ mappedMarker :: zeroDigit :: e)
      (header ++ mappedMarker :: zeroDigit :: payload) := by
    intro hk
    have := hk.marker
    rw [hmarker, escapeMarker_header _ hv] at this
    simp at this
  rw [or_iff_right hnot]
  refine ⟨fun hu => ?_, unmap_of_selfSpelled he hn⟩
  have hfirst := (unmap_listed_iff he (hostComponentForAmiga_escape _ _) hmarker hfit hn).mp hu
  exact .listed rfl (mem_caseVariants.mp (lexFirst_mem hfirst)).2.2.2 hmarker hfirst

/-- **Lookup in another case.** A text equal up to case to the spelling of an entry finds that
entry exactly when it opens an escape where the spelling does and has the same header before it,
or when the entry is one of the names that spell themselves. -/
theorem unmapComponent_caseEq_iff (z : Zlib) (dir : Directory) {h s s' : Name} {mapSize n : ℕ}
    (he : dir.IsEntry h) (hn : nameMax < n)
    (hm : mapComponent z (some dir.stream) h mapSize = .ok s) (hc : caseEq s' s = true) :
    unmapComponent z (some dir.stream) s' n = .ok h ↔
      KeepsEscape z s s' ∨ SelfSpelled z dir h s' := by
  have hs : Spells z ((some dir).map Directory.stream) h s := spells_of_map hm
  have hback := hs.unmap he.2 hn
  cases hs with
  | fixed hfix =>
    -- the fixed names have no letters
    have hdots : s' = s := by
      refine eq_dots_of_map_toLower (caseEq_iff.mp hc) (all_iff_forall_prop.mp ?_)
      unfold amigaComponentForHost at hfix
      split_ifs at hfix <;> obtain rfl := some.inj hfix <;> decide
    rw [hdots]
    exact iff_of_true hback (Or.inl ⟨rfl, fun _ _ => rfl⟩)
  | plain _ hneed hcase => exact lookup_plain he hn hneed hcase hc
  | literal _ _ henc _ _ =>
    have hlit := lookup_literal (z := z) he hn henc hc
    refine ⟨fun hu => Or.inl (hlit.mp hu), ?_⟩
    rintro (hk | hself)
    · exact hlit.mpr hk
    · exact unmap_of_selfSpelled he hn hself
  | compressed _ _ _ _ hbest henc hlen => exact lookup_compressed he hn hbest henc hlen hc

theorem unmapComponent_caseEq_iff_notes :
    unmapComponent storedZlib (some notesDir.stream) (ascii "^nzxxizltaa") pathMax =
      .ok (ascii "notes") := by
  have he : notesDir.IsEntry (ascii "notes") := ⟨by decide +kernel, by decide +kernel⟩
  have hm : mapComponent storedZlib (some notesDir.stream) (ascii "notes") 108 =
      .ok (ascii "^NZXXIZLTAA") := by decide +kernel
  have hmarker : escapeMarker storedZlib (ascii "^NZXXIZLTAA") = some 0 := by decide +kernel
  have hkeeps : KeepsEscape storedZlib (ascii "^NZXXIZLTAA") (ascii "^nzxxizltaa") := by
    refine ⟨by decide +kernel, fun i hi => ?_⟩
    obtain rfl := some.inj (hmarker.symm.trans hi)
    rw [take_zero, take_zero]
  exact (unmapComponent_caseEq_iff storedZlib notesDir he (by decide) hm
    (by decide +kernel)).mpr (Or.inl hkeeps)

def mailDir : Directory :=
  .ofNames [ascii "Re: mail"] (by decide)

/-- The file `Re: mail` is listed as `Re^HIQG2YLJNQAA`. Typed as `re^HIQG2YLJNQAA`, the header
comes out in the case it was typed in, and no such file exists. -/
theorem lookup_folds_no_header :
    mailDir.IsEntry (ascii "Re: mail") ∧
      mapComponent storedZlib (some mailDir.stream) (ascii "Re: mail") 108 =
        .ok (ascii "Re^HIQG2YLJNQAA") ∧
      caseEq (ascii "re^HIQG2YLJNQAA") (ascii "Re^HIQG2YLJNQAA") = true ∧
      unmapComponent storedZlib (some mailDir.stream) (ascii "re^HIQG2YLJNQAA") pathMax =
        .ok (ascii "re: mail") := by
  refine ⟨⟨by decide +kernel, by decide +kernel⟩, by decide +kernel, by decide +kernel, ?_⟩
  decide +kernel

end AceShell
