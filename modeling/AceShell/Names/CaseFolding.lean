import AceShell.Names.Containment

/-!
# Spellings and letter case

AmigaDOS compares names without regard to ASCII case. Two spellings that agree up to case agree
on where the payload starts, because neither alphabet has a caret (`caret_split`). base32 folds
case and the split point keeps colliding headers apart, so spellings of one kind stay distinct;
DENSE128 does not fold, and a plain name may be the lower-case form of another name's compressed
spelling (`caseEq_spellings_iff`).
-/

namespace AceShell

open Text List

variable {z : Zlib} {dir : Directory} {h h₁ h₂ s s₁ s₂ : Name}

/-! ## Where the payload starts -/

variable {a b e f : Name}

theorem caret_not_before (he : mappedMarker ∉ e)
    (hc : caseEq (a ++ mappedMarker :: e) (b ++ mappedMarker :: f) = true) :
    b.length ≤ a.length := by
  by_contra hlt
  rw [not_le] at hlt
  have hdrop := caseEq_drop hc (a.length + 1)
  have hleft : (a ++ mappedMarker :: e).drop (a.length + 1) = e := by
    rw [← Nat.add_zero (a.length + 1), drop_after_marker, drop_zero]
  have hright : mappedMarker ∈ (b ++ mappedMarker :: f).drop (a.length + 1) := by
    rw [drop_append_of_le_length hlt]
    simp
  rw [hleft] at hdrop
  exact he ((mem_iff_of_caseEq hdrop (by decide)).mpr hright)

theorem caret_split (he : mappedMarker ∉ e) (hf : mappedMarker ∉ f)
    (hc : caseEq (a ++ mappedMarker :: e) (b ++ mappedMarker :: f) = true) :
    a.length = b.length ∧ caseEq a b = true ∧ caseEq e f = true := by
  have hlen : a.length = b.length :=
    le_antisymm (caret_not_before hf (caseEq_symm hc)) (caret_not_before he hc)
  obtain ⟨ha, htail⟩ := (caseEq_append_iff hlen).mp hc
  have hpay := caseEq_drop htail 1
  exact ⟨hlen, ha, hpay⟩

variable {t : Name}

theorem split_of_caseEq (hc : caseEq t (a ++ mappedMarker :: e) = true) :
    ∃ a' e', t = a' ++ mappedMarker :: e' ∧ a'.length = a.length ∧ caseEq a' a = true ∧
      caseEq e' e = true := by
  rw [caseEq_iff, map_append] at hc
  obtain ⟨a', rest, rfl, ha, hrest⟩ := map_eq_append_iff.mp hc
  obtain ⟨b, e', rfl, hb, he⟩ := map_eq_cons_iff.mp hrest
  obtain rfl : b = mappedMarker := (toLower_eq_iff_of_not_letter (by decide)).mp hb
  exact ⟨a', e', rfl, caseEq_length (caseEq_iff.mpr ha), caseEq_iff.mpr ha, caseEq_iff.mpr he⟩

theorem head_zeroDigit_of_caseEq (hc : caseEq a b = true) :
    a.head? = some zeroDigit ↔ b.head? = some zeroDigit := by
  have hfold (l : Name) :
      l.head? = some zeroDigit ↔ (l.map toLower).head? = some (toLower zeroDigit) := by
    rw [head?_map]
    cases l.head? with
    | none => simp
    | some c => simp [toLower_eq_iff_of_not_letter (by decide : isLetter zeroDigit = false)]
  rw [hfold, hfold, caseEq_iff.mp hc]

variable {e' : Name}

theorem escapePayloadValid_base32 (hc : caseEq e' e = true) (h0 : e.head? ≠ some zeroDigit) :
    escapePayloadValid z e' = escapePayloadValid z e := by
  have h0' : e'.head? ≠ some zeroDigit := fun h => h0 ((head_zeroDigit_of_caseEq hc).mp h)
  unfold escapePayloadValid
  rw [if_neg h0, if_neg h0', base32Decode_caseEq hc]

theorem escapeText_base32 (hc : caseEq e' e = true) (h0 : e.head? ≠ some zeroDigit) :
    escapeText z e' = escapeText z e := by
  have h0' : e'.head? ≠ some zeroDigit := fun h => h0 ((head_zeroDigit_of_caseEq hc).mp h)
  unfold escapeText
  rw [if_neg h0, if_neg h0', base32Decode_caseEq hc]

/-! ## The split point keeps variants apart -/

theorem take_commonPrefix {a b : Name} {k : ℕ} (hk : k ≤ commonPrefix a b) :
    a.take k = b.take k := by
  fun_induction commonPrefix a b generalizing k with
  | case1 x xs ys ih =>
    cases k with
    | zero => rfl
    | succ k => rw [take_succ_cons, take_succ_cons, ih (Nat.le_of_succ_le_succ hk)]
  | case2 | case3 =>
    obtain rfl := Nat.le_zero.mp hk
    rfl

theorem foldl_min_le_mem {α : Type} (f : α → ℕ) {xs : List α} {x : α} (hx : x ∈ xs) (n : ℕ) :
    xs.foldl (fun m y => min m (f y)) n ≤ f x := by
  induction xs generalizing n with
  | nil => simp at hx
  | cons y ys ih =>
    rcases mem_cons.mp hx with rfl | hx
    · exact (foldl_min_le f ys _).trans (min_le_right _ _)
    · exact ih hx _

variable {k : ℕ}

theorem take_splitOf (h₁e : dir.IsEntry h₁) (hne : h₁ ≠ h₂) (hc : caseEq h₁ h₂ = true)
    (hk : k ≤ splitOf z (some dir.stream) h₂) : h₁.take k = h₂.take k := by
  refine take_commonPrefix (hk.trans ((min_le_left _ _).trans ?_))
  refine foldl_min_le_mem (fun entry => commonPrefix entry h₂) (mem_filter.mpr ⟨?_, ?_⟩) _
  · exact mem_caseVariants.mpr ⟨h₁e.1, h₁e.2.ne_dot, h₁e.2.ne_dotDot, hc⟩
  · simpa using hne

theorem eq_of_tails (h₁e : dir.IsEntry h₁) (hc : caseEq (h₁.take k) (h₂.take k) = true)
    (ht : h₁.drop k = h₂.drop k) (hk : k ≤ splitOf z (some dir.stream) h₂) : h₁ = h₂ := by
  by_contra hne
  have hci : caseEq h₁ h₂ = true := by
    have := caseEq_append hc (caseEq_refl (h₁.drop k))
    rw [take_append_drop] at this
    rwa [ht, take_append_drop] at this
  apply hne
  rw [← take_append_drop k h₁, ← take_append_drop k h₂, ht, take_splitOf h₁e hne hci hk]

/-! ## Payloads of the two kinds -/

variable {data : Name} {n : ℕ}

theorem marker_notMem_base32 (he : base32Encode data n = some e) :
    mappedMarker ∉ e := fun hm => (payloadChar_of_base32Encode he hm).ne_marker rfl

theorem marker_notMem_dense128 (he : dense128Encode data n = some e) :
    mappedMarker ∉ zeroDigit :: e := by
  intro hm
  rcases mem_cons.mp hm with h | h
  · revert h
    decide
  · exact (payloadChar_of_dense128Encode he h).ne_marker rfl

variable {d d' : Name} {n' : ℕ}

theorem eq_of_caseEq_base32 (he : base32Encode d n = some e) (he' : base32Encode d' n' = some e')
    (hc : caseEq e e' = true) : e = e' :=
  eq_of_caseEq_of_upper (fun _ hm => (payloadChar_of_base32Encode he hm).upper)
    (fun _ hm => (payloadChar_of_base32Encode he' hm).upper) hc

theorem eq_of_caseEq_dense128 (he : dense128Encode d n = some e)
    (he' : dense128Encode d' n' = some e') (hc : caseEq e e' = true) : e = e' :=
  eq_of_caseEq_of_upper (fun _ hm => (payloadChar_of_dense128Encode he hm).upper)
    (fun _ hm => (payloadChar_of_dense128Encode he' hm).upper) hc

theorem tail_of_base32 {t' : Name} (he : base32Encode (t ++ [0]) n = some e)
    (he' : base32Encode (t' ++ [0]) n' = some e) : t = t' := by
  have hd := base32Decode_encode (m := (t ++ [0]).length + (t' ++ [0]).length) (by simp)
    (Nat.le_add_right _ _) he
  have hd' := base32Decode_encode (m := (t ++ [0]).length + (t' ++ [0]).length) (by simp)
    (Nat.le_add_left _ _) he'
  exact append_cancel_right (Option.some.inj (hd.symm.trans hd'))

theorem length_take_splitOf (parent : Option (List Name)) (h : Name) (hk : k ≤ splitOf z parent h)
    : (h.take k).length = k := by
  have := splitOf_le_length z parent h
  rw [length_take]
  omega

/-! ## Spellings of two entries -/

/-- `h₁` is spelled as it is and reads, but for letter case, like the compressed spelling of `h₂`:
the same header, caret and digit, and a payload of the same upper-case form. -/
structure Shadows (z : Zlib) (dir : Directory) (h₁ h₂ : Name) : Prop where
  plain_fix : amigaComponentForHost h₁ = none
  plain_need : componentNeedsMapping z h₁ = false
  plain_case : hostCaseVariantNeedsMapping (some dir.stream) h₁ = false
  fix : amigaComponentForHost h₂ = none
  need : componentNeedsMapping z h₂ = true ∨ hostCaseVariantNeedsMapping (some dir.stream) h₂ = true
  literal : literalEscape (splitOf z (some dir.stream) h₂) h₂ = none
  reads : ∃ header payload best,
    h₁ = header ++ mappedMarker :: zeroDigit :: payload ∧
    header.length = compressSplit (splitOf z (some dir.stream) h₂) h₂ ∧
    caseEq header (h₂.take header.length) = true ∧
    bestCompressed z (h₂.drop header.length) = some best ∧
    dense128Encode best (amigaComponentLimit + 1) = some (payload.map toUpper)

theorem plain_ne_literal {header : Name} (hneed : componentNeedsMapping z h₁ = false)
    (he : base32Encode data n = some e) (hv : escapePayloadValid z e = true) :
    caseEq h₁ (header ++ mappedMarker :: e) = false := by
  by_contra hc
  rw [Bool.not_eq_false] at hc
  obtain ⟨a, e', rfl, -, -, hce⟩ := split_of_caseEq hc
  have hv' : escapePayloadValid z e' = true := by
    rw [escapePayloadValid_base32 hce (head_of_base32Encode he)]
    exact hv
  exact firstUnspellableIndex_ne_none hv' (firstUnspellableIndex_of_not_needs hneed).2

theorem upper_of_caseEq_dense128 (he : dense128Encode d n = some e) (hc : caseEq e' e = true)
    : e'.map toUpper = e := by
  have hmap : e'.map toUpper = e.map toUpper := by
    have := congrArg (map toUpper) (caseEq_iff.mp hc)
    simpa only [map_map, Function.comp_def, toUpper_toLower] using this
  rw [hmap]
  conv_rhs => rw [← map_id e]
  exact map_congr_left fun c hm => (payloadChar_of_dense128Encode he hm).upper

theorem shadows_of_caseEq {best : Name}
    (hp : amigaComponentForHost h₁ = none ∧ componentNeedsMapping z h₁ = false ∧
      hostCaseVariantNeedsMapping (some dir.stream) h₁ = false)
    (hfix : amigaComponentForHost h₂ = none) (hneed : componentNeedsMapping z h₂ = true ∨
      hostCaseVariantNeedsMapping (some dir.stream) h₂ = true)
    (hlit : literalEscape (splitOf z (some dir.stream) h₂) h₂ = none)
    (hbest : bestCompressed z (h₂.drop (compressSplit (splitOf z (some dir.stream) h₂) h₂)) =
      some best) (henc : dense128Encode best (amigaComponentLimit + 1) = some e)
    (hc : caseEq h₁ (h₂.take (compressSplit (splitOf z (some dir.stream) h₂) h₂) ++
      mappedMarker :: zeroDigit :: e) = true) : Shadows z dir h₁ h₂ := by
  have hk := length_take_splitOf (z := z) (some dir.stream) h₂
    (compressSplit_le (splitOf z (some dir.stream) h₂) h₂)
  obtain ⟨header, e', heq, hlen, hhead, hce⟩ := split_of_caseEq hc
  rw [hk] at hlen
  have hz : e'.head? = some zeroDigit := (head_zeroDigit_of_caseEq hce).mpr rfl
  obtain ⟨payload, rfl⟩ : ∃ payload, e' = zeroDigit :: payload := by
    cases e' with
    | nil => simp at hz
    | cons c cs => exact ⟨cs, by rw [head?_cons] at hz; rw [Option.some.inj hz]⟩
  have hpay : caseEq payload e = true := caseEq_drop hce 1
  refine ⟨hp.1, hp.2.1, hp.2.2, hfix, hneed, hlit, header, payload, best, heq, hlen, ?_, ?_, ?_⟩
  · rw [hlen]
    exact hhead
  · rw [hlen]
    exact hbest
  · rw [upper_of_caseEq_dense128 henc hpay]
    exact henc

/-! ## Pair by pair -/

theorem eq_dots_of_map_toLower (ht : t.map toLower = d.map toLower)
    (hd : ∀ c ∈ d, isLetter c = false) : t = d := by
  induction d generalizing t with
  | nil => simpa using ht
  | cons c cs ih =>
  cases t with
  | nil => simp at ht
  | cons b bs =>
    simp only [map_cons, cons.injEq] at ht
    rw [(toLower_eq_iff_of_not_letter (hd c mem_cons_self)).mp ht.1,
      ih ht.2 fun x hx => hd x (mem_cons_of_mem c hx)]

theorem eq_of_fixed (h₂e : LinuxName h₂) (hfix : amigaComponentForHost h₁ = some s₁)
    (hs₂ : Spells z (some dir.stream) h₂ s₂) (hc : caseEq s₁ s₂ = true) : h₁ = h₂ := by
  have hlen := caseEq_length hc
  have hdots : (h₁ = ascii ":" ∧ s₁ = dotName) ∨ (h₁ = ascii "::" ∧ s₁ = dotDotName) := by
    unfold amigaComponentForHost at hfix
    split_ifs at hfix with h1 h2
    · exact Or.inl ⟨h1, (Option.some.inj hfix).symm⟩
    · exact Or.inr ⟨h2, (Option.some.inj hfix).symm⟩
  have hnocaret : mappedMarker ∉ s₂ := by
    rw [← mem_iff_of_caseEq hc (by decide)]
    rcases hdots with ⟨-, rfl⟩ | ⟨-, rfl⟩ <;> decide
  -- a text equal to one of the dot names up to case is that name
  have hdot : s₂ = s₁ := by
    refine eq_dots_of_map_toLower (caseEq_iff.mp (caseEq_symm hc)) (all_iff_forall_prop.mp ?_)
    rcases hdots with ⟨-, rfl⟩ | ⟨-, rfl⟩ <;> decide
  cases hs₂ with
  | fixed hfix₂ =>
    unfold amigaComponentForHost at hfix₂
    split_ifs at hfix₂ with h1 h2 <;> obtain rfl := Option.some.inj hfix₂ <;>
      rcases hdots with ⟨rfl, rfl⟩ | ⟨rfl, rfl⟩
    · exact h1.symm
    · exact absurd hlen (by decide)
    · exact absurd hlen (by decide)
    · exact h2.symm
  | plain =>
    rcases hdots with ⟨-, rfl⟩ | ⟨-, rfl⟩
    · exact absurd hdot h₂e.ne_dot
    · exact absurd hdot h₂e.ne_dotDot
  | literal => exact absurd (by simp) hnocaret
  | compressed => exact absurd (by simp) hnocaret

theorem caseVariants_congr (stream : List Name) (hc : caseEq h₁ h₂ = true) :
    caseVariants stream h₁ = caseVariants stream h₂ := by
  refine filter_congr fun entry _ => ?_
  rw [caseEq_congr_right hc]

theorem lexFirst_of_plain (he : dir.IsEntry h)
    (hcase : hostCaseVariantNeedsMapping (some dir.stream) h = false) :
    lexFirst (caseVariants dir.stream h) = some h := by
  refine (lexFirst_of_not_needs hcase).resolve_right fun hnone => ?_
  have := lexFirst_isSome (mem_caseVariants.mpr
    ⟨he.1, he.2.ne_dot, he.2.ne_dotDot, caseEq_refl h⟩)
  rw [hnone] at this
  simp at this

theorem eq_of_plain (h₁e : dir.IsEntry h₁) (h₂e : dir.IsEntry h₂)
    (hp₁ : hostCaseVariantNeedsMapping (some dir.stream) h₁ = false)
    (hp₂ : hostCaseVariantNeedsMapping (some dir.stream) h₂ = false)
    (hc : caseEq h₁ h₂ = true) : h₁ = h₂ := by
  have hfst := lexFirst_of_plain h₁e hp₁
  rw [caseVariants_congr _ hc, lexFirst_of_plain h₂e hp₂] at hfst
  exact (Option.some.inj hfst).symm

theorem eq_of_escapes (h₁e : dir.IsEntry h₁) {k₁ k₂ : ℕ} {e₁ e₂ : Name}
    (hk₁ : k₁ ≤ splitOf z (some dir.stream) h₁) (hk₂ : k₂ ≤ splitOf z (some dir.stream) h₂)
    (he₁ : mappedMarker ∉ e₁) (he₂ : mappedMarker ∉ e₂)
    (htail : caseEq e₁ e₂ = true → h₁.drop k₁ = h₂.drop k₂)
    (hc : caseEq (h₁.take k₁ ++ mappedMarker :: e₁) (h₂.take k₂ ++ mappedMarker :: e₂) = true) :
    h₁ = h₂ := by
  obtain ⟨hlen, hhead, hpay⟩ := caret_split he₁ he₂ hc
  rw [length_take_splitOf _ _ hk₁, length_take_splitOf _ _ hk₂] at hlen
  subst hlen
  exact eq_of_tails h₁e hhead (htail hpay) hk₂

theorem literal_ne_compressed (he : base32Encode d n = some e)
    (hf : mappedMarker ∉ zeroDigit :: f) :
    caseEq (a ++ mappedMarker :: e) (b ++ mappedMarker :: zeroDigit :: f) = false := by
  by_contra hc
  rw [Bool.not_eq_false] at hc
  obtain ⟨-, -, hpay⟩ := caret_split (marker_notMem_base32 he) hf hc
  exact head_of_base32Encode he ((head_zeroDigit_of_caseEq hpay).mpr rfl)

theorem caseEq_comm (a b : Name) : caseEq a b = caseEq b a := by
  rw [Bool.eq_iff_iff]
  exact ⟨caseEq_symm, caseEq_symm⟩

theorem shadows_of_spells (h₁e : dir.IsEntry h₁) (h₂e : dir.IsEntry h₂) (hne : h₁ ≠ h₂)
    (hs₁ : Spells z (some dir.stream) h₁ s₁) (hs₂ : Spells z (some dir.stream) h₂ s₂)
    (hc : caseEq s₁ s₂ = true) : Shadows z dir h₁ h₂ ∨ Shadows z dir h₂ h₁ := by
  cases hs₁ with
  | fixed hfix => exact absurd (eq_of_fixed h₂e.2 hfix hs₂ hc) hne
  | plain hfix hneed hcase =>
    cases hs₂ with
    | fixed hfix₂ =>
      exact absurd (eq_of_fixed h₁e.2 hfix₂ (.plain hfix hneed hcase) (caseEq_symm hc)).symm hne
    | plain _ _ hcase₂ => exact absurd (eq_of_plain h₁e h₂e hcase hcase₂ hc) hne
    | literal _ _ henc _ _ =>
      rw [plain_ne_literal hneed henc
        (escapePayloadValid_literal (h₂e.2.nul_drop _) (h₂e.2.length_drop_le _) henc)] at hc
      simp at hc
    | compressed hfix₂ hneed₂ hlit _ hbest henc _ =>
      exact Or.inl (shadows_of_caseEq ⟨hfix, hneed, hcase⟩ hfix₂ hneed₂ hlit hbest henc hc)
  | literal hfix hneed henc htl hlen =>
    cases hs₂ with
    | fixed hfix₂ =>
      exact absurd (eq_of_fixed h₁e.2 hfix₂ (.literal hfix hneed henc htl hlen)
        (caseEq_symm hc)).symm hne
    | plain _ hneed₂ _ =>
      rw [caseEq_comm, plain_ne_literal hneed₂ henc
        (escapePayloadValid_literal (h₁e.2.nul_drop _) (h₁e.2.length_drop_le _) henc)] at hc
      simp at hc
    | literal _ _ henc₂ _ _ =>
      refine absurd (eq_of_escapes h₁e le_rfl le_rfl (marker_notMem_base32 henc)
        (marker_notMem_base32 henc₂) (fun hpay => ?_) hc) hne
      rw [← eq_of_caseEq_base32 henc henc₂ hpay] at henc₂
      exact tail_of_base32 henc henc₂
    | compressed _ _ _ _ _ henc₂ _ =>
      rw [literal_ne_compressed henc (marker_notMem_dense128 henc₂)] at hc
      simp at hc
  | compressed hfix hneed hlit htl hbest henc hlen =>
  cases hs₂ with
  | fixed hfix₂ =>
    exact absurd (eq_of_fixed h₁e.2 hfix₂ (.compressed hfix hneed hlit htl hbest henc hlen)
      (caseEq_symm hc)).symm hne
  | plain hfix₂ hneed₂ hcase₂ =>
    exact Or.inr (shadows_of_caseEq ⟨hfix₂, hneed₂, hcase₂⟩ hfix hneed hlit hbest henc
      (caseEq_symm hc))
  | literal _ _ henc₂ _ _ =>
    rw [caseEq_comm, literal_ne_compressed henc₂ (marker_notMem_dense128 henc)] at hc
    simp at hc
  | compressed _ _ _ _ hbest₂ henc₂ _ =>
  refine absurd (eq_of_escapes h₁e (compressSplit_le _ _) (compressSplit_le _ _)
    (marker_notMem_dense128 henc) (marker_notMem_dense128 henc₂) (fun hpay => ?_) hc) hne
  -- the same payload decompresses to one tail
  have hpay' := eq_of_caseEq_dense128 henc henc₂ (caseEq_drop hpay 1)
  rw [← hpay'] at henc₂
  have hd₁ := compressedPayloadDecode_best (h₁e.2.nul_drop _) (h₁e.2.length_drop_le _) hbest henc
  have hd₂ := compressedPayloadDecode_best (h₂e.2.nul_drop _) (h₂e.2.length_drop_le _) hbest₂ henc₂
  exact Option.some.inj (hd₁.symm.trans hd₂)

/-! ## No two entries share a name -/

variable {parent : Option (List Name)}

theorem map_of_plain (hfix : amigaComponentForHost h = none)
    (hneed : componentNeedsMapping z h = false)
    (hcase : hostCaseVariantNeedsMapping parent h = false) (hm : mapComponent z parent h n = .ok s)
    : s = h := by
  unfold mapComponent at hm
  rw [hfix] at hm
  simp only [hneed, hcase, Bool.not_false, Bool.and_self, if_true] at hm
  exact (copyOut_eq_ok.mp hm).2.symm

theorem map_of_compressed (hfix : amigaComponentForHost h = none)
    (hneed : componentNeedsMapping z h = true ∨ hostCaseVariantNeedsMapping parent h = true)
    (hlit : literalEscape (splitOf z parent h) h = none) (hm : mapComponent z parent h n = .ok s) :
    compressedEscape z (splitOf z parent h) h = some s := by
  have hneed' :
      ¬ ((!componentNeedsMapping z h && !hostCaseVariantNeedsMapping parent h) = true) := by
    rcases hneed with h | h <;> simp [h]
  unfold mapComponent at hm
  rw [hfix] at hm
  simp only [if_neg hneed'] at hm
  rw [← splitOf, hlit] at hm
  cases hcomp : compressedEscape z (splitOf z parent h) h with
  | none => rw [hcomp] at hm; simp at hm
  | some candidate =>
    rw [hcomp] at hm
    rw [(copyOut_eq_ok.mp hm).2]

theorem caseEq_of_shadows {n₁ n₂ : ℕ} (hsh : Shadows z dir h₁ h₂)
    (hm₁ : mapComponent z (some dir.stream) h₁ n₁ = .ok s₁)
    (hm₂ : mapComponent z (some dir.stream) h₂ n₂ = .ok s₂) : caseEq s₁ s₂ = true := by
  obtain rfl := map_of_plain hsh.plain_fix hsh.plain_need hsh.plain_case hm₁
  have hcomp := map_of_compressed hsh.fix hsh.need hsh.literal hm₂
  obtain ⟨header, payload, best, rfl, hlen, hhead, hbest, henc⟩ := hsh.reads
  obtain ⟨best', encoded, hbest', henc', -, -, rfl⟩ := compressedEscape_eq_some hcomp
  rw [← hlen] at hbest' ⊢
  obtain rfl := Option.some.inj (hbest.symm.trans hbest')
  obtain rfl := Option.some.inj (henc.symm.trans henc')
  refine caseEq_append hhead (caseEq_iff.mpr ?_)
  simp only [map_cons, map_map, Function.comp_def, toLower_toUpper]

/-- **Names that AmigaDOS tells apart.** The spellings of two distinct entries are equal up to
case exactly when one of the entries, spelled as it is, shadows the compressed spelling of the
other. -/
theorem caseEq_spellings_iff (z : Zlib) (dir : Directory) {h₁ h₂ s₁ s₂ : Name} {n₁ n₂ : ℕ}
    (h₁e : dir.IsEntry h₁) (h₂e : dir.IsEntry h₂) (hne : h₁ ≠ h₂)
    (hm₁ : mapComponent z (some dir.stream) h₁ n₁ = .ok s₁)
    (hm₂ : mapComponent z (some dir.stream) h₂ n₂ = .ok s₂) :
    caseEq s₁ s₂ = false ↔ ¬ (Shadows z dir h₁ h₂ ∨ Shadows z dir h₂ h₁) := by
  have hiff : caseEq s₁ s₂ = true ↔ Shadows z dir h₁ h₂ ∨ Shadows z dir h₂ h₁ := by
    constructor
    · exact shadows_of_spells h₁e h₂e hne (spells_of_map hm₁) (spells_of_map hm₂)
    rintro (hsh | hsh)
    · exact caseEq_of_shadows hsh hm₁ hm₂
    · exact caseEq_symm (caseEq_of_shadows hsh hm₂ hm₁)
  rw [← hiff, Bool.not_eq_true]

theorem caseEq_spellings_iff_notes : caseEq (ascii "Notes") (ascii "^NZXXIZLTAA") = false := by
  have h₁e : notesDir.IsEntry (ascii "Notes") := ⟨by decide +kernel, by decide +kernel⟩
  have h₂e : notesDir.IsEntry (ascii "notes") := ⟨by decide +kernel, by decide +kernel⟩
  have hm₁ : mapComponent storedZlib (some notesDir.stream) (ascii "Notes") 108 =
      .ok (ascii "Notes") := by decide +kernel
  have hm₂ : mapComponent storedZlib (some notesDir.stream) (ascii "notes") 108 =
      .ok (ascii "^NZXXIZLTAA") := by decide +kernel
  refine (caseEq_spellings_iff storedZlib notesDir h₁e h₂e (by decide +kernel) hm₁ hm₂).mpr ?_
  -- neither name has a caret, so neither reads like an escape
  rintro (hsh | hsh) <;>
  · obtain ⟨header, payload, best, heq, -⟩ := hsh.reads
    have hm : mappedMarker ∈ header ++ mappedMarker :: zeroDigit :: payload := by simp
    rw [← heq] at hm
    revert hm
    decide +kernel

def longName : Name :=
  ascii "ujzde8gxd6ncf10epf91dhodzdoc9is0j8ht9lgmxg9edn581u33xtp" ++
    ascii "lpft75v2seh60kvj50ce9uvw53efr4edt2sywb3wkh5dnsipzz5fk"

/-- The DENSE128 spelling of `longName` in lower case. As a name of its own it is no escape. -/
def shadowName : Name :=
  [94, 48, 121, 33, 213, 172, 99, 190, 183, 200, 101, 59, 108, 218, 118, 209, 179, 119, 52, 205,
    197, 53, 205, 190, 50, 221, 59, 48, 209, 194, 175, 162, 112, 100, 126, 101, 48, 209, 50, 209,
    45, 44, 171, 178, 221, 121, 171, 195, 203, 91, 95, 34, 191, 62, 105, 64, 169, 110, 186, 41,
    95, 42, 208, 210, 114, 183, 97, 110, 184, 188, 104, 36, 37, 220, 56, 191, 111, 39, 210, 59,
    43, 42, 207, 52, 176, 168, 33]

def shadowDir : Directory :=
  .ofNames [longName, shadowName] (by decide)

/-- Two files with one AmigaDOS name: `shadowName` is listed as it is, and `longName` is listed
under the same text in upper case. -/
theorem spellings_meet :
    shadowDir.IsEntry shadowName ∧ shadowDir.IsEntry longName ∧ shadowName ≠ longName ∧
      ∃ s₁ s₂, mapComponent storedZlib (some shadowDir.stream) shadowName 108 = .ok s₁ ∧
        mapComponent storedZlib (some shadowDir.stream) longName 108 = .ok s₂ ∧
        caseEq s₁ s₂ = true := by
  refine ⟨⟨by decide +kernel, by decide +kernel⟩, ⟨by decide +kernel, by decide +kernel⟩,
    by decide +kernel, shadowName, shadowName.map toUpper, ?_, ?_, ?_⟩ <;>
  decide +kernel

end AceShell
