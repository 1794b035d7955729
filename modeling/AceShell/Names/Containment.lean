import AceShell.Names.RoundTrip

/-!
# What a decoded component can be

A component that opens no escape decodes to one host component. An escape decodes to whatever its
payload carries behind the header: `escape_payload_valid` rejects an embedded NUL but neither a
slash nor a text that, with the header, is empty or a dot name. `unmap_oneComponent_iff` says for
which components that matters.
-/

namespace AceShell

open Text List

variable {z : Zlib} {c : Name} {n : ℕ}

/-- One host component: it names an entry of its directory and walks nowhere else. -/
structure OneComponent (h : Name) : Prop where
  ne_nil : h ≠ []
  slash_notMem : slash ∉ h
  ne_dot : h ≠ dotName
  ne_dotDot : h ≠ dotDotName

instance (h : Name) : Decidable (OneComponent h) :=
  decidable_of_iff (h ≠ [] ∧ slash ∉ h ∧ h ≠ dotName ∧ h ≠ dotDotName)
    ⟨fun ⟨a, b, c, d⟩ => ⟨a, b, c, d⟩, fun ⟨a, b, c, d⟩ => ⟨a, b, c, d⟩⟩

theorem LinuxName.oneComponent {h : Name} (hn : LinuxName h) : OneComponent h :=
  ⟨hn.ne_nil, hn.slash_notMem, hn.ne_dot, hn.ne_dotDot⟩

/-! ## Headers and tails -/

/-- The carried text has no separator, and the two parts do not meet in an empty or dot name. -/
structure KeepsComponent (header tailText : Name) : Prop where
  no_slash : slash ∉ tailText
  not_nil : header = [] → tailText ≠ [] ∧ tailText ≠ dotName ∧ tailText ≠ dotDotName
  not_dot : header = dotName → tailText ≠ [] ∧ tailText ≠ dotName
  not_dotDot : header = dotDotName → tailText ≠ []

theorem oneComponent_append_iff {header tailText : Name} (hh : slash ∉ header) :
    OneComponent (header ++ tailText) ↔ KeepsComponent header tailText := by
  constructor
  · intro h
    refine ⟨fun hm => h.slash_notMem (mem_append_right _ hm), ?_, ?_, ?_⟩
    · rintro rfl
      exact ⟨h.ne_nil, h.ne_dot, h.ne_dotDot⟩
    · rintro rfl
      refine ⟨?_, ?_⟩ <;> rintro rfl
      · exact h.ne_dot rfl
      · exact h.ne_dotDot rfl
    · rintro rfl rfl
      exact h.ne_dotDot rfl
  intro h
  -- a dot name splits into header and tail in two or three ways
  refine ⟨?_, ?_, ?_, ?_⟩
  · intro he
    obtain ⟨rfl, rfl⟩ := append_eq_nil_iff.mp he
    exact (h.not_nil rfl).1 rfl
  · intro hm
    rcases mem_append.mp hm with hm | hm
    · exact hh hm
    · exact h.no_slash hm
  · intro he
    rcases append_eq_cons_iff.mp (show header ++ tailText = 46 :: [] from he) with
      ⟨rfl, rfl⟩ | ⟨a, rfl, ha⟩
    · exact (h.not_nil rfl).2.1 rfl
    · obtain ⟨rfl, rfl⟩ := append_eq_nil_iff.mp ha.symm
      exact (h.not_dot rfl).1 rfl
  intro he
  rcases append_eq_cons_iff.mp (show header ++ tailText = 46 :: 46 :: [] from he) with
    ⟨rfl, rfl⟩ | ⟨a, rfl, ha⟩
  · exact (h.not_nil rfl).2.2 rfl
  rcases append_eq_cons_iff.mp ha.symm with ⟨rfl, rfl⟩ | ⟨b, rfl, hb⟩
  · exact (h.not_dot rfl).2 rfl
  · obtain ⟨rfl, rfl⟩ := append_eq_nil_iff.mp hb.symm
    exact h.not_dotDot rfl rfl

/-! ## Components -/

/-- The escape `c` opens, if any, carries a text that stays one component, or does not fit the
caller's buffer. -/
def EscapeContained (z : Zlib) (c : Name) (n : ℕ) : Prop :=
  ∀ i tailText, escapeMarker z c = some i → escapeText z (c.drop (i + 1)) = some tailText →
    (c.take i ++ tailText).length < n → KeepsComponent (c.take i) tailText

variable {dir : Option Directory}

theorem matchExistingCase_oneComponent (hc : OneComponent c) :
    OneComponent (matchExistingCase (dir.map Directory.stream) c n) := by
  unfold matchExistingCase
  cases dir with
  | none => exact hc
  | some dir =>
  simp only [Option.map_some]
  rw [filter_length_caseVariants]
  cases hbest : lexFirst (caseVariants dir.stream c) with
  | none => exact hc
  | some best =>
  simp only
  split_ifs
  · obtain ⟨hmem, hdot, hdotDot, -⟩ := mem_caseVariants.mp (lexFirst_mem hbest)
    rcases dir.valid best hmem with rfl | rfl | hname
    · exact absurd rfl hdot
    · exact absurd rfl hdotDot
    · exact hname.oneComponent
  · exact hc

theorem oneComponent_of_not_fixed (hne : c ≠ []) (hslash : slash ∉ c)
    (hfix : hostComponentForAmiga c = none) : OneComponent c := by
  unfold hostComponentForAmiga at hfix
  split_ifs at hfix with h1 h2
  exact ⟨hne, hslash, h1, h2⟩

/-- **A component decodes to one host component exactly when its escape is contained.** -/
theorem unmap_oneComponent_iff (hne : c ≠ []) (hslash : slash ∉ c) :
    (∀ h, unmapComponent z (dir.map Directory.stream) c n = .ok h → OneComponent h) ↔
      EscapeContained z c n := by
  cases hi : escapeMarker z c with
  | some i =>
    rw [unmapComponent_escape hi]
    have hh : slash ∉ c.take i := fun hm => hslash (mem_of_mem_take hm)
    constructor
    · intro hall j tailText hj ht hfit
      obtain rfl := Option.some.inj (hi.symm.trans hj)
      rw [ht] at hall
      exact (oneComponent_append_iff hh).mp (hall _ (copyOut_eq_ok.mpr ⟨hfit, rfl⟩))
    intro hcont h hok
    obtain ⟨hfit, rfl⟩ := copyOut_eq_ok.mp hok
    cases ht : escapeText z (c.drop (i + 1)) with
    | some tailText =>
      rw [ht] at hfit
      exact (oneComponent_append_iff hh).mpr (hcont i tailText hi ht hfit)
    | none =>
      obtain ⟨header, suffix, rfl, -, -⟩ := escapeMarker_spec hi
      exact oneComponent_of_not_fixed hne hslash (hostComponentForAmiga_escape header suffix)
  | none =>
  refine ⟨fun _ i tailText hj => by rw [hi] at hj; simp at hj, fun _ h hok => ?_⟩
  unfold unmapComponent at hok
  cases hfix : hostComponentForAmiga c with
  | some fixedName =>
    rw [hfix] at hok
    obtain ⟨-, rfl⟩ := copyOut_eq_ok.mp hok
    unfold hostComponentForAmiga at hfix
    split_ifs at hfix <;> (obtain rfl := Option.some.inj hfix; decide)
  | none =>
  rw [hfix, hi] at hok
  cases hcopy : copyOut c n with
  | error e => rw [hcopy] at hok; simp [Except.map] at hok
  | ok name =>
  rw [hcopy] at hok
  obtain ⟨-, rfl⟩ := copyOut_eq_ok.mp hcopy
  simp only [Except.map, Except.ok.injEq] at hok
  rw [← hok]
  exact matchExistingCase_oneComponent (oneComponent_of_not_fixed hne hslash hfix)

end AceShell
