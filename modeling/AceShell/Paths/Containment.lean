import AceShell.Paths.Normalize

/-!
# Staying beneath a base

The lexical check of `normalizeMappedPathBeneath` looks at the text that was built, not at where
its components lead. What the walk appends is judged piece by piece: `Upward` says that a `..`
stands between two slashes. A component contributes one exactly when its escape carries one
(`upward_unmap_iff`, the step), and so a whole path does (`walkMapped_upward`, the run).
-/

namespace AceShell

open Text List

variable {z : Zlib} {host : Host} {cat : Catalog} {n : ℕ}

/-! ## Pieces between slashes -/

def Upward (text : Name) : Prop := dotDotName ∈ text.splitOn slash

instance (text : Name) : Decidable (Upward text) :=
  inferInstanceAs (Decidable (dotDotName ∈ text.splitOn slash))

def NeverUpward (base result : Name) : Prop := ¬ Upward (result.drop base.length)

theorem not_upward_nil : ¬ Upward [] := by decide

theorem upward_append_slash (a b : Name) : Upward (a ++ slash :: b) ↔ Upward a ∨ Upward b := by
  unfold Upward splitOn
  rw [splitOnP_append_cons a b (by simp), mem_append]

theorem OneComponent.not_upward {h : Name} (hc : OneComponent h) : ¬ Upward h := by
  unfold Upward
  rw [splitOn_eq_singleton hc.slash_notMem, mem_singleton]
  exact fun he => hc.ne_dotDot he.symm

theorem slash_notMem_of_mem_splitOn {text : Name} :
    ∀ segment ∈ text.splitOn slash, slash ∉ segment := by
  unfold splitOn
  induction text with
  | nil =>
    intro segment hs
    simp only [splitOnP_nil, mem_singleton] at hs
    rw [hs]
    exact not_mem_nil
  | cons c cs ih =>
  intro segment hs
  rw [splitOnP_cons_eq_if_modifyHead] at hs
  split_ifs at hs with hc
  · rcases mem_cons.mp hs with rfl | hs
    · exact not_mem_nil
    · exact ih segment hs
  cases hsplit : cs.splitOnP (· == slash) with
  | nil => rw [hsplit] at hs; simp at hs
  | cons p ps =>
  rw [hsplit] at hs
  rw [hsplit] at ih
  rcases mem_cons.mp hs with rfl | hs
  · intro hm
    rcases mem_cons.mp hm with rfl | hm
    · simp at hc
    · exact ih p mem_cons_self hm
  · exact ih segment (mem_cons_of_mem p hs)

/-! ## One component -/

/-- The text an escape carries, behind its header, has no `..` between slashes. -/
def NeverUp (z : Zlib) (segment : Name) : Prop :=
  ∀ i tailText, escapeMarker z segment = some i →
    escapeText z (segment.drop (i + 1)) = some tailText → ¬ Upward (segment.take i ++ tailText)

theorem neverUp_nil : NeverUp z [] := by
  intro i tailText hi
  simp [escapeMarker] at hi

theorem upward_unmap_iff {dir : Option Directory} {segment decoded : Name} (hne : segment ≠ [])
    (hslash : slash ∉ segment)
    (hu : unmapComponent z (dir.map Directory.stream) segment n = .ok decoded) :
    Upward decoded ↔ ¬ NeverUp z segment := by
  by_cases hread : ∃ i tailText, escapeMarker z segment = some i ∧
      escapeText z (segment.drop (i + 1)) = some tailText
  · obtain ⟨i, tailText, hi, ht⟩ := hread
    rw [unmapComponent_escape hi, ht] at hu
    obtain ⟨-, rfl⟩ := copyOut_eq_ok.mp hu
    constructor
    · intro hup hnever
      exact hnever i tailText hi ht hup
    intro hnever
    by_contra hup
    apply hnever
    intro j t hj ht'
    obtain rfl := Option.some.inj (hi.symm.trans hj)
    obtain rfl := Option.some.inj (ht.symm.trans ht')
    exact hup
  · -- nothing was read out of an escape, so the component is one as it stands
    have hnever : NeverUp z segment := fun i t hi ht => absurd ⟨i, t, hi, ht⟩ hread
    have hcont : EscapeContained z segment n := fun i t hi ht => absurd ⟨i, t, hi, ht⟩ hread
    have hone := (unmap_oneComponent_iff hne hslash).mpr hcont decoded hu
    exact ⟨fun hup => absurd hup hone.not_upward, fun hn => absurd hnever hn⟩

/-! ## Whole paths -/

variable {base : Name}

/-- The run: what a walk has appended to a nonempty base walks upward exactly when one of the
components does. -/
theorem walkMapped_upward (hbase : base ≠ []) :
    ∀ {segments : List Name} {w result : Name}, (∀ s ∈ segments, slash ∉ s) →
      walkMapped z host n (base ++ w) segments = .ok result →
      ∃ w', result = base ++ w' ∧ (Upward w' ↔ Upward w ∨ ∃ s ∈ segments, ¬ NeverUp z s) := by
  intro segments
  induction segments with
  | nil =>
    intro w result _ hw
    refine ⟨w, (Except.ok.inj hw).symm, ?_⟩
    simp
  | cons segment rest ih =>
  intro w result hsegs hw
  have hrest : ∀ s ∈ rest, slash ∉ s := fun s hs => hsegs s (mem_cons_of_mem _ hs)
  unfold walkMapped at hw
  by_cases hnil : segment = []
  · rw [if_pos hnil] at hw
    obtain ⟨w', hres, hiff⟩ := ih hrest hw
    refine ⟨w', hres, hiff.trans ?_⟩
    rw [exists_mem_cons_iff, hnil]
    simp only [neverUp_nil, not_true_eq_false, false_or]
  rw [if_neg hnil] at hw
  cases hu : unmapComponent z (host.listing (base ++ w)) segment pathMax with
  | error e => rw [hu] at hw; simp at hw
  | ok decoded =>
  rw [hu] at hw
  simp only at hw
  cases ha : appendComponent (base ++ w) decoded n with
  | error e => rw [ha] at hw; simp at hw
  | ok result' =>
  rw [ha] at hw
  obtain ⟨-, rfl⟩ := copyOut_eq_ok.mp ha
  have hstep := upward_unmap_iff hnil (hsegs segment mem_cons_self) hu
  have hassoc : base ++ w ++ separatorFor (base ++ w) ++ decoded =
      base ++ (w ++ separatorFor (base ++ w) ++ decoded) := by
    simp only [append_assoc]
  rw [hassoc] at hw
  obtain ⟨w', hres, hiff⟩ := ih hrest hw
  refine ⟨w', hres, hiff.trans ?_⟩
  have happ : Upward (w ++ separatorFor (base ++ w) ++ decoded) ↔
      Upward w ∨ ¬ NeverUp z segment := by
    unfold separatorFor
    by_cases hlong : 1 < (base ++ w).length
    · rw [if_pos hlong, append_assoc, singleton_append, upward_append_slash, hstep]
    -- only a one-byte base is that short, with nothing appended yet
    have hw0 : w = [] := by
      have := length_pos_iff.mpr hbase
      rw [length_append] at hlong
      exact length_eq_zero_iff.mp (by omega)
    rw [if_neg hlong, hw0, append_nil, nil_append, hstep]
    simp only [not_upward_nil, false_or]
  rw [happ, exists_mem_cons_iff, or_assoc]

variable {path result : Name}

theorem normalizeMappedPath_upward (hbase : base ≠ [])
    (hr : normalizeMappedPath z host base path n = .ok result) :
    ∃ start w, result = start ++ w ∧ start ≠ [] ∧
      start = (if path.head? = some slash then rootPath else base) ∧
      (Upward w ↔ ∃ s ∈ path.splitOn slash, ¬ NeverUp z s) := by
  have hrun : ∀ start : Name, start ≠ [] →
      walkMapped z host n start (path.splitOn slash) = .ok result →
      ∃ w, result = start ++ w ∧ (Upward w ↔ ∃ s ∈ path.splitOn slash, ¬ NeverUp z s) := by
    intro start hstart hw
    rw [← append_nil start] at hw
    obtain ⟨w, hres, hiff⟩ := walkMapped_upward hstart slash_notMem_of_mem_splitOn hw
    refine ⟨w, hres, hiff.trans ?_⟩
    simp only [not_upward_nil, false_or]
  unfold normalizeMappedPath at hr
  split_ifs at hr with hlong habs hfit
  · obtain ⟨w, hres, hiff⟩ := hrun rootPath (by decide) hr
    exact ⟨rootPath, w, hres, by decide, (if_pos habs).symm, hiff⟩
  · obtain ⟨w, hres, hiff⟩ := hrun base hbase hr
    exact ⟨base, w, hres, hbase, (if_neg habs).symm, hiff⟩

theorem beneath_eq_ok (hr : normalizeMappedPathBeneath z host cat base path n = .ok result) :
    normalizeMappedPath z host base path n = .ok result ∧ lexicallyBeneath base result = true ∧
      withinBaseFilesystem host cat base result = .ok () := by
  unfold normalizeMappedPathBeneath at hr
  cases hp : normalizeMappedPath z host base path n with
  | error e => rw [hp] at hr; simp at hr
  | ok r =>
  rw [hp] at hr
  simp only at hr
  split_ifs at hr with hlex
  cases hin : withinBaseFilesystem host cat base r with
  | error e => rw [hin] at hr; simp [Except.map] at hr
  | ok u =>
  rw [hin] at hr
  simp only [Except.map, Except.ok.injEq] at hr
  subst hr
  exact ⟨rfl, hlex, hin⟩

theorem base_ne_nil (hin : withinBaseFilesystem host cat base result = .ok ()) : base ≠ [] := by
  rintro rfl
  unfold withinBaseFilesystem at hin
  rw [host.stat_nil] at hin
  simp at hin

theorem neverUpward_of_root {w : Name} (hbase : base ≠ []) (hw : ¬ Upward w)
    (hlex : lexicallyBeneath base (rootPath ++ w) = true) : NeverUpward base (rootPath ++ w) := by
  unfold lexicallyBeneath at hlex
  simp only [Bool.or_eq_true, Bool.and_eq_true, beq_iff_eq, isPrefixOf_iff_prefix] at hlex
  unfold NeverUpward
  rcases hlex with (rfl | heq) | ⟨⟨u, hu⟩, hslash⟩
  · exact hw
  · rw [heq, drop_length]
    exact not_upward_nil
  obtain ⟨b, bs, rfl⟩ := exists_cons_of_ne_nil hbase
  rw [← hu, getElem?_append_right le_rfl, Nat.sub_self] at hslash
  obtain ⟨rest, rfl⟩ : ∃ rest, u = slash :: rest := by
    cases u with
    | nil => simp at hslash
    | cons a rest => exact ⟨rest, by rw [getElem?_cons_zero] at hslash; simpa using hslash⟩
  have hw' : w = bs ++ slash :: rest := (cons.inj hu).2.symm
  rw [← hu, drop_left, ← nil_append (slash :: rest), upward_append_slash]
  rw [hw', upward_append_slash] at hw
  rintro (h | h)
  · exact not_upward_nil h
  · exact hw (Or.inr h)

/-- **Where decoding stays contained.** A component decodes to one host component exactly when
the escape it opens carries no separator and does not meet its header in an empty or dot name. A
path whose escapes carry no `..` resolves to one that never walks upward from its base; for a
relative path that is also necessary. -/
theorem decoding_contained (z : Zlib) :
    (∀ (dir : Option Directory) (c : Name) (n : ℕ), c ≠ [] → slash ∉ c →
      ((∀ h, unmapComponent z (dir.map Directory.stream) c n = .ok h → OneComponent h) ↔
        EscapeContained z c n)) ∧
    (∀ (host : Host) (cat : Catalog) (base path result : Name) (n : ℕ),
      normalizeMappedPathBeneath z host cat base path n = .ok result →
      ((∀ s ∈ path.splitOn slash, NeverUp z s) → NeverUpward base result) ∧
      (path.head? ≠ some slash →
        (NeverUpward base result ↔ ∀ s ∈ path.splitOn slash, NeverUp z s))) := by
  refine ⟨fun dir c n hne hslash => unmap_oneComponent_iff hne hslash, ?_⟩
  intro host cat base path result n hr
  obtain ⟨hnorm, hlex, hin⟩ := beneath_eq_ok hr
  have hbase := base_ne_nil hin
  obtain ⟨start, w, rfl, -, hstart, hiff⟩ := normalizeMappedPath_upward hbase hnorm
  have hall : ¬ Upward w ↔ ∀ s ∈ path.splitOn slash, NeverUp z s := by
    rw [hiff]
    push Not
    rfl
  by_cases habs : path.head? = some slash
  · rw [if_pos habs] at hstart
    subst hstart
    exact ⟨fun hs => neverUpward_of_root hbase (hall.mpr hs) hlex, fun hrel => absurd habs hrel⟩
  rw [if_neg habs] at hstart
  subst hstart
  have hdrop : NeverUpward start (start ++ w) ↔ ¬ Upward w := by
    unfold NeverUpward
    rw [drop_left]
  exact ⟨fun hs => hdrop.mpr (hall.mpr hs), fun _ => hdrop.trans hall⟩

/-- One file system on which everything exists and nothing can be listed. -/
def flatHost : Host where
  opendir := fun _ => none
  stat := fun path => if path = [] then .error .enoent else .ok ⟨1, .directory⟩
  access := fun path => path != []
  mountinfo := none
  mountRoot := fun _ => none
  clipboardRoot := none
  stat_nil := rfl

/-- No DOS devices at all. -/
def emptyCatalog : Catalog := ⟨[], false⟩

/-- `^HJRAA` is base32 for `:b` and its NUL: the escape carries the colon of a host name. -/
theorem decoding_contained_colon :
    unmapComponent storedZlib none (ascii "a^HJRAA") pathMax = .ok (ascii "a:b") ∧
      OneComponent (ascii "a:b") ∧
      normalizeMappedPathBeneath storedZlib flatHost emptyCatalog (ascii "/mnt/vol")
        (ascii "a^HJRAA/Startup") pathMax = .ok (ascii "/mnt/vol/a:b/Startup") ∧
      NeverUpward (ascii "/mnt/vol") (ascii "/mnt/vol/a:b/Startup") := by
  have hu : unmapComponent storedZlib ((none : Option Directory).map Directory.stream)
      (ascii "a^HJRAA") pathMax = .ok (ascii "a:b") := by decide +kernel
  have hr : normalizeMappedPathBeneath storedZlib flatHost emptyCatalog (ascii "/mnt/vol")
      (ascii "a^HJRAA/Startup") pathMax = .ok (ascii "/mnt/vol/a:b/Startup") := by decide +kernel
  have hmarker : escapeMarker storedZlib (ascii "a^HJRAA") = some 1 := by decide +kernel
  have htext : escapeText storedZlib ((ascii "a^HJRAA").drop 2) = some (ascii ":b") := by
    decide +kernel
  have hcont : EscapeContained storedZlib (ascii "a^HJRAA") pathMax := by
    intro i tailText hi htail _
    obtain rfl := Option.some_inj.mp (hmarker.symm.trans hi)
    obtain rfl := Option.some_inj.mp (htext.symm.trans htail)
    exact (oneComponent_append_iff (by decide)).mp (by decide +kernel)
  have hup : ∀ s ∈ (ascii "a^HJRAA/Startup").splitOn slash, NeverUp storedZlib s := by
    have hsplit : (ascii "a^HJRAA/Startup").splitOn slash = [ascii "a^HJRAA", ascii "Startup"] := by
      decide +kernel
    have hplain : escapeMarker storedZlib (ascii "Startup") = none := by decide +kernel
    rw [hsplit]
    refine forall_mem_cons.mpr ⟨?_, forall_mem_singleton.mpr ?_⟩
    · intro i tailText hi htail
      obtain rfl := Option.some_inj.mp (hmarker.symm.trans hi)
      obtain rfl := Option.some_inj.mp (htext.symm.trans htail)
      decide +kernel
    · intro i tailText hi
      exact nomatch hplain.symm.trans hi
  obtain ⟨hcomp, hpath⟩ := decoding_contained storedZlib
  exact ⟨hu, (hcomp none _ _ (by decide +kernel) (by decide +kernel)).mpr hcont _ hu, hr,
    (hpath _ _ _ _ _ _ hr).1 hup⟩

/-- `^FYXAA` is base32 for `..` and its NUL. It decodes to `..`, and a path that starts with it
leaves its base although the text still starts with the base's own. -/
theorem decoding_escapes_base :
    unmapComponent storedZlib none (ascii "^FYXAA") pathMax = .ok dotDotName ∧
      ¬ OneComponent dotDotName ∧
      normalizeMappedPathBeneath storedZlib flatHost emptyCatalog (ascii "/mnt/vol")
        (ascii "^FYXAA/etc") pathMax = .ok (ascii "/mnt/vol/../etc") ∧
      ¬ NeverUpward (ascii "/mnt/vol") (ascii "/mnt/vol/../etc") := by
  refine ⟨by decide +kernel, by decide +kernel, by decide +kernel, ?_⟩
  unfold NeverUpward
  decide +kernel

end AceShell
