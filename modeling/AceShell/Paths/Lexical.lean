import AceShell.Paths.Discover
import AceShell.Paths.Walk

/-!
# Normalized paths

A path written from Linux names is a fixed point of both lexical normalizers, and being beneath a
mount point is a matter of the components.
-/

namespace AceShell

open Text List

variable {n : ℕ} {cs : List Name}

theorem LinuxName.plain {c : Name} (hc : LinuxName c) : Plain c := ⟨hc.ne_nil, hc.slash_notMem⟩

/-! ## Lengths -/

variable {start : Name}

theorem length_pathOf_of_long (hs : 1 < start.length) (hcs : ∀ c ∈ cs, Plain c)
    : start.length + 2 * cs.length ≤ (pathOf start cs).length := by
  induction cs generalizing start with
  | nil => simp
  | cons c cs ih =>
  have hc := hcs c mem_cons_self
  have hpos := length_pos_iff.mpr hc.1
  have hlen : (extend start c).length = start.length + 1 + c.length := by
    rw [extend_of_long hs]
    simp only [length_append, length_cons]
    omega
  have hrest : (extend start c).length + 2 * cs.length ≤ (pathOf (extend start c) cs).length :=
    ih (by omega) fun d hd => hcs d (mem_cons_of_mem c hd)
  rw [pathOf_cons, length_cons]
  omega

theorem two_mul_length_le (hcs : ∀ c ∈ cs, Plain c) :
    2 * cs.length ≤ (pathOf rootPath cs).length := by
  cases cs with
  | nil => exact Nat.zero_le _
  | cons c cs =>
  have hc := hcs c mem_cons_self
  have hlong : 1 < (extend rootPath c).length := one_lt_length_extend (by decide) hc.1
  have := length_pathOf_of_long hlong fun d hd => hcs d (mem_cons_of_mem c hd)
  rw [pathOf_cons, length_cons]
  omega

/-! ## Normalizing -/

theorem pushParts_linuxNames {parts : List Name} (hcs : ∀ c ∈ cs, LinuxName c)
    (hroom : parts.length + cs.length ≤ pathMax / 2) : pushParts parts cs = .ok (parts ++ cs) := by
  induction cs generalizing parts with
  | nil => rw [pushParts, append_nil]
  | cons c cs ih =>
  have hc := hcs c mem_cons_self
  rw [length_cons] at hroom
  have hpush : pushPart parts c = .ok (parts ++ [c]) := by
    unfold pushPart
    rw [if_neg (not_or.mpr ⟨hc.ne_nil, hc.ne_dot⟩), if_neg hc.ne_dotDot, if_pos (by omega)]
  rw [pushParts, hpush]
  simp only
  rw [ih (fun d hd => hcs d (mem_cons_of_mem c hd))
      (by rw [length_append, length_singleton]; omega), append_assoc,
    singleton_append]

theorem joinParts_eq_pathOf (hfit : (pathOf start cs).length < n) :
    joinParts n start cs = .ok (pathOf start cs) := by
  induction cs generalizing start with
  | nil => rfl
  | cons c cs ih =>
  have hext : (extend start c).length < n := (length_le_pathOf _ cs).trans_lt hfit
  have happ : appendComponent start c n = .ok (extend start c) := copyOut_eq_ok.mpr ⟨hext, rfl⟩
  rw [joinParts, happ]
  exact ih hfit

theorem pushParts_pathOf (hcs : ∀ c ∈ cs, LinuxName c)
    (hfit : (pathOf rootPath cs).length < pathMax) :
    pushParts [] ((pathOf rootPath cs).splitOn slash) = .ok cs := by
  have hroom : cs.length ≤ pathMax / 2 := by
    have := two_mul_length_le fun c hc => (hcs c hc).plain
    omega
  cases cs with
  | nil => rfl
  | cons c cs =>
    rw [splitOn_pathOf_root fun d hd => (hcs d hd).plain, pushParts, pushPart, if_pos (Or.inl rfl)]
    simp only
    rw [pushParts_linuxNames hcs (by simpa using hroom), nil_append]

theorem normalizeLexical_pathOf (hcs : ∀ c ∈ cs, LinuxName c)
    (hfit : (pathOf rootPath cs).length < pathMax) (hn : (pathOf rootPath cs).length < n)
    (h2 : 2 ≤ n) : normalizeLexical (pathOf rootPath cs) n = .ok (pathOf rootPath cs) := by
  unfold normalizeLexical
  rw [pushParts_pathOf hcs hfit]
  simp only
  rw [if_neg (by omega), joinParts_eq_pathOf hn]

theorem head_pathOf_root (cs : List Name) : (pathOf rootPath cs).head? = some slash := by
  obtain ⟨t, ht⟩ := prefix_pathOf rootPath cs
  rw [← ht]
  rfl

theorem normalizeLexicalAbsolutePath_pathOf (hcs : ∀ c ∈ cs, LinuxName c)
    (hfit : (pathOf rootPath cs).length < pathMax) :
    normalizeLexicalAbsolutePath (pathOf rootPath cs) pathMax = .ok (pathOf rootPath cs) := by
  unfold normalizeLexicalAbsolutePath
  rw [if_pos ⟨head_pathOf_root cs, hfit⟩, normalizeLexical_pathOf hcs hfit hfit (by decide)]

theorem normalizePath_pathOf {base : Name} (hcs : ∀ c ∈ cs, LinuxName c)
    (hfit : (pathOf rootPath cs).length < pathMax) :
    normalizePath base (pathOf rootPath cs) pathMax = .ok (pathOf rootPath cs) := by
  unfold normalizePath
  simp only [head_pathOf_root cs, if_true]
  rw [if_neg (by omega), normalizeLexical_pathOf hcs hfit hfit (by decide)]

end AceShell
