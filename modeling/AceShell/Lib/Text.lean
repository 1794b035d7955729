import Mathlib

/-!
# Byte strings as C sees them

A C string is the list of its bytes without the terminator. `strcasecmp` folds the ASCII letters
only. A directory scan that keeps the smallest name under `strcmp` is `lexFirst`.
-/

namespace Text

open List

/-! ## Character codes -/

/-- The bytes of an ASCII literal. -/
def ascii (s : String) : List UInt8 := s.toList.map fun c => UInt8.ofNat c.toNat

def cstr (bytes : List UInt8) : List UInt8 := bytes.takeWhile (· ≠ 0)

variable {bytes : List UInt8} {byte : UInt8}

theorem bne_of_notMem (h : byte ∉ bytes) : ∀ c ∈ bytes, (c != byte) = true := by
  intro c hc
  rw [bne_iff_ne]
  exact ne_of_mem_of_not_mem hc h

theorem takeWhile_bne_append (h : byte ∉ bytes) (rest : List UInt8)
    : (bytes ++ byte :: rest).takeWhile (· != byte) = bytes := by
  rw [takeWhile_append_of_pos (bne_of_notMem h), takeWhile_cons_of_neg (by simp), append_nil]

theorem dropWhile_bne_append (h : byte ∉ bytes) (rest : List UInt8)
    : (bytes ++ byte :: rest).dropWhile (· != byte) = byte :: rest := by
  rw [dropWhile_append_of_pos (bne_of_notMem h), dropWhile_cons_of_neg (by simp)]

theorem cstr_eq_takeWhile (bytes : List UInt8) : cstr bytes = bytes.takeWhile (· != 0) := by
  unfold cstr
  congr 1
  funext c
  rw [Bool.eq_iff_iff, decide_eq_true_iff, bne_iff_ne]

theorem cstr_eq_self (h : 0 ∉ bytes) : cstr bytes = bytes := by
  rw [cstr_eq_takeWhile]
  exact takeWhile_eq_self_iff.mpr (bne_of_notMem h)

theorem cstr_append_zero (h : 0 ∉ bytes) (rest : List UInt8) :
    cstr (bytes ++ 0 :: rest) = bytes := by
  rw [cstr_eq_takeWhile, takeWhile_bne_append h]

/-! ## Letter case -/

/-- `tolower` in the C locale. -/
def toLower (b : UInt8) : UInt8 := if 65 ≤ b ∧ b ≤ 90 then b + 32 else b

/-- `toupper` in the C locale. -/
def toUpper (b : UInt8) : UInt8 := if 97 ≤ b ∧ b ≤ 122 then b - 32 else b

def isLetter (b : UInt8) : Bool := (65 ≤ b ∧ b ≤ 90) ∨ (97 ≤ b ∧ b ≤ 122)

/-- `strcasecmp a b == 0`. -/
def caseEq (a b : List UInt8) : Bool := a.map toLower == b.map toLower

variable {a b : List UInt8}

theorem caseEq_iff : caseEq a b = true ↔ a.map toLower = b.map toLower := by
  unfold caseEq
  rw [beq_iff_eq]

theorem caseEq_refl (a : List UInt8) : caseEq a a = true := caseEq_iff.mpr rfl

theorem caseEq_symm (h : caseEq a b = true) : caseEq b a = true :=
  caseEq_iff.mpr (caseEq_iff.mp h).symm

theorem caseEq_trans {c : List UInt8} (h : caseEq a b = true) (h' : caseEq b c = true) :
    caseEq a c = true := caseEq_iff.mpr ((caseEq_iff.mp h).trans (caseEq_iff.mp h'))

theorem caseEq_congr_right {c : List UInt8} (h : caseEq b c = true) : caseEq a b = caseEq a c := by
  unfold caseEq
  rw [caseEq_iff.mp h]

theorem caseEq_length (h : caseEq a b = true) : a.length = b.length := by
  have := congrArg length (caseEq_iff.mp h)
  simpa using this

theorem forall_byte {P : UInt8 → Prop} (h : ∀ n : Fin 256, P (UInt8.ofFin n)) (b : UInt8) :
    P b := h b.toFin

set_option maxRecDepth 6000

variable {c : UInt8}

theorem toLower_eq_iff_of_not_letter {b : UInt8} (hc : isLetter c = false) :
    toLower b = toLower c ↔ b = c := by
  have hfix : ∀ x : UInt8, isLetter x = false → toLower x = x := forall_byte (by decide)
  have hkeep : ∀ x : UInt8, isLetter (toLower x) = isLetter x := forall_byte (by decide)
  constructor
  · intro h
    have hb : isLetter b = false := by rw [← hkeep b, h, hkeep c, hc]
    rwa [hfix b hb, hfix c hc] at h
  · rintro rfl
    rfl

theorem toUpper_toLower (b : UInt8) : toUpper (toLower b) = toUpper b := by
  revert b
  exact forall_byte (by decide)

theorem toLower_toUpper (b : UInt8) : toLower (toUpper b) = toLower b := by
  revert b
  exact forall_byte (by decide)

theorem toLower_eq_iff {b : UInt8} : toLower b = toLower c ↔ toUpper b = toUpper c := by
  constructor
  · intro h
    rw [← toUpper_toLower b, h, toUpper_toLower]
  · intro h
    rw [← toLower_toUpper b, h, toLower_toUpper]

theorem mem_iff_of_caseEq (h : caseEq a b = true) (hc : isLetter c = false) : c ∈ a ↔ c ∈ b := by
  have key : ∀ {x y : List UInt8}, x.map toLower = y.map toLower → c ∈ x → c ∈ y := by
    intro x y hxy hm
    have hl : toLower c ∈ y.map toLower := hxy ▸ mem_map_of_mem hm
    obtain ⟨d, hd, hdc⟩ := mem_map.mp hl
    rwa [← (toLower_eq_iff_of_not_letter hc).mp hdc]
  exact ⟨key (caseEq_iff.mp h), key (caseEq_iff.mp h).symm⟩

variable {a' b' : List UInt8}

theorem caseEq_append (h : caseEq a a' = true) (h' : caseEq b b' = true)
    : caseEq (a ++ b) (a' ++ b') = true := by
  rw [caseEq_iff, map_append, map_append, caseEq_iff.mp h, caseEq_iff.mp h']

theorem caseEq_append_iff (hl : a.length = a'.length) :
    caseEq (a ++ b) (a' ++ b') = true ↔ caseEq a a' = true ∧ caseEq b b' = true := by
  simp only [caseEq_iff, map_append]
  constructor
  · intro h
    exact append_inj h (by simpa using hl)
  · rintro ⟨h, h'⟩
    rw [h, h']

theorem caseEq_drop (h : caseEq a b = true) (n : ℕ) : caseEq (a.drop n) (b.drop n) = true := by
  rw [caseEq_iff, map_drop, map_drop, caseEq_iff.mp h]

theorem eq_of_caseEq_of_upper (ha : ∀ c ∈ a, toUpper c = c) (hb : ∀ c ∈ b, toUpper c = c)
    (h : caseEq a b = true) : a = b := by
  have hmap : a.map toUpper = b.map toUpper := by
    have := congrArg (map toUpper) (caseEq_iff.mp h)
    simpa only [map_map, Function.comp_def, toUpper_toLower] using this
  rwa [map_congr_left ha, map_congr_left hb, map_id', map_id'] at hmap

/-! ## The smallest name of a scan -/

/-- `strcmp a b < 0`: bytes compare unsigned, a proper prefix comes first. -/
def strLt : List UInt8 → List UInt8 → Bool
  | _, [] => false
  | [], _ :: _ => true
  | a :: as, b :: bs => a < b || (a == b && strLt as bs)

def keepFirst (first : Option (List UInt8)) (name : List UInt8) : Option (List UInt8) :=
  match first with
  | none => some name
  | some best => if strLt name best then some name else some best

/-- The smallest name of a list. -/
def lexFirst (names : List (List UInt8)) : Option (List UInt8) := names.foldl keepFirst none

variable {first : Option (List UInt8)} {best : List UInt8}

theorem keepFirst_mem {name : List UInt8} (h : keepFirst first name = some best)
    : best = name ∨ first = some best := by
  unfold keepFirst at h
  split at h
  · exact Or.inl (Option.some.inj h).symm
  split_ifs at h
  · exact Or.inl (Option.some.inj h).symm
  · exact Or.inr h

variable {names : List (List UInt8)}

theorem lexFirst_mem : ∀ {best}, lexFirst names = some best → best ∈ names := by
  refine foldlRecOn (motive := fun first => ∀ {best}, first = some best → best ∈ names)
    names _ (by simp) fun first hfirst name hname best h => ?_
  rcases keepFirst_mem h with rfl | hf
  · exact hname
  · exact hfirst hf

theorem isSome_foldl_keepFirst (h : first.isSome) : (names.foldl keepFirst first).isSome := by
  refine foldlRecOn (motive := (Option.isSome · = true)) names _ h fun first _ name _ => ?_
  unfold keepFirst
  split
  · rfl
  · split_ifs <;> rfl

theorem lexFirst_isSome {n : List UInt8} (h : n ∈ names) : (lexFirst names).isSome := by
  cases names with
  | nil => simp at h
  | cons m ms =>
    show (ms.foldl keepFirst (some m)).isSome
    exact isSome_foldl_keepFirst rfl

end Text
