import AceShell.Edit.Line

/-!
# Global changes

`apply_globals` goes along a line, exchanges each occurrence of a search text that it comes to, and
goes on behind what it has put in. A line that every change fits into ends up as the line with its
leftmost occurrences replaced, none of which overlaps another (`applyGlobals_replaces`).
-/

namespace AceShell.LineEditor

open List Text

/-- From the left, each occurrence is replaced and its letters are skipped. With the text comes the
number of occurrences. -/
def replaceAll (find replacement : List UInt8) : ℕ → List UInt8 → List UInt8 × ℕ
  | _, [] => ([], 0)
  | skip + 1, _ :: rest => replaceAll find replacement skip rest
  | 0, c :: rest =>
    if find <+: c :: rest then
      let (text, n) := replaceAll find replacement (find.length - 1) rest
      (replacement ++ text, n + 1)
    else
      let (text, n) := replaceAll find replacement 0 rest
      (c :: text, n)

def replaceEach : List Global → List UInt8 → List UInt8 × List Global
  | [], line => (line, [])
  | global :: rest, line =>
    let (line, n) := replaceAll global.find global.replacement 0 line
    let (line, rest) := replaceEach rest line
    (line, { global with count := global.count + n } :: rest)

variable {text done rest line : List UInt8} {c : UInt8} {capacity rounds : ℕ} {global : Global}

theorem lineFindIn_plain (line text : List UInt8) (start : ℕ) (indices : List ℕ) :
    lineFindIn line start text {} indices none =
      indices.find? fun index => text <+: line.drop index := by
  induction indices with
  | nil => rfl
  | cons index indices ih =>
  have htextAt : textAt line index text {} = decide (text <+: line.drop index) := by
    show ((line.drop index).take text.length == text) = _
    rw [Bool.eq_iff_iff, beq_iff_eq, decide_eq_true_iff, prefix_iff_eq_take, eq_comm]
  rw [lineFindIn, find?_cons, ih, htextAt]
  cases decide (text <+: line.drop index) <;> rfl

theorem lineFind_end (hne : text ≠ []) : lineFind done done.length text {} = none := by
  have hpos := length_pos_iff.mpr hne
  have hrounds : done.length + 1 - text.length - done.length = 0 := by omega
  rw [lineFind, if_neg hne, hrounds]
  rfl

theorem lineFind_cons (hne : text ≠ []) : lineFind (done ++ c :: rest) done.length text {} =
    if text <+: c :: rest then some done.length
    else lineFind (done ++ [c] ++ rest) (done ++ [c]).length text {} := by
  rw [lineFind, lineFind, if_neg hne, if_neg hne, lineFindIn_plain, lineFindIn_plain, append_assoc,
    singleton_append, length_append, length_append, ← Nat.sub_sub]
  cases hrounds : done.length + (c :: rest).length + 1 - text.length - done.length with
  | zero =>
    have hhere : ¬ text <+: c :: rest := fun hpre => by
      have := hpre.length_le
      omega
    rw [if_neg hhere]
    rfl
  | succ rounds =>
    rw [range'_succ]
    by_cases hhere : text <+: c :: rest <;> simp [hhere]

theorem Global.change_exchange (htype : global.type = .exchange) :
    (∃ text, global.change capacity (done ++ rest) done.length = (text, none)) ∨
      global.change capacity (done ++ rest) done.length =
        (done ++ global.replacement ++ rest.drop global.find.length,
          some (done ++ global.replacement).length) := by
  have hdelete : lineDelete (done ++ rest) done.length global.find.length =
      done ++ rest.drop global.find.length := by
    rw [lineDelete, take_left, ← drop_drop, drop_left]
  unfold Global.change lineInsert
  rw [htype]
  dsimp only
  rw [hdelete]
  split_ifs with hempty
  · simp [hempty]
  · exact Or.inl ⟨_, rfl⟩
  · simp

def Applying.result (s : Applying) : List UInt8 × Global × Bool := (s.line, s.global, s.fits)

theorem Applying.run_replaces (htype : global.type = .exchange)
    (hplain : global.qualifiers = {}) (hne : global.find ≠ []) (skip : ℕ)
    (hrounds : (rest.drop skip).length < rounds) {global' : Global}
    (h : (Loop.run (step capacity) rounds
      { line := done ++ rest.drop skip, global, start := done.length }).result =
        (line, global', true)) :
    (line, global') = (done ++ (replaceAll global.find global.replacement skip rest).1,
      { global with
        count := global.count + (replaceAll global.find global.replacement skip rest).2 }) := by
  induction rest generalizing global rounds done skip with
  | nil =>
    obtain ⟨rounds, rfl⟩ := Nat.exists_eq_add_one_of_ne_zero (Nat.ne_zero_of_lt hrounds)
    rw [drop_nil, append_nil, Loop.run, step, hplain, lineFind_end hne] at h
    cases h
    simp [replaceAll]
  | cons c rest ih =>
  obtain _ | skip := skip
  · obtain ⟨rounds, rfl⟩ := Nat.exists_eq_add_one_of_ne_zero (Nat.ne_zero_of_lt hrounds)
    rw [drop_zero] at h hrounds
    by_cases hhere : global.find <+: c :: rest
    · have hfind : lineFind (done ++ c :: rest) done.length global.find global.qualifiers =
          some done.length := by
        rw [hplain, lineFind_cons hne, if_pos hhere]
      obtain ⟨k, hk⟩ := Nat.exists_eq_add_one_of_ne_zero (mt length_eq_zero_iff.mp hne)
      have hshort : (rest.drop k).length < rounds := by
        rw [length_cons] at hrounds
        rw [length_drop]
        omega
      rw [Loop.run, step, hfind] at h
      dsimp only at h
      rcases global.change_exchange htype with ⟨text, hlong⟩ | hchange
      · rw [hlong] at h
        exact nomatch h
      rw [hchange, hk] at h
      have hnext := @ih (done ++ global.replacement) rounds
        { global with count := global.count + 1 } htype hplain hne k hshort h
      rw [hnext, replaceAll, if_pos hhere, hk]
      simp [Nat.add_assoc, Nat.add_comm 1]
    · have hskip : (Loop.run (step capacity) (rounds + 1)
          { line := done ++ [c] ++ rest.drop 0, global, start := (done ++ [c]).length }).result =
            (line, global', true) := by
        rw [← h, Loop.run, Loop.run, step, step, hplain, lineFind_cons hne, if_neg hhere,
          drop_zero, append_assoc, singleton_append]
        dsimp only
        cases lineFind (done ++ c :: rest) (done ++ [c]).length global.find {} with
        | none => rfl
        | some index =>
          dsimp only
          rcases global.change capacity (done ++ c :: rest) index with ⟨text, _ | resume⟩ <;> rfl
      rw [ih htype hplain hne 0 (Nat.lt_of_succ_lt hrounds) hskip, replaceAll, if_neg hhere,
        append_assoc]
      rfl
  · exact ih htype hplain hne skip hrounds h

/-- **Global changes replace from left to right.** If every change fits, one global after the other
replaces the leftmost occurrences of its text, whatever it puts in, and counts them. -/
theorem applyGlobals_replaces {globals globals' : List Global} {line' : List UInt8}
    (hglobals : ∀ global ∈ globals, global.enabled = true ∧ global.type = .exchange ∧
      global.qualifiers = {} ∧ global.find ≠ [])
    (hfits : applyGlobals capacity globals line = (line', globals', true)) :
    (line', globals') = replaceEach globals line := by
  induction globals generalizing line globals' with
  | nil =>
    cases hfits
    rfl
  | cons global rest ih =>
  obtain ⟨⟨hon, htype, hplain, hne⟩, hrest⟩ := forall_mem_cons.mp hglobals
  rw [applyGlobals, hon] at hfits
  cases hfirst : global.applyTo capacity line with
  | mk mid global' start fits =>
  rw [hfirst] at hfits
  cases fits with
  | false => exact nomatch hfits
  | true =>
  have hchanged := @Applying.run_replaces [] line mid capacity _ global htype hplain hne 0
    (Nat.lt_succ_self _) global' (congrArg Applying.result hfirst)
  obtain ⟨rfl, rfl⟩ := Prod.mk.inj hchanged
  dsimp only [nil_append] at hfits
  cases hlater : applyGlobals capacity rest
      (replaceAll global.find global.replacement 0 line).1 with
  | mk last outcome =>
    obtain ⟨globals'', fits⟩ := outcome
    rw [hlater] at hfits
    cases hfits
    show _ = ((replaceEach rest _).1, _ :: (replaceEach rest _).2)
    rw [← ih hrest hlater]

theorem applyGlobals_replaces_growing :
    (ascii "aaabaab", [(⟨1, .exchange, true, 3, {}, ascii "ab", ascii "aab"⟩ : Global)]) =
      replaceEach [⟨1, .exchange, true, 1, {}, ascii "ab", ascii "aab"⟩] (ascii "aabab") :=
  @applyGlobals_replaces _ 10 _ _ _ (by decide) (by decide +kernel)

end AceShell.LineEditor
