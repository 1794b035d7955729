import AceShell.Basic
import AceShell.Lib.Machine

/-!
# Scanning a directory

After `Examine` and `ExNext` in `native_dos.c`. A position that `telldir` gives is what is left of
the directory there. The caller may set the disk key back, as `ExAll` does, and is then given the
last entry again.
-/

namespace AceShell.Dos

open List

/-- The scan of a lock, the caller's `fib_DiskKey`, and the entries that were delivered and not
rolled back. -/
structure Scan where
  scan : Option (List Name)
  scanKey : ℕ := 0
  scanPrevPos : List Name
  diskKey : ℕ := 0
  kept : List Name := []

def examine (dir : List Name) : Scan where
  scan := some dir
  scanPrevPos := dir

variable (spelled : Name → Bool) (dir : List Name)

/-- Whether `ExNext` stops at the entry. -/
def listed (name : Name) : Bool := name != dotName && name != dotDotName && spelled name

namespace Scan

variable (s : Scan)

/-- The loops of `ExNext`, with what they deliver or ERROR_NO_MORE_ENTRIES. -/
def nextEntry (pos : List Name) (scanKey : ℕ) : Scan × Option Name :=
  match pos.dropWhile (!listed spelled ·) with
  | [] => ({ s with scan := none, scanKey }, none)
  | entry :: rest =>
    ({ s with scan := some rest, scanPrevPos := entry :: rest, scanKey := scanKey + 1,
              diskKey := scanKey + 1 }, some entry)

def exNext : Scan × Option Name :=
  match s.scan with
  | none => (s, none)
  | some scan =>
    if 0 < s.scanKey ∧ s.diskKey = s.scanKey - 1 then
      s.nextEntry spelled s.scanPrevPos (s.scanKey - 1)
    else s.nextEntry spelled scan s.scanKey

/-- A call, `again` with the disk key set back. -/
def call (again : Bool) : Scan × Option Name :=
  let s := if again then { s with diskKey := s.diskKey - 1, kept := s.kept.dropLast } else s
  let (s, entry) := s.exNext spelled
  ({ s with kept := s.kept ++ entry.toList }, entry)

def machine : Machine Scan Bool where
  init := examine dir
  possible again s := again = true → s.scan ≠ none ∧ s.kept ≠ []
  step again s := (s.call spelled again).1

structure Sound : Prop where
  rest : dir.filter (listed spelled) = s.kept ++ (s.scan.getD []).filter (listed spelled)
  key : s.scan ≠ none → s.scanKey = s.kept.length ∧ s.diskKey = s.scanKey
  prev : s.scanPrevPos.filter (listed spelled) =
    s.kept.getLast?.toList ++ (s.scan.getD []).filter (listed spelled)

variable {spelled dir s}

theorem filter_dropWhile_listed (l : List Name) :
    (l.dropWhile (!listed spelled ·)).filter (listed spelled) = l.filter (listed spelled) := by
  induction l with
  | nil => rfl
  | cons name l ih => cases h : listed spelled name <;> simp [h, ih]

theorem sound_nextEntry {pos : List Name}
    (hrest : dir.filter (listed spelled) = s.kept ++ pos.filter (listed spelled))
    (hprev : pos.filter (listed spelled) = [] →
      s.scanPrevPos.filter (listed spelled) = s.kept.getLast?.toList) :
    let (t, entry) := s.nextEntry spelled pos s.kept.length
    Sound spelled dir { t with kept := t.kept ++ entry.toList } ∧
      entry = (dir.filter (listed spelled))[s.kept.length]? := by
  have hpos := @filter_dropWhile_listed spelled pos
  rw [hrest, getElem?_append_right le_rfl, Nat.sub_self]
  rw [← hpos] at hrest hprev ⊢
  unfold nextEntry
  cases hdrop : pos.dropWhile (!listed spelled ·) with
  | nil =>
    rw [hdrop] at hrest hprev
    exact ⟨⟨by simpa using hrest, nofun, by simpa using hprev rfl⟩, rfl⟩
  | cons entry rest =>
    have hentry : listed spelled entry = true := by
      simpa [hdrop] using head_dropWhile_not (!listed spelled ·) (l := pos) (by simp [hdrop])
    rw [hdrop] at hrest
    exact ⟨⟨by simpa [hentry] using hrest, fun _ => by simp, by simp [hentry]⟩, by simp [hentry]⟩

/-- One call goes on with the entries that are left, or with the last one again. -/
theorem Sound.call (h : s.Sound spelled dir) {again : Bool}
    (hagain : again = true → s.scan ≠ none ∧ s.kept ≠ []) :
    (s.call spelled again).1.Sound spelled dir ∧ (s.call spelled again).2 =
      (dir.filter (listed spelled))[s.kept.length - again.toNat]? := by
  obtain ⟨scan, scanKey, scanPrevPos, diskKey, kept⟩ := s
  obtain ⟨hrest, hkey, hprev⟩ := h
  dsimp only at *
  cases scan with
  | none =>
    obtain rfl : again = false := by simpa using hagain
    simp only [Option.getD_none, filter_nil, append_nil] at hrest
    refine ⟨⟨?_, nofun, ?_⟩, by simp [Scan.call, exNext, hrest]⟩
    · simpa [Scan.call, exNext] using hrest
    · simpa [Scan.call, exNext] using hprev
  | some rest =>
    obtain ⟨rfl, rfl⟩ := hkey nofun
    cases again with
    | false =>
      have hplain : ¬ (0 < kept.length ∧ kept.length = kept.length - 1) := by omega
      have h := @sound_nextEntry spelled dir
        ⟨some rest, kept.length, scanPrevPos, kept.length, kept⟩ rest hrest
        fun hnil => by simpa [hnil] using hprev
      simpa [Scan.call, exNext, hplain] using h
    | true =>
      obtain ⟨front, last, rfl⟩ := kept.eq_nil_or_concat'.resolve_left (hagain rfl).2
      simp only [getLast?_append, getLast?_singleton, Option.some_or, Option.toList_some] at hprev
      have h := @sound_nextEntry spelled dir
        ⟨some rest, front.length + 1, scanPrevPos, front.length, front⟩ scanPrevPos
        (by simpa [hprev] using hrest) (by simp [hprev])
      simpa [Scan.call, exNext] using h

/-- **Directory scans are exact.** What is delivered and not rolled back is the beginning of the
directory's listed entries, a call gives the next of them, with the disk key set back the last one
again, and after the last of them there are no more. -/
theorem scan_exact {n : ℕ} (h : (machine spelled dir).Run n s) :
    s.kept <+: dir.filter (listed spelled) ∧
    (s.call spelled false).2 = (dir.filter (listed spelled))[s.kept.length]? ∧
    (s.scan ≠ none → s.kept ≠ [] → (s.call spelled true).2 = s.kept.getLast?) ∧
    (s.scan = none → s.kept = dir.filter (listed spelled)) := by
  have hs : s.Sound spelled dir := h.invariant (P := fun _ s => s.Sound spelled dir)
    ⟨rfl, fun _ => ⟨rfl, rfl⟩, rfl⟩ (fun _ _ _ _ _ ha hs => (hs.call ha).1) n.lt_succ_self
  refine ⟨⟨_, hs.rest.symm⟩, (@Sound.call _ _ s hs false nofun).2, fun hopen hkept => ?_,
    fun hend => ?_⟩
  · rw [(hs.call fun _ => ⟨hopen, hkept⟩).2, hs.rest, getLast?_eq_getElem?, Bool.toNat_true,
      getElem?_append_left (Nat.sub_one_lt (mt length_eq_zero_iff.mp hkept))]
  · simpa [hend] using hs.rest.symm

/-- The first entry is delivered twice, and the next call gives the second. -/
theorem scan_exact_again :
    let dir := [dotName, Text.ascii "a", dotDotName, Text.ascii "b"]
    let s := (machine (fun _ => true) dir).exec [false, true] (examine dir)
    (s.call (fun _ => true) false).2 = some (Text.ascii "b") := by
  intro dir s
  have hrun : (machine (fun _ => true) dir).Run 2 s :=
    (Machine.Run.start.step false fun h => by cases h).step true fun _ => by decide +kernel
  exact (scan_exact hrun).2.1.trans (by decide +kernel)

end Scan

end AceShell.Dos
