import AceShell.Console.Stream

/-!
# The retained stream

After `save_history` in `console_device_bridge.c`. What is too long is cut behind a line feed before
more is appended, but when no line feed is left within the limit everything goes, and what is
appended then begins in the middle of a line (`retained_iff`).
-/

namespace AceShell.Console

open List

/-- A write, or a window of another size. -/
inductive Change
  | write (data : List UInt8)
  | resize (screenful : ℕ)
  deriving DecidableEq

/-- `save_history`, when the memory for it is there. -/
def ConsoleDevice.saveHistory (device : ConsoleDevice) (data : List UInt8) : ConsoleDevice :=
  if data = [] then device else { device with history := device.trimHistory ++ data }

def ConsoleDevice.change (device : ConsoleDevice) : Change → ConsoleDevice
  | .write data => device.saveHistory data
  | .resize screenful => { device with screenful }

def Change.written : Change → List UInt8
  | .write data => data
  | .resize _ => []

/-- The end of the stream, from its start or from behind a line feed. -/
def AtLine (stream history : List UInt8) : Prop :=
  ∃ before, stream = before ++ history ∧ (before = [] ∨ before.getLast? = some 10)

/-- When what is retained has to be cut, there is a line feed within the limit. -/
def ConsoleDevice.Lined (device : ConsoleDevice) (change : Change) : Prop :=
  change.written ≠ [] → device.historyLimit < device.history.length →
    10 ∈ device.history.drop (device.history.length - device.historyLimit)

theorem behindLine_of_mem {stream : List UInt8} {cut : ℕ} (h : 10 ∈ stream.drop cut) :
    ∃ before, stream = before ++ 10 :: behindLine stream cut := by
  obtain ⟨line, rest, hdrop, hline⟩ := eq_append_cons_of_mem h
  have hbehind : behindLine stream cut = rest := by
    unfold behindLine
    rw [hdrop, Text.dropWhile_bne_append hline, drop_one, tail_cons]
  exact ⟨stream.take cut ++ line, by rw [hbehind, append_assoc, ← hdrop, take_append_drop]⟩

theorem behindLine_of_notMem {stream : List UInt8} {cut : ℕ} (h : 10 ∉ stream.drop cut) :
    behindLine stream cut = [] := by
  have hall : (stream.drop cut).dropWhile (· != 10) = [] :=
    dropWhile_eq_nil_iff.mpr (Text.bne_of_notMem h)
  unfold behindLine
  rw [hall, drop_nil]

theorem ConsoleDevice.historyLimit_pos (device : ConsoleDevice) : 0 < device.historyLimit := by
  unfold historyLimit
  split_ifs <;> omega

variable {device : ConsoleDevice} {stream : List UInt8}

/-- A cut without a line feed leaves nothing, and what the stream has ended with so far is no line
feed. -/
theorem not_atLine_of_cut (h : AtLine stream device.history)
    (hlong : device.historyLimit < device.history.length)
    (hno : 10 ∉ device.history.drop (device.history.length - device.historyLimit))
    (data : List UInt8) : ¬ AtLine (stream ++ data) data := by
  rintro ⟨before, hbefore, hline⟩
  obtain ⟨front, rfl, -⟩ := h
  obtain rfl := append_cancel_right hbefore
  have hpos := device.historyLimit_pos
  have hne : device.history.drop (device.history.length - device.historyLimit) ≠ [] := by
    simp
    omega
  rcases hline with hnil | hlast
  · simp at hnil
    simp [hnil] at hlong
  · rw [← take_append_drop (device.history.length - device.historyLimit) device.history,
      ← append_assoc, getLast?_append_of_ne_nil _ hne] at hlast
    exact hno (mem_of_getLast? hlast)

theorem atLine_change_iff (h : AtLine stream device.history) (change : Change) :
    AtLine (stream ++ change.written) (device.change change).history ↔ device.Lined change := by
  have hsame : change.written = [] → (device.change change).history = device.history := by
    intro hnone
    cases change with
    | write data => exact congrArg ConsoleDevice.history (if_pos hnone)
    | resize screenful => rfl
  by_cases hnone : change.written = []
  · rw [hsame hnone, hnone, append_nil]
    exact iff_of_true h fun hne => absurd hnone hne
  obtain ⟨data, rfl⟩ : ∃ data, change = .write data := by
    cases change with
    | write data => exact ⟨data, rfl⟩
    | resize screenful => exact absurd rfl hnone
  have hsave : (device.change (.write data)).history = device.trimHistory ++ data :=
    congrArg ConsoleDevice.history (if_neg hnone)
  rw [hsave]
  unfold ConsoleDevice.trimHistory
  by_cases hlong : device.historyLimit < device.history.length
  · rw [if_neg (not_le.mpr hlong)]
    by_cases hmem : 10 ∈ device.history.drop (device.history.length - device.historyLimit)
    · refine iff_of_true ?_ fun _ _ => hmem
      obtain ⟨front, rfl, -⟩ := h
      obtain ⟨before, hbefore⟩ := behindLine_of_mem hmem
      refine ⟨front ++ before ++ [10], ?_, .inr (by simp)⟩
      calc front ++ device.history ++ data
          = front ++ (before ++ 10 :: behindLine device.history
              (device.history.length - device.historyLimit)) ++ data := by rw [← hbefore]
        _ = _ := by simp
    · refine iff_of_false ?_ fun hlined => hmem (hlined hnone hlong)
      rw [behindLine_of_notMem hmem]
      exact not_atLine_of_cut h hlong hmem data
  · rw [if_pos (not_lt.mp hlong)]
    refine iff_of_true ?_ fun _ hlong' => absurd hlong' hlong
    obtain ⟨front, rfl, hfront⟩ := h
    exact ⟨front, append_assoc _ _ _, hfront⟩

/-- **The retained stream starts at a line as long as there are lines.** After every part of a
series of writes and window sizes, what is retained is the end of the whole stream from its start
or from behind a line feed, exactly if there is a line feed within the limit whenever something is
cut. -/
theorem retained_iff (screenful : ℕ) (changes : List Change) :
    (∀ before after, changes = before ++ after →
        AtLine (before.flatMap Change.written)
          (before.foldl ConsoleDevice.change { screenful }).history) ↔
      ∀ before change after, changes = before ++ change :: after →
        (before.foldl ConsoleDevice.change { screenful }).Lined change := by
  have hnext : ∀ (before : List Change) (change : Change),
      (before ++ [change]).flatMap Change.written =
          before.flatMap Change.written ++ change.written ∧
        (before ++ [change]).foldl ConsoleDevice.change { screenful } =
          (before.foldl ConsoleDevice.change { screenful }).change change := by
    simp
  constructor
  · intro h before change after hchanges
    have hafter := h (before ++ [change]) after (by simpa using hchanges)
    rw [(hnext before change).1, (hnext before change).2] at hafter
    exact (atLine_change_iff (h before (change :: after) hchanges) change).mp hafter
  intro h before
  induction before using reverseRecOn with
  | nil => exact fun _ _ => ⟨[], rfl, .inl rfl⟩
  | append_singleton before change ih =>
  intro after hchanges
  have hsplit : changes = before ++ change :: after := by simpa using hchanges
  rw [(hnext before change).1, (hnext before change).2]
  exact (atLine_change_iff (ih _ hsplit) change).mpr (h before change after hsplit)

/-- One byte more than the limit, without a line feed, and then another byte: the first are gone. -/
theorem retained_within_line :
    ([Change.write (replicate 131073 97), .write [98]].foldl ConsoleDevice.change {}).history =
        [98] ∧
      ¬ AtLine (replicate 131073 97 ++ [98]) [98] := by
  have hlength : (replicate 131073 (97 : UInt8)).length = 131073 := length_replicate
  have hno : 10 ∉ replicate 131073 (97 : UInt8) := fun hmem =>
    absurd (eq_of_mem_replicate hmem) (by decide)
  -- of the first write only its length matters, and that it has no line feed
  generalize replicate 131073 (97 : UInt8) = data at hlength hno ⊢
  have hne : data ≠ [] := by
    rintro rfl
    simp at hlength
  have hone : ConsoleDevice.change {} (.write data) = { history := data } := if_neg hne
  have hlong : ConsoleDevice.historyLimit { history := data } < data.length := by
    rw [hlength]
    show 131072 < 131073
    decide
  have hdrop : ∀ n, 10 ∉ data.drop n := fun n hmem => hno (mem_of_mem_drop hmem)
  have htrim : ConsoleDevice.trimHistory { history := data } = [] := by
    unfold ConsoleDevice.trimHistory
    rw [if_neg (not_le.mpr hlong), behindLine_of_notMem (hdrop _)]
  refine ⟨?_, ?_⟩
  · rw [foldl_cons, hone]
    show ConsoleDevice.trimHistory { history := data } ++ [98] = _
    rw [htrim]
    rfl
  · have hstart : AtLine data (ConsoleDevice.history { history := data }) := ⟨[], rfl, .inl rfl⟩
    exact not_atLine_of_cut hstart hlong (hdrop _) [98]

end AceShell.Console
