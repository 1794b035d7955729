import AceShell.Terminal.Translate

/-!
# The keyboard direction of the terminal translator

What is typed at the console of the Amiga is turned into what a Linux program expects of an xterm,
after `terminal_translate.c`. A sequence that the byte `0x9b` introduces is held until its final
byte has come or its 64 bytes are full. The translator does not ask for room; what it can write is
bounded by a potential (`length_emitted_le`).
-/

namespace AceShell.Keyboard

open Text Terminal Emission List

/-! ## The translator -/

structure AmigaToXterm where
  sequence : List UInt8 := []
  utf8Continuations : ℕ := 0
  resizePending : Bool := false
  cursorKeys : CursorKeys := .normal
  /-- A byte was stored behind the buffer's end: the state is lost. -/
  overrun : Bool := false
  deriving DecidableEq

abbrev Typing := Emission AmigaToXterm (List UInt8)

def key (ace xterm : String) : List UInt8 × List UInt8 :=
  (amigaCsi :: ascii ace, esc :: ascii xterm)

/-- `translations` -/
def translations : List (List UInt8 × List UInt8) :=
  [key "A" "[A", key "B" "[B", key "C" "[C", key "D" "[D", key "T" "[1;2A", key "S" "[1;2B",
   key " A" "[1;2D", key " @" "[1;2C", key "Z" "[Z", key "40~" "[2~", key "41~" "[5~",
   key "42~" "[6~", key "44~" "OH", key "45~" "OF", key "50~" "[2;2~", key "54~" "[1;2H",
   key "55~" "[1;2F", key "0~" "OP", key "1~" "OQ", key "2~" "OR", key "3~" "OS",
   key "4~" "[15~", key "5~" "[17~", key "6~" "[18~", key "7~" "[19~", key "8~" "[20~",
   key "9~" "[21~", key "10~" "[1;2P", key "11~" "[1;2Q", key "12~" "[1;2R", key "13~" "[1;2S",
   key "14~" "[15;2~", key "15~" "[17;2~", key "16~" "[18;2~", key "17~" "[19;2~",
   key "18~" "[20;2~", key "19~" "[21;2~"]

/-- `application_arrows` -/
def applicationArrows : List (List UInt8 × List UInt8) :=
  [key "A" "OA", key "B" "OB", key "C" "OC", key "D" "OD"]

/-- A row of a table of keys. -/
def lookUp (table : List (List UInt8 × List UInt8)) (sequence : List UInt8) : Option (List UInt8) :=
  (table.find? fun row => row.1 == sequence).map Prod.snd

def arrow (state : AmigaToXterm) : Option (List UInt8) :=
  match state.cursorKeys with
  | .application => lookUp applicationArrows state.sequence
  | .normal => none

def isResizeReport (sequence : List UInt8) : Bool :=
  5 ≤ sequence.length && (sequence.take 4 == amigaCsi :: ascii "12;") &&
    (sequence.getLast? == some (ch '|')) && (sequence.drop 4).head?.any Decimal.isDigit &&
    (sequence.drop 4).dropLast.all fun byte => Decimal.isDigit byte || byte == ch ';'

/-- The sequence is done with. -/
def AmigaToXterm.close (state : AmigaToXterm) : AmigaToXterm := { state with sequence := [] }

def passOn (state : AmigaToXterm) : Typing :=
  (emit state.sequence state).andThen fun state => done state.close

/-- `amiga_emit_sequence` -/
def amigaEmitSequence (state : AmigaToXterm) : Typing :=
  match arrow state with
  | some xterm => emit xterm state.close
  | none =>
    if isResizeReport state.sequence then
      done { state.close with resizePending := true }
    else
      match lookUp translations state.sequence with
      | some xterm => emit xterm state.close
      | none => passOn state

/-- A byte of a sequence. -/
def sequenceKey (state : AmigaToXterm) (byte : UInt8) : Typing :=
  if sequenceMax ≤ state.sequence.length then done { state with overrun := true }
  else
    let state := { state with sequence := state.sequence ++ [byte] }
    if state.sequence.length = sequenceMax || sequenceFinal byte then amigaEmitSequence state
    else done state

/-- A byte that stands alone; a backspace and a delete are told apart. -/
def plainKey (state : AmigaToXterm) (byte : UInt8) : Typing :=
  let state := { state with utf8Continuations := Terminal.utf8Continuations byte }
  if byte = 0x08 then emit [0x7f] state
  else if byte = 0x7f then emit (esc :: ascii "[3~") state
  else emit [byte] state

/-- The body of the loop of `ace_amiga_to_xterm_feed`. The bytes inside a character go through, so
that none of them is taken for `0x9b`. -/
def feedKey (state : AmigaToXterm) (byte : UInt8) : Typing :=
  if state.utf8Continuations ≠ 0 then
    (emit [byte] state).andThen fun state => done
      { state with utf8Continuations :=
          if 0x80 ≤ byte && byte ≤ 0xbf then state.utf8Continuations - 1
          else Terminal.utf8Continuations byte }
  else if state.sequence ≠ [] then sequenceKey state byte
  else if byte = amigaCsi then done { state with sequence := [byte] }
  else plainKey state byte

def feed {σ : Type*} (sink : Sink σ) (state : AmigaToXterm) (context : σ) (bytes : List UInt8) :
    Bool × AmigaToXterm × σ :=
  Sink.push sink id feedKey state context bytes

/-- `ace_amiga_to_xterm_flush` -/
def flush {σ : Type*} (sink : Sink σ) (state : AmigaToXterm) (context : σ) :
    Bool × AmigaToXterm × σ :=
  if state.sequence = [] then (true, state, context)
  else Sink.deliver sink id (passOn state).state (passOn state).writes context

/-! ## How much is written -/

/-- How many bytes a step writes. -/
def cost (e : Typing) : ℕ := (e.output.flatMap id).length

variable {table : List (List UInt8 × List UInt8)} {sequence : List UInt8}

theorem length_lookUp_le {xterm : List UInt8} {extra : ℕ}
    (htable : ∀ row ∈ table, row.2.length ≤ row.1.length + extra)
    (h : lookUp table sequence = some xterm) : xterm.length ≤ sequence.length + extra := by
  obtain ⟨row, hrow, rfl⟩ := Option.map_eq_some_iff.mp h
  have hsame : row.1 = sequence := by
    have hfound := find?_some hrow
    exact LawfulBEq.eq_of_beq hfound
  rw [← hsame]
  exact htable row (mem_of_find?_eq_some hrow)

theorem length_translations_le : ∀ row ∈ translations, row.2.length ≤ row.1.length + 4 := by
  decide

theorem length_applicationArrows_le :
    ∀ row ∈ applicationArrows, row.2.length ≤ row.1.length + 4 := by
  decide

theorem cost_emit (bytes : List UInt8) (state : AmigaToXterm) :
    cost (emit bytes state) = bytes.length := by
  unfold cost
  rw [output_emit, flatMap_singleton]
  rfl

theorem cost_passOn (state : AmigaToXterm) : cost (passOn state) = state.sequence.length := by
  unfold cost passOn
  rw [output_andThen, output_emit, output_done, append_nil, flatMap_singleton]
  rfl

theorem cost_amigaEmitSequence (state : AmigaToXterm) :
    cost (amigaEmitSequence state) ≤ state.sequence.length + 4 ∧
      (amigaEmitSequence state).state.sequence = [] := by
  unfold amigaEmitSequence
  cases harrow : arrow state with
  | some xterm =>
    refine ⟨?_, rfl⟩
    rw [cost_emit]
    unfold arrow at harrow
    cases hkeys : state.cursorKeys with
    | application =>
      rw [hkeys] at harrow
      exact length_lookUp_le length_applicationArrows_le harrow
    | normal =>
      rw [hkeys] at harrow
      exact nomatch harrow
  | none =>
  split_ifs
  · exact ⟨Nat.zero_le _, rfl⟩
  cases hrow : lookUp translations state.sequence with
  | some xterm =>
    refine ⟨?_, rfl⟩
    rw [cost_emit]
    exact length_lookUp_le length_translations_le hrow
  | none =>
    refine ⟨?_, rfl⟩
    rw [cost_passOn]
    exact Nat.le_add_right _ _

theorem feedKey_charge (state : AmigaToXterm) (byte : UInt8) :
    cost (feedKey state byte) + (feedKey state byte).state.sequence.length ≤
      state.sequence.length + 5 := by
  unfold feedKey
  by_cases hin : state.utf8Continuations ≠ 0
  · rw [if_pos hin]
    show 1 + state.sequence.length ≤ state.sequence.length + 5
    omega
  rw [if_neg hin]
  by_cases hheld : state.sequence ≠ []
  · rw [if_pos hheld]
    unfold sequenceKey
    by_cases hfull : sequenceMax ≤ state.sequence.length
    · rw [if_pos hfull]
      show 0 + state.sequence.length ≤ state.sequence.length + 5
      omega
    dsimp only
    obtain ⟨hcost, hempty⟩ :=
      cost_amigaEmitSequence { state with sequence := state.sequence ++ [byte] }
    have hlen : (state.sequence ++ [byte]).length = state.sequence.length + 1 := length_append
    split_ifs
    · rw [hempty]
      dsimp only at hcost
      show _ + 0 ≤ _
      omega
    · show 0 + (state.sequence ++ [byte]).length ≤ _
      omega
  · split_ifs
    · show 0 + 1 ≤ _
      omega
    unfold plainKey
    split_ifs
    all_goals
      show _ + state.sequence.length ≤ _
    · show 1 + _ ≤ _
      omega
    · show 4 + _ ≤ _
      omega
    · show 1 + _ ≤ _
      omega

/-- **What is written for some bytes.** Five bytes for each of them, and those that were held. -/
theorem length_emitted_le (state : AmigaToXterm) (bytes : List UInt8) :
    ((emitted feedKey state bytes).flatMap id).length ≤
      state.sequence.length + 5 * bytes.length := by
  induction bytes generalizing state with
  | nil => exact Nat.zero_le _
  | cons byte bytes ih =>
  have hcharge := feedKey_charge state byte
  have hrest := ih (feedKey state byte).state
  unfold cost at hcharge
  rw [emitted_cons, flatMap_append, length_append, length_cons]
  omega

/-! ## Nothing is stored outside of the buffer -/

structure AmigaToXterm.Roomy (state : AmigaToXterm) : Prop where
  short : state.sequence.length < sequenceMax
  sound : state.overrun = false

variable {state : AmigaToXterm}

theorem roomy_amigaEmitSequence (h : state.overrun = false) :
    (amigaEmitSequence state).state.Roomy := by
  have hshort : ([] : List UInt8).length < sequenceMax := by decide
  unfold amigaEmitSequence
  cases arrow state with
  | some xterm => exact ⟨hshort, h⟩
  | none =>
  split_ifs
  · exact ⟨hshort, h⟩
  cases lookUp translations state.sequence with
  | some xterm => exact ⟨hshort, h⟩
  | none => exact ⟨hshort, h⟩

theorem roomy_feedKey (h : state.Roomy) (byte : UInt8) : (feedKey state byte).state.Roomy := by
  unfold feedKey
  by_cases hin : state.utf8Continuations ≠ 0
  · rw [if_pos hin]
    exact ⟨h.short, h.sound⟩
  by_cases hheld : state.sequence ≠ []
  · unfold sequenceKey
    rw [if_neg (Nat.not_le.mpr h.short)]
    dsimp only
    split_ifs with hdone
    · exact roomy_amigaEmitSequence h.sound
    refine ⟨?_, h.sound⟩
    have hlen : (state.sequence ++ [byte]).length = state.sequence.length + 1 := length_append
    have hshort := h.short
    have hnot : (state.sequence ++ [byte]).length ≠ sequenceMax := by
      intro hfull
      rw [Bool.or_eq_true, decide_eq_true_iff] at hdone
      exact hdone (Or.inl hfull)
    show (state.sequence ++ [byte]).length < sequenceMax
    omega
  · split_ifs
    · exact ⟨(by decide : 1 < sequenceMax), h.sound⟩
    unfold plainKey
    split_ifs
    all_goals exact ⟨h.short, h.sound⟩

end AceShell.Keyboard
