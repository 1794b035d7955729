import AceShell.Terminal.Keyboard
import AceShell.Terminal.Understood

/-!
# What is typed arrives

The console sends characters in UTF-8, control characters among them, the sequences of its keys, and
reports of a new size. However these bytes are cut into calls, and whenever the mode of the cursor
keys changes, a program gets the translations of the keys one after the other, in the mode that is
in force at the last byte of each; a report is only remembered (`keys_translated`).
-/

namespace AceShell.Keyboard

open Text Terminal Emission List Decimal

variable {table : List (List UInt8 × List UInt8)} {sequence : List UInt8} {state : AmigaToXterm}

/-! ## Keys -/

def resizeReport (body : List UInt8) : List UInt8 := amigaCsi :: ascii "12;" ++ body ++ [ch '|']

structure Report where
  body : List UInt8
  first : body.head?.any isDigit = true
  digits : ∀ byte ∈ body, (isDigit byte || byte == ch ';') = true
  short : body.length + 5 ≤ sequenceMax

/-- The one key of the console that is not in the table. -/
def helpKey : List UInt8 := [amigaCsi, ch '?', ch '~']

inductive Key
  | char (c : Char)
  | row (ace xterm : List UInt8) (h : (ace, xterm) ∈ translations)
  | help
  | report (r : Report)

def Key.bytes : Key → List UInt8
  | .char c => String.utf8EncodeChar c
  | .row ace _ _ => ace
  | .help => helpKey
  | .report r => resizeReport r.body

def Key.translation (mode : CursorKeys) : Key → List UInt8
  | .char c =>
    if c.toNat = 0x08 then [0x7f]
    else if c.toNat = 0x7f then esc :: ascii "[3~"
    else String.utf8EncodeChar c
  | .row ace xterm _ =>
    match mode, lookUp applicationArrows ace with
    | .application, some xterm => xterm
    | _, _ => xterm
  | .help => helpKey
  | .report _ => []

def Key.isReport : Key → Bool
  | .report _ => true
  | _ => false

/-- The calls of the translator; `set` is `ace_amiga_to_xterm_set_cursor_keys`. -/
inductive Call
  | feed (bytes : List UInt8)
  | set (mode : CursorKeys)

def Call.act (now : AmigaToXterm × List UInt8) : Call → AmigaToXterm × List UInt8
  | .feed bytes => (Keyboard.feed (Sink.unlimited 0) now.1 now.2 bytes).2
  | .set mode => ({ now.1 with cursorKeys := mode }, now.2)

/-- The bytes of the calls, each with the mode in force when it comes. -/
def strokes : CursorKeys → List Call → List (CursorKeys × UInt8)
  | _, [] => []
  | mode, .feed bytes :: rest => bytes.map (mode, ·) ++ strokes mode rest
  | _, .set mode :: rest => strokes mode rest

/-- A key and the bytes it came by. The mode at the last of them counts. -/
structure Typed where
  key : Key
  strokes : List (CursorKeys × UInt8)
  bytes : strokes.map Prod.snd = key.bytes

def Typed.translation (typed : Typed) : List UInt8 :=
  typed.key.translation ((typed.strokes.getLast?.map Prod.fst).getD .normal)

/-! ## One key -/

def stroke (state : AmigaToXterm) (s : CursorKeys × UInt8) : Typing :=
  feedKey { state with cursorKeys := s.1 } s.2

variable {mode : CursorKeys} {xs : List (CursorKeys × UInt8)} {byte : UInt8} {bytes : List UInt8}

/-- Bytes inside a sequence are held. -/
theorem run_inside (hheld : state.sequence ≠ []) (hutf8 : state.utf8Continuations = 0)
    (hbytes : ∀ x ∈ xs, sequenceFinal x.2 = false)
    (hlen : state.sequence.length + xs.length < sequenceMax) :
    emitted stroke state xs = [] ∧ ∃ mode, behind stroke state xs =
      { state with sequence := state.sequence ++ xs.map Prod.snd, cursorKeys := mode } := by
  induction xs generalizing state with
  | nil => exact ⟨rfl, state.cursorKeys, by rw [map_nil, append_nil]; rfl⟩
  | cons x xs ih =>
  rw [length_cons] at hlen
  have hlonger : (state.sequence ++ [x.2]).length = state.sequence.length + 1 := length_append
  have hstep : stroke state x = done
      { state with sequence := state.sequence ++ [x.2], cursorKeys := x.1 } := by
    have hmore : ¬ ((decide ((state.sequence ++ [x.2]).length = sequenceMax) ||
        sequenceFinal x.2) = true) := by
      rw [hbytes x mem_cons_self, Bool.or_false, decide_eq_true_iff]
      omega
    unfold stroke feedKey
    rw [if_neg (not_not.mpr hutf8), if_pos hheld]
    unfold sequenceKey
    rw [if_neg (by dsimp only; omega)]
    exact if_neg hmore
  obtain ⟨hemit, mode, hbehind⟩ := @ih
    { state with sequence := state.sequence ++ [x.2], cursorKeys := x.1 } (concat_ne_nil _ _)
    hutf8 (fun y hy => hbytes y (mem_cons_of_mem _ hy))
    (by show (state.sequence ++ [x.2]).length + _ < _; omega)
  rw [emitted_cons, behind_cons, hstep]
  refine ⟨hemit, mode, hbehind.trans ?_⟩
  rw [map_cons]
  simp only [append_assoc, singleton_append]

structure AmigaToXterm.Resting (state : AmigaToXterm) : Prop where
  sequence : state.sequence = []
  utf8Continuations : state.utf8Continuations = 0

/-- A sequence is looked at with the mode that is in force at its final byte. -/
theorem run_sequence (h : state.Resting) {inside : List UInt8} {final : UInt8}
    (hxs : xs.map Prod.snd = amigaCsi :: inside ++ [final])
    (hin : ∀ byte ∈ inside, sequenceFinal byte = false) (hfin : sequenceFinal final = true)
    (hlen : inside.length + 2 ≤ sequenceMax) :
    ∃ mode, xs.getLast?.map Prod.fst = some mode ∧
      emitted stroke state xs = (amigaEmitSequence
        { state with sequence := amigaCsi :: inside ++ [final], cursorKeys := mode }).output ∧
      behind stroke state xs = (amigaEmitSequence
        { state with sequence := amigaCsi :: inside ++ [final], cursorKeys := mode }).state := by
  obtain ⟨first, xs, rfl, hfst, hxs⟩ := map_eq_cons_iff.mp hxs
  obtain ⟨held, last, rfl, rfl, hlast⟩ := map_eq_append_iff.mp hxs
  obtain ⟨last, rfl, rfl⟩ := map_eq_singleton_iff.mp hlast
  rw [length_map] at hlen
  have hstart : stroke state first =
      done { state with sequence := [amigaCsi], cursorKeys := first.1 } := by
    unfold stroke feedKey
    rw [if_neg (not_not.mpr h.utf8Continuations), if_neg (not_not.mpr h.sequence), hfst, if_pos rfl]
  obtain ⟨hemit, mode, hbehind⟩ := @run_inside
    { state with sequence := [amigaCsi], cursorKeys := first.1 } held (cons_ne_nil _ _)
    h.utf8Continuations (fun x hx => hin x.2 (mem_map_of_mem hx))
    (by show 1 + held.length < _; omega)
  have hend : stroke { state with sequence := amigaCsi :: held.map Prod.snd, cursorKeys := mode }
      last = amigaEmitSequence { state with
        sequence := amigaCsi :: held.map Prod.snd ++ [last.2], cursorKeys := last.1 } := by
    have hshort : ¬ sequenceMax ≤ (amigaCsi :: held.map Prod.snd).length := by
      rw [length_cons, length_map]
      omega
    unfold stroke feedKey
    rw [if_neg (not_not.mpr h.utf8Continuations), if_pos (cons_ne_nil _ _)]
    unfold sequenceKey
    rw [if_neg hshort]
    exact if_pos (by rw [hfin, Bool.or_true])
  refine ⟨last.1, by rw [← cons_append, getLast?_concat]; rfl, ?_⟩
  rw [emitted_cons, behind_cons, hstart, state_done, emitted_append, behind_append, hemit, hbehind,
    emitted_cons, behind_cons]
  change _ ++ (_ ++ ((stroke { state with
      sequence := amigaCsi :: held.map Prod.snd, cursorKeys := mode } last).output ++ _)) = _ ∧
    (stroke { state with
      sequence := amigaCsi :: held.map Prod.snd, cursorKeys := mode } last).state = _
  rw [hend]
  exact ⟨append_nil _, rfl⟩

variable {body : List UInt8}

theorem isResizeReport_resizeReport (hfst : body.head?.any isDigit = true)
    (hbody : ∀ byte ∈ body, (isDigit byte || byte == ch ';') = true) :
    isResizeReport (resizeReport body) = true := by
  obtain ⟨digit, rest, rfl⟩ : ∃ digit rest, body = digit :: rest := by
    cases body with
    | nil => exact nomatch hfst
    | cons digit rest => exact ⟨digit, rest, rfl⟩
  have hdrop : (resizeReport (digit :: rest)).drop 4 = digit :: rest ++ [ch '|'] := rfl
  have hlast : (resizeReport (digit :: rest)).getLast? = some (ch '|') := getLast?_concat
  have hin : (digit :: rest ++ [ch '|']).dropLast = digit :: rest := dropLast_concat
  have hall := all_eq_true.mpr hbody
  unfold isResizeReport
  rw [hdrop, hlast, hin, hall]
  simp only [BEq.rfl, Bool.and_true]
  exact hfst

theorem lookUp_eq_none {bound : ℕ} (htable : ∀ row ∈ table, row.1.length ≤ bound)
    (h : bound < sequence.length) : lookUp table sequence = none := by
  unfold lookUp
  rw [find?_eq_none.mpr]
  · rfl
  intro row hrow hsame
  have hle := htable row hrow
  rw [LawfulBEq.eq_of_beq hsame] at hle
  omega

theorem arrow_eq_none (h : 2 < state.sequence.length) : arrow state = none := by
  unfold arrow
  cases state.cursorKeys with
  | normal => rfl
  | application =>
    have htable : ∀ row ∈ applicationArrows, row.1.length ≤ 2 := by decide
    exact lookUp_eq_none htable h

theorem sequenceFinal_of_body {byte : UInt8} (h : (isDigit byte || byte == ch ';') = true) :
    sequenceFinal byte = false := by
  revert byte
  exact @forall_byte _ (by decide +kernel)

/-- The keys of the table. -/
theorem row_facts {ace xterm : List UInt8} (h : (ace, xterm) ∈ translations) :
    (∃ inside final, ace = amigaCsi :: inside ++ [final] ∧
      (∀ byte ∈ inside, sequenceFinal byte = false) ∧ sequenceFinal final = true ∧
      inside.length + 2 ≤ sequenceMax) ∧
    isResizeReport ace = false ∧ lookUp translations ace = some xterm := by
  have hall : translations.all (fun row =>
      row.1 == amigaCsi :: row.1.tail.dropLast ++ [row.1.getLastD 0] &&
        row.1.tail.dropLast.all (!sequenceFinal ·) && sequenceFinal (row.1.getLastD 0) &&
        decide (row.1.tail.dropLast.length + 2 ≤ sequenceMax) && !isResizeReport row.1 &&
        lookUp translations row.1 == some row.2) = true := by decide
  have hrow := all_eq_true.mp hall _ h
  simp only [Bool.and_eq_true, beq_iff_eq, all_eq_true, decide_eq_true_iff,
    Bool.not_eq_true'] at hrow
  obtain ⟨⟨⟨⟨⟨hshape, hin⟩, hfin⟩, hlen⟩, hreport⟩, hfound⟩ := hrow
  exact ⟨⟨_, _, hshape, hin, hfin, hlen⟩, hreport, hfound⟩

theorem emit_row {ace xterm : List UInt8} (hseq : state.sequence = ace)
    (h : (ace, xterm) ∈ translations) :
    amigaEmitSequence state =
      emit ((Key.row ace xterm h).translation state.cursorKeys) state.close := by
  obtain ⟨-, hreport, hfound⟩ := row_facts h
  unfold amigaEmitSequence arrow Key.translation
  rw [hseq, hreport, hfound]
  cases state.cursorKeys with
  | normal => rfl
  | application =>
  dsimp only
  cases lookUp applicationArrows ace with
  | none => rfl
  | some xterm => rfl

theorem output_passOn (state : AmigaToXterm) : (passOn state).output = [state.sequence] := rfl

theorem emit_help (hseq : state.sequence = helpKey) : amigaEmitSequence state = passOn state := by
  have hlong : 2 < state.sequence.length := by
    rw [hseq]
    decide
  unfold amigaEmitSequence
  rw [arrow_eq_none hlong, hseq]
  rfl

theorem emit_report (r : Report) (hseq : state.sequence = resizeReport r.body) :
    amigaEmitSequence state = done { state.close with resizePending := true } := by
  have hlong : 2 < state.sequence.length := by
    unfold resizeReport at hseq
    rw [hseq, length_append, length_append]
    show 2 < 4 + r.body.length + 1
    omega
  unfold amigaEmitSequence
  rw [arrow_eq_none hlong, hseq, isResizeReport_resizeReport r.first r.digits]
  rfl

/-- The bytes of a character behind its lead byte go through. -/
theorem run_continuations (hbytes : ∀ x ∈ xs, Utf8.IsContinuation x.2)
    (hcnt : state.utf8Continuations = xs.length) :
    (emitted stroke state xs).flatten = xs.map Prod.snd ∧
      ∃ mode, behind stroke state xs =
        { state with utf8Continuations := 0, cursorKeys := mode } := by
  induction xs generalizing state with
  | nil => exact ⟨rfl, state.cursorKeys, by rw [← length_nil, ← hcnt]; rfl⟩
  | cons x xs ih =>
  obtain ⟨hlow, hhigh⟩ := hbytes x mem_cons_self
  have hstep : stroke state x = (emit [x.2] { state with cursorKeys := x.1 }).andThen
      fun _ => done
        { state with utf8Continuations := xs.length, cursorKeys := x.1 } := by
    unfold stroke feedKey
    simp [hcnt, hlow, hhigh, andThen, emit, done]
  obtain ⟨hemit, mode, hbehind⟩ := @ih
    { state with utf8Continuations := xs.length, cursorKeys := x.1 }
    (fun y hy => hbytes y (mem_cons_of_mem _ hy)) rfl
  rw [emitted_cons, behind_cons, hstep]
  exact ⟨congrArg (x.2 :: ·) hemit, mode, hbehind⟩

theorem run_char (h : state.Resting) {c : Char}
    (hxs : xs.map Prod.snd = String.utf8EncodeChar c) (mode : CursorKeys) :
    (emitted stroke state xs).flatten = (Key.char c).translation mode ∧
      ∃ mode, behind stroke state xs = { state with cursorKeys := mode } := by
  -- The byte is no introducer, and the character is its first byte if it is a control.
  have hfst : ∀ x : CursorKeys × UInt8, x.2 ≠ amigaCsi → stroke state x =
      emit (if x.2 = 0x08 then [0x7f] else if x.2 = 0x7f then esc :: ascii "[3~"
        else [x.2]) { state with
          utf8Continuations := Terminal.utf8Continuations x.2, cursorKeys := x.1 } := by
    intro x hx
    unfold stroke feedKey plainKey
    rw [if_neg (not_not.mpr h.utf8Continuations), if_neg (not_not.mpr h.sequence), if_neg hx]
    split_ifs <;> rfl
  unfold Key.translation
  dsimp only
  rcases Utf8.encode_cases c with ⟨byte, henc, hascii, hval⟩ |
    ⟨lead, rest, henc, hleads, hhigh, hrest⟩
  · rw [henc] at hxs ⊢
    obtain ⟨x, rfl, rfl⟩ := map_eq_singleton_iff.mp hxs
    have hall : ∀ b : UInt8, b < 0x80 → b ≠ amigaCsi ∧ Terminal.utf8Continuations b = 0 :=
      forall_byte (by decide +kernel)
    obtain ⟨hcsi, hzero⟩ := hall x.2 hascii
    have hsame : ∀ n : UInt8, x.2 = n ↔ c.toNat = n.toNat := fun n => by
      rw [← hval, UInt8.toNat_inj]
    rw [emitted_cons, behind_cons, hfst x hcsi, hzero, ← h.utf8Continuations]
    refine ⟨?_, x.1, rfl⟩
    simp only [hsame]
    exact append_nil _
  rw [henc] at hxs ⊢
  obtain ⟨x, xs, rfl, rfl, rfl⟩ := map_eq_cons_iff.mp hxs
  have hall : ∀ b : UInt8, Terminal.utf8Continuations b ≠ 0 →
      b ≠ amigaCsi ∧ b ≠ 0x08 ∧ b ≠ 0x7f := forall_byte (by decide +kernel)
  have hcount := utf8Continuations_of_leads hleads
  obtain ⟨hcsi, hback, hdelete⟩ := hall x.2 (hcount ▸ hleads.pos)
  obtain ⟨hemit, last, hbehind⟩ := @run_continuations
    { state with utf8Continuations := xs.length, cursorKeys := x.1 } xs
    (fun y hy => hrest y.2 (mem_map_of_mem hy)) rfl
  rw [length_map] at hcount
  rw [emitted_cons, behind_cons, hfst x hcsi, hcount, if_neg hback, if_neg hdelete,
    if_neg (by omega), if_neg (by omega)]
  refine ⟨congrArg (x.2 :: ·) hemit, last, hbehind.trans ?_⟩
  rw [← h.utf8Continuations]

/-! ## All keys -/

/-- **One key** is translated as such, and nothing is held behind it. -/
theorem run_key (h : state.Resting) (typed : Typed) :
    (emitted stroke state typed.strokes).flatten = typed.translation ∧
      (behind stroke state typed.strokes).Resting ∧
      (behind stroke state typed.strokes).resizePending =
        (state.resizePending || typed.key.isReport) := by
  obtain ⟨key, xs, hxs⟩ := typed
  unfold Typed.translation
  cases key with
  | char c =>
    obtain ⟨hemit, mode, hbehind⟩ := run_char h hxs ((xs.getLast?.map Prod.fst).getD .normal)
    rw [hbehind]
    exact ⟨hemit, { h with }, (Bool.or_false _).symm⟩
  | row ace xterm hrow =>
    obtain ⟨⟨inside, final, rfl, hin, hfin, hlen⟩, -⟩ := row_facts hrow
    obtain ⟨mode, hmode, hemit, hbehind⟩ := run_sequence h hxs hin hfin hlen
    rw [hemit, hbehind, hmode, emit_row rfl hrow]
    exact ⟨append_nil _, ⟨rfl, h.utf8Continuations⟩, (Bool.or_false _).symm⟩
  | help =>
    obtain ⟨mode, -, hemit, hbehind⟩ := @run_sequence state xs h [ch '?'] (ch '~') hxs
      (forall_mem_singleton.mpr rfl) rfl (by decide)
    rw [hemit, hbehind, emit_help rfl, output_passOn, flatten_singleton]
    exact ⟨rfl, ⟨rfl, h.utf8Continuations⟩, (Bool.or_false _).symm⟩
  | report r =>
  have hshape : ∀ byte ∈ ascii "12;" ++ r.body, sequenceFinal byte = false := by
    have hdigits : ∀ byte ∈ ascii "12;", (isDigit byte || byte == ch ';') = true :=
      all_eq_true.mp (by decide)
    intro byte hbyte
    rcases mem_append.mp hbyte with hbyte | hbyte
    · exact sequenceFinal_of_body (hdigits byte hbyte)
    · exact sequenceFinal_of_body (r.digits byte hbyte)
  have hlen : (ascii "12;" ++ r.body).length + 2 ≤ sequenceMax := by
    have hshort := r.short
    rw [length_append]
    show 3 + r.body.length + 2 ≤ _
    omega
  obtain ⟨mode, -, hemit, hbehind⟩ := @run_sequence state xs h (ascii "12;" ++ r.body) (ch '|')
    hxs hshape rfl hlen
  rw [hemit, hbehind, emit_report r rfl]
  exact ⟨rfl, ⟨rfl, h.utf8Continuations⟩, (Bool.or_true _).symm⟩

theorem run_keys (h : state.Resting) (keys : List Typed) :
    (emitted stroke state (keys.flatMap Typed.strokes)).flatten = keys.flatMap Typed.translation ∧
      (behind stroke state (keys.flatMap Typed.strokes)).resizePending =
        (state.resizePending || keys.any (·.key.isReport)) := by
  induction keys generalizing state with
  | nil => exact ⟨rfl, (Bool.or_false _).symm⟩
  | cons typed keys ih =>
  obtain ⟨hemit, hresting, hpend⟩ := run_key h typed
  obtain ⟨hrest, hlast⟩ := ih hresting
  rw [flatMap_cons, emitted_append, behind_append, flatten_append, hemit, hrest, hlast, hpend,
    Bool.or_assoc]
  exact ⟨rfl, rfl⟩

theorem cursorKeys_feedKey (state : AmigaToXterm) (byte : UInt8) :
    (feedKey state byte).state.cursorKeys = state.cursorKeys := by
  have hemit : ∀ state : AmigaToXterm,
      (amigaEmitSequence state).state.cursorKeys = state.cursorKeys := by
    intro state
    unfold amigaEmitSequence
    cases arrow state with
    | some xterm => rfl
    | none =>
    split_ifs
    · rfl
    · cases lookUp translations state.sequence <;> rfl
  unfold feedKey sequenceKey plainKey
  dsimp only
  split_ifs
  all_goals first | rfl | exact hemit _

theorem run_feed (state : AmigaToXterm) (bytes : List UInt8) :
    emitted stroke state (bytes.map (state.cursorKeys, ·)) = emitted feedKey state bytes ∧
      behind stroke state (bytes.map (state.cursorKeys, ·)) = behind feedKey state bytes ∧
      (behind feedKey state bytes).cursorKeys = state.cursorKeys := by
  induction bytes generalizing state with
  | nil => exact ⟨rfl, rfl, rfl⟩
  | cons byte bytes ih =>
  have hkeys := cursorKeys_feedKey state byte
  obtain ⟨hemit, hbehind, hlast⟩ := ih (feedKey state byte).state
  rw [hkeys] at hemit hbehind hlast
  exact ⟨congrArg ((feedKey state byte).output ++ ·) hemit, hbehind, hlast⟩

/-- The calls handle each byte in the mode in force. -/
theorem run_calls (calls : List Call) (state : AmigaToXterm) (output : List UInt8) :
    (calls.foldl Call.act (state, output)).2 =
        output ++ (emitted stroke state (strokes state.cursorKeys calls)).flatten ∧
      (calls.foldl Call.act (state, output)).1.resizePending =
        (behind stroke state (strokes state.cursorKeys calls)).resizePending := by
  induction calls generalizing state output with
  | nil => exact ⟨(append_nil _).symm, rfl⟩
  | cons call calls ih =>
  rw [foldl_cons]
  cases call with
  | feed bytes =>
    obtain ⟨hemit, hbehind, hkeys⟩ := run_feed state bytes
    have hact : Call.act (state, output) (.feed bytes) = (behind feedKey state bytes,
        output ++ (emitted feedKey state bytes).flatten) := by
      unfold Call.act feed
      dsimp only
      rw [Sink.push_unlimited, flatMap_id]
    obtain ⟨houtput, hpend⟩ := ih (behind feedKey state bytes)
      (output ++ (emitted feedKey state bytes).flatten)
    rw [hkeys] at houtput hpend
    unfold strokes
    rw [hact, houtput, hpend, emitted_append, behind_append, hemit, hbehind,
      flatten_append, append_assoc]
    exact ⟨rfl, rfl⟩
  | set mode =>
  -- A stroke brings its mode along, so the one in the state does not matter.
  have hset : strokes state.cursorKeys (.set mode :: calls) = strokes mode calls := rfl
  obtain ⟨houtput, hpend⟩ := ih { state with cursorKeys := mode } output
  rw [hset]
  cases hstrokes : strokes mode calls <;> rw [hstrokes] at houtput hpend <;>
    exact ⟨houtput, hpend⟩

/-- **What is typed arrives.** Whatever keys are typed, however their bytes are cut into calls and
whenever the mode of the cursor keys is set, the output is the translations of the keys, and the
size is to be looked at exactly if a report came. -/
theorem keys_translated {calls : List Call} {keys : List Typed}
    (hcalls : strokes .normal calls = keys.flatMap Typed.strokes) :
    (calls.foldl Call.act ({}, [])).2 = keys.flatMap Typed.translation ∧
      (calls.foldl Call.act ({}, [])).1.resizePending = keys.any (·.key.isReport) := by
  obtain ⟨houtput, hpending⟩ := run_calls calls {} []
  obtain ⟨hkeys, hreports⟩ := @run_keys {} ⟨rfl, rfl⟩ keys
  have hstrokes : strokes ({} : AmigaToXterm).cursorKeys calls = _ := hcalls
  rw [hstrokes] at houtput hpending
  rw [houtput, hpending, hkeys, hreports]
  exact ⟨rfl, rfl⟩

/-- An arrow whose second byte comes when its mode has changed. -/
theorem keys_translated_arrow :
    ([Call.feed [ch 'x', amigaCsi], .set .application, .feed [ch 'A']].foldl Call.act
      ({}, [])).2 = ch 'x' :: esc :: ascii "OA" :=
  (@keys_translated [.feed [ch 'x', amigaCsi], .set .application, .feed [ch 'A']]
    [⟨.char 'x', [(.normal, ch 'x')], by decide⟩,
     ⟨.row (amigaCsi :: ascii "A") (esc :: ascii "[A") (by decide),
       [(.normal, amigaCsi), (.application, ch 'A')], by decide⟩] rfl).1

end AceShell.Keyboard
