import AceShell.Lib.Text

/-!
# Title messages

After `output_console` in `amiga_console.c`. The messages ESC ] 2 ; title BEL are taken out of what
goes to the console device. When a byte does not fit, the recogniser gives back what it has
swallowed together with that byte: a message that begins with the byte is not recognised
(`titles_removed_iff`).
-/

namespace AceShell.Console.Title

open List Option

/-! ## The recogniser -/

/-- `title_state`, with what is in `title_buffer`. -/
inductive State
  | ground
  | escape
  | bracket
  | two
  | title (text : List UInt8)
  deriving DecidableEq

def titleBufferSize : ℕ := 1024

/-- The bytes of a message before its title. -/
def opening : List UInt8 := [27, 93, 50, 59]

/-- What the recogniser has swallowed. -/
def State.held : State → List UInt8
  | ground => []
  | escape => [27]
  | bracket => [27, 93]
  | two => [27, 93, 50]
  | title text => opening ++ text

/-- The next state, when the byte fits. -/
def State.next (state : State) (byte : UInt8) : Option State :=
  match state with
  | ground => if byte = 27 then some escape else none
  | escape => if byte = 93 then some bracket else none
  | bracket => if byte = 50 then some two else none
  | two => if byte = 59 then some (title []) else none
  | title text =>
    if byte = 7 then some ground
    else if byte = 27 ∨ titleBufferSize ≤ text.length + 1 then none
    else some (title (text ++ [byte]))

/-- One round of `output_console`: the state, and what is passed on. -/
def State.feed (state : State) (byte : UInt8) : State × List UInt8 :=
  match state.next byte with
  | some state => (state, [])
  | none => (ground, state.held ++ [byte])

/-- `output_console` on a read. The batches it hands over are joined. -/
def outputConsole (state : State) : List UInt8 → State × List UInt8
  | [] => (state, [])
  | byte :: rest =>
    ((outputConsole (state.feed byte).1 rest).1,
      (state.feed byte).2 ++ (outputConsole (state.feed byte).1 rest).2)

def outputReads (state : State) : List (List UInt8) → State × List UInt8
  | [] => (state, [])
  | read :: reads =>
    ((outputReads (outputConsole state read).1 reads).1,
      (outputConsole state read).2 ++ (outputReads (outputConsole state read).1 reads).2)

/-! ## What it is for -/

def TitleByte (byte : UInt8) : Bool := byte != 27 && byte != 7

/-- A title that fits the buffer. -/
structure IsTitle (text : List UInt8) : Prop where
  fits : text.length < titleBufferSize
  bytes : text.all TitleByte = true

/-- What is behind a message that the stream begins with. -/
def behindMessage (stream : List UInt8) : Option (List UInt8) :=
  let text := (stream.drop 4).takeWhile TitleByte
  match (stream.drop 4).dropWhile TitleByte with
  | 7 :: rest =>
    if stream.take 4 = opening ∧ text.length < titleBufferSize then some rest else none
  | _ => none

/-- The stream is the beginning of a message. -/
def Unfinished (stream : List UInt8) : Prop :=
  stream ∈ [[27], [27, 93], [27, 93, 50]] ∨
    stream.take 4 = opening ∧ (stream.drop 4).length < titleBufferSize ∧
      (stream.drop 4).all TitleByte = true

instance (stream : List UInt8) : Decidable (Unfinished stream) :=
  inferInstanceAs (Decidable (_ ∨ _))

theorem behindMessage_eq_some {stream rest : List UInt8} :
    behindMessage stream = some rest ↔
      ∃ text, IsTitle text ∧ stream = opening ++ (text ++ 7 :: rest) := by
  constructor
  · intro h
    unfold behindMessage at h
    dsimp only at h
    split at h
    · rename_i behind hbehind
      split_ifs at h with hfits
      obtain rfl := some.inj h
      refine ⟨(stream.drop 4).takeWhile TitleByte, ⟨hfits.2, all_eq_true.mpr fun byte hbyte =>
        mem_takeWhile_imp hbyte⟩, ?_⟩
      rw [← hbehind, takeWhile_append_dropWhile, ← hfits.1, take_append_drop]
    · exact nomatch h
  · rintro ⟨text, htext, rfl⟩
    have hdrop : (opening ++ (text ++ 7 :: rest)).drop 4 = text ++ 7 :: rest := rfl
    have hbytes := all_eq_true.mp htext.bytes
    unfold behindMessage
    rw [hdrop, dropWhile_append_of_pos hbytes, takeWhile_append_of_pos hbytes,
      takeWhile_cons_of_neg (by decide), append_nil]
    exact if_pos ⟨rfl, htext.fits⟩

/-- The stream without its messages. An unfinished one at its end is held back. -/
def stripped (stream : List UInt8) : List UInt8 :=
  if Unfinished stream then []
  else
    match _h : behindMessage stream with
    | some rest => stripped rest
    | none =>
      match stream with
      | [] => []
      | byte :: rest => byte :: stripped rest
termination_by stream.length
decreasing_by
  · obtain ⟨text, -, rfl⟩ := behindMessage_eq_some.mp _h
    simp
    omega
  · simp

/-- A message begins here, whether or not it is finished. -/
def Begins (stream : List UInt8) : Prop := (behindMessage stream).isSome ∨ Unfinished stream

variable {stream rest text : List UInt8} {byte : UInt8}

theorem stripped_unfinished (h : Unfinished stream) : stripped stream = [] := by
  rw [stripped, if_pos h]

theorem stripped_message (h : IsTitle text) (rest : List UInt8) :
    stripped (opening ++ (text ++ 7 :: rest)) = stripped rest := by
  have hbehind : behindMessage (opening ++ (text ++ 7 :: rest)) = some rest :=
    behindMessage_eq_some.mpr ⟨text, h, rfl⟩
  have hfinished : ¬ Unfinished (opening ++ (text ++ 7 :: rest)) := by
    simp [Unfinished, opening, TitleByte]
  rw [stripped, if_neg hfinished]
  split <;> simp_all

theorem stripped_cons (h : ¬ Begins (byte :: rest)) :
    stripped (byte :: rest) = byte :: stripped rest := by
  unfold Begins at h
  push Not at h
  rw [stripped, if_neg h.2]
  split <;> simp_all

theorem head_of_begins (h : Begins (byte :: rest)) : byte = 27 := by
  rcases h with hmsg | hshort | hopening
  · obtain ⟨behind, hbehind⟩ := isSome_iff_exists.mp hmsg
    obtain ⟨text, -, heq⟩ := behindMessage_eq_some.mp hbehind
    exact (cons.inj heq).1
  · simp at hshort
    rcases hshort with h | h | h <;> exact h.1
  · exact (cons.inj hopening.1).1

theorem stripped_plain {front : List UInt8} (h : 27 ∉ front) (rest : List UInt8) :
    stripped (front ++ rest) = front ++ stripped rest := by
  induction front with
  | nil => rfl
  | cons byte front ih =>
    have hbyte : byte ≠ 27 := fun heq => h (heq ▸ mem_cons_self)
    rw [cons_append, stripped_cons fun hbegins => hbyte (head_of_begins hbegins),
      ih fun hmem => h (mem_cons_of_mem byte hmem), cons_append]

theorem IsTitle.notMem (h : IsTitle text) : 27 ∉ text := fun hmem =>
  absurd (all_eq_true.mp h.bytes 27 hmem) (by decide)

/-- A byte that begins a message passes less on than the byte itself. -/
theorem length_stripped_le (h : Begins (byte :: rest)) :
    (stripped (byte :: rest)).length ≤ (stripped rest).length := by
  rcases h with hmsg | hunfinished
  · obtain ⟨behind, hbehind⟩ := isSome_iff_exists.mp hmsg
    obtain ⟨text, htext, heq⟩ := behindMessage_eq_some.mp hbehind
    have hrest : rest = 93 :: 50 :: 59 :: (text ++ [7]) ++ behind := by
      simpa using (cons.inj heq).2
    have hplain : 27 ∉ 93 :: 50 :: 59 :: (text ++ [7]) := by simp [htext.notMem]
    rw [heq, stripped_message htext, hrest, stripped_plain hplain, length_append]
    exact Nat.le_add_left _ _
  · simp [stripped_unfinished hunfinished]

/-! ## The recogniser against it -/

namespace State

/-- The title so far fits the buffer. -/
def Good : State → Prop
  | title text => IsTitle text
  | _ => True

variable {state state' : State}

theorem good_feed (h : state.Good) (byte : UInt8) : (state.feed byte).1.Good := by
  unfold feed
  cases state with
  | title text =>
    unfold next
    dsimp only
    split_ifs with hbell hbad
    · trivial
    · trivial
    push Not at hbad
    refine ⟨by simpa using hbad.2, ?_⟩
    rw [all_append, h.bytes]
    simp [TitleByte, hbell, hbad.1]
  | _ =>
  unfold next
  split_ifs
  all_goals first | trivial | exact ⟨by decide, rfl⟩

theorem stripped_held (h : state.Good) : stripped state.held = [] := by
  cases state with
  | ground =>
    rw [stripped]
    rfl
  | title text => exact stripped_unfinished (.inr ⟨rfl, h.fits, h.bytes⟩)
  | _ => exact stripped_unfinished (.inl (by decide))

/-- A byte that fits is swallowed, or ends a message. -/
theorem stripped_next (h : state.Good) (hnext : state.next byte = some state') (rest : List UInt8) :
    stripped (state.held ++ byte :: rest) = stripped (state'.held ++ rest) := by
  cases state with
  | title text =>
    unfold next at hnext
    dsimp only at hnext
    split_ifs at hnext with hbell hbad
    · obtain rfl := some.inj hnext
      rw [hbell]
      show stripped (opening ++ text ++ 7 :: rest) = stripped rest
      rw [append_assoc, stripped_message h]
    · obtain rfl := some.inj hnext
      simp [held]
  | _ =>
  unfold next at hnext
  dsimp only at hnext
  split_ifs at hnext with hbyte
  obtain rfl := some.inj hnext
  rw [hbyte]
  rfl

theorem not_begins (h : state.Good) (hne : state ≠ ground) (hnext : state.next byte = none)
    (rest : List UInt8) : ¬ Begins (state.held ++ byte :: rest) := by
  cases state with
  | ground => exact absurd rfl hne
  | title text =>
    unfold next at hnext
    dsimp only at hnext
    split_ifs at hnext with hbell hbad
    have hall := all_eq_true.mp h.bytes
    -- The title cannot go on: it would be as long as the buffer, or the byte is not part of one.
    have hlong : byte ≠ 27 → titleBufferSize ≤ text.length + 1 := fun hnot => by simp_all
    have hbyte : TitleByte byte = true ↔ byte ≠ 27 := by simp [TitleByte, hbell]
    rintro (hmsg | hshort | ⟨-, hfits, hbytes⟩)
    · obtain ⟨behind, hbehind⟩ := isSome_iff_exists.mp hmsg
      obtain ⟨text', htext', heq⟩ := behindMessage_eq_some.mp hbehind
      have hsame : text ++ byte :: rest = text' ++ 7 :: behind := by
        simpa [held, opening] using heq
      have hwhile := congrArg (takeWhile TitleByte) hsame
      rw [takeWhile_append_of_pos hall, takeWhile_append_of_pos (all_eq_true.mp htext'.bytes),
        takeWhile_cons_of_neg (a := 7) (by decide), append_nil] at hwhile
      by_cases hescape : byte = 27
      · rw [takeWhile_cons_of_neg (by rw [hbyte]; exact not_not.mpr hescape), append_nil] at hwhile
        rw [hwhile] at hsame
        exact hbell (cons.inj (append_cancel_left hsame)).1
      have hlength := congrArg length hwhile
      rw [takeWhile_cons_of_pos (hbyte.mpr hescape)] at hlength
      have := htext'.fits
      have := hlong hescape
      simp at hlength
      omega
    · simp [held, opening] at hshort
    · have hrest : ((title text).held ++ byte :: rest).drop 4 = text ++ byte :: rest := rfl
      rw [hrest] at hfits hbytes
      have hescape := hbyte.mp (all_eq_true.mp hbytes byte (by simp))
      have := hlong hescape
      simp at hfits
      omega
  | _ =>
  unfold next at hnext
  dsimp only at hnext
  split_ifs at hnext with hbyte
  rintro (hmsg | hunfinished)
  · obtain ⟨behind, hbehind⟩ := isSome_iff_exists.mp hmsg
    obtain ⟨text, -, heq⟩ := behindMessage_eq_some.mp hbehind
    simp_all [held, opening]
  · simp_all [Unfinished, held, opening]

/-- A byte that does not fit gives back what was swallowed. -/
theorem stripped_none (h : state.Good) (hnext : state.next byte = none) (rest : List UInt8) :
    stripped (state.held ++ byte :: rest) = state.held ++ stripped (byte :: rest) := by
  by_cases hground : state = ground
  · subst hground
    rfl
  have hbegins := not_begins h hground hnext rest
  obtain ⟨front, hheld, hplain⟩ : ∃ front, state.held = 27 :: front ∧ 27 ∉ front := by
    cases state with
    | ground => exact absurd rfl hground
    | title text => exact ⟨_, rfl, by simp [IsTitle.notMem h]⟩
    | _ => exact ⟨_, rfl, by decide⟩
  rw [hheld, cons_append] at hbegins ⊢
  rw [stripped_cons hbegins, stripped_plain hplain, cons_append]

end State

/-- Somewhere a message begins at a byte that does not fit what was swallowed before it. -/
def Missed : State → List UInt8 → Prop
  | _, [] => False
  | state, byte :: rest =>
    state.next byte = none ∧ Begins (byte :: rest) ∨ Missed (state.feed byte).1 rest

theorem passed_cases {state : State} (h : state.Good) (stream : List UInt8) :
    (outputConsole state stream).2 = stripped (state.held ++ stream) ∧ ¬ Missed state stream ∨
      (stripped (state.held ++ stream)).length < (outputConsole state stream).2.length ∧
        Missed state stream := by
  induction stream generalizing state with
  | nil =>
    refine .inl ⟨?_, id⟩
    rw [append_nil, State.stripped_held h]
    rfl
  | cons byte rest ih =>
  have hgood := State.good_feed h byte
  have hrest := ih hgood
  unfold outputConsole Missed
  cases hnext : state.next byte with
  | some state' =>
    have hfeed : state.feed byte = (state', []) := by simp [State.feed, hnext]
    rw [hfeed] at hrest ⊢
    rw [State.stripped_next h hnext]
    simpa using hrest
  | none =>
  have hfeed : state.feed byte = (.ground, state.held ++ [byte]) := by simp [State.feed, hnext]
  rw [hfeed] at hrest ⊢
  rw [State.stripped_none h hnext]
  rw [State.held, nil_append] at hrest
  by_cases hbegins : Begins (byte :: rest)
  · have hle := length_stripped_le hbegins
    refine .inr ⟨?_, .inl ⟨rfl, hbegins⟩⟩
    rw [length_append, length_append, length_append, length_singleton]
    rcases hrest with ⟨heq, -⟩ | ⟨hlt, -⟩
    · rw [heq]
      omega
    · omega
  · rw [stripped_cons hbegins]
    rcases hrest with ⟨heq, hmissed⟩ | ⟨hlt, hmissed⟩
    · exact .inl ⟨by rw [heq, append_assoc, singleton_append],
        fun h => h.elim (fun hb => hbegins hb.2) hmissed⟩
    · refine .inr ⟨?_, .inr hmissed⟩
      simp
      omega

theorem outputConsole_append (state : State) (stream more : List UInt8) :
    outputConsole state (stream ++ more) =
      ((outputConsole (outputConsole state stream).1 more).1,
        (outputConsole state stream).2 ++
          (outputConsole (outputConsole state stream).1 more).2) := by
  induction stream generalizing state with
  | nil => rfl
  | cons byte stream ih => simp [outputConsole, ih]

theorem outputReads_eq (state : State) (reads : List (List UInt8)) :
    outputReads state reads = outputConsole state reads.flatten := by
  induction reads generalizing state with
  | nil => rfl
  | cons read reads ih => rw [outputReads, flatten_cons, outputConsole_append, ih]

/-- **Title messages are removed unless one begins inside another.** However the output is cut into
reads, what is passed on is the stream without its title messages, exactly if none of them begins at
a byte that does not fit what the recogniser has swallowed before it. -/
theorem titles_removed_iff (reads : List (List UInt8)) :
    (outputReads .ground reads).2 = stripped reads.flatten ↔ ¬ Missed .ground reads.flatten := by
  have hcases := @passed_cases .ground trivial reads.flatten
  rw [outputReads_eq]
  rcases hcases with ⟨heq, hmissed⟩ | ⟨hlt, hmissed⟩
  · exact iff_of_true heq hmissed
  · exact iff_of_false (fun heq => hlt.ne (congrArg length heq).symm) (not_not.mpr hmissed)

/-- An ESC in front of a title message: the message is passed on. -/
theorem title_behind_escape :
    (outputReads .ground [Text.ascii "\x1b\x1b]2;a\x07"]).2 = Text.ascii "\x1b\x1b]2;a\x07" ∧
      stripped (Text.ascii "\x1b\x1b]2;a\x07") = [27] := by
  refine ⟨by decide, ?_⟩
  have hmessage : IsTitle [97] := ⟨by decide, by decide⟩
  have hbegins : ¬ Begins (27 :: (opening ++ ([97] ++ 7 :: []))) := by
    unfold Begins
    decide
  show stripped (27 :: (opening ++ ([97] ++ 7 :: []))) = [27]
  rw [stripped_cons hbegins, stripped_message hmessage]
  exact congrArg _ (@State.stripped_held .ground trivial)

end AceShell.Console.Title
