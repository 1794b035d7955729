import AceShell.Basic

/-!
# Characters that are put back

After `FGetC`, `Read`, `UnGetC` and `native_input_getc` in `native_dos.c`. What is read comes from
the argument line, the line editor, the endpoint of a console or the host's stream; what is put back
goes to the host's stream. Beside it stands an ideal handle, which gives back first what was put
back.
-/

namespace AceShell.Dos

open List

/-! ## Handles -/

structure LineEditor (ε : Type) where
  feed : ε → List UInt8 → Option ε
  takeLine : ε → List UInt8 × ε

/-- An input handle. `arguments` and `line` are what is left of the argument line and of an edited
line, `pushed` is what `ungetc` has put back, `rest` what the host still has, and `lastRead` what
`UnGetC` means by -1. -/
structure Input (ε : Type) where
  standard : Bool
  endpoint : Bool
  raw : Bool := false
  arguments : List UInt8 := []
  line : List UInt8 := []
  editor : Option ε := none
  pushed : List UInt8 := []
  rest : List UInt8
  lastRead : Option UInt8 := none
  deriving DecidableEq

/-- A call on the handle, a change of mode, or a read from another handle. `avail` is what a console
has ready, `room` whether `ungetc` succeeds. -/
inductive Call
  | fGetC
  | read (n avail : ℕ)
  | unGetC (character : Option UInt8) (room : Bool)
  | setMode (raw : Bool)
  | otherRead
  deriving DecidableEq

inductive Result
  | char (c : UInt8)
  | endStream
  | bytes (data : List UInt8)
  | done
  deriving DecidableEq

def newline : UInt8 := 10

/-- The line of a command's arguments. Without any it is empty, which is not the same as none. -/
def argumentLine : Option (List UInt8) → List UInt8
  | none => []
  | some arguments =>
    if arguments.getLast? = some newline then arguments else arguments ++ [newline]

/-- `native_load_input_prefix`, with `ACE_COMMAND_ARGUMENTS` if that is set. -/
def loadInputPrefix (arguments : Option (List UInt8)) : List UInt8 :=
  argumentLine (arguments.map (·.take 4095))

section Calls

variable {ε : Type} (ed : LineEditor ε)

/-! ## Characters -/

/-- `fgetc`. -/
def Input.fgetc (s : Input ε) : Option UInt8 × Input ε :=
  match s.pushed, s.rest with
  | c :: cs, _ => (some c, { s with pushed := cs })
  | [], c :: cs => (some c, { s with rest := cs })
  | [], [] => (none, s)

def isFinalKey (c : UInt8) : Bool :=
  (decide (65 ≤ c) && decide (c ≤ 90)) || (decide (97 ≤ c) && decide (c ≤ 122)) || c == 126 ||
    c == 64

def keyComplete (input : List UInt8) : Bool :=
  input.head? != some 0x9b || decide (32 ≤ input.length) ||
    decide (1 < input.length) && (input.getLast?.map isFinalKey).getD false

/-- What the editor makes of a key: a character to return with the rest of the line, or nothing
yet. -/
def LineEditor.press (e : ε) (input : List UInt8) : Option (UInt8 × List UInt8) × ε :=
  match ed.feed e input with
  | none => (input.head?.map (·, []), e)
  | some e =>
    match ed.takeLine e with
    | ([], e) => (none, e)
    | (c :: line, e) => (some (c, line), e)

/-- The loop of `native_editor_next_char`: the character with the rest of its line, the editor, and
what is left of the stream. -/
def LineEditor.edit : ε → List UInt8 → List UInt8 → Option (UInt8 × List UInt8) × ε × List UInt8
  | e, input, [] =>
    if input = [] then (none, e, [])
    else
      let (result, e) := ed.press e input
      (result, e, [])
  | e, input, c :: cs =>
    let input := input ++ [c]
    if keyComplete input then
      match ed.press e input with
      | (some result, e) => (some result, e, cs)
      | (none, e) => LineEditor.edit e [] cs
    else LineEditor.edit e input cs

def Input.consume (s : Input ε) (k : ℕ) : Input ε :=
  { s with pushed := s.pushed.drop k, rest := s.rest.drop (k - s.pushed.length) }

/-- `native_editor_next_char`. -/
def Input.editorNextChar (s : Input ε) : Option UInt8 × Input ε :=
  match s.line, s.editor with
  | c :: line, _ => (some c, { s with line })
  | [], none => s.fgetc
  | [], some e =>
    let (result, e, left) := ed.edit e [] (s.pushed ++ s.rest)
    (result.map Prod.fst,
      { s.consume ((s.pushed ++ s.rest).length - left.length) with
        line := (result.map Prod.snd).getD [], editor := some e })

/-- `native_input_getc`. -/
def Input.inputGetc (s : Input ε) : Option UInt8 × Input ε :=
  if s.standard && !s.raw then
    match s.arguments with
    | c :: arguments => (some c, { s with arguments })
    | [] => s.editorNextChar ed
  else s.fgetc

def getMany (getc : Input ε → Option UInt8 × Input ε) : ℕ → Input ε → List UInt8 × Input ε
  | 0, s => ([], s)
  | n + 1, s =>
    match getc s with
    | (none, s) => ([], s)
    | (some c, s) =>
      let (data, s) := getMany getc n s
      (c :: data, s)

/-! ## The calls -/

def Input.viaEndpoint (s : Input ε) : Bool := s.endpoint && (!s.standard || s.raw)

/-- The end of `FGetC`. -/
def Input.deliver : Option UInt8 × Input ε → Result × Input ε
  | (none, s) => (.endStream, s)
  | (some c, s) => (.char c, { s with lastRead := some c })

def Input.hostByte (s : Input ε) : Option UInt8 × Input ε :=
  match s.rest with
  | c :: rest => (some c, { s with rest })
  | [] => (none, s)

def Input.hostBytes (s : Input ε) (n avail : ℕ) : Result × Input ε :=
  (.bytes (s.rest.take (min n avail)), { s with rest := s.rest.drop (min n avail) })

/-- `FGetC`. -/
def Input.fGetC (s : Input ε) : Result × Input ε :=
  Input.deliver (if s.viaEndpoint then s.hostByte else s.inputGetc ed)

/-- `Read`. -/
def Input.read (s : Input ε) (n avail : ℕ) : Result × Input ε :=
  if n = 0 then (.bytes [], s)
  else if s.viaEndpoint then s.hostBytes n avail
  else if s.standard then
    if s.raw then
      if s.line ≠ [] then (.bytes (s.line.take n), { s with line := s.line.drop n })
      else s.hostBytes n avail
    else
      let (data, s) := getMany (Input.inputGetc ed) n s
      (.bytes data, s)
  else
    let (data, s) := getMany Input.fgetc n s
    (.bytes data, s)

/-- `UnGetC`, where no character stands for -1. -/
def Input.unGetC (s : Input ε) (character : Option UInt8) (room : Bool) : Result × Input ε :=
  match character.or s.lastRead with
  | none => (.endStream, s)
  | some c =>
    if room then (.char c, { s with pushed := c :: s.pushed, lastRead := none })
    else (.endStream, s)

/-- One call of the code. -/
def Input.call (s : Input ε) : Call → Result × Input ε
  | .fGetC => s.fGetC ed
  | .read n avail => s.read ed n avail
  | .unGetC character room => s.unGetC character room
  | .setMode raw => (.done, { s with raw })
  | .otherRead => (.done, { s with lastRead := none })

/-! ## The ideal handle -/

/-- The next character of the input itself. What is left of an edited line comes before the bytes
behind it, in raw mode too. -/
def Input.nextInput (s : Input ε) : Option UInt8 × Input ε :=
  if s.standard then
    match (if s.raw then [] else s.arguments), s.line, s.editor, s.raw with
    | c :: arguments, _, _, _ => (some c, { s with arguments })
    | [], c :: line, _, _ => (some c, { s with line })
    | [], [], some e, false =>
      let (result, e, rest) := ed.edit e [] s.rest
      (result.map Prod.fst,
        { s with rest, line := (result.map Prod.snd).getD [], editor := some e })
    | [], [], _, _ => s.hostByte
  else s.hostByte

/-- What was put back comes first. -/
def Input.idealGetc (s : Input ε) : Option UInt8 × Input ε :=
  match s.pushed with
  | c :: pushed => (some c, { s with pushed })
  | [] => s.nextInput ed

/-- A read of what is ready: what was put back and what is left of a line, or else what the host
has. -/
def Input.idealReady (s : Input ε) (n avail : ℕ) : Result × Input ε :=
  let line := if s.standard then s.line else []
  if s.pushed ++ line ≠ [] then
    (.bytes ((s.pushed ++ line).take n),
      { s with
        pushed := s.pushed.drop n
        line := if s.standard then s.line.drop (n - s.pushed.length) else s.line })
  else s.hostBytes n avail

/-- One call on the ideal handle. -/
def Input.idealCall (s : Input ε) : Call → Result × Input ε
  | .fGetC => Input.deliver (s.idealGetc ed)
  | .read n avail =>
    if n = 0 then (.bytes [], s)
    else if s.viaEndpoint || s.standard && s.raw then s.idealReady n avail
    else
      let (data, s) := getMany (Input.idealGetc ed) n s
      (.bytes data, s)
  | .unGetC character room => s.unGetC character room
  | .setMode raw => (.done, { s with raw })
  | .otherRead => (.done, { s with lastRead := none })

/-! ## When the code is ideal -/

def Input.ReadsStream (s : Input ε) : Prop :=
  s.viaEndpoint = false ∧ (s.standard = true → s.line = [] ∧
    (s.raw = false → s.arguments = [] ∧ s.editor = none))

/-- A read finds nothing put back, and in raw mode nothing left of a line, or it reads straight from
the host's stream. -/
def Input.Careful (s : Input ε) : Call → Prop
  | .fGetC =>
    s.pushed = [] ∧ (s.standard = true → s.raw = true → s.line = []) ∨ s.ReadsStream
  | .read n _ => n = 0 ∨
    s.pushed = [] ∧ (s.standard = true → s.viaEndpoint = true → s.line = []) ∨
    s.ReadsStream ∧ ¬ (s.standard = true ∧ s.raw = true)
  | _ => True

def callAll (step : Input ε → Call → Result × Input ε) :
    List Call → Input ε → List Result × Input ε
  | [], s => ([], s)
  | call :: calls, s =>
    let (result, s) := step s call
    let (results, s) := callAll step calls s
    (result :: results, s)

def AllCareful : List Call → Input ε → Prop
  | [], _ => True
  | call :: calls, s => s.Careful call ∧ AllCareful calls (s.call ed call).2

end Calls

section Proofs

variable {ε : Type} {ed : LineEditor ε} {s : Input ε}

/-! ## One character -/

theorem LineEditor.edit_isSuffix (ed : LineEditor ε) (e : ε) (input chars : List UInt8) :
    (ed.edit e input chars).2.2 <:+ chars := by
  induction chars generalizing e input with
  | nil =>
    unfold LineEditor.edit
    split_ifs <;> exact suffix_refl []
  | cons c cs ih =>
  unfold LineEditor.edit
  dsimp only
  split_ifs
  · rcases ed.press e (input ++ [c]) with ⟨- | result, e'⟩
    · exact (ih e' []).trans (suffix_cons c cs)
    · exact suffix_cons c cs
  · exact (ih e _).trans (suffix_cons c cs)

theorem fgetc_of_pushed_nil (h : s.pushed = []) : s.fgetc = s.hostByte := by
  unfold Input.fgetc Input.hostByte
  rw [h]
  cases s.rest <;> rfl

theorem nextInput_of_not_standard (h : s.standard = false) : s.nextInput ed = s.hostByte := by
  unfold Input.nextInput
  rw [h]
  rfl

theorem nextInput_of_raw (hstd : s.standard = true) (hraw : s.raw = true)
    (hline : s.line = []) : s.nextInput ed = s.hostByte := by
  unfold Input.nextInput
  rw [hstd, hraw, hline]
  cases s.editor <;> rfl

theorem editorNextChar_of_pushed_nil (hpushed : s.pushed = []) (hstd : s.standard = true)
    (hraw : s.raw = false) (hargs : s.arguments = []) : s.editorNextChar ed = s.nextInput ed := by
  obtain ⟨standard, endpoint, raw, arguments, line, editor, pushed, rest, lastRead⟩ := s
  subst hpushed hstd hraw hargs
  unfold Input.editorNextChar
  cases line with
  | cons c line => rfl
  | nil =>
  cases editor with
  | none => exact fgetc_of_pushed_nil rfl
  | some e =>
  have hleft := suffix_iff_eq_drop.mp (ed.edit_isSuffix e [] rest)
  unfold Input.consume
  dsimp only
  rw [nil_append, length_nil, Nat.sub_zero, ← hleft, drop_nil]
  rfl

theorem inputGetc_of_pushed_nil (hpushed : s.pushed = [])
    (hline : s.standard = true → s.raw = true → s.line = []) : s.inputGetc ed = s.nextInput ed := by
  unfold Input.inputGetc
  by_cases hcooked : (s.standard && !s.raw) = true
  · rw [if_pos hcooked]
    obtain ⟨hstd, hraw⟩ := Bool.and_eq_true_iff.mp hcooked
    rw [Bool.not_eq_true'] at hraw
    cases hargs : s.arguments with
    | cons c arguments =>
      unfold Input.nextInput
      rw [hstd, hraw, if_pos rfl, if_neg Bool.false_ne_true, hargs]
    | nil => exact editorNextChar_of_pushed_nil hpushed hstd hraw hargs
  · rw [if_neg hcooked, fgetc_of_pushed_nil hpushed]
    cases hstd : s.standard with
    | false => exact (nextInput_of_not_standard hstd).symm
    | true =>
    have hraw : s.raw = true := by
      rw [hstd, Bool.true_and, Bool.not_eq_true', Bool.not_eq_false] at hcooked
      exact hcooked
    exact (nextInput_of_raw hstd hraw (hline hstd hraw)).symm

theorem Input.ReadsStream.inputGetc (h : s.ReadsStream) : s.inputGetc ed = s.fgetc := by
  unfold Input.inputGetc
  by_cases hcooked : (s.standard && !s.raw) = true
  · rw [if_pos hcooked]
    obtain ⟨hstd, hraw⟩ := Bool.and_eq_true_iff.mp hcooked
    rw [Bool.not_eq_true'] at hraw
    obtain ⟨hline, hrest⟩ := h.2 hstd
    obtain ⟨hargs, heditor⟩ := hrest hraw
    unfold Input.editorNextChar
    rw [hargs, hline, heditor]
  · rw [if_neg hcooked]

theorem Input.ReadsStream.idealGetc (h : s.ReadsStream) : s.idealGetc ed = s.fgetc := by
  unfold Input.idealGetc
  cases hpushed : s.pushed with
  | cons c pushed =>
    unfold Input.fgetc
    rw [hpushed]
  | nil =>
    rw [← inputGetc_of_pushed_nil hpushed fun hstd _ => (h.2 hstd).1, h.inputGetc]

/-! ## Many characters -/

theorem getMany_congr {P : Input ε → Prop} {getc getc' : Input ε → Option UInt8 × Input ε}
    (h : ∀ s, P s → getc s = getc' s ∧ P (getc s).2) (n : ℕ) {s : Input ε} (hs : P s) :
    getMany getc n s = getMany getc' n s := by
  induction n generalizing s with
  | zero => rfl
  | succ n ih =>
  obtain ⟨hsame, hnext⟩ := h s hs
  unfold getMany
  rw [← hsame]
  rcases hget : getc s with ⟨- | c, s'⟩
  · rfl
  rw [hget] at hnext
  dsimp only
  rw [ih hnext]

theorem hostByte_frame (s : Input ε) :
    s.hostByte.2.standard = s.standard ∧ s.hostByte.2.raw = s.raw ∧
      s.hostByte.2.pushed = s.pushed := by
  unfold Input.hostByte
  cases s.rest <;> exact ⟨rfl, rfl, rfl⟩

theorem nextInput_frame (ed : LineEditor ε) (s : Input ε) :
    (s.nextInput ed).2.standard = s.standard ∧ (s.nextInput ed).2.raw = s.raw ∧
      (s.nextInput ed).2.pushed = s.pushed := by
  unfold Input.nextInput
  split
  · split
    · exact ⟨rfl, rfl, rfl⟩
    · exact ⟨rfl, rfl, rfl⟩
    · exact ⟨rfl, rfl, rfl⟩
    · exact hostByte_frame s
  · exact hostByte_frame s

theorem Input.ReadsStream.fgetc (h : s.ReadsStream) : s.fgetc.2.ReadsStream := by
  unfold Input.fgetc
  split <;> exact h

theorem Input.ReadsStream.getMany_eq (h : s.ReadsStream) (ed : LineEditor ε) (n : ℕ) :
    getMany Input.fgetc n s = getMany (Input.idealGetc ed) n s ∧
      getMany (Input.inputGetc ed) n s = getMany (Input.idealGetc ed) n s := by
  constructor
  · exact getMany_congr (fun s hs => ⟨hs.idealGetc.symm, hs.fgetc⟩) n h
  refine getMany_congr (fun s hs => ⟨hs.inputGetc.trans hs.idealGetc.symm, ?_⟩) n h
  rw [hs.inputGetc]
  exact hs.fgetc

theorem getMany_of_pushed_nil (hpushed : s.pushed = []) (hraw : s.raw = false) (n : ℕ) :
    getMany (Input.inputGetc ed) n s = getMany (Input.idealGetc ed) n s := by
  refine getMany_congr (P := fun s : Input ε => s.pushed = [] ∧ s.raw = false) ?_ n ⟨hpushed, hraw⟩
  rintro s ⟨hpushed, hraw⟩
  have hget : s.inputGetc ed = s.nextInput ed :=
    inputGetc_of_pushed_nil hpushed fun _ hno => nomatch (hraw.symm.trans hno)
  have hideal : s.idealGetc ed = s.nextInput ed := by
    unfold Input.idealGetc
    rw [hpushed]
  obtain ⟨-, hraw', hpushed'⟩ := nextInput_frame ed s
  rw [hget, hideal]
  exact ⟨rfl, hpushed'.trans hpushed, hraw'.trans hraw⟩

/-! ## The calls -/

theorem fGetC_ideal (h : s.Careful .fGetC) : s.fGetC ed = s.idealCall ed .fGetC := by
  refine congrArg Input.deliver ?_
  by_cases hvia : s.viaEndpoint = true
  · rw [if_pos hvia]
    rcases h with ⟨hpushed, hline⟩ | hstream
    · unfold Input.idealGetc
      rw [hpushed]
      cases hstd : s.standard with
      | false => exact (nextInput_of_not_standard hstd).symm
      | true =>
      have hraw : s.raw = true := by
        unfold Input.viaEndpoint at hvia
        rw [hstd, Bool.and_eq_true_iff] at hvia
        exact hvia.2
      exact (nextInput_of_raw hstd hraw (hline hstd hraw)).symm
    · exact nomatch (hstream.1.symm.trans hvia)
  · rw [if_neg hvia]
    rcases h with ⟨hpushed, hline⟩ | hstream
    · rw [inputGetc_of_pushed_nil hpushed hline]
      unfold Input.idealGetc
      rw [hpushed]
    · rw [hstream.inputGetc, hstream.idealGetc]

theorem idealReady_of_pushed_nil (hpushed : s.pushed = []) (n avail : ℕ) :
    s.idealReady n avail =
      if s.standard = true ∧ s.line ≠ [] then
        (.bytes (s.line.take n), { s with line := s.line.drop n })
      else s.hostBytes n avail := by
  obtain ⟨standard, endpoint, raw, arguments, line, editor, pushed, rest, lastRead⟩ := s
  subst hpushed
  cases standard with
  | false => rfl
  | true =>
    cases line with
    | nil => rfl
    | cons c line => cases n <;> rfl

theorem read_ideal {n avail : ℕ} (h : s.Careful (.read n avail)) :
    s.read ed n avail = s.idealCall ed (.read n avail) := by
  unfold Input.read Input.idealCall
  dsimp only
  by_cases hzero : n = 0
  · rw [if_pos hzero, if_pos hzero]
  rw [if_neg hzero, if_neg hzero]
  by_cases hvia : s.viaEndpoint = true
  · rw [if_pos hvia, hvia, Bool.true_or, if_pos rfl]
    rcases h with hno | ⟨hpushed, hline⟩ | ⟨hstream, -⟩
    · exact absurd hno hzero
    · rw [idealReady_of_pushed_nil hpushed, if_neg fun hno => hno.2 (hline hno.1 hvia)]
    · exact nomatch (hstream.1.symm.trans hvia)
  rw [if_neg hvia, Bool.eq_false_iff.mpr hvia, Bool.false_or]
  by_cases hstd : s.standard = true
  · have hready : (s.standard && s.raw) = s.raw := by rw [hstd, Bool.true_and]
    rw [if_pos hstd, hready]
    by_cases hraw : s.raw = true
    · rw [if_pos hraw, if_pos hraw]
      rcases h with hno | ⟨hpushed, -⟩ | ⟨-, hno⟩
      · exact absurd hno hzero
      · rw [idealReady_of_pushed_nil hpushed]
        by_cases hline : s.line = []
        · rw [if_neg (not_not.mpr hline), if_neg fun hno => hno.2 hline]
        · rw [if_pos hline, if_pos ⟨hstd, hline⟩]
      · exact absurd ⟨hstd, hraw⟩ hno
    · rw [if_neg hraw, if_neg hraw]
      rcases h with hno | ⟨hpushed, -⟩ | ⟨hstream, -⟩
      · exact absurd hno hzero
      · rw [getMany_of_pushed_nil hpushed (Bool.eq_false_iff.mpr hraw)]
      · rw [(hstream.getMany_eq ed n).2]
  · have hother : s.standard = false := Bool.eq_false_iff.mpr hstd
    have hstream : s.ReadsStream := ⟨Bool.eq_false_iff.mpr hvia, fun hno => absurd hno hstd⟩
    rw [if_neg hstd, hother, Bool.false_and, if_neg Bool.false_ne_true, (hstream.getMany_eq ed n).1]

theorem call_ideal {call : Call} (h : s.Careful call) : s.call ed call = s.idealCall ed call := by
  cases call with
  | fGetC => exact fGetC_ideal h
  | read n avail => exact read_ideal h
  | unGetC character room => rfl
  | setMode raw => rfl
  | otherRead => rfl

/-- **Put-back characters are honoured where reads go to the stream.** For every handle, every
argument line that fits and every sequence of calls that finds the handle as it should, the results
are those of an ideal handle. -/
theorem calls_honoured (ed : LineEditor ε) (s : Input ε) {arguments : Option (List UInt8)}
    (hfits : ∀ line ∈ arguments, line.length ≤ 4095) (calls : List Call)
    (h : AllCareful ed calls { s with arguments := loadInputPrefix arguments }) :
    callAll (Input.call ed) calls { s with arguments := loadInputPrefix arguments } =
      callAll (Input.idealCall ed) calls { s with arguments := argumentLine arguments } := by
  have hload : loadInputPrefix arguments = argumentLine arguments := by
    unfold loadInputPrefix
    cases arguments with
    | none => rfl
    | some line => rw [Option.map_some, take_of_length_le (hfits line rfl)]
  rw [hload] at h ⊢
  generalize ({ s with arguments := argumentLine arguments } : Input ε) = t at h ⊢
  induction calls generalizing t with
  | nil => rfl
  | cons call calls ih =>
  obtain ⟨hcall, hrest⟩ := h
  unfold callAll
  dsimp only
  rw [← call_ideal hcall, ih _ hrest]

end Proofs

def mutedEditor : LineEditor Unit where
  feed := fun e _ => some e
  takeLine := fun e => ([], e)

def sampleInput (standard : Bool) : Input Unit where
  standard := standard
  endpoint := false
  rest := [120, 121]

/-- A byte of a plain file is put back and read again. -/
theorem calls_honoured_file :
    (callAll (Input.call mutedEditor) [.fGetC, .unGetC none true, .fGetC, .read 5 0]
        { sampleInput false with arguments := loadInputPrefix (some [97, 32, 98]) }).1 =
      [.char 120, .char 120, .char 120, .bytes [121]] ∧
    callAll (Input.call mutedEditor) [.fGetC, .unGetC none true, .fGetC, .read 5 0]
        { sampleInput false with arguments := loadInputPrefix (some [97, 32, 98]) } =
      callAll (Input.idealCall mutedEditor) [.fGetC, .unGetC none true, .fGetC, .read 5 0]
        { sampleInput false with arguments := argumentLine (some [97, 32, 98]) } := by
  refine ⟨by decide, calls_honoured mutedEditor (sampleInput false) (by decide) _ ?_⟩
  have hfile : ∀ t : Input Unit, t.standard = false → t.endpoint = false → t.ReadsStream := by
    intro t hstandard hendpoint
    refine ⟨?_, fun hno => nomatch (hstandard.symm.trans hno)⟩
    unfold Input.viaEndpoint
    rw [hendpoint, Bool.false_and]
  exact ⟨.inr (hfile _ rfl rfl), trivial, .inr (hfile _ rfl rfl),
    .inr (.inr ⟨hfile _ rfl rfl, fun hno => Bool.false_ne_true hno.1⟩), trivial⟩

/-- The arguments are `a b`: `FGetC` gives `a`, `UnGetC` puts it back and says so, and the next
`FGetC` gives the blank behind it. -/
theorem put_back_behind_arguments :
    (callAll (Input.call mutedEditor) [.fGetC, .unGetC none true, .fGetC]
        { sampleInput true with arguments := loadInputPrefix (some [97, 32, 98]) }).1 =
      [.char 97, .char 97, .char 32] ∧
    (callAll (Input.idealCall mutedEditor) [.fGetC, .unGetC none true, .fGetC]
        { sampleInput true with arguments := argumentLine (some [97, 32, 98]) }).1 =
      [.char 97, .char 97, .char 97] := by
  decide

end AceShell.Dos
