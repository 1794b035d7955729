import AceShell.Lib.Sink
import AceShell.Lib.Decimal
import AceShell.Lib.Text

/-!
# The screen direction of the terminal translator

What a Linux program writes for an xterm is turned into what the console of the Amiga understands,
after `terminal_translate.c`: text as Latin-1, a sequence behind the single byte `0x9b`, with counts
that fit a byte and at most sixteen parameters. A byte's handling is an `Emission`: the calls of the
sink's `write` in order, each with the state it leaves when it fails.
-/

namespace AceShell.Terminal

open Text Emission Decimal

/-! ## The state -/

/-- `console.device` introduces its sequences with this byte. -/
def amigaCsi : UInt8 := 0x9b

def amigaSgrParamMax : ℕ := 16

/-- `ACE_TERMINAL_PARAM_MAX` -/
def paramMax : ℕ := 24

def amigaParamMax : ℕ := 255

/-- `ACE_TERMINAL_SEQUENCE_MAX` -/
def sequenceMax : ℕ := 64

/-- `ACE_TERMINAL_REPEAT_MAX` -/
def repeatMax : ℕ := 255

/-- `ACE_TERMINAL_EMIT_MAX`: the room a sink must have before it is fed another byte. -/
def emitMax : ℕ := 1024

/-- The byte of an ASCII character. -/
def ch (c : Char) : UInt8 := UInt8.ofNat c.toNat

/-- The escape character. -/
def esc : UInt8 := 0x1b

/-- `enum xterm_sequence_kind` -/
inductive SequenceKind
  | none | escape | csi | osc | oscEscape
  deriving DecidableEq

/-- `enum ace_cursor_key_mode` -/
inductive CursorKeys
  | normal | application
  deriving DecidableEq

structure XtermToAmiga where
  sequence : List UInt8 := []
  kind : SequenceKind := .none
  utf8 : List UInt8 := []
  utf8Needed : ℕ := 0
  /-- What CSI b repeats. -/
  lastGraphic : UInt8 := 0
  /-- SGR 1 is in force. -/
  boldRequested : Bool := false
  /-- One of the eight bright colours is selected, which the console shows as bold. -/
  brightForeground : Bool := false
  boldEmitted : Bool := false
  cursorKeys : CursorKeys := .normal
  deriving DecidableEq

/-- What a write consists of: characters of the program's text, or a command for the console. The
sink gets the bytes only. -/
inductive Origin
  | text | command
  deriving DecidableEq

/-- One call of the sink's `write`. -/
structure Write where
  origin : Origin
  bytes : List UInt8
  deriving DecidableEq

abbrev Translation := Emission XtermToAmiga Write

variable (bytes : List UInt8)

/-- `emit_text`, for a command. -/
def emitText (state : XtermToAmiga) : Translation :=
  emit ⟨.command, bytes⟩ state

/-- `emit_csi` -/
def emitCsi (value : ℕ) (final : UInt8) (state : XtermToAmiga) : Translation :=
  emitText (amigaCsi :: print value ++ [final]) state

/-- `emit_csi_pair` -/
def emitCsiPair (first second : ℕ) (final : UInt8) (state : XtermToAmiga) : Translation :=
  emitText (amigaCsi :: print first ++ [ch ';'] ++ print second ++ [final]) state

/-- The same write again and again: `emit_repeat`, and the loops of CSI b and CSI X. -/
def emitRepeat (unit : Write) : ℕ → XtermToAmiga → Translation
  | 0, state => done state
  | count + 1, state => (emit unit state).andThen (emitRepeat unit count)

/-! ## Colour -/

/-- `ansi_to_pen` -/
def ansiToPen : List ℕ := [0, 2, 3, 5, 4, 6, 7, 1]

abbrev Rgb := ℕ × ℕ × ℕ

/-- `ansi_color_rgb` -/
def ansiColorRgb : List Rgb :=
  [(0, 0, 0), (170, 0, 0), (0, 170, 0), (170, 85, 0),
   (0, 0, 170), (170, 0, 170), (0, 170, 170), (170, 170, 170),
   (85, 85, 85), (255, 85, 85), (85, 255, 85), (255, 255, 85),
   (85, 85, 255), (255, 85, 255), (85, 255, 255), (255, 255, 255)]

/-- `cube_level` -/
def cubeLevel : List ℕ := [0, 95, 135, 175, 215, 255]

/-- `xterm_index_rgb` -/
def xtermIndexRgb (index : ℕ) : Rgb :=
  if index < 16 then ansiColorRgb.getD index (0, 0, 0)
  else if index < 232 then
    let value := index - 16
    (cubeLevel.getD (value / 36 % 6) 0, cubeLevel.getD (value / 6 % 6) 0,
      cubeLevel.getD (value % 6) 0)
  else
    let grey := (8 + 10 * (index - 232)) % 256
    (grey, grey, grey)

def rgbDistance (a b : Rgb) : ℕ :=
  (((a.1 : ℤ) - b.1) ^ 2 + ((a.2.1 : ℤ) - b.2.1) ^ 2 + ((a.2.2 : ℤ) - b.2.2) ^ 2).toNat

def nearerColor (rgb : Rgb) (neutral : Bool) (best : Option (ℕ × ℕ)) (index : ℕ) :
    Option (ℕ × ℕ) :=
  if (decide (index % 8 = 0) || decide (index % 8 = 7)) ≠ neutral then best
  else
    let distance := rgbDistance rgb (ansiColorRgb.getD index (0, 0, 0))
    match best with
    | none => some (index, distance)
    | some (_, bestDistance) => if distance < bestDistance then some (index, distance) else best

/-- `nearest_ansi_color`: greys are matched against the four neutral colours, others against the
twelve hues. -/
def nearestAnsiColor (rgb : Rgb) : ℕ :=
  let high := max (max rgb.1 rgb.2.1) rgb.2.2
  let low := min (min rgb.1 rgb.2.1) rgb.2.2
  let neutral := decide ((high - low) * 3 ≤ high)
  match (List.range 16).foldl (nearerColor rgb neutral) none with
  | none => 0
  | some (best, _) => best

variable (state : XtermToAmiga)

/-- `select_pen`: the SGR parameter for a colour, and the state that remembers brightness. -/
def selectPen (color : ℕ) (background : Bool) : ℕ × XtermToAmiga :=
  let pen := ansiToPen.getD (color % 8) 0
  if background then (40 + pen, state)
  else
    let pen := if color = 8 then 1 else pen
    (30 + pen, { state with brightForeground := decide (8 ≤ color) })

/-! ## Text -/

/-- `unicode_folds` -/
def unicodeFolds : List (ℕ × List UInt8) :=
  [(0x2010, ascii "-"), (0x2011, ascii "-"), (0x2012, ascii "-"), (0x2013, ascii "-"),
   (0x2014, ascii "-"), (0x2015, ascii "-"), (0x2018, [0x27]), (0x2019, [0x27]),
   (0x201a, [0x27]), (0x201c, [0x22]), (0x201d, [0x22]), (0x201e, [0x22]),
   (0x2022, ascii "*"), (0x2026, ascii "..."), (0x2030, ascii "%"), (0x2039, ascii "<"),
   (0x203a, ascii ">"), (0x2044, ascii "/"), (0x20ac, ascii "E"),
   (0x2190, ascii "<"), (0x2191, ascii "^"), (0x2192, ascii ">"), (0x2193, ascii "v"),
   (0x2500, ascii "-"), (0x2501, ascii "-"), (0x2502, ascii "|"), (0x2503, ascii "|"),
   (0x2571, ascii "/"), (0x2572, [0x5c]),
   (0x25b2, ascii "^"), (0x25b3, ascii "^"), (0x25b6, ascii ">"), (0x25b7, ascii ">"),
   (0x25ba, ascii ">"), (0x25bc, ascii "v"), (0x25bd, ascii "v"), (0x25c0, ascii "<"),
   (0x25c1, ascii "<"), (0x25c4, ascii "<"),
   (0x2713, ascii "v"), (0x2714, ascii "v"), (0x2717, ascii "x"), (0x2718, ascii "x"),
   (0x27a4, ascii ">")]

/-- `fold_unicode` -/
def foldUnicode (code : ℕ) : List UInt8 :=
  match unicodeFolds.find? (fun fold => fold.1 = code) with
  | some fold => fold.2
  | none =>
    if 0x2500 ≤ code ∧ code ≤ 0x257f then ascii "+"
    else if 0x2580 ≤ code ∧ code ≤ 0x2590 then ascii "#"
    else if 0x2591 ≤ code ∧ code ≤ 0x2593 then ascii ":"
    else if 0x2594 ≤ code ∧ code ≤ 0x259f then ascii "#"
    else if 0x25a0 ≤ code ∧ code ≤ 0x25ff then ascii "*"
    else if 0x2190 ≤ code ∧ code ≤ 0x21ff then ascii ">"
    else ascii "?"

variable (byte : UInt8)

def isGraphic : Bool := (0x20 ≤ byte && byte < 0x7f) || 0xa0 ≤ byte

/-- `put_char` -/
def putChar (state : XtermToAmiga) : Translation :=
  emit ⟨.text, [byte]⟩
    (if isGraphic byte then { state with lastGraphic := byte } else state)

/-- `put_text` -/
def putText : List UInt8 → XtermToAmiga → Translation
  | [], state => done state
  | byte :: rest, state => (putChar byte state).andThen (putText rest)

/-- `utf8_continuations` -/
def utf8Continuations : ℕ :=
  if 0xc2 ≤ byte ∧ byte ≤ 0xdf then 1
  else if 0xe0 ≤ byte ∧ byte ≤ 0xef then 2
  else if 0xf0 ≤ byte ∧ byte ≤ 0xf4 then 3
  else 0

/-- `lead_mask` -/
def leadMask (needed : ℕ) : UInt8 := [0x7f, 0x1f, 0x0f, 0x07].getD needed 0

def utf8Code (needed : ℕ) : ℕ :=
  match bytes with
  | [] => 0
  | lead :: rest =>
    (rest.take needed).foldl (fun code byte => (code <<< 6) ||| (byte &&& 0x3f).toNat)
      (lead &&& leadMask needed).toNat

/-- `put_unicode` -/
def putUnicode : Translation :=
  let code := utf8Code state.utf8 state.utf8Needed
  let state := { state with utf8 := [], utf8Needed := 0 }
  if 0xa0 ≤ code ∧ code ≤ 0xff then putChar (UInt8.ofNat code) state
  else putText (foldUnicode code) state

/-- The bytes of a run one by one, as `put_raw_utf8` gives them back. -/
def emitBytes : List UInt8 → XtermToAmiga → Translation
  | [], state => done state
  | byte :: rest, state => (emit ⟨.text, [byte]⟩ state).andThen (emitBytes rest)

/-- `put_raw_utf8` -/
def putRawUtf8 : Translation :=
  (emitBytes state.utf8 state).andThen fun state =>
    done { state with utf8 := [], utf8Needed := 0 }

/-! ## Control sequences -/

/-- `parse_params`, from a byte on: the number read so far, if a digit was seen, and how many
parameters may still be stored. -/
def parseParamsFrom : List UInt8 → ℕ → Option ℕ → List (Option ℕ)
  | _, 0, _ => []
  | [], _ + 1, value => [value]
  | byte :: rest, maximum + 1, value =>
    if byte = ch ';' ∨ byte = ch ':' then value :: parseParamsFrom rest maximum none
    else if isDigit byte then
      parseParamsFrom rest (maximum + 1)
        (some (min (value.getD 0 * 10 + digitValue byte) 65535))
    else parseParamsFrom rest (maximum + 1) value

def parseParams : List (Option ℕ) := parseParamsFrom bytes paramMax none

variable (params : List (Option ℕ))

/-- `param_or` -/
def paramOr (index fallback : ℕ) : ℕ :=
  (params.getD index none).getD fallback

/-- `movement_count` -/
def movementCount (index : ℕ) : ℕ :=
  min (max (paramOr params index 1) 1) amigaParamMax

/-- `repeat_count` -/
def repeatCount (index : ℕ) : ℕ :=
  min (movementCount params index) repeatMax

/-- `flush_sgr` -/
def flushSgr (out : List ℕ) (state : XtermToAmiga) : Translation :=
  if out = [] then done state
  else
    emitText (amigaCsi :: [ch ';'].intercalate (out.map print) ++ [ch 'm']) state

/-- What one SGR parameter asks for: how many of the parameters behind it belong to it, what it
adds to the console's SGR, and the state. -/
structure SgrStep where
  skip : ℕ := 0
  add : List ℕ := []
  state : XtermToAmiga

def SgrStep.pen (skip : ℕ) (state : XtermToAmiga) (color : ℕ) (background : Bool) : SgrStep :=
  ⟨skip, [(selectPen state color background).1], (selectPen state color background).2⟩

/-- SGR 38 and 48: a colour of the palette, or one by its parts, where T.416 allows an empty slot
for the colour space. -/
def extendedColor (background : Bool) (rest : List (Option ℕ)) (state : XtermToAmiga) : SgrStep :=
  let selector := paramOr rest 0 0
  if selector = 5 then
    .pen 2 state (nearestAnsiColor (xtermIndexRgb (min (paramOr rest 1 0) 255))) background
  else if selector = 2 then
    let first := if 1 < rest.length ∧ rest.getD 1 none = none then 2 else 1
    let rgb := (paramOr rest first 0 % 256, paramOr rest (first + 1) 0 % 256,
      paramOr rest (first + 2) 0 % 256)
    .pen (first + 3) state (nearestAnsiColor rgb) background
  else { state }

def XtermToAmiga.resetBold : XtermToAmiga :=
  { state with boldRequested := false, brightForeground := false, boldEmitted := false }

def sgrParam (param : ℕ) (rest : List (Option ℕ)) (state : XtermToAmiga) : SgrStep :=
  if param = 0 then { add := [0], state := state.resetBold }
  else if param = 1 then { state := { state with boldRequested := true } }
  else if param = 22 then { state := { state with boldRequested := false } }
  else if param ∈ [3, 4, 7, 8, 23, 24, 27, 28] then { add := [param], state }
  else if param = 39 then { add := [39], state := { state with brightForeground := false } }
  else if param = 49 then { add := [49], state }
  else if param = 38 then extendedColor false rest state
  else if param = 48 then extendedColor true rest state
  else if 30 ≤ param ∧ param ≤ 37 then .pen 0 state (param - 30) false
  else if 40 ≤ param ∧ param ≤ 47 then .pen 0 state (param - 40) true
  else if 90 ≤ param ∧ param ≤ 97 then .pen 0 state (param - 90 + 8) false
  else if 100 ≤ param ∧ param ≤ 107 then .pen 0 state (param - 100 + 8) true
  else { state }

/-- The end of `translate_sgr`: bold is sent once, as the union of the two ways to ask for it. -/
def sgrEnd (out : List ℕ) (state : XtermToAmiga) : Translation :=
  let desired := state.boldRequested || state.brightForeground
  if desired ≠ state.boldEmitted then
    let full := decide (out.length = amigaSgrParamMax)
    (if full then flushSgr out state else done state).andThen fun state =>
      flushSgr ((if full then [] else out) ++ [if desired then 1 else 22])
        { state with boldEmitted := desired }
  else flushSgr out state

/-- The loop of `translate_sgr`; `skip` counts the parameters that belong to an earlier one. -/
def sgrLoop : List (Option ℕ) → ℕ → List ℕ → XtermToAmiga → Translation
  | [], _, out, state => sgrEnd out state
  | _ :: rest, skip + 1, out, state => sgrLoop rest skip out state
  | param :: rest, 0, out, state =>
    let full := decide (out.length + 2 > amigaSgrParamMax)
    (if full then flushSgr out state else done state).andThen fun state =>
      let next := sgrParam (param.getD 0) rest state
      sgrLoop rest next.skip ((if full then [] else out) ++ next.add) next.state

/-- `translate_sgr` -/
def translateSgr (state : XtermToAmiga) : Translation :=
  if params = [] then emitCsi 0 (ch 'm') state.resetBold else sgrLoop params 0 [] state

def clearScreen : List UInt8 := amigaCsi :: ascii "1;1H" ++ amigaCsi :: ascii "J"

def privateMode (set : Bool) (param : Option ℕ) (state : XtermToAmiga) : Translation :=
  if param = some 1 then
    done { state with cursorKeys := if set then .application else .normal }
  else if param = some 47 ∨ param = some 1047 ∨ param = some 1049 then emitText clearScreen state
  else if param = some 25 then
    emitText (amigaCsi :: (if set then ascii "1 p" else ascii "0 p")) state
  else if param = some 7 then
    emitText (amigaCsi :: (if set then ascii ">7h" else ascii ">7l")) state
  else done state

/-- `translate_private_mode` -/
def translatePrivateMode (set : Bool) : List (Option ℕ) → XtermToAmiga → Translation
  | [], state => done state
  | param :: rest, state => (privateMode set param state).andThen (translatePrivateMode set rest)

/-- `translate_erase_chars` -/
def translateEraseChars (count : ℕ) (state : XtermToAmiga) : Translation :=
  (emitRepeat ⟨.command, [ch ' ']⟩ count state).andThen (emitCsi count (ch 'D'))

def csiCommand (final : UInt8) (params : List (Option ℕ)) (state : XtermToAmiga) : Translation :=
  if final = ch 'm' then translateSgr params state
  else if final ∈ ascii "ABCDEFILMSTZ" then emitCsi (movementCount params 0) final state
  else if final = ch 'H' ∨ final = ch 'f' then
    emitCsiPair (movementCount params 0) (movementCount params 1) (ch 'H') state
  else if final = ch 'd' then emitCsi (movementCount params 0) (ch 'H') state
  else if final = ch 'G' ∨ final = 0x60 then
    let column := movementCount params 0
    (emitText [ch '\r'] state).andThen fun state =>
      if column < 2 then done state else emitCsi (column - 1) (ch 'C') state
  else if final = ch 'J' then
    if paramOr params 0 0 = 2 then emitText clearScreen state
    else if paramOr params 0 0 ≠ 0 then done state
    else emitText (amigaCsi :: ascii "J") state
  else if final = ch 'K' then
    if paramOr params 0 0 = 2 then emitText (ch '\r' :: amigaCsi :: ascii "K") state
    else if paramOr params 0 0 ≠ 0 then done state
    else emitText (amigaCsi :: ascii "K") state
  else if final = ch 'P' then
    emitRepeat ⟨.command, amigaCsi :: ascii "P"⟩ (repeatCount params 0) state
  else if final = ch '@' then
    emitRepeat ⟨.command, amigaCsi :: ascii "@"⟩ (repeatCount params 0) state
  else if final = ch 'X' then translateEraseChars (repeatCount params 0) state
  else if final = ch 'b' then
    if state.lastGraphic = 0 then done state
    else emitRepeat ⟨.text, [state.lastGraphic]⟩ (repeatCount params 0) state
  else if final = ch 'n' then
    if paramOr params 0 0 = 6 then emitText (amigaCsi :: ascii "6n") state else done state
  else done state

/-- `translate_csi`: what is between the introducer and the final byte decides whether the console
has such a command at all. -/
def translateCsi : Translation :=
  let final := state.sequence.getLastD 0
  let body := (state.sequence.drop 2).dropLast
  match body with
  | [] => csiCommand final (parseParams []) state
  | first :: rest =>
    if 0x3c ≤ first ∧ first ≤ 0x3f then
      if first = ch '?' ∧ (final = ch 'h' ∨ final = ch 'l') then
        translatePrivateMode (final = ch 'h') (parseParams rest) state
      else done state
    else if (first :: rest).any (fun byte => 0x20 ≤ byte && byte ≤ 0x2f) then done state
    else csiCommand final (parseParams (first :: rest)) state

/-- `translate_escape` -/
def translateEscape : Translation :=
  if state.sequence.length = 2 then
    let command := state.sequence.getD 1 0
    if command = ch 'D' then emitText [0x84] state
    else if command = ch 'E' then emitText [0x85] state
    else if command = ch 'H' then emitText [0x88] state
    else if command = ch 'M' then emitText [0x8d] state
    else if command = ch 'c' then
      emitText (amigaCsi :: ascii "0m" ++ clearScreen)
        { state.resetBold with cursorKeys := .normal }
    else done state
  else done state

/-! ## One byte -/

/-- `sequence_final` -/
def sequenceFinal : Bool := 0x40 ≤ byte && byte ≤ 0x7e

/-- No sequence is open any more. -/
def XtermToAmiga.closeSequence : XtermToAmiga :=
  { state with sequence := [], kind := .none }

/-- `finish_escape` -/
def finishEscape : Translation :=
  (translateEscape state).afterwards XtermToAmiga.closeSequence

def oscByte : XtermToAmiga :=
  if state.kind = .oscEscape then
    if byte = ch '\\' ∨ byte = 0x9c then { state with kind := .none }
    else if byte ≠ esc then { state with kind := .osc }
    else state
  else if byte = 0x07 ∨ byte = 0x9c then { state with kind := .none }
  else if byte = esc then { state with kind := .oscEscape }
  else state

/-- A byte of a sequence that is open; the byte is in the buffer already. -/
def sequenceByte : Translation :=
  if state.kind = .escape ∧ state.sequence.length = 2 then
    if byte = ch '[' then done { state with kind := .csi }
    else if byte = ch ']' then done { state with sequence := [], kind := .osc }
    else if byte ∉ ascii "()#%" then finishEscape state
    else done state
  else if state.kind = .escape ∧ state.sequence.length = 3 then finishEscape state
  else if state.kind = .csi ∧ state.sequence.length > 2 ∧ sequenceFinal byte then
    (translateCsi state).afterwards XtermToAmiga.closeSequence
  else if state.sequence.length = sequenceMax then done state.closeSequence
  else done state

def groundByte : Translation :=
  if byte = esc then done { state with sequence := [byte], kind := .escape }
  else if utf8Continuations byte ≠ 0 then
    done { state with utf8 := [byte], utf8Needed := utf8Continuations byte }
  else putChar byte state

def plainByte (state : XtermToAmiga) : Translation :=
  if state.sequence ≠ [] then
    sequenceByte { state with sequence := state.sequence ++ [byte] } byte
  else groundByte state byte

/-- `feed_output_byte` -/
def feedOutputByte : Translation :=
  if state.kind = .osc ∨ state.kind = .oscEscape then done (oscByte state byte)
  else if state.utf8Needed ≠ 0 then
    if 0x80 ≤ byte ∧ byte ≤ 0xbf then
      let state := { state with utf8 := state.utf8 ++ [byte] }
      if state.utf8.length = state.utf8Needed + 1 then putUnicode state else done state
    else (putRawUtf8 state).andThen (plainByte byte)
  else plainByte byte state

/-! ## The calls -/

/-- `ace_xterm_to_amiga_init` -/
def init : XtermToAmiga := {}

def feed {σ : Type*} (sink : Sink σ) (state : XtermToAmiga) (context : σ) (bytes : List UInt8) :
    ℕ × XtermToAmiga × σ :=
  Sink.feed sink Write.bytes feedOutputByte emitMax state context bytes

def heldSequence : Option (List UInt8) :=
  if state.sequence ≠ [] ∧ state.kind ≠ .osc ∧ state.kind ≠ .oscEscape then some state.sequence
  else none

/-- `ace_xterm_to_amiga_flush`. A partial character whose write fails does not keep a partial
sequence from being written. -/
def flush {σ : Type*} (sink : Sink σ) (state : XtermToAmiga) (context : σ) :
    Bool × XtermToAmiga × σ :=
  let (status, state, context) :=
    if state.utf8 ≠ [] then
      Sink.deliver sink Write.bytes (putRawUtf8 state).state (putRawUtf8 state).writes context
    else (true, state, context)
  match heldSequence state with
  | some sequence =>
    let (status, context) := sink.write context sequence
    (status, state.closeSequence, context)
  | none => (status, state.closeSequence, context)

end AceShell.Terminal
