import AceShell.Terminal.Understood

/-!
# Where a sequence ends

A sequence that cannot be translated must not become text, but the translator takes some sequences
to end too early, and what is left of them is then printed.

* A CSI is dropped where its buffer fills, so its other bytes are text (`csi_silent_iff`).
* An operating system command ends at any byte `0x9c`, also inside of a character
  (`osc_silent_iff`).
* An ESC begins a sequence only where none is open. Elsewhere it is one more byte of the open one,
  and what follows it is text (`escape_restarts_iff`).
-/

namespace AceShell.Terminal

open Text Emission List Utf8

/-! ## Statements -/

/-- The state behind some calls with a sink without a limit, and all that they wrote. -/
def feeds (s : XtermToAmiga) (pieces : List (List UInt8)) : XtermToAmiga × List UInt8 :=
  pieces.foldl (fun now piece => (feed (Sink.unlimited emitMax) now.1 now.2 piece).2) (s, [])

def IsParam (byte : UInt8) : Prop := 0x20 ≤ byte ∧ byte ≤ 0x3f

def csi (params : List UInt8) (final : UInt8) : List UInt8 := esc :: ch '[' :: (params ++ [final])

/-- The byte is written as it is. In a sequence a byte may have text written too, but that is the
last character again. -/
def AsText (s : XtermToAmiga) (byte : UInt8) : Prop :=
  s.kind = .none ∧ Write.mk .text [byte] ∈ (feedOutputByte s byte).output

inductive Terminator
  | bel
  | st
  deriving DecidableEq

def Terminator.bytes : Terminator → List UInt8
  | .bel => [0x07]
  | .st => [esc, ch '\\']

def osc (payload : List Char) (terminator : Terminator) : List UInt8 :=
  esc :: ch ']' :: (encode payload ++ terminator.bytes)

def IsControl (c : Char) : Prop := c.toNat < 0x20 ∨ 0x7f ≤ c.toNat ∧ c.toNat ≤ 0x9f

/-- Nothing of the bytes is written, and what follows is translated as if they had not come. -/
def Swallowed (s : XtermToAmiga) (bytes : List UInt8) : Prop :=
  ∀ pieces later, pieces.flatten = bytes →
    (feeds s pieces).2 = [] ∧ (feeds s (pieces ++ later)).2 = (feeds s later).2

/-- What a command ended by BEL may not have in it, and one ended by ST only as its last byte. -/
def Terminator.Spares (bytes : List UInt8) : Terminator → Prop
  | .bel => bytes.dropWhile (· != 0x9c) = []
  | .st => (bytes.dropWhile (· != 0x9c)).drop 1 = []

/-- The state once a partial character and a partial sequence are given up. -/
def XtermToAmiga.abandon (s : XtermToAmiga) : XtermToAmiga :=
  { s with sequence := [], kind := .none, utf8 := [], utf8Needed := 0 }

/-! ## Calls -/

variable {s : XtermToAmiga} {byte : UInt8} {bytes more : List UInt8}

theorem feeds_eq (s : XtermToAmiga) (pieces : List (List UInt8)) :
    feeds s pieces = (behind feedOutputByte s pieces.flatten,
      (emitted feedOutputByte s pieces.flatten).flatMap Write.bytes) := by
  have hall : ∀ (pieces : List (List UInt8)) (s : XtermToAmiga) (output : List UInt8),
      pieces.foldl (fun now piece => (feed (Sink.unlimited emitMax) now.1 now.2 piece).2)
        (s, output) = (behind feedOutputByte s pieces.flatten,
          output ++ (emitted feedOutputByte s pieces.flatten).flatMap Write.bytes) := by
    intro pieces
    induction pieces with
    | nil => exact fun s output => by rw [flatten_nil, emitted_nil, flatMap_nil, append_nil]; rfl
    | cons piece pieces ih =>
    intro s output
    have hfeed : feed (Sink.unlimited emitMax) s output piece = _ :=
      Sink.feed_unlimited (Nat.le_refl emitMax) s output piece
    rw [foldl_cons, hfeed, ih, flatten_cons, behind_append, emitted_append, flatMap_append,
      ← append_assoc]
  exact hall pieces s []

/-! ## Bytes that are held -/

theorem feedOutputByte_esc (h : Ground s) :
    feedOutputByte s esc = done { s with sequence := [esc], kind := .escape } := by
  rw [feedOutputByte_boundary h.toBoundary, if_neg (not_osc h.kind)]
  unfold plainByte groundByte
  rw [if_neg (not_not.mpr h.sequence_nil), if_pos rfl]

theorem boundary_esc (h : Ground s) : Boundary { s with sequence := [esc], kind := .escape } :=
  { h with sequence := Or.inl rfl }

/-- The byte behind an ESC says what kind of sequence it is. -/
theorem feedOutputByte_second (h : Ground s) (byte : UInt8) :
    feedOutputByte { s with sequence := [esc], kind := .escape } byte =
      sequenceByte { s with sequence := [esc, byte], kind := .escape } byte := by
  rw [feedOutputByte_boundary (boundary_esc h)]
  rfl

theorem boundary_csi (h : Ground s) : Boundary { s with sequence := [esc, ch '['], kind := .csi } :=
  ⟨h.utf8, h.utf8Needed, ⟨Nat.le_refl 2, (by decide : 2 < sequenceMax)⟩, h.lastGraphic⟩

theorem run_csi_start (h : Ground s) :
    behind feedOutputByte s [esc, ch '['] = { s with sequence := [esc, ch '['], kind := .csi } ∧
      emitted feedOutputByte s [esc, ch '['] = [] := by
  rw [behind_cons, emitted_cons, feedOutputByte_esc h, behind_cons, emitted_cons, state_done,
    feedOutputByte_second h]
  exact ⟨rfl, rfl⟩

/-- The bytes of a CSI are held while there is room for one more. -/
theorem run_csi (h : Boundary s) (hkind : s.kind = .csi)
    (hbytes : ∀ byte ∈ bytes, sequenceFinal byte = false)
    (hroom : s.sequence.length + bytes.length < sequenceMax) :
    behind feedOutputByte s bytes = { s with sequence := s.sequence ++ bytes } ∧
      emitted feedOutputByte s bytes = [] := by
  induction bytes generalizing s with
  | nil =>
    rw [append_nil]
    exact ⟨rfl, rfl⟩
  | cons byte rest ih =>
  rw [length_cons] at hroom
  obtain ⟨hbehind, hemit⟩ := ih (h.held hkind (by omega) byte) hkind
    (fun b hb => hbytes b (mem_cons_of_mem byte hb))
    (by rw [length_append, length_singleton]; omega)
  rw [behind_cons, emitted_cons, feedOutputByte_csi h hkind (hbytes byte mem_cons_self),
    if_neg (by omega)]
  refine ⟨hbehind.trans ?_, hemit⟩
  rw [append_assoc]
  rfl

theorem isParam_facts (h : IsParam byte) :
    sequenceFinal byte = false ∧ byte ≠ esc ∧ utf8Continuations byte = 0 := by
  unfold IsParam at h
  revert byte
  exact @forall_byte _ (by decide +kernel)

theorem sequenceFinal_facts (h : sequenceFinal byte = true) :
    byte ≠ esc ∧ utf8Continuations byte = 0 := by
  revert byte
  exact @forall_byte _ (by decide +kernel)

/-! ## Overlong sequences -/

/-- What is read of a CSI that fits is held, up to the final byte. -/
theorem kind_inside_csi (h : Ground s) {params before after : List UInt8} {final : UInt8}
    (hparams : ∀ byte ∈ params, IsParam byte) (hroom : params.length + 2 < sequenceMax)
    (hsplit : csi params final = esc :: before ++ byte :: after) :
    (behind feedOutputByte s (esc :: before)).kind ≠ .none := by
  obtain - | ⟨second, before⟩ := before
  · rw [behind_cons, feedOutputByte_esc h]
    exact nofun
  obtain ⟨rfl, hrest⟩ := cons.inj (cons.inj hsplit).2
  have hheld : before <+: params := by
    have hlong := congrArg length hrest
    rw [append_eq, length_append, length_append, length_singleton, length_cons] at hlong
    exact prefix_of_prefix_length_le ⟨_, hrest.symm⟩ (prefix_append params [final]) (by omega)
  have hlen := hheld.length_le
  obtain ⟨hbehind, -⟩ := run_csi (boundary_csi h) rfl
    (fun b hb => (isParam_facts (hparams b (hheld.subset hb))).1)
    (by show 2 + before.length < _; omega)
  have hbefore : esc :: ch '[' :: before = [esc, ch '['] ++ before := rfl
  rw [hbefore, behind_append, (run_csi_start h).1, hbehind]
  exact nofun

/-- Where the buffer fills, the sequence is dropped. -/
theorem ground_of_full (h : Ground s) (hbytes : ∀ byte ∈ bytes, sequenceFinal byte = false)
    (hfull : bytes.length + 2 = sequenceMax) :
    Ground (behind feedOutputByte s (esc :: ch '[' :: bytes)) := by
  obtain ⟨init, last, rfl⟩ : ∃ init last, bytes = init ++ [last] := by
    rcases eq_nil_or_concat' bytes with rfl | hconcat
    · exact absurd hfull (by decide)
    · exact hconcat
  rw [length_append, length_singleton] at hfull
  obtain ⟨hbehind, -⟩ := run_csi (boundary_csi h) rfl
    (fun b hb => hbytes b (mem_append_left _ hb)) (by show 2 + init.length < _; omega)
  have hlast := hbytes last (mem_append_right _ mem_cons_self)
  have hheld : Boundary { s with sequence := [esc, ch '['] ++ init, kind := .csi } :=
    ⟨h.utf8, h.utf8Needed, ⟨Nat.le_add_left 2 _, by show init.length + 2 < _; omega⟩, h.lastGraphic⟩
  have hsplit : esc :: ch '[' :: (init ++ [last]) = [esc, ch '['] ++ (init ++ [last]) := rfl
  rw [hsplit, behind_append, (run_csi_start h).1, behind_append, hbehind, behind_cons,
    feedOutputByte_csi hheld rfl hlast, if_pos (by show init.length + 2 + 1 = _; omega)]
  exact ⟨{ h with sequence := rfl }, rfl⟩

/-- **An overlong CSI becomes text.** No byte of a CSI is text exactly if the CSI fits into the
buffer. -/
theorem csi_silent_iff (h : Ground s) {params : List UInt8} {final : UInt8}
    (hparams : ∀ byte ∈ params, IsParam byte) (hfinal : sequenceFinal final = true) :
    (∀ pieces byte after, csi params final = pieces.flatten ++ byte :: after →
      ¬ AsText (feeds s pieces).1 byte) ↔ params.length + 2 < sequenceMax := by
  constructor
  · -- The bytes behind the 64th are text, the final byte among them.
    intro hsilent
    by_contra hlong
    obtain ⟨kept, rest, rfl, hkept⟩ : ∃ kept rest, params = kept ++ rest ∧
        kept.length + 2 = sequenceMax := by
      refine ⟨params.take 62, params.drop 62, (take_append_drop 62 params).symm, ?_⟩
      have hmax : sequenceMax = 62 + 2 := rfl
      rw [length_take, Nat.min_eq_left (by omega), hmax]
    have hground := ground_of_full h
      (fun b hb => (isParam_facts (hparams b (mem_append_left _ hb))).1) hkept
    obtain ⟨hend, -⟩ := @fine_plain rest (· ∈ consoleFinals) _ hground fun b hb =>
      (isParam_facts (hparams b (mem_append_right _ hb))).2
    rw [← behind_append, cons_append, cons_append] at hend
    refine hsilent [esc :: ch '[' :: (kept ++ rest)] final [] ?_ ?_
    · rw [flatten_singleton]
      rfl
    · rw [feeds_eq, flatten_singleton]
      have hwrite := feedOutputByte_plain hend (sequenceFinal_facts hfinal)
      exact ⟨hend.kind, by rw [hwrite]; exact mem_cons_self⟩
  · rintro hroom pieces byte after hsplit ⟨hnone, hwrite⟩
    rw [feeds_eq] at hnone hwrite
    cases hpieces : pieces.flatten with
    | nil =>
      rw [hpieces] at hsplit hwrite
      obtain ⟨rfl, -⟩ := cons.inj hsplit
      rw [behind_nil, feedOutputByte_esc h] at hwrite
      exact nomatch hwrite
    | cons first before =>
      rw [hpieces] at hsplit hnone
      obtain ⟨rfl, -⟩ := cons.inj hsplit
      exact kind_inside_csi h hparams hroom hsplit hnone

/-- However `ESC [ 1 ; 31 m` comes in pieces, no byte of it is printed. -/
theorem csi_silent_iff_red :
    emitted feedOutputByte init (csi (ascii "1;31") (ch 'm')) ≠ [] ∧
    ∀ pieces byte after, csi (ascii "1;31") (ch 'm') = pieces.flatten ++ byte :: after →
      ¬ AsText (feeds init pieces).1 byte := by
  have hparams : ∀ byte ∈ ascii "1;31", IsParam byte := by unfold IsParam; decide +kernel
  exact ⟨by decide +kernel,
    (csi_silent_iff ⟨boundary_init, rfl⟩ hparams (by decide)).mpr (by decide)⟩

/-- Of a CSI with 62 bytes of parameters the final byte is printed. -/
theorem overlong_csi_printed :
    (∀ byte ∈ replicate 62 (ch '0'), IsParam byte) ∧ sequenceFinal (ch 'm') = true ∧
      ¬ ∀ pieces byte after,
        csi (replicate 62 (ch '0')) (ch 'm') = pieces.flatten ++ byte :: after →
          ¬ AsText (feeds init pieces).1 byte := by
  refine ⟨fun byte hbyte => by
    rw [eq_of_mem_replicate hbyte]
    exact ⟨by decide, by decide⟩, rfl, fun hsilent => ?_⟩
  refine hsilent [esc :: ch '[' :: replicate 62 (ch '0')] (ch 'm') [] rfl ?_
  unfold AsText
  decide +kernel

/-! ## Operating system commands -/

theorem encode_facts {payload : List Char} (hpay : ∀ c ∈ payload, ¬ IsControl c) :
    ∀ byte ∈ encode payload, byte ≠ 0x07 ∧ byte ≠ esc := by
  have hall : ∀ b : UInt8, 0x20 ≤ b → b ≠ 0x07 ∧ b ≠ esc := forall_byte (by decide +kernel)
  intro byte hbyte
  obtain ⟨c, hc, hin⟩ := mem_flatMap.mp hbyte
  refine hall byte (UInt8.le_iff_toNat_le.mpr ?_)
  show 0x20 ≤ byte.toNat
  rcases encode_cases c with ⟨single, henc, -, hval⟩ | ⟨lead, rest, henc, hleads, -, hrest⟩
  · have hcontrol := hpay c hc
    unfold IsControl at hcontrol
    rw [henc, mem_singleton] at hin
    rw [hin]
    omega
  have hhigh : 0x80 ≤ byte := by
    rw [henc] at hin
    rcases mem_cons.mp hin with rfl | hin
    · exact le_of_leads hleads
    · exact (hrest byte hin).1
  have hle : 0x80 ≤ byte.toNat := UInt8.le_iff_toNat_le.mp hhigh
  omega

theorem emitted_plain (h : Ground s) (hplain : byte ≠ esc ∧ utf8Continuations byte = 0)
    (more : List UInt8) : (emitted feedOutputByte s (byte :: more)).flatMap Write.bytes ≠ [] := by
  rw [emitted_cons, feedOutputByte_plain h hplain]
  exact cons_ne_nil _ _

/-- For a whole character something is written, and for what is left of one too. -/
theorem emitted_char (h : Ground s) {c : Char} {cut rest : List UInt8} (hne : rest ≠ [])
    (henc : String.utf8EncodeChar c = cut ++ rest) (hesc : ∀ byte ∈ rest, byte ≠ esc) :
    (emitted feedOutputByte s rest).flatMap Write.bytes ≠ [] := by
  obtain ⟨first, rest, rfl⟩ := exists_cons_of_ne_nil hne
  rcases encode_cases c with ⟨single, hsingle, hascii, -⟩ | ⟨lead, conts, hmany, hleads, -, hconts⟩
  · have hmem : first ∈ [single] := by
      rw [← hsingle, henc]
      exact mem_append_right cut mem_cons_self
    rw [mem_singleton.mp hmem] at hesc ⊢
    exact emitted_plain h ⟨hesc single mem_cons_self, utf8Continuations_ascii hascii⟩ rest
  rw [hmany] at henc
  cases cut with
  | nil =>
    obtain ⟨rfl, rfl⟩ := cons.inj henc
    have hcount := utf8Continuations_of_leads hleads
    have hpos : utf8Continuations lead ≠ 0 := hcount ▸ hleads.pos
    rw [emitted_cons, feedOutputByte_ground h (hesc lead mem_cons_self), if_pos hpos]
    refine (@fine_complete (· ∈ consoleFinals)
      { s with utf8 := [lead], utf8Needed := utf8Continuations lead } conts hconts ?_ h.kind
      h.sequence_nil h.lastGraphic hpos ?_).2.2
    · rintro rfl
      exact hpos hcount
    · show 1 + conts.length = utf8Continuations lead + 1
      rw [hcount, Nat.add_comm]
  | cons cutLead cut =>
    obtain ⟨-, rfl⟩ := cons.inj henc
    exact emitted_plain h
      (isContinuation_facts (hconts first (mem_append_right cut mem_cons_self))) rest

theorem emitted_suffix (h : Ground s) {text : List Char} {cut rest : List UInt8} (hne : rest ≠ [])
    (henc : encode text = cut ++ rest) (hesc : ∀ byte ∈ rest, byte ≠ esc) :
    (emitted feedOutputByte s rest).flatMap Write.bytes ≠ [] := by
  induction text generalizing cut with
  | nil => exact absurd (append_eq_nil_iff.mp henc.symm).2 hne
  | cons c text ih =>
  rcases append_eq_append_iff.mp henc with ⟨more, -, htext⟩ | ⟨left, hchar, rfl⟩
  · exact ih htext
  by_cases hleft : left = []
  · subst hleft
    exact @ih [] rfl
  · rw [emitted_append, flatMap_append]
    exact append_ne_nil_of_left_ne_nil
      (emitted_char h hleft hchar fun b hb => hesc b (mem_append_left _ hb)) _

theorem run_osc (hkind : s.kind = .osc)
    (hbytes : ∀ byte ∈ bytes, (byte ≠ 0x07 ∧ byte ≠ esc) ∧ byte ≠ 0x9c) :
    behind feedOutputByte s bytes = s ∧ emitted feedOutputByte s bytes = [] := by
  induction bytes with
  | nil => exact ⟨rfl, rfl⟩
  | cons byte rest ih =>
  obtain ⟨⟨hbel, hesc⟩, hst⟩ := hbytes byte mem_cons_self
  have hstep : feedOutputByte s byte = done s := by
    unfold feedOutputByte oscByte
    rw [if_pos (Or.inl hkind), if_neg (by rw [hkind]; exact nofun),
      if_neg (not_or.mpr ⟨hbel, hst⟩), if_neg hesc]
  rw [behind_cons, emitted_cons, hstep]
  exact ih fun b hb => hbytes b (mem_cons_of_mem byte hb)

theorem Ground.restored (h : Ground s) : { s with sequence := [], kind := .none } = s := by
  rw [← h.sequence_nil, ← h.kind]

/-- A command is swallowed up to its first `0x9c`. -/
theorem run_osc_start (h : Ground s) (more : List UInt8)
    (hbytes : ∀ byte ∈ bytes, (byte ≠ 0x07 ∧ byte ≠ esc) ∧ byte ≠ 0x9c) :
    behind feedOutputByte s (esc :: ch ']' :: (bytes ++ more)) =
        behind feedOutputByte { s with sequence := [], kind := .osc } more ∧
      emitted feedOutputByte s (esc :: ch ']' :: (bytes ++ more)) =
        emitted feedOutputByte { s with sequence := [], kind := .osc } more := by
  obtain ⟨hbehind, hemit⟩ := @run_osc { s with sequence := [], kind := .osc } bytes rfl hbytes
  have hopen : feedOutputByte { s with sequence := [esc], kind := .escape } (ch ']') =
      done { s with sequence := [], kind := .osc } := feedOutputByte_second h (ch ']')
  rw [behind_cons, emitted_cons, feedOutputByte_esc h, state_done, behind_cons, emitted_cons,
    hopen, state_done, behind_append, emitted_append, hbehind, hemit]
  exact ⟨rfl, rfl⟩

theorem run_terminator (h : Ground s) (terminator : Terminator) :
    behind feedOutputByte { s with sequence := [], kind := .osc } terminator.bytes = s ∧
      emitted feedOutputByte { s with sequence := [], kind := .osc } terminator.bytes = [] := by
  cases terminator with
  | bel => exact ⟨h.restored, rfl⟩
  | st => exact ⟨h.restored, rfl⟩

/-- The text behind a `0x9c` is read from the ground. -/
theorem run_st (h : Ground s) (more : List UInt8) :
    behind feedOutputByte { s with sequence := [], kind := .osc } (0x9c :: more) =
        behind feedOutputByte s more ∧
      emitted feedOutputByte { s with sequence := [], kind := .osc } (0x9c :: more) =
        emitted feedOutputByte s more := by
  have hclose : feedOutputByte { s with sequence := [], kind := .osc } 0x9c = done s :=
    congrArg done h.restored
  rw [behind_cons, emitted_cons, hclose]
  exact ⟨rfl, rfl⟩

theorem run_escaped (h : Ground s) :
    behind feedOutputByte s [esc, ch '\\'] = s ∧ emitted feedOutputByte s [esc, ch '\\'] = [] := by
  rw [behind_cons, emitted_cons, feedOutputByte_esc h, behind_cons, emitted_cons, state_done,
    feedOutputByte_second h]
  exact ⟨h.restored, rfl⟩

theorem swallowed_of_run (hbehind : behind feedOutputByte s bytes = s)
    (hemit : emitted feedOutputByte s bytes = []) : Swallowed s bytes := by
  intro pieces later hpieces
  rw [feeds_eq, feeds_eq, feeds_eq, flatten_append, emitted_append, hpieces, hbehind, hemit]
  exact ⟨rfl, rfl⟩

theorem not_swallowed (hsome : (emitted feedOutputByte s bytes).flatMap Write.bytes ≠ []) :
    ¬ Swallowed s bytes := by
  intro hall
  have hnone := (hall [bytes] [] flatten_singleton).1
  rw [feeds_eq, flatten_singleton] at hnone
  exact hsome hnone

/-- **A command ends at the byte `0x9c`.** A command without control characters is swallowed
exactly if that byte is not in it, or if it is the last one before ST. -/
theorem osc_silent_iff (h : Ground s) {payload : List Char}
    (hpayload : ∀ c ∈ payload, ¬ IsControl c) (terminator : Terminator) :
    Swallowed s (osc payload terminator) ↔ terminator.Spares (encode payload) := by
  have hfacts := encode_facts hpayload
  have hkept : ∀ byte ∈ (encode payload).takeWhile (· != 0x9c),
      (byte ≠ 0x07 ∧ byte ≠ esc) ∧ byte ≠ 0x9c := fun byte hbyte =>
    ⟨hfacts byte (takeWhile_subset _ hbyte),
      bne_iff_ne.mp (mem_takeWhile_imp (p := (· != 0x9c)) hbyte)⟩
  have hsplit : encode payload = _ ++ _ := (takeWhile_append_dropWhile (p := (· != 0x9c))).symm
  unfold Terminator.Spares osc
  generalize (encode payload).takeWhile (· != 0x9c) = kept at hkept hsplit
  cases hrest : (encode payload).dropWhile (· != 0x9c) with
  | nil =>
    rw [hrest, append_nil] at hsplit
    obtain ⟨hbehind, hemitted⟩ := run_osc_start h terminator.bytes hkept
    obtain ⟨hend, hnone⟩ := run_terminator h terminator
    rw [hsplit]
    refine iff_of_true (swallowed_of_run (hbehind.trans hend) (hemitted.trans hnone)) ?_
    cases terminator with
    | bel => rfl
    | st => rfl
  | cons first rest =>
  obtain rfl : first = 0x9c := by
    have hne : (encode payload).dropWhile (· != 0x9c) ≠ [] := by
      rw [hrest]
      exact cons_ne_nil _ _
    simpa [hrest] using head_dropWhile_not (· != 0x9c) hne
  rw [hrest] at hsplit
  obtain ⟨hbehind, hemitted⟩ := run_osc_start h (0x9c :: (rest ++ terminator.bytes)) hkept
  obtain ⟨hclosed, hsame⟩ := run_st h (rest ++ terminator.bytes)
  have hbytes : esc :: ch ']' :: (encode payload ++ terminator.bytes) =
      esc :: ch ']' :: (kept ++ 0x9c :: (rest ++ terminator.bytes)) := by
    rw [hsplit, append_assoc]
    rfl
  rw [hbytes]
  by_cases hnil : rest = []
  · subst hnil
    cases terminator with
    | bel =>
      refine iff_of_false (not_swallowed ?_) (cons_ne_nil _ _)
      rw [hemitted, hsame]
      exact emitted_plain h ⟨by decide, by decide⟩ []
    | st =>
      obtain ⟨hend, hnone⟩ := run_escaped h
      exact iff_of_true (swallowed_of_run (hbehind.trans (hclosed.trans hend))
        (hemitted.trans (hsame.trans hnone))) rfl
  have hcut : encode payload = kept ++ [0x9c] ++ rest := by
    rw [hsplit, append_assoc]
    rfl
  have hloud := emitted_suffix h hnil hcut fun b hb =>
      (hfacts b (by rw [hsplit]; exact mem_append_right _ (mem_cons_of_mem _ hb))).2
  refine iff_of_false (not_swallowed ?_) ?_
  · rw [hemitted, hsame, emitted_append, flatMap_append]
    exact append_ne_nil_of_left_ne_nil hloud _
  · cases terminator with
    | bel => exact cons_ne_nil _ _
    | st => exact hnil

/-- A title with an umlaut whose bytes are spared. -/
theorem osc_silent_iff_title : Swallowed init (osc "0;vim – ä".toList .bel) := by
  have hspares : Terminator.bel.Spares (encode "0;vim – ä".toList) := by
    unfold Terminator.Spares
    decide +kernel
  exact (osc_silent_iff ⟨boundary_init, rfl⟩ (by simp [IsControl]) .bel).mpr hspares

/-- The second byte of U+00DC is `0x9c`, so that the BEL is written. -/
theorem osc_not_silent :
    (∀ c ∈ [Char.ofNat 0xdc], ¬ IsControl c) ∧ ¬ Swallowed init (osc [Char.ofNat 0xdc] .bel) := by
  refine ⟨by simp [IsControl], fun hall => ?_⟩
  have hnone := (hall [osc [Char.ofNat 0xdc] .bel] [] flatten_singleton).1
  exact absurd hnone (by decide +kernel)

/-! ## An ESC -/

structure Partial (s : XtermToAmiga) : Prop where
  kind : s.kind = .none
  sequence : s.sequence = []
  utf8Needed : s.utf8Needed ≠ 0
  lastGraphic : s.lastGraphic = 0 ∨ isGraphic s.lastGraphic = true

theorem Partial.abandoned (h : Partial s) : Ground s.abandon :=
  ⟨⟨rfl, rfl, rfl, h.lastGraphic⟩, rfl⟩

theorem state_putRawUtf8 (h : Partial s) : (putRawUtf8 s).state = s.abandon := by
  have hsame : (emitBytes s.utf8 s).state = s :=
    (within_emitBytes (P := (· = s)) (p := fun _ => True) rfl fun _ _ => trivial).ends.state
  unfold putRawUtf8 XtermToAmiga.abandon
  rw [state_andThen, hsame, ← h.sequence, ← h.kind]
  rfl

/-- A byte that does not continue a character is read as if the character had not begun. -/
theorem feedOutputByte_midway (h : Partial s) (hbyte : ¬ (0x80 ≤ byte ∧ byte ≤ 0xbf)) :
    feedOutputByte s byte = (putRawUtf8 s).andThen fun _ => feedOutputByte s.abandon byte := by
  rw [feedOutputByte_boundary h.abandoned.toBoundary, if_neg (not_osc rfl)]
  unfold feedOutputByte andThen
  rw [if_neg (not_osc h.kind), if_pos h.utf8Needed, if_neg hbyte, state_putRawUtf8 h]

theorem boundary_or_partial (h : Boundary s) (byte : UInt8) :
    Boundary (feedOutputByte s byte).state ∨ Partial (feedOutputByte s byte).state := by
  by_cases hlead : s.kind = .none ∧ utf8Continuations byte ≠ 0
  · have hground : Ground s := ⟨h, hlead.1⟩
    have hesc : byte ≠ esc := by
      rintro rfl
      exact hlead.2 rfl
    rw [feedOutputByte_ground hground hesc, if_pos hlead.2]
    exact Or.inr ⟨hlead.1, hground.sequence_nil, hlead.2, h.lastGraphic⟩
  · refine Or.inl (boundary_feedOutputByte h fun hkind => ?_)
    by_contra hne
    exact hlead ⟨hkind, hne⟩

theorem boundary_or_partial_step (h : Boundary s ∨ Partial s) (byte : UInt8) :
    Boundary (feedOutputByte s byte).state ∨ Partial (feedOutputByte s byte).state := by
  rcases h with h | h
  · exact boundary_or_partial h byte
  by_cases hbyte : 0x80 ≤ byte ∧ byte ≤ 0xbf
  · unfold feedOutputByte
    rw [if_neg (not_osc h.kind), if_pos h.utf8Needed]
    dsimp only
    split_ifs
    · exact Or.inl (@ground_putUnicode { s with utf8 := s.utf8 ++ [byte] } h.kind h.sequence
        h.lastGraphic).toBoundary
    · exact Or.inr { h with }
  · rw [feedOutputByte_midway h hbyte]
    exact boundary_or_partial h.abandoned.toBoundary byte

/-- Whatever is read, the state is one between two characters or inside of one. -/
theorem boundary_or_partial_run (h : Boundary s ∨ Partial s) (input : List UInt8) :
    Boundary (behind feedOutputByte s input) ∨ Partial (behind feedOutputByte s input) := by
  induction input generalizing s with
  | nil => exact h
  | cons byte rest ih => exact ih (boundary_or_partial_step h byte)

/-- The console has no command with the final byte `[`. -/
theorem translateCsi_bracket (sequence : List UInt8) :
    (translateCsi { s with sequence := sequence ++ [ch '['] }).output = [] := by
  unfold translateCsi
  rw [getLastD_concat]
  dsimp only
  split
  · rfl
  split_ifs with hprivate hmode
  · exact absurd hmode.2 (by decide)
  · rfl
  · rfl
  · rfl

/-- In an open sequence an ESC is one more byte, and the bytes behind it become text. -/
theorem emitted_open (h : Boundary s) (hopen : s.kind = .escape ∨ s.kind = .csi) :
    emitted feedOutputByte (feedOutputByte s esc).state [ch '[', ch 's'] ≠ [] := by
  have hprinted : ∀ {t : XtermToAmiga}, Ground t → ∀ {byte : UInt8}, sequenceFinal byte = true →
      ∀ more, emitted feedOutputByte t (byte :: more) ≠ [] := by
    intro t ht byte hbyte more
    rw [emitted_cons, feedOutputByte_plain ht (sequenceFinal_facts hbyte)]
    exact cons_ne_nil _ _
  rcases hopen with hkind | hkind
  · exact hprinted (feedOutputByte_escape h hkind (by decide)).1 rfl _
  rw [feedOutputByte_csi h hkind rfl]
  have hclosed : ∀ sequence, Ground (XtermToAmiga.closeSequence { s with sequence }) :=
    fun _ => ⟨h.closed _, rfl⟩
  split_ifs with hfull
  · exact hprinted (hclosed _) rfl _
  -- The ESC is held, and the bracket is taken for the final byte.
  have hseq := h.sequence
  rw [hkind] at hseq
  have hheld := h.held hkind (Nat.lt_of_le_of_ne hseq.2 hfull) esc
  have hstep : feedOutputByte { s with sequence := s.sequence ++ [esc] } (ch '[') =
      (translateCsi { s with sequence := s.sequence ++ [esc] ++ [ch '['] }).afterwards
        XtermToAmiga.closeSequence := by
    rw [feedOutputByte_inCsi hheld hkind, if_pos (by decide : sequenceFinal (ch '[') = true)]
  rw [state_done, emitted_cons, hstep, output_afterwards, translateCsi_bracket]
  exact hprinted (ground_translateCsi (hclosed _).toBoundary) rfl _

/-- **An ESC restarts the translator only outside of a sequence.** Behind any input that leaves no
operating system command open, every CSI is translated as from the ground, after what its ESC gives
back of a character, exactly if no sequence is open. -/
theorem escape_restarts_iff {input : List UInt8} (hs : behind feedOutputByte init input = s)
    (hosc : ¬ (s.kind = .osc ∨ s.kind = .oscEscape)) :
    (∀ params final, (∀ byte ∈ params, IsParam byte) → sequenceFinal final = true →
      emitted feedOutputByte s (csi params final) =
        (feedOutputByte s esc).output ++ emitted feedOutputByte s.abandon (csi params final)) ↔
      s.sequence = [] := by
  have hreach := boundary_or_partial_run (Or.inl boundary_init) input
  rw [hs] at hreach
  constructor
  · intro hall
    by_contra hne
    have h : Boundary s := hreach.resolve_right fun hpartial => hne hpartial.sequence
    have hkind : s.kind = .escape ∨ s.kind = .csi := by
      rcases h.sequenceByte_open hne hosc with ⟨hkind, -⟩ | ⟨hkind, -⟩
      · exact Or.inl hkind
      · exact Or.inr hkind
    have hground : Ground s.abandon := ⟨⟨rfl, rfl, rfl, h.lastGraphic⟩, rfl⟩
    have hnone : emitted feedOutputByte s.abandon ([esc, ch '['] ++ [ch 's']) = [] := by
      rfl
    have hcsi := hall [] (ch 's') (forall_mem_nil _) rfl
    exact emitted_open h hkind (append_cancel_left (hcsi.trans (congrArg _ hnone)))
  · intro hnil params final hparams hfinal
    obtain ⟨hground, hstate⟩ : Ground s.abandon ∧
        (feedOutputByte s esc).state = (feedOutputByte s.abandon esc).state := by
      rcases hreach with h | h
      · have hrest := h.ground hnil hosc
        have hsame : s.abandon = s := by
          show _ = XtermToAmiga.mk s.sequence s.kind s.utf8 s.utf8Needed _ _ _ _ _
          rw [hnil, hrest.kind, h.utf8, h.utf8Needed]
          rfl
        rw [hsame]
        exact ⟨hrest, rfl⟩
      · rw [feedOutputByte_midway h (by decide)]
        exact ⟨h.abandoned, rfl⟩
    unfold csi
    rw [emitted_cons _ s, hstate]
    rfl

/-- Behind a part of a character every sequence is read as from the start. -/
theorem escape_restarts_iff_midway :
    (behind feedOutputByte init [0xe2, 0x94]).utf8Needed ≠ 0 ∧
    ∀ params final, (∀ byte ∈ params, IsParam byte) → sequenceFinal final = true →
      emitted feedOutputByte (behind feedOutputByte init [0xe2, 0x94]) (csi params final) =
        (feedOutputByte (behind feedOutputByte init [0xe2, 0x94]) esc).output ++
          emitted feedOutputByte (behind feedOutputByte init [0xe2, 0x94]).abandon
            (csi params final) :=
  ⟨by decide, (escape_restarts_iff rfl (by decide)).mpr rfl⟩

/-- Behind `ESC [ 3` the sequence `ESC [ 1 m` has its parameter and its final byte printed. -/
theorem escape_not_restarting :
    ¬ ((behind feedOutputByte init (esc :: ascii "[3")).kind = .osc ∨
        (behind feedOutputByte init (esc :: ascii "[3")).kind = .oscEscape) ∧
      emitted feedOutputByte (behind feedOutputByte init (esc :: ascii "[3"))
          (csi (ascii "1") (ch 'm')) ≠
        (feedOutputByte (behind feedOutputByte init (esc :: ascii "[3")) esc).output ++
          emitted feedOutputByte (behind feedOutputByte init (esc :: ascii "[3")).abandon
            (csi (ascii "1") (ch 'm')) := by
  decide +kernel

end AceShell.Terminal
