import AceShell.Lib.Places
import AceShell.Lib.Utf8
import AceShell.Terminal.Vocabulary

/-!
# The console understands what is written

Between two characters of a text the translator holds no part of a character, so the text can be
followed character by character (`Boundary`). A character that comes while a sequence is open is
swallowed by it, but the sequence can end in the middle of the character: an operating system
command at any byte `0x9c`, an ESC sequence one or two bytes on, an overlong CSI at its 64th byte.
All that is written is understood exactly if no C1 control is left over (`understood_iff`).
-/

namespace AceShell.Terminal

open Text Emission List

/-! ## Statement -/

/-- The console takes the write as what it is: a command it obeys, or text without controls of its
own. -/
def Write.Understood (implements : UInt8 → Prop) (w : Write) : Prop :=
  match w.origin with
  | .command => IsCommand implements w.bytes
  | .text => ∀ byte ∈ w.bytes, ¬ IsC1 byte

/-- The bytes of a text. -/
def encode (text : List Char) : List UInt8 := text.flatMap String.utf8EncodeChar

/-- The state behind a text. -/
def screenState (text : List Char) : XtermToAmiga := behind feedOutputByte init (encode text)

/-- What `ace_xterm_to_amiga_flush` gives back: a partial character and a partial sequence. -/
def held (state : XtermToAmiga) : List Write :=
  state.utf8.map (fun byte => ⟨.text, [byte]⟩) ++ (heldSequence state).toList.map (⟨.text, ·⟩)

def screenWrites (text : List Char) : List Write :=
  emitted feedOutputByte init (encode text) ++ held (screenState text)

/-- The bytes of a character that are left over when a sequence it falls into ends inside it. -/
def leftOver (state : XtermToAmiga) (c : Char) : List UInt8 :=
  match state.kind with
  | .none => []
  | .escape => (String.utf8EncodeChar c).drop 1
  | .csi => (String.utf8EncodeChar c).drop (sequenceMax - state.sequence.length)
  | .osc | .oscEscape => ((String.utf8EncodeChar c).dropWhile (· != 0x9c)).drop 1

/-! ## Between two characters -/

def SequenceKind.Holds : SequenceKind → ℕ → Prop
  | .none, n => n = 0
  | .escape, n => n = 1 ∨ n = 2
  | .csi, n => 2 ≤ n ∧ n < sequenceMax
  | .osc, n => n = 0
  | .oscEscape, n => n = 0

structure Boundary (s : XtermToAmiga) : Prop where
  utf8 : s.utf8 = []
  utf8Needed : s.utf8Needed = 0
  sequence : s.kind.Holds s.sequence.length
  lastGraphic : s.lastGraphic = 0 ∨ isGraphic s.lastGraphic = true

theorem boundary_init : Boundary init := ⟨rfl, rfl, rfl, Or.inl rfl⟩

variable {byte lead : UInt8} {rest bytes : List UInt8} {n : ℕ}

section Steps

variable {implements : UInt8 → Prop} {s t : XtermToAmiga}

/-- Nothing is held at all. -/
structure Ground (s : XtermToAmiga) : Prop extends Boundary s where
  kind : s.kind = .none

theorem Ground.sequence_nil (h : Ground s) : s.sequence = [] := by
  have hlen := h.sequence
  rw [h.kind] at hlen
  exact length_eq_zero_iff.mp hlen

theorem Boundary.congr (h : Boundary s) (hsame : SameInput s t) : Boundary t where
  utf8 := hsame.utf8.trans h.utf8
  utf8Needed := hsame.utf8Needed.trans h.utf8Needed
  sequence := by rw [hsame.kind, hsame.sequence]; exact h.sequence
  lastGraphic := by rw [hsame.lastGraphic]; exact h.lastGraphic

theorem not_isC1_of_isGraphic (h : isGraphic byte = true) : ¬ IsC1 byte := by
  revert byte
  exact @forall_byte _ (by decide +kernel)

theorem Boundary.repeated (h : Boundary s) (hne : s.lastGraphic ≠ 0) :
    (Write.mk .text [s.lastGraphic]).Understood implements := by
  intro byte hbyte
  rw [mem_singleton.mp hbyte]
  exact not_isC1_of_isGraphic (h.lastGraphic.resolve_left hne)

theorem feedOutputByte_boundary (h : Boundary s) (byte : UInt8) :
    feedOutputByte s byte =
      if s.kind = .osc ∨ s.kind = .oscEscape then done (oscByte s byte) else plainByte byte s := by
  have hneeded : (s.utf8Needed ≠ 0) = False := eq_false fun hne => hne h.utf8Needed
  unfold feedOutputByte
  simp only [hneeded, if_false]

theorem not_osc (hkind : s.kind = .none) : ¬ (s.kind = .osc ∨ s.kind = .oscEscape) := by
  rw [hkind]
  decide

theorem state_putChar (byte : UInt8) (s : XtermToAmiga) :
    (putChar byte s).state =
      if isGraphic byte then { s with lastGraphic := byte } else s := rfl

theorem ground_putChar (h : Ground s) (byte : UInt8) : Ground (putChar byte s).state := by
  rw [state_putChar]
  split_ifs with hgraphic
  · exact ⟨⟨h.utf8, h.utf8Needed, h.sequence, Or.inr hgraphic⟩, h.kind⟩
  · exact h

theorem ground_putText (text : List UInt8) (h : Ground s) : Ground (putText text s).state := by
  induction text generalizing s with
  | nil => exact h
  | cons byte rest ih => exact ih (ground_putChar h byte)

def Fine (implements : UInt8 → Prop) (s : XtermToAmiga) (bytes : List UInt8) : Prop :=
  ∀ w ∈ emitted feedOutputByte s bytes, w.Understood implements

theorem fine_nil : Fine implements s [] := nofun

theorem fine_cons :
    Fine implements s (byte :: rest) ↔
      (feedOutputByte s byte).Writes (Write.Understood implements) ∧
        Fine implements (feedOutputByte s byte).state rest := forall_mem_append

theorem fine_append {more : List UInt8} :
    Fine implements s (bytes ++ more) ↔
      Fine implements s bytes ∧ Fine implements (behind feedOutputByte s bytes) more := by
  unfold Fine
  rw [emitted_append]
  exact forall_mem_append

/-! ### ASCII -/

theorem not_isC1_of_lt (h : byte < 0x80) : ¬ IsC1 byte := fun hc1 =>
  absurd hc1.1 (UInt8.not_le.mpr h)

theorem writes_ascii (hcons : ∀ final ∈ consoleFinals, implements final) (h : Boundary s)
    (hbyte : byte < 0x80) : (feedOutputByte s byte).Writes (Write.Understood implements) := by
  have htext : ∀ b, ¬ IsC1 b → (Write.mk .text [b]).Understood implements := by
    intro b hb b' hb'
    rwa [mem_singleton.mp hb']
  have hbounded : Utf8Bounded s :=
    ⟨by rw [h.utf8Needed]; decide, by rw [h.utf8]; exact Nat.zero_le _⟩
  refine (within_feedOutputByte htext (fun _ hcmd => hcmd.mono hcons) h.repeated ?_
    hbounded ?_).writes
  · intro _ _ _
    exact htext byte (not_isC1_of_lt hbyte)
  · intro b hb
    rw [h.utf8] at hb
    exact nomatch hb

theorem utf8Continuations_ascii (h : byte < 0x80) : utf8Continuations byte = 0 := by
  revert byte
  exact @forall_byte _ (by decide +kernel)

theorem boundary_oscByte (h : Boundary s) (hkind : s.kind = .osc ∨ s.kind = .oscEscape)
    (byte : UInt8) : Boundary (oscByte s byte) := by
  have hnil : s.sequence.length = 0 := by
    have hlen := h.sequence
    rcases hkind with hkind | hkind
    · rw [hkind] at hlen
      exact hlen
    · rw [hkind] at hlen
      exact hlen
  unfold oscByte
  split_ifs
  · exact { h with sequence := hnil }
  · exact { h with sequence := hnil }
  · exact h
  · exact { h with sequence := hnil }
  · exact { h with sequence := hnil }
  · exact h

theorem ground_finishEscape (h : Boundary s.closeSequence) : Ground (finishEscape s).state := by
  have hsame := (obeys_translateEscape s).closed.ends.state
  exact ⟨h.congr hsame, hsame.kind⟩

theorem ground_translateCsi (h : Boundary s.closeSequence) :
    Ground ((translateCsi s).afterwards XtermToAmiga.closeSequence).state := by
  have hsame := (obeys_translateCsi s).closed.ends.state
  exact ⟨h.congr hsame, hsame.kind⟩

theorem Boundary.closed (h : Boundary s) (sequence : List UInt8) :
    Boundary (XtermToAmiga.closeSequence { s with sequence }) :=
  { h with sequence := rfl }

theorem Boundary.ground (h : Boundary s) (hnil : s.sequence = [])
    (hosc : ¬ (s.kind = .osc ∨ s.kind = .oscEscape)) : Ground s := by
  have hseq := h.sequence
  rw [hnil] at hseq
  refine ⟨h, ?_⟩
  cases hkind : s.kind with
  | none => rfl
  | osc => exact absurd (Or.inl hkind) hosc
  | oscEscape => exact absurd (Or.inr hkind) hosc
  | escape => rw [hkind] at hseq; exact absurd hseq (by show ¬ (0 = 1 ∨ 0 = 2); decide)
  | csi => rw [hkind] at hseq; exact absurd hseq.1 (by decide)

theorem Boundary.sequenceByte_open (h : Boundary s) (hne : s.sequence ≠ [])
    (hosc : ¬ (s.kind = .osc ∨ s.kind = .oscEscape)) :
    s.kind = .escape ∧ (s.sequence.length = 1 ∨ s.sequence.length = 2) ∨
      s.kind = .csi ∧ 2 ≤ s.sequence.length ∧ s.sequence.length < sequenceMax := by
  have hpos : s.sequence.length ≠ 0 := fun hzero => hne (length_eq_zero_iff.mp hzero)
  have hseq := h.sequence
  cases hkind : s.kind with
  | none => rw [hkind] at hseq; exact absurd hseq hpos
  | osc => exact absurd (Or.inl hkind) hosc
  | oscEscape => exact absurd (Or.inr hkind) hosc
  | escape => rw [hkind] at hseq; exact Or.inl ⟨rfl, hseq⟩
  | csi => rw [hkind] at hseq; exact Or.inr ⟨rfl, hseq⟩

theorem boundary_sequenceByte (hclosed : Boundary t.closeSequence)
    (hopen : t.kind = .escape ∧ (t.sequence.length = 2 ∨ t.sequence.length = 3) ∨
      t.kind = .csi ∧ 3 ≤ t.sequence.length ∧ t.sequence.length ≤ sequenceMax) (byte : UInt8) :
    Boundary (sequenceByte t byte).state := by
  have hkeep : ∀ {kind : SequenceKind}, kind.Holds t.sequence.length →
      Boundary { t with kind := kind } := fun hholds =>
    { hclosed with sequence := hholds }
  unfold sequenceByte
  rcases hopen with ⟨hkind, htwo | hthree⟩ | ⟨hkind, hlow, hhigh⟩
  · rw [if_pos ⟨hkind, htwo⟩]
    by_cases hcsi : byte = ch '['
    · rw [if_pos hcsi]
      exact hkeep (by rw [htwo]; exact ⟨Nat.le_refl 2, by decide⟩)
    rw [if_neg hcsi]
    by_cases hosc : byte = ch ']'
    · rw [if_pos hosc]
      exact { hclosed with sequence := rfl }
    rw [if_neg hosc]
    by_cases hmore : byte ∉ ascii "()#%"
    · rw [if_pos hmore]
      exact (ground_finishEscape hclosed).toBoundary
    rw [if_neg hmore]
    have hstay : t = { t with kind := .escape } := by rw [← hkind]
    rw [hstay]
    exact hkeep (Or.inr htwo)
  · rw [if_neg (by omega), if_pos ⟨hkind, hthree⟩]
    exact (ground_finishEscape hclosed).toBoundary
  · have hnot : ∀ n, ¬ (t.kind = .escape ∧ t.sequence.length = n) := by
      rintro n ⟨hesc, -⟩
      exact nomatch hkind.symm.trans hesc
    rw [if_neg (hnot 2), if_neg (hnot 3)]
    split_ifs with hfin hfull
    · exact (ground_translateCsi hclosed).toBoundary
    · exact hclosed
    have hstay : t = { t with kind := .csi } := by rw [← hkind]
    rw [hstay]
    exact hkeep ⟨by omega, by omega⟩

theorem boundary_feedOutputByte (h : Boundary s)
    (hlead : s.kind = .none → utf8Continuations byte = 0) :
    Boundary (feedOutputByte s byte).state := by
  rw [feedOutputByte_boundary h]
  split_ifs with hkind
  · exact boundary_oscByte h hkind byte
  unfold plainByte
  split_ifs with hne
  · refine boundary_sequenceByte (h.closed _) ?_ byte
    rw [length_append, length_singleton]
    rcases h.sequenceByte_open hne hkind with ⟨hescape, hlen⟩ | ⟨hcsi, hlow, hhigh⟩
    · exact Or.inl ⟨hescape, by omega⟩
    · exact Or.inr ⟨hcsi, by omega, by omega⟩
  · have hground := h.ground (not_not.mp hne) hkind
    unfold groundByte
    rw [if_neg (not_not.mpr (hlead hground.kind))]
    split_ifs with hesc
    · exact { h with sequence := Or.inl rfl }
    · exact (ground_putChar hground byte).toBoundary

/-! ### Characters of several bytes -/

open Utf8

theorem isContinuation_facts (h : IsContinuation byte) :
    byte ≠ esc ∧ utf8Continuations byte = 0 := by
  unfold IsContinuation at h
  revert byte
  exact @forall_byte _ (by decide +kernel)

theorem utf8Continuations_of_leads (h : Leads lead n) : utf8Continuations lead = n := by
  have hall : ∀ b : UInt8, (0xc2 ≤ b ∧ b ≤ 0xdf → utf8Continuations b = 1) ∧
      (0xe0 ≤ b ∧ b ≤ 0xef → utf8Continuations b = 2) ∧
      (0xf0 ≤ b ∧ b ≤ 0xf4 → utf8Continuations b = 3) := forall_byte (by decide +kernel)
  cases h with
  | two h => exact (hall lead).1 h
  | three h => exact (hall lead).2.1 h
  | four h => exact (hall lead).2.2 h

theorem le_of_leads (h : Leads lead n) : 0x80 ≤ lead := by
  cases h with
  | two h => exact UInt8.le_trans (by decide) h.1
  | three h => exact UInt8.le_trans (by decide) h.1
  | four h => exact UInt8.le_trans (by decide) h.1

theorem feedOutputByte_ground (h : Ground s) (hesc : byte ≠ esc) :
    feedOutputByte s byte =
      if utf8Continuations byte ≠ 0 then
        done { s with utf8 := [byte], utf8Needed := utf8Continuations byte }
      else putChar byte s := by
  rw [feedOutputByte_boundary h.toBoundary, if_neg (not_osc h.kind)]
  unfold plainByte groundByte
  rw [if_neg (not_not.mpr h.sequence_nil), if_neg hesc]

theorem feedOutputByte_plain (h : Ground s) (hplain : byte ≠ esc ∧ utf8Continuations byte = 0) :
    feedOutputByte s byte = putChar byte s := by
  rw [feedOutputByte_ground h hplain.1, if_neg (not_not.mpr hplain.2)]

/-- So bytes that begin nothing, as those that are left over of a character, are understood exactly
if none of them is a control. -/
theorem fine_plain (h : Ground s) (hrest : ∀ byte ∈ rest, byte ≠ esc ∧ utf8Continuations byte = 0) :
    Ground (behind feedOutputByte s rest) ∧
      (Fine implements s rest ↔ ∀ byte ∈ rest, ¬ IsC1 byte) := by
  induction rest generalizing s with
  | nil => exact ⟨h, fun _ => forall_mem_nil _, fun _ => fine_nil⟩
  | cons byte rest ih =>
  have hstep := feedOutputByte_plain h (hrest byte mem_cons_self)
  obtain ⟨hground, hfine⟩ := ih (ground_putChar h byte) fun b hb =>
    hrest b (mem_cons_of_mem byte hb)
  rw [behind_cons, fine_cons, hstep, hfine, forall_mem_cons]
  refine ⟨hground, and_congr_left fun _ => ?_⟩
  constructor
  · intro hwrites
    exact hwrites _ (mem_singleton.mpr rfl) byte (mem_singleton.mpr rfl)
  intro hbyte
  refine writes_emit ?_
  intro b hb
  rwa [mem_singleton.mp hb]

theorem ground_putUnicode (hkind : s.kind = .none) (hnil : s.sequence = [])
    (hlast : s.lastGraphic = 0 ∨ isGraphic s.lastGraphic = true) : Ground (putUnicode s).state := by
  have hclear : Ground { s with utf8 := [], utf8Needed := 0 } :=
    ⟨⟨rfl, rfl, by dsimp only; rw [hkind, hnil]; rfl, hlast⟩, hkind⟩
  unfold putUnicode
  dsimp only
  split_ifs
  · exact ground_putChar hclear _
  · exact ground_putText _ hclear

theorem output_putUnicode_ne_nil (s : XtermToAmiga) :
    (putUnicode s).output.flatMap Write.bytes ≠ [] := by
  obtain ⟨hne, -⟩ := foldUnicode_fits (utf8Code s.utf8 s.utf8Needed)
  unfold putUnicode
  dsimp only
  split_ifs
  · exact cons_ne_nil _ _
  obtain ⟨byte, rest, hfold⟩ := exists_cons_of_ne_nil hne
  rw [hfold]
  exact cons_ne_nil _ _

theorem fine_complete {rest : List UInt8} (hrest : ∀ byte ∈ rest, IsContinuation byte)
    (hne : rest ≠ []) (hkind : s.kind = .none) (hnil : s.sequence = [])
    (hlast : s.lastGraphic = 0 ∨ isGraphic s.lastGraphic = true) (hneeded : s.utf8Needed ≠ 0)
    (hlen : s.utf8.length + rest.length = s.utf8Needed + 1) :
    Ground (behind feedOutputByte s rest) ∧ Fine implements s rest ∧
      (emitted feedOutputByte s rest).flatMap Write.bytes ≠ [] := by
  induction rest generalizing s with
  | nil => exact absurd rfl hne
  | cons byte rest ih =>
  have hcont : 0x80 ≤ byte ∧ byte ≤ 0xbf := hrest byte mem_cons_self
  have hstep : feedOutputByte s byte =
      if (s.utf8 ++ [byte]).length = s.utf8Needed + 1 then
        putUnicode { s with utf8 := s.utf8 ++ [byte] }
      else done { s with utf8 := s.utf8 ++ [byte] } := by
    unfold feedOutputByte
    rw [if_neg (not_osc hkind), if_pos hneeded, if_pos hcont]
  have hmore : (s.utf8 ++ [byte]).length = s.utf8.length + 1 := by
    rw [length_append, length_singleton]
  rw [length_cons] at hlen
  rw [behind_cons, fine_cons, emitted_cons]
  by_cases hlast' : rest = []
  · subst hlast'
    rw [hstep, if_pos (by rw [hmore]; exact hlen)]
    refine ⟨ground_putUnicode hkind hnil hlast, ⟨(within_putUnicode ?_ _).writes, fine_nil⟩, ?_⟩
    · intro b hb b' hb'
      rwa [mem_singleton.mp hb']
    · rw [emitted_nil, append_nil]
      exact output_putUnicode_ne_nil _
  · have hpos : 0 < rest.length := length_pos_iff.mpr hlast'
    rw [hstep, if_neg (by omega)]
    obtain ⟨hground, hfine, hsome⟩ := @ih { s with utf8 := s.utf8 ++ [byte] }
      (fun b hb => hrest b (mem_cons_of_mem byte hb)) hlast' hkind hnil hlast hneeded
      (by dsimp only; omega)
    exact ⟨hground, ⟨writes_done, hfine⟩, hsome⟩

/-! ### Characters inside a sequence -/

theorem high_facts (h : 0x80 ≤ byte) :
    byte ∉ ascii "[]()#%DEHMc" ∧ sequenceFinal byte = false ∧ byte ≠ esc ∧ byte ≠ 0x07 ∧
      byte ≠ ch '\\' := by
  revert byte
  exact @forall_byte _ (by decide +kernel)

theorem feedOutputByte_escape (h : Boundary s) (hkind : s.kind = .escape)
    (hnot : byte ∉ ascii "[]()#%DEHMc") :
    Ground (feedOutputByte s byte).state ∧ (feedOutputByte s byte).output = [] := by
  have hosc : ¬ (s.kind = .osc ∨ s.kind = .oscEscape) := by
    rw [hkind]
    decide
  have hseq := h.sequence
  rw [hkind] at hseq
  have hne : s.sequence ≠ [] := by
    rintro hnil
    rw [hnil] at hseq
    exact absurd hseq (by show ¬ (0 = 1 ∨ 0 = 2); decide)
  have hmem : ∀ {b : UInt8}, b ∈ ascii "[]()#%DEHMc" → byte ≠ b := fun hb heq => hnot (heq ▸ hb)
  have hfinish : feedOutputByte s byte =
      finishEscape { s with sequence := s.sequence ++ [byte] } := by
    rw [feedOutputByte_boundary h, if_neg hosc]
    unfold plainByte sequenceByte
    rw [if_pos hne]
    rw [length_append, length_singleton]
    rcases hseq with hone | htwo
    · rw [if_pos ⟨hkind, by omega⟩, if_neg (hmem (by decide)), if_neg (hmem (by decide)), if_pos]
      exact fun hin => hnot ((by decide : ascii "()#%" ⊆ ascii "[]()#%DEHMc") hin)
    · rw [if_neg (by omega), if_pos ⟨hkind, by omega⟩]
  rw [hfinish]
  refine ⟨ground_finishEscape (h.closed _), ?_⟩
  unfold finishEscape
  unfold translateEscape
  by_cases htwo : (s.sequence ++ [byte]).length = 2
  · have hsnd : (s.sequence ++ [byte]).getD 1 0 = byte := by
      rw [length_append, length_singleton] at htwo
      obtain ⟨first, hfst⟩ := length_eq_one_iff.mp (by omega : s.sequence.length = 1)
      rw [hfst]
      rfl
    rw [if_pos htwo, hsnd, if_neg (hmem (by decide)), if_neg (hmem (by decide)),
      if_neg (hmem (by decide)), if_neg (hmem (by decide)), if_neg (hmem (by decide))]
    rfl
  · rw [if_neg htwo]
    rfl

theorem feedOutputByte_inCsi (h : Boundary s) (hkind : s.kind = .csi) (byte : UInt8) :
    feedOutputByte s byte =
      if sequenceFinal byte = true then
        (translateCsi { s with sequence := s.sequence ++ [byte] }).afterwards
          XtermToAmiga.closeSequence
      else if s.sequence.length + 1 = sequenceMax then
        done (XtermToAmiga.closeSequence { s with sequence := s.sequence ++ [byte] })
      else done { s with sequence := s.sequence ++ [byte] } := by
  have hosc : ¬ (s.kind = .osc ∨ s.kind = .oscEscape) := by
    rw [hkind]
    decide
  have hseq := h.sequence
  rw [hkind] at hseq
  have hlow : 2 ≤ s.sequence.length := hseq.1
  have hne : s.sequence ≠ [] := by
    rintro hnil
    rw [hnil] at hseq
    exact absurd hseq.1 (by decide)
  have hnot : ∀ n, ¬ (s.kind = .escape ∧ s.sequence.length + 1 = n) := by
    rintro n ⟨hesc, -⟩
    exact nomatch hkind.symm.trans hesc
  have hfin : (s.kind = .csi ∧ s.sequence.length + 1 > 2 ∧ sequenceFinal byte = true) =
      (sequenceFinal byte = true) :=
    propext ⟨fun hall => hall.2.2, fun hfin => ⟨hkind, by omega, hfin⟩⟩
  rw [feedOutputByte_boundary h, if_neg hosc]
  unfold plainByte sequenceByte
  rw [if_pos hne]
  rw [length_append, length_singleton, if_neg (hnot 2), if_neg (hnot 3)]
  simp only [hfin]

theorem feedOutputByte_csi (h : Boundary s) (hkind : s.kind = .csi)
    (hfin : sequenceFinal byte = false) :
    feedOutputByte s byte =
      if s.sequence.length + 1 = sequenceMax then
        done (XtermToAmiga.closeSequence { s with sequence := s.sequence ++ [byte] })
      else done { s with sequence := s.sequence ++ [byte] } := by
  rw [feedOutputByte_inCsi h hkind, hfin]
  exact if_neg Bool.false_ne_true

theorem Boundary.held (h : Boundary s) (hkind : s.kind = .csi)
    (hroom : s.sequence.length + 1 < sequenceMax) (byte : UInt8) :
    Boundary { s with sequence := s.sequence ++ [byte] } := by
  have hseq := h.sequence
  rw [hkind] at hseq
  refine { h with sequence := ?_ }
  rw [hkind, length_append]
  exact ⟨Nat.le_succ_of_le hseq.1, hroom⟩

theorem fine_csi (h : Boundary s) (hkind : s.kind = .csi) (hhigh : ∀ byte ∈ bytes, 0x80 ≤ byte)
    (htail : ∀ byte ∈ bytes.tail, IsContinuation byte) :
    Boundary (behind feedOutputByte s bytes) ∧
      (Fine implements s bytes ↔
        ∀ byte ∈ bytes.drop (sequenceMax - s.sequence.length), ¬ IsC1 byte) := by
  induction bytes generalizing s with
  | nil => exact ⟨h, fun _ => by simp, fun _ => fine_nil⟩
  | cons byte rest ih =>
  have hseq := h.sequence
  rw [hkind] at hseq
  have hmax : s.sequence.length < sequenceMax := hseq.2
  have hdrop : (byte :: rest).drop (sequenceMax - s.sequence.length) =
      rest.drop (sequenceMax - (s.sequence.length + 1)) := by
    rw [show sequenceMax - s.sequence.length = sequenceMax - (s.sequence.length + 1) + 1 by omega]
    rfl
  rw [behind_cons, fine_cons, hdrop,
    feedOutputByte_csi h hkind (high_facts (hhigh byte mem_cons_self)).2.1]
  by_cases hfull : s.sequence.length + 1 = sequenceMax
  · have hground : Ground
        (XtermToAmiga.closeSequence { s with sequence := s.sequence ++ [byte] }) :=
      ⟨h.closed _, rfl⟩
    obtain ⟨hend, hfine⟩ : _ ∧ (Fine implements _ _ ↔ _) := fine_plain hground fun b hb =>
      isContinuation_facts (htail b hb)
    rw [hfull]
    exact ⟨hend.toBoundary, (and_iff_right writes_done).trans hfine⟩
  obtain ⟨hend, hfine⟩ := ih (h.held hkind (by omega) byte) hkind
    (fun b hb => hhigh b (mem_cons_of_mem byte hb)) fun b hb => htail b (mem_of_mem_tail hb)
  rw [if_neg hfull]
  rw [length_append] at hfine
  exact ⟨hend, (and_iff_right writes_done).trans hfine⟩

theorem fine_osc (h : Boundary s) (hkind : s.kind = .osc ∨ s.kind = .oscEscape)
    (hhigh : ∀ byte ∈ bytes, 0x80 ≤ byte) (htail : ∀ byte ∈ bytes.tail, IsContinuation byte) :
    Boundary (behind feedOutputByte s bytes) ∧
      (Fine implements s bytes ↔ ∀ byte ∈ (bytes.dropWhile (· != 0x9c)).drop 1, ¬ IsC1 byte) := by
  induction bytes generalizing s with
  | nil => exact ⟨h, fun _ => by simp, fun _ => fine_nil⟩
  | cons byte rest ih =>
  obtain ⟨-, -, hesc, hbel, hback⟩ := high_facts (hhigh byte mem_cons_self)
  have hstep : feedOutputByte s byte = done (oscByte s byte) := by
    rw [feedOutputByte_boundary h, if_pos hkind]
  have hnext := boundary_oscByte h hkind byte
  rw [behind_cons, fine_cons, hstep]
  by_cases hst : byte = 0x9c
  · have hground : Ground (oscByte s byte) := by
      refine ⟨hnext, ?_⟩
      unfold oscByte
      rw [if_pos (Or.inr hst), if_pos (Or.inr hst)]
      split_ifs <;> rfl
    obtain ⟨hend, hfine⟩ : _ ∧ (Fine implements _ _ ↔ _) := fine_plain hground fun b hb =>
      isContinuation_facts (htail b hb)
    have hdrop : ((byte :: rest).dropWhile (· != 0x9c)).drop 1 = rest := by
      rw [dropWhile_cons_of_neg (by simp [hst])]
      rfl
    rw [hdrop]
    exact ⟨hend.toBoundary, (and_iff_right writes_done).trans hfine⟩
  have hosc : (oscByte s byte).kind = .osc := by
    unfold oscByte
    rw [if_neg (not_or.mpr ⟨hback, hst⟩), if_neg (not_or.mpr ⟨hbel, hst⟩)]
    split_ifs with hescape
    · rfl
    · exact hkind.resolve_right hescape
  obtain ⟨hend, hfine⟩ := ih hnext (Or.inl hosc)
    (fun b hb => hhigh b (mem_cons_of_mem byte hb))
    fun b hb => htail b (mem_of_mem_tail hb)
  have hdrop : (byte :: rest).dropWhile (· != 0x9c) = rest.dropWhile (· != 0x9c) :=
    dropWhile_cons_of_pos (bne_iff_ne.mpr hst)
  rw [hdrop]
  exact ⟨hend, (and_iff_right writes_done).trans hfine⟩

/-! ## A whole text -/

theorem leftOver_ascii (h : Boundary s) {c : Char} (henc : String.utf8EncodeChar c = [byte])
    (hascii : byte < 0x80) : leftOver s c = [] := by
  have hst : byte ≠ 0x9c := by
    rintro rfl
    exact absurd hascii (by decide)
  have hwhile : [byte].dropWhile (· != 0x9c) = [] := dropWhile_cons_of_pos (bne_iff_ne.mpr hst)
  have hosc : ([byte].dropWhile (· != 0x9c)).drop 1 = [] := by
    rw [hwhile]
    rfl
  have hseq := h.sequence
  unfold leftOver
  rw [henc]
  cases hkind : s.kind with
  | none => rfl
  | escape => rfl
  | csi =>
    rw [hkind] at hseq
    have hmax : s.sequence.length < sequenceMax := hseq.2
    exact drop_eq_nil_of_le (by rw [length_singleton]; omega)
  | osc => exact hosc
  | oscEscape => exact hosc

/-- **One character.** It is understood exactly if no control is left over of it, and the state
behind it is again one between two characters. -/
theorem fine_char (hcons : ∀ final ∈ consoleFinals, implements final) (h : Boundary s) (c : Char) :
    Boundary (behind feedOutputByte s (String.utf8EncodeChar c)) ∧
      (Fine implements s (String.utf8EncodeChar c) ↔ ∀ byte ∈ leftOver s c, ¬ IsC1 byte) := by
  rcases encode_cases c with ⟨byte, henc, hascii, -⟩ | ⟨lead, rest, henc, hleads, -, hrest⟩
  · have hnothing := leftOver_ascii h henc hascii
    rw [hnothing, henc, fine_cons]
    exact ⟨boundary_feedOutputByte h fun _ => utf8Continuations_ascii hascii,
      fun _ => forall_mem_nil _, fun _ =>
      ⟨writes_ascii hcons h hascii, fine_nil⟩⟩
  have hhigh : ∀ byte ∈ lead :: rest, 0x80 ≤ byte :=
    forall_mem_cons.mpr ⟨le_of_leads hleads, fun byte hbyte => (hrest byte hbyte).1⟩
  unfold leftOver
  rw [henc]
  cases hkind : s.kind with
  | none =>
    have hground : Ground s := ⟨h, hkind⟩
    have hcount := utf8Continuations_of_leads hleads
    have hpos : utf8Continuations lead ≠ 0 := hcount ▸ hleads.pos
    have hstep : feedOutputByte s lead =
        done { s with utf8 := [lead], utf8Needed := utf8Continuations lead } := by
      rw [feedOutputByte_ground hground (high_facts (le_of_leads hleads)).2.2.1, if_pos hpos]
    have hne : rest ≠ [] := by
      rintro rfl
      exact hpos hcount
    obtain ⟨hend, hfine, -⟩ := @fine_complete implements
      { s with utf8 := [lead], utf8Needed := utf8Continuations lead } rest hrest hne hkind
      hground.sequence_nil h.lastGraphic hpos
      (by show 1 + rest.length = utf8Continuations lead + 1; rw [hcount, Nat.add_comm])
    rw [behind_cons, fine_cons, hstep]
    exact ⟨hend.toBoundary, fun _ => by simp, fun _ => ⟨writes_done, hfine⟩⟩
  | escape =>
    obtain ⟨hground, hsilent⟩ := feedOutputByte_escape h hkind (high_facts (le_of_leads hleads)).1
    obtain ⟨hend, hfine⟩ : _ ∧ (Fine implements _ _ ↔ _) := fine_plain hground fun b hb =>
      isContinuation_facts (hrest b hb)
    rw [fine_cons]
    refine ⟨hend.toBoundary, (and_iff_right ?_).trans hfine⟩
    unfold Writes
    rw [hsilent]
    exact forall_mem_nil _
  | csi => exact fine_csi h hkind hhigh hrest
  | osc => exact fine_osc h (Or.inl hkind) hhigh hrest
  | oscEscape => exact fine_osc h (Or.inr hkind) hhigh hrest

theorem fine_text (hcons : ∀ final ∈ consoleFinals, implements final) (h : Boundary s)
    (text : List Char) :
    Boundary (behind feedOutputByte s (encode text)) ∧
      (Fine implements s (encode text) ↔ ∀ before c after, text = before ++ c :: after →
        ∀ byte ∈ leftOver (behind feedOutputByte s (encode before)) c, ¬ IsC1 byte) := by
  induction text generalizing s with
  | nil => exact ⟨h, fun _ => Places.forall_nil, fun _ => fine_nil⟩
  | cons c text ih =>
  obtain ⟨hnext, hchar⟩ : _ ∧ (Fine implements _ _ ↔ _) := fine_char hcons h c
  obtain ⟨hend, htext⟩ := ih hnext
  have henc : ∀ (c : Char) (text : List Char),
      encode (c :: text) = String.utf8EncodeChar c ++ encode text := fun _ _ => rfl
  rw [henc, fine_append, hchar, htext, Places.forall_cons]
  simp only [henc, behind_append]
  exact ⟨hend, Iff.rfl⟩

end Steps

/-- **The console understands what is written**, exactly if no character of the text is cut by the
end of a sequence so that a control is left over of it, and the sequence that is open at the end
holds none. -/
theorem understood_iff {implements : UInt8 → Prop}
    (hconsole : ∀ final ∈ consoleFinals, implements final) (text : List Char) :
    (∀ w ∈ screenWrites text, w.Understood implements) ↔
      (∀ before c after, text = before ++ c :: after →
        ∀ byte ∈ leftOver (screenState before) c, ¬ IsC1 byte) ∧
      ∀ byte ∈ (heldSequence (screenState text)).getD [], ¬ IsC1 byte := by
  obtain ⟨hend, hfine⟩ : _ ∧ (Fine implements _ _ ↔ _) := fine_text hconsole boundary_init text
  have hheld : (∀ w ∈ held (screenState text), w.Understood implements) ↔
      ∀ byte ∈ (heldSequence (screenState text)).getD [], ¬ IsC1 byte := by
    have hnone : (screenState text).utf8 = [] := hend.utf8
    unfold held
    rw [hnone]
    cases heldSequence (screenState text) with
    | none => simp
    | some sequence =>
      show (∀ w ∈ [Write.mk .text sequence], w.Understood implements) ↔ _
      rw [forall_mem_singleton]
      rfl
  unfold screenWrites
  rw [forall_mem_append, hheld]
  exact and_congr_left fun _ => hfine

/-- A title with U+271B, whose second byte ends the title and whose third introduces a sequence of
the console. -/
def crossTitle : List Char := Char.ofNat 0x1b :: "]0;".toList ++ [Char.ofNat 0x271b, Char.ofNat 7]

theorem crossTitle_not_understood :
    ¬ ∀ w ∈ screenWrites crossTitle, w.Understood (· ∈ consoleFinals) := by
  intro hall
  have hwrite : Write.mk .text [amigaCsi] ∈ screenWrites crossTitle := by decide +kernel
  exact hall _ hwrite amigaCsi (mem_singleton.mpr rfl) (by decide)

/-- A title of another character, and a red x. -/
def accentTitle : List Char :=
  Char.ofNat 0x1b :: "]0;".toList ++ [Char.ofNat 0xe9, Char.ofNat 7, Char.ofNat 0x1b] ++
    "[31mx".toList

theorem understood_iff_title :
    (screenWrites accentTitle).map Write.bytes = [amigaCsi :: ascii "32m", ascii "x"] ∧
      ∀ w ∈ screenWrites accentTitle, w.Understood (· ∈ consoleFinals) := by
  refine ⟨by decide +kernel, (understood_iff (fun _ hfinal => hfinal) accentTitle).mpr
    ⟨fun before c after hsplit => ?_, by decide +kernel⟩⟩
  have hplaces : (range accentTitle.length).all (fun i => accentTitle[i]?.all fun c =>
      (leftOver (screenState (accentTitle.take i)) c).all fun byte => !decide (IsC1 byte)) := by
    decide +kernel
  have hhere := all_eq_true.mp hplaces before.length (by rw [hsplit]; simp)
  rw [hsplit, getElem?_append_right le_rfl, Nat.sub_self, getElem?_cons_zero, take_left] at hhere
  simpa using hhere

end AceShell.Terminal
