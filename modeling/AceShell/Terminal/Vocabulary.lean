import AceShell.Terminal.Translate

/-!
# What the translator says to the console

A command of the translator is a row of items: plain bytes, C1 controls that an ESC sequence asked
for, and control sequences with at most sixteen parameters of at most 255. Of each function that
writes commands `Obeys` says which states it can leave, what it writes, and how much;
`within_feedOutputByte` says the same of a byte.
-/

namespace AceShell.Terminal

open Text Emission List Decimal

/-! ## Commands -/

def IsC1 (byte : UInt8) : Prop := 0x80 ≤ byte ∧ byte ≤ 0x9f

instance (byte : UInt8) : Decidable (IsC1 byte) := inferInstanceAs (Decidable (_ ∧ _))

def consoleFinals : List UInt8 := ascii "@ABCDEFHIJKLMPSTZhlmnp"

def escControls : List UInt8 := [0x84, 0x85, 0x88, 0x8d]

/-- A mark for private commands, numbers, a blank that some commands have in front of their final
byte, and the final byte. -/
structure ControlSequence where
  mark : List UInt8 := []
  params : List ℕ := []
  gap : List UInt8 := []
  final : UInt8
  deriving DecidableEq

def renderParams (params : List ℕ) : List UInt8 := [ch ';'].intercalate (params.map print)

/-- The sequence as it is sent. -/
def ControlSequence.render (csi : ControlSequence) : List UInt8 :=
  amigaCsi :: csi.mark ++ renderParams csi.params ++ csi.gap ++ [csi.final]

/-- The console implements the command, there are not more parameters than it stores, and each fits.
-/
structure ControlSequence.Obeyed (implements : UInt8 → Prop) (csi : ControlSequence) : Prop where
  mark : csi.mark = [] ∨ csi.mark = [ch '>']
  count : csi.params.length ≤ amigaSgrParamMax
  value : ∀ param ∈ csi.params, param ≤ amigaParamMax
  gap : csi.gap = [] ∨ csi.gap = [ch ' ']
  final : implements csi.final

/-- A part of a command. -/
inductive Item
  | plain (byte : UInt8)
  | control (byte : UInt8)
  | sequence (csi : ControlSequence)
  deriving DecidableEq

/-- The bytes of an item. -/
def Item.render : Item → List UInt8
  | .plain byte => [byte]
  | .control byte => [byte]
  | .sequence csi => csi.render

def Item.Obeyed (implements : UInt8 → Prop) : Item → Prop
  | .plain byte => ¬ IsC1 byte
  | .control byte => byte ∈ escControls
  | .sequence csi => csi.Obeyed implements

def IsCommand (implements : UInt8 → Prop) (bytes : List UInt8) : Prop :=
  ∃ items : List Item, bytes = items.flatMap Item.render ∧ ∀ item ∈ items, item.Obeyed implements

variable {bytes : List UInt8} {byte : UInt8}

section Commands

variable {implements : UInt8 → Prop}

theorem IsCommand.append {more : List UInt8} (h : IsCommand implements bytes)
    (h' : IsCommand implements more) : IsCommand implements (bytes ++ more) := by
  obtain ⟨items, rfl, hitems⟩ := h
  obtain ⟨items', rfl, hitems'⟩ := h'
  refine ⟨items ++ items', by rw [flatMap_append], ?_⟩
  exact forall_mem_append.mpr ⟨hitems, hitems'⟩

theorem IsCommand.mono {implements' : UInt8 → Prop} (h : IsCommand implements bytes)
    (hall : ∀ final, implements final → implements' final) : IsCommand implements' bytes := by
  obtain ⟨items, hbytes, hitems⟩ := h
  refine ⟨items, hbytes, ?_⟩
  intro item hitem
  have hobeyed := hitems item hitem
  cases item with
  | plain byte => exact hobeyed
  | control byte => exact hobeyed
  | sequence csi => exact { hobeyed with final := hall _ hobeyed.final }

theorem isCommand_item (item : Item) (h : item.Obeyed implements) :
    IsCommand implements item.render := by
  refine ⟨[item], by rw [flatMap_singleton], ?_⟩
  intro other hother
  rwa [mem_singleton.mp hother]

theorem isCommand_plain (h : ¬ IsC1 byte) : IsCommand implements [byte] :=
  isCommand_item (.plain byte) h

theorem isCommand_control (h : byte ∈ escControls) : IsCommand implements [byte] :=
  isCommand_item (.control byte) h

theorem isCommand_params (params : List ℕ) (final : UInt8) (hcnt : params.length ≤ amigaSgrParamMax)
    (hval : ∀ param ∈ params, param ≤ amigaParamMax) (hfin : implements final) :
    IsCommand implements (amigaCsi :: renderParams params ++ [final]) := by
  have h := isCommand_item (.sequence { params, final }) ⟨Or.inl rfl, hcnt, hval, Or.inl rfl, hfin⟩
  have hrender : ControlSequence.render { params, final } =
      amigaCsi :: renderParams params ++ [final] := by
    unfold ControlSequence.render
    rw [append_nil]
    rfl
  rwa [← hrender]

end Commands

/-! ## What a command may do -/

structure SameInput (s t : XtermToAmiga) : Prop where
  sequence : t.sequence = s.sequence
  kind : t.kind = s.kind
  utf8 : t.utf8 = s.utf8
  utf8Needed : t.utf8Needed = s.utf8Needed
  lastGraphic : t.lastGraphic = s.lastGraphic

theorem SameInput.refl (s : XtermToAmiga) : SameInput s s := ⟨rfl, rfl, rfl, rfl, rfl⟩

/-- A write of a command: what the console implements, or the character that CSI b repeats. -/
def Said (s : XtermToAmiga) (w : Write) : Prop :=
  match w.origin with
  | .command => IsCommand (· ∈ consoleFinals) w.bytes
  | .text => s.lastGraphic ≠ 0 ∧ w.bytes = [s.lastGraphic]

abbrev Obeys (s : XtermToAmiga) (n : ℕ) (e : Translation) : Prop :=
  e.Within (SameInput s) (Said s) Write.bytes n

variable {s t : XtermToAmiga} {n value : ℕ} {final : UInt8}

theorem obeys_emitText (h : SameInput s t) (hbytes : IsCommand (· ∈ consoleFinals) bytes)
    (hlen : bytes.length ≤ n) : Obeys s n (emitText bytes t) := within_emit h hbytes hlen

theorem length_print_le_three (h : value ≤ amigaParamMax) : (print value).length ≤ 3 := by
  have hlt : value < 10 ^ 3 := by
    have : value ≤ 255 := h
    omega
  exact length_print_le (by decide) hlt

theorem obeys_emitCsi (h : SameInput s t) (hval : value ≤ amigaParamMax)
    (hfin : final ∈ consoleFinals) : Obeys s 5 (emitCsi value final t) := by
  have hlen := length_print_le_three hval
  have hcommand := isCommand_params [value] final (by decide : 1 ≤ 16) (by simpa using hval) hfin
  refine obeys_emitText h (by simpa [renderParams, intercalate] using hcommand) ?_
  rw [length_append, length_cons, length_singleton]
  omega

theorem obeys_emitCsiPair {first second : ℕ} (h : SameInput s t) (hfst : first ≤ amigaParamMax)
    (hsnd : second ≤ amigaParamMax) (hfin : final ∈ consoleFinals) :
    Obeys s 9 (emitCsiPair first second final t) := by
  have hlen := length_print_le_three hfst
  have hlen' := length_print_le_three hsnd
  have hcommand := isCommand_params [first, second] final (by decide : 2 ≤ 16)
    (by simpa using ⟨hfst, hsnd⟩) hfin
  refine obeys_emitText h (by simpa [renderParams, intercalate] using hcommand) ?_
  simp only [length_append, length_cons, length_nil]
  omega

theorem obeys_emitRepeat {unit : Write} (hunit : Said s unit) (count : ℕ) (h : SameInput s t) :
    Obeys s (count * unit.bytes.length) (emitRepeat unit count t) := by
  induction count generalizing t with
  | zero => exact within_done h
  | succ count ih =>
    rw [Nat.succ_mul, Nat.add_comm]
    exact (within_emit h hunit (Nat.le_refl _)).andThen fun _ hu => ih hu

theorem isCommand_bare (hfin : final ∈ consoleFinals) :
    IsCommand (· ∈ consoleFinals) [amigaCsi, final] :=
  isCommand_params [] final (by decide) (by simp) hfin

theorem isCommand_clearScreen : IsCommand (· ∈ consoleFinals) clearScreen := by
  have hhome : IsCommand (· ∈ consoleFinals) (amigaCsi :: ascii "1;1H") :=
    isCommand_params [1, 1] (ch 'H') (by decide) (by decide) (by decide)
  exact hhome.append (isCommand_bare (by decide))

theorem isCommand_cursor (hval : value ≤ 1) :
    IsCommand (· ∈ consoleFinals) (amigaCsi :: print value ++ ascii " p") := by
  have h : IsCommand (· ∈ consoleFinals) _ := isCommand_item
    (.sequence { params := [value], gap := [ch ' '], final := ch 'p' })
    ⟨Or.inl rfl, (by decide : 1 ≤ 16), by simpa using le_trans hval (by decide), Or.inr rfl,
      (by decide : ch 'p' ∈ consoleFinals)⟩
  have hblank : ascii " p" = [ch ' ', ch 'p'] := by decide
  rw [hblank]
  simpa [Item.render, ControlSequence.render, renderParams, intercalate] using h

theorem isCommand_wrap (hfin : final ∈ [ch 'h', ch 'l']) :
    IsCommand (· ∈ consoleFinals) (amigaCsi :: ascii ">7" ++ [final]) :=
  isCommand_item (.sequence { mark := [ch '>'], params := [7], final })
    ⟨Or.inr rfl, (by decide : 1 ≤ 16), (by decide : ∀ v ∈ [7], v ≤ amigaParamMax), Or.inl rfl,
      (by decide : [ch 'h', ch 'l'] ⊆ consoleFinals) hfin⟩

/-! ## Renditions -/

theorem ansiToPen_le (color : ℕ) : ansiToPen.getD (color % 8) 0 ≤ 7 := by
  have hall : ∀ index : Fin 8, ansiToPen.getD index 0 ≤ 7 := by decide
  exact hall ⟨color % 8, Nat.mod_lt color (by decide)⟩

/-- A parameter adds at most one number to the console's SGR, and one that fits a byte. -/
structure SgrStep.Small (s : XtermToAmiga) (step : SgrStep) : Prop where
  length : step.add.length ≤ 1
  value : ∀ v ∈ step.add, v ≤ amigaParamMax
  input : SameInput s step.state

theorem small_nothing (skip : ℕ) (h : SameInput s t) : (SgrStep.mk skip [] t).Small s :=
  ⟨Nat.zero_le 1, by simp, h⟩

theorem small_one (hval : value ≤ amigaParamMax) (skip : ℕ) (h : SameInput s t) :
    (SgrStep.mk skip [value] t).Small s := by
  refine ⟨le_refl 1, ?_, h⟩
  intro w hw
  rwa [mem_singleton.mp hw]

theorem small_pen (skip color : ℕ) (background : Bool) (h : SameInput s t) :
    (SgrStep.pen skip t color background).Small s := by
  have hpen := ansiToPen_le color
  unfold SgrStep.pen selectPen
  dsimp only
  split_ifs
  · exact small_one (by show _ ≤ 255; omega) skip h
  · exact small_one (by decide : 31 ≤ 255) skip { h with }
  · exact small_one (by show _ ≤ 255; omega) skip { h with }

theorem small_ite {c : Prop} [Decidable c] {a b : SgrStep} (ha : c → a.Small s)
    (hb : ¬ c → b.Small s) : (if c then a else b).Small s := by
  split_ifs with h
  · exact ha h
  · exact hb h

theorem small_extendedColor (background : Bool) (rest : List (Option ℕ)) (h : SameInput s t) :
    (extendedColor background rest t).Small s :=
  small_ite (fun _ => small_pen _ _ _ h) fun _ =>
    small_ite (fun _ => small_pen _ _ _ h) fun _ => small_nothing _ h

theorem small_sgrParam (param : ℕ) (rest : List (Option ℕ)) (h : SameInput s t) :
    (sgrParam param rest t).Small s := by
  have hbold : ∀ requested bright emitted,
      SameInput s { t with boldRequested := requested, brightForeground := bright,
                           boldEmitted := emitted } := fun _ _ _ =>
    { h with }
  refine small_ite (fun _ => small_one (by decide) _ (hbold _ _ _)) fun _ => ?_
  refine small_ite (fun _ => small_nothing _ (hbold _ _ _)) fun _ => ?_
  refine small_ite (fun _ => small_nothing _ (hbold _ _ _)) fun _ => ?_
  refine small_ite (fun hplain => small_one ?_ _ h) fun _ => ?_
  · simp only [mem_cons, not_mem_nil, or_false] at hplain
    show param ≤ 255
    omega
  refine small_ite (fun _ => small_one (by decide) _ (hbold _ _ _)) fun _ => ?_
  refine small_ite (fun _ => small_one (by decide) _ h) fun _ => ?_
  refine small_ite (fun _ => small_extendedColor _ _ h) fun _ => ?_
  refine small_ite (fun _ => small_extendedColor _ _ h) fun _ => ?_
  refine small_ite (fun _ => small_pen _ _ _ h) fun _ => ?_
  refine small_ite (fun _ => small_pen _ _ _ h) fun _ => ?_
  refine small_ite (fun _ => small_pen _ _ _ h) fun _ => ?_
  exact small_ite (fun _ => small_pen _ _ _ h) fun _ => small_nothing _ h

/-- Between two parameters at most fifteen numbers wait, so that the one for bold always fits. -/
structure Waiting (out : List ℕ) : Prop where
  length : out.length + 1 ≤ amigaSgrParamMax
  value : ∀ v ∈ out, v ≤ amigaParamMax

theorem Waiting.nil : Waiting [] := ⟨by decide, by simp⟩

variable {out : List ℕ}

theorem Waiting.add (h : Waiting out) {step : SgrStep} (hstep : step.Small s) :
    Waiting ((if decide (out.length + 2 > amigaSgrParamMax) then [] else out) ++ step.add) := by
  have hlen := hstep.length
  constructor
  · rw [length_append]
    by_cases hfull : out.length + 2 > amigaSgrParamMax
    · rw [if_pos (decide_eq_true hfull)]
      show 0 + step.add.length + 1 ≤ 16
      omega
    · rw [if_neg (by simpa using hfull)]
      omega
  · intro v hv
    rcases mem_append.mp hv with hv | hv
    · split_ifs at hv
      · simp at hv
      · exact h.value v hv
    · exact hstep.value v hv

theorem Waiting.not_full (h : Waiting out) : decide (out.length = amigaSgrParamMax) = false := by
  have hlen := h.length
  exact decide_eq_false (by omega)

theorem length_renderParams_le {params : List ℕ} (h : ∀ v ∈ params, v ≤ amigaParamMax) :
    (renderParams params).length ≤ 4 * params.length := by
  induction params with
  | nil => exact Nat.le_refl 0
  | cons v rest ih =>
  have hv := length_print_le_three (h v mem_cons_self)
  have hrest := ih fun w hw => h w (mem_cons_of_mem v hw)
  cases rest with
  | nil =>
    have hone : renderParams [v] = print v := by
      simp [renderParams, intercalate]
    rw [hone, length_singleton]
    omega
  | cons w more =>
  have hcons : renderParams (v :: w :: more) =
      print v ++ ch ';' :: renderParams (w :: more) := by
    simp [renderParams, intercalate]
  rw [hcons, length_append, length_cons, length_cons]
  omega

theorem obeys_flushSgr (hlen : out.length ≤ amigaSgrParamMax) (hval : ∀ v ∈ out, v ≤ amigaParamMax)
    (h : SameInput s t) : Obeys s (4 * out.length + 2) (flushSgr out t) := by
  have hrender : ([ch ';'].intercalate (out.map print)).length ≤ 4 * out.length :=
    length_renderParams_le hval
  refine within_ite (fun _ => within_done h) fun _ =>
    obeys_emitText h (isCommand_params out (ch 'm') hlen hval (by decide)) ?_
  rw [length_append, length_cons, length_singleton]
  omega

theorem obeys_sgrEnd (hout : Waiting out) (h : SameInput s t) :
    Obeys s (4 * out.length + 6) (sgrEnd out t) := by
  have hbold : ∀ bold ≤ amigaParamMax, ∀ {u}, SameInput s u →
      Obeys s (4 * out.length + 6) (flushSgr (out ++ [bold]) u) := by
    intro bold hle u hu
    have hlen : (out ++ [bold]).length = out.length + 1 := length_append
    refine (obeys_flushSgr (hlen ▸ hout.length) ?_ hu).mono (by rw [hlen]; omega)
    intro v hv
    rcases mem_append.mp hv with hv | hv
    · exact hout.value v hv
    · rwa [mem_singleton.mp hv]
  have hsent : ∀ emitted, SameInput s { t with boldEmitted := emitted } := fun _ =>
    { h with }
  unfold sgrEnd
  simp only [hout.not_full, Bool.false_eq_true, if_false]
  refine within_ite (fun _ => ?_) fun _ =>
    (obeys_flushSgr (Nat.le_of_succ_le hout.length) hout.value h).mono (by omega)
  split_ifs
  · exact hbold 1 (by decide) (hsent _)
  · exact hbold 22 (by decide) (hsent _)

theorem obeys_sgrLoop (params : List (Option ℕ)) :
    ∀ (skip : ℕ) {out : List ℕ} (_ : Waiting out) {t : XtermToAmiga}, SameInput s t →
      Obeys s (4 * out.length + 6 * params.length + 6) (sgrLoop params skip out t) := by
  induction params with
  | nil => intro skip out hout t h; exact obeys_sgrEnd hout h
  | cons param rest ih =>
  intro skip out hout t h
  rw [length_cons]
  cases skip with
  | succ skip => exact (ih skip hout h).mono (by omega)
  | zero =>
  have hnext : ∀ u, SameInput s u → Obeys s (4 * ((if decide (out.length + 2 > amigaSgrParamMax)
      then [] else out).length + 1) + 6 * rest.length + 6)
      (sgrLoop rest (sgrParam (param.getD 0) rest u).skip
        ((if decide (out.length + 2 > amigaSgrParamMax) then [] else out) ++
          (sgrParam (param.getD 0) rest u).add) (sgrParam (param.getD 0) rest u).state) := by
    intro u hu
    have hsmall := small_sgrParam (param.getD 0) rest hu
    have hadd := hsmall.length
    refine (ih _ (hout.add hsmall) hsmall.input).mono ?_
    rw [length_append]
    omega
  have hflush := obeys_flushSgr (Nat.le_of_succ_le hout.length) hout.value h
  unfold sgrLoop
  by_cases hfull : out.length + 2 > amigaSgrParamMax
  · simp only [hfull, decide_true, if_true, length_nil] at hnext ⊢
    exact (hflush.andThen hnext).mono (by omega)
  · simp only [hfull, decide_false, Bool.false_eq_true, if_false] at hnext ⊢
    have hdone : Obeys s 0 (done t) := within_done h
    exact (hdone.andThen hnext).mono (by omega)

/-! ## All commands -/

variable {params : List (Option ℕ)}

theorem obeys_translateSgr (hparams : params.length ≤ paramMax) (h : SameInput s t) :
    Obeys s 510 (translateSgr params t) := by
  have hreset : SameInput s t.resetBold := { h with }
  have hparams : params.length ≤ 24 := hparams
  refine within_ite (fun _ => (obeys_emitCsi hreset (by decide) (by decide)).mono (by decide))
    fun _ => (obeys_sgrLoop params 0 Waiting.nil h).mono ?_
  rw [length_nil]
  omega

theorem obeys_privateMode (set : Bool) (param : Option ℕ) (h : SameInput s t) :
    Obeys s 7 (privateMode set param t) := by
  refine within_ite (fun _ => within_done ?_) fun _ =>
    within_ite (fun _ => obeys_emitText h isCommand_clearScreen (by decide)) fun _ =>
      within_ite (fun _ => ?_) fun _ => within_ite (fun _ => ?_) fun _ => within_done h
  · exact { h with }
  · cases set
    · exact obeys_emitText h (isCommand_cursor (Nat.zero_le 1)) (by decide)
    · exact obeys_emitText h (isCommand_cursor (Nat.le_refl 1)) (by decide)
  · cases set
    · exact obeys_emitText h (isCommand_wrap (by decide)) (by decide)
    · exact obeys_emitText h (isCommand_wrap (by decide)) (by decide)

theorem obeys_translatePrivateMode (set : Bool) (params : List (Option ℕ)) (h : SameInput s t) :
    Obeys s (7 * params.length) (translatePrivateMode set params t) := by
  induction params generalizing t with
  | nil => exact within_done h
  | cons param rest ih =>
    rw [length_cons, Nat.mul_succ, Nat.add_comm]
    exact (obeys_privateMode set param h).andThen fun _ hu => ih hu

theorem movementCount_le (params : List (Option ℕ)) (index : ℕ) :
    movementCount params index ≤ amigaParamMax := Nat.min_le_right _ _

theorem repeatCount_le (params : List (Option ℕ)) (index : ℕ) :
    repeatCount params index ≤ amigaParamMax :=
  le_trans (Nat.min_le_left _ _) (movementCount_le params index)

theorem obeys_csiCommand (final : UInt8) (hparams : params.length ≤ paramMax) :
    Obeys s 510 (csiCommand final params s) := by
  have h := SameInput.refl s
  have hcr : IsCommand (· ∈ consoleFinals) [ch '\r'] := isCommand_plain (by decide)
  have hblank : IsCommand (· ∈ consoleFinals) [ch ' '] := isCommand_plain (by decide)
  have hmove : ascii "ABCDEFILMSTZ" ⊆ consoleFinals := by decide
  have hdone : Obeys s 510 (done s) := within_done h
  have htext : ∀ {bytes : List UInt8}, IsCommand (· ∈ consoleFinals) bytes → bytes.length ≤ 510 →
      Obeys s 510 (emitText bytes s) := obeys_emitText h
  have hcsi : ∀ {final : UInt8}, final ∈ consoleFinals →
      Obeys s 510 (emitCsi (movementCount params 0) final s) := fun hfin =>
    (obeys_emitCsi h (movementCount_le _ _) hfin).mono (by decide)
  have hrepeat : ∀ {unit : Write}, Said s unit → unit.bytes.length ≤ 2 →
      Obeys s 510 (emitRepeat unit (repeatCount params 0) s) := fun hunit hlen =>
    (obeys_emitRepeat hunit _ h).mono (Nat.mul_le_mul (repeatCount_le params 0) hlen)
  refine within_ite (fun _ => obeys_translateSgr hparams h) fun _ => ?_
  refine within_ite (fun hin => hcsi (hmove hin)) fun _ => ?_
  refine within_ite (fun _ => (obeys_emitCsiPair h (movementCount_le _ _) (movementCount_le _ _)
    (by decide)).mono (by decide)) fun _ => ?_
  refine within_ite (fun _ => hcsi (by decide)) fun _ => ?_
  -- an absolute column: the left margin, then forward
  refine within_ite (fun _ => ?_) fun _ => ?_
  · refine ((obeys_emitText h hcr (Nat.le_refl 1)).andThen fun u hu => within_ite
      (fun _ => within_done hu) fun _ => obeys_emitCsi hu ?_ (by decide)).mono (by decide : 6 ≤ 510)
    exact le_trans (Nat.sub_le _ 1) (movementCount_le params 0)
  refine within_ite (fun _ => within_ite (fun _ => htext isCommand_clearScreen (by decide)) fun _ =>
    within_ite (fun _ => hdone) fun _ => htext (isCommand_bare (by decide)) (by decide)) fun _ => ?_
  refine within_ite (fun _ => within_ite
    (fun _ => htext (hcr.append (isCommand_bare (by decide))) (by decide)) fun _ =>
      within_ite (fun _ => hdone) fun _ => htext (isCommand_bare (by decide)) (by decide))
    fun _ => ?_
  refine within_ite (fun _ => hrepeat (isCommand_bare (by decide)) (Nat.le_refl 2)) fun _ => ?_
  refine within_ite (fun _ => hrepeat (isCommand_bare (by decide)) (Nat.le_refl 2)) fun _ => ?_
  refine within_ite (fun _ => ?_) fun _ => ?_
  · have hunit : Said s ⟨.command, [ch ' ']⟩ := hblank
    have hcnt : repeatCount params 0 ≤ 255 := repeatCount_le params 0
    refine ((obeys_emitRepeat hunit _ h).andThen fun u hu =>
      obeys_emitCsi hu (repeatCount_le params 0) (by decide)).mono ?_
    rw [length_singleton]
    omega
  refine within_ite (fun _ => within_ite (fun _ => hdone) fun hne =>
    hrepeat ⟨hne, rfl⟩ (by decide : 1 ≤ 2)) fun _ => ?_
  exact within_ite (fun _ => within_ite (fun _ => htext (isCommand_params [6] (ch 'n') (by decide)
    (by decide) (by decide)) (by decide)) fun _ => hdone) fun _ => hdone

theorem length_parseParamsFrom_le (bytes : List UInt8) (maximum : ℕ) (value : Option ℕ) :
    (parseParamsFrom bytes maximum value).length ≤ maximum := by
  induction bytes generalizing maximum value with
  | nil =>
    cases maximum with
    | zero => exact Nat.le_refl 0
    | succ maximum => exact Nat.succ_le_succ (Nat.zero_le maximum)
  | cons byte rest ih =>
  cases maximum with
  | zero => exact Nat.le_refl 0
  | succ maximum =>
  unfold parseParamsFrom
  split_ifs
  · exact Nat.succ_le_succ (ih maximum none)
  · exact ih (maximum + 1) _
  · exact ih (maximum + 1) value

theorem obeys_translateCsi (s : XtermToAmiga) : Obeys s 510 (translateCsi s) := by
  have h := SameInput.refl s
  have hparams : ∀ bytes, (parseParams bytes).length ≤ paramMax := fun bytes =>
    length_parseParamsFrom_le bytes paramMax none
  unfold translateCsi
  dsimp only
  split
  · exact obeys_csiCommand _ (hparams _)
  rename_i rest _
  have hmodes : 7 * (parseParams rest).length ≤ 510 :=
    le_trans (Nat.mul_le_mul_left 7 (hparams rest)) (by decide)
  exact within_ite (fun _ => within_ite
    (fun _ => (obeys_translatePrivateMode _ _ h).mono hmodes) fun _ => within_done h)
    fun _ => within_ite (fun _ => within_done h) fun _ => obeys_csiCommand _ (hparams _)

theorem obeys_translateEscape (s : XtermToAmiga) : Obeys s 510 (translateEscape s) := by
  have hctrl : ∀ {byte : UInt8}, byte ∈ escControls → Obeys s 510 (emitText [byte] s) :=
    fun hbyte => obeys_emitText (SameInput.refl s) (isCommand_control hbyte) (by decide : 1 ≤ 510)
  have hsgr : IsCommand (· ∈ consoleFinals) (amigaCsi :: ascii "0m") :=
    isCommand_params [0] (ch 'm') (by decide) (by decide) (by decide)
  have hdone : Obeys s 510 (done s) := within_done (SameInput.refl s)
  refine within_ite (fun _ => ?_) fun _ => hdone
  refine within_ite (fun _ => hctrl (by decide)) fun _ => ?_
  refine within_ite (fun _ => hctrl (by decide)) fun _ => ?_
  refine within_ite (fun _ => hctrl (by decide)) fun _ => ?_
  refine within_ite (fun _ => hctrl (by decide)) fun _ => ?_
  exact within_ite (fun _ => obeys_emitText ⟨rfl, rfl, rfl, rfl, rfl⟩
    (hsgr.append isCommand_clearScreen) (by decide)) fun _ => hdone

theorem Obeys.closed {e : Translation} (h : Obeys s n e) :
    (e.afterwards XtermToAmiga.closeSequence).Within (SameInput s.closeSequence) (Said s)
      Write.bytes n :=
  h.afterwards fun _ hsame => ⟨rfl, rfl, hsame.utf8, hsame.utf8Needed, hsame.lastGraphic⟩

/-! ## Text -/

/-- A partial character is shorter than the character will be, which has four bytes at most. -/
structure Utf8Bounded (state : XtermToAmiga) : Prop where
  needed : state.utf8Needed ≤ 3
  held : state.utf8.length ≤ state.utf8Needed

theorem Utf8Bounded.congr (h : Utf8Bounded s) (hutf8 : t.utf8 = s.utf8)
    (hneeded : t.utf8Needed = s.utf8Needed) : Utf8Bounded t :=
  ⟨hneeded ▸ h.needed, by rw [hutf8, hneeded]; exact h.held⟩

theorem utf8Bounded_clear (s : XtermToAmiga) :
    Utf8Bounded { s with utf8 := [], utf8Needed := 0 } := ⟨Nat.zero_le 3, Nat.le_refl 0⟩

section Text

variable {p : Write → Prop}

theorem within_putChar (h : Utf8Bounded s) (hbyte : p ⟨.text, [byte]⟩) :
    (putChar byte s).Within Utf8Bounded p Write.bytes 1 := by
  refine within_emit ?_ hbyte (Nat.le_refl 1)
  split_ifs
  · exact h.congr rfl rfl
  · exact h

theorem within_putText {text : List UInt8} (h : Utf8Bounded s)
    (htext : ∀ byte ∈ text, p ⟨.text, [byte]⟩) :
    (putText text s).Within Utf8Bounded p Write.bytes text.length := by
  induction text generalizing s with
  | nil => exact within_done h
  | cons byte rest ih =>
    rw [length_cons, Nat.add_comm]
    exact (within_putChar h (htext byte mem_cons_self)).andThen fun _ hu =>
      ih hu fun b hb => htext b (mem_cons_of_mem byte hb)

theorem foldUnicode_fits (code : ℕ) :
    foldUnicode code ≠ [] ∧ (foldUnicode code).length ≤ 3 ∧
      ∀ byte ∈ foldUnicode code, ¬ IsC1 byte := by
  have htable : ∀ fold ∈ unicodeFolds,
      fold.2 ≠ [] ∧ fold.2.length ≤ 3 ∧ ∀ b ∈ fold.2, ¬ IsC1 b := by
    have hall : (unicodeFolds.all fun fold =>
        fold.2 ≠ [] && (fold.2.length ≤ 3 && fold.2.all (¬ IsC1 ·))) = true := by decide
    intro fold hfold
    simpa using all_eq_true.mp hall fold hfold
  unfold foldUnicode
  split
  · rename_i fold hfold
    exact htable fold (mem_of_find?_eq_some hfold)
  have hplain : ∀ b ∈ ascii "+#:*>?", ¬ IsC1 b := by
    have hall : ((ascii "+#:*>?").all (¬ IsC1 ·)) = true := by decide
    intro b hb
    exact of_decide_eq_true (all_eq_true.mp hall b hb)
  split_ifs <;> exact ⟨by decide, by decide, fun b hb =>
    hplain b (by rw [mem_singleton.mp hb]; decide)⟩

variable (htext : ∀ b, ¬ IsC1 b → p ⟨.text, [b]⟩)

include htext

theorem within_putUnicode (s : XtermToAmiga) :
    (putUnicode s).Within Utf8Bounded p Write.bytes 3 := by
  obtain ⟨-, hlen, hfold⟩ := foldUnicode_fits (utf8Code s.utf8 s.utf8Needed)
  refine within_ite (fun hcode => (within_putChar (utf8Bounded_clear s) (htext _ ?_)).mono
    (by decide)) fun _ => (within_putText (utf8Bounded_clear s) fun byte hbyte =>
      htext byte (hfold byte hbyte)).mono hlen
  rintro ⟨-, hle⟩
  have : utf8Code s.utf8 s.utf8Needed % 2 ^ 8 ≤ 0x9f := hle
  omega

omit htext

theorem within_emitBytes {P : XtermToAmiga → Prop} (h : P s)
    (hbytes : ∀ byte ∈ bytes, p ⟨.text, [byte]⟩) :
    (emitBytes bytes s).Within P p Write.bytes bytes.length := by
  induction bytes with
  | nil => exact within_done h
  | cons byte rest ih =>
  have hfst : (Emission.emit ⟨.text, [byte]⟩ s).Within (· = s) p Write.bytes 1 :=
    within_emit rfl (hbytes byte mem_cons_self) (Nat.le_refl 1)
  rw [length_cons, Nat.add_comm]
  refine hfst.seq (fun u hu => hu ▸ h) fun u hu => ?_
  rw [hu]
  exact ih fun b hb => hbytes b (mem_cons_of_mem byte hb)

theorem within_putRawUtf8 (h : Utf8Bounded s) (hpart : ∀ b ∈ s.utf8, p ⟨.text, [b]⟩) :
    (putRawUtf8 s).Within
      (fun t => Utf8Bounded t ∧ t.lastGraphic = s.lastGraphic ∧ t.sequence = s.sequence) p
      Write.bytes (s.utf8.length + 0) :=
  (within_emitBytes ⟨h, rfl, rfl⟩ hpart).andThen fun t ht => within_done ⟨utf8Bounded_clear t, ht.2⟩

/-! ## One byte -/

theorem utf8Continuations_le (byte : UInt8) : utf8Continuations byte ≤ 3 := by
  unfold utf8Continuations
  split_ifs <;> decide

variable (hcommand : ∀ bytes, IsCommand (· ∈ consoleFinals) bytes → p ⟨.command, bytes⟩)
  (hlast : s.lastGraphic ≠ 0 → p ⟨.text, [s.lastGraphic]⟩)
  (hbyte : s.sequence = [] → byte ≠ esc → utf8Continuations byte = 0 → p ⟨.text, [byte]⟩)

include hcommand hlast hbyte

theorem within_plainByte (h : Utf8Bounded s) :
    (plainByte byte s).Within Utf8Bounded p Write.bytes 510 := by
  have hopen : Utf8Bounded { s with sequence := s.sequence ++ [byte] } := h.congr rfl rfl
  have hfinish : ∀ {e}, Obeys { s with sequence := s.sequence ++ [byte] } 510 e →
      (e.afterwards XtermToAmiga.closeSequence).Within Utf8Bounded p Write.bytes 510 := by
    intro e he
    have hclosed : (e.afterwards XtermToAmiga.closeSequence).Within Utf8Bounded _ Write.bytes 510 :=
      he.afterwards fun t hsame => h.congr hsame.utf8 hsame.utf8Needed
    refine hclosed.imp ?_
    rintro ⟨_ | _, w⟩ hsaid
    · obtain ⟨hne, rfl⟩ : s.lastGraphic ≠ 0 ∧ w = [s.lastGraphic] := hsaid
      exact hlast hne
    · exact hcommand w hsaid
  have hescape := hfinish (obeys_translateEscape _)
  refine within_ite (fun _ => ?_) fun hground => ?_
  · refine within_ite (fun _ => ?_) fun _ => ?_
    · exact within_ite (fun _ => within_done (h.congr rfl rfl)) fun _ =>
        within_ite (fun _ => within_done (h.congr rfl rfl)) fun _ =>
          within_ite (fun _ => hescape) fun _ => within_done hopen
    · exact within_ite (fun _ => hescape) fun _ =>
        within_ite (fun _ => hfinish (obeys_translateCsi _)) fun _ =>
          within_ite (fun _ => within_done (h.congr rfl rfl)) fun _ => within_done hopen
  · refine within_ite (fun _ => within_done (h.congr rfl rfl)) fun hesc => within_ite (fun hlead =>
      within_done ⟨utf8Continuations_le byte, Nat.pos_of_ne_zero hlead⟩) fun hlead => ?_
    exact (within_putChar h (hbyte (not_not.mp hground) hesc (not_not.mp hlead))).mono (by decide)

include htext

/-- **What a byte makes the translator do.** Commands are rows of whole commands that the console
implements. Text is a complete character in the console's terms, the character that CSI b repeats,
or bytes that are given back: those of a partial character, and the byte itself if it neither
belongs to a sequence nor begins a character. -/
theorem within_feedOutputByte (h : Utf8Bounded s) (hpart : ∀ b ∈ s.utf8, p ⟨.text, [b]⟩) :
    (feedOutputByte s byte).Within Utf8Bounded p Write.bytes 513 := by
  have hneeded := h.needed
  have hheld := h.held
  refine within_ite (fun _ => within_done ?_) fun _ => within_ite (fun _ => within_ite (fun _ =>
    within_ite (fun _ => (within_putUnicode htext _).mono (by decide)) fun hmore => within_done ?_)
      fun _ => ?_) fun _ => (within_plainByte hcommand hlast hbyte h).mono (by decide)
  · unfold oscByte
    split_ifs <;> exact h.congr rfl rfl
  · refine ⟨h.needed, ?_⟩
    show (s.utf8 ++ [byte]).length ≤ s.utf8Needed
    dsimp only at hmore
    rw [length_append, length_singleton] at hmore ⊢
    omega
  · -- the bytes of the partial character are given back, then the byte is handled
    refine ((within_putRawUtf8 h hpart).seq (fun t ht => ht.1) fun t ht => ?_).mono
      (by omega : _ + 510 ≤ 513)
    obtain ⟨hbounded, hgraphic, hseq⟩ := ht
    exact within_plainByte hcommand (hgraphic ▸ hlast) (hseq ▸ hbyte) hbounded

end Text

def Speaks (implements : UInt8 → Prop) (e : Translation) : Prop :=
  e.Writes fun w => w.origin = .command → IsCommand implements w.bytes

end AceShell.Terminal
