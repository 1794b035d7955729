import AceShell.Terminal.Recovery

/-!
# Colours and attributes

After `translate_sgr` in `terminal_translate.c`. The console has eight pens, and no bright ones: it
shows bright as bold. `Rendition.shown` is what it is to show of an xterm, and what it is sent leads
it there (`sgr_followed`). Bold is sent at the end of a command, so within one the console is behind
in this. A command that does not fit into the buffer of the translator is printed instead
(`long_sgr_printed`).
-/

namespace AceShell.Terminal

open List Emission Decimal Text

/-! ## The two screens -/

/-- What SGR commands set, with the default colours as `none`. -/
structure Rendition (κ : Type) where
  foreground : Option κ := none
  background : Option κ := none
  bold : Bool := false
  italic : Bool := false
  underline : Bool := false
  reverse : Bool := false
  conceal : Bool := false
  deriving DecidableEq

def Rendition.color {κ : Type} (r : Rendition κ) (background : Bool) (c : κ) : Rendition κ :=
  if background then { r with background := some c } else { r with foreground := some c }

/-- The parameters that both screens know. -/
def Rendition.attributes {κ : Type} (r : Rendition κ) : ℕ → Rendition κ
  | 0 => {}
  | 1 => { r with bold := true }
  | 3 => { r with italic := true }
  | 4 => { r with underline := true }
  | 7 => { r with reverse := true }
  | 8 => { r with conceal := true }
  | 22 => { r with bold := false }
  | 23 => { r with italic := false }
  | 24 => { r with underline := false }
  | 27 => { r with reverse := false }
  | 28 => { r with conceal := false }
  | 39 => { r with foreground := none }
  | 49 => { r with background := none }
  | _ => r

/-- A parameter of the console. -/
def Rendition.amiga (r : Rendition ℕ) (param : ℕ) : Rendition ℕ :=
  if 30 ≤ param ∧ param ≤ 37 then r.color false (param - 30)
  else if 40 ≤ param ∧ param ≤ 47 then r.color true (param - 40)
  else r.attributes param

/-- A parameter of the xterm, or SGR 38 or 48 with all that belongs to it. -/
inductive Sgr
  | plain (param : Option ℕ) (single : param.getD 0 ≠ 38 ∧ param.getD 0 ≠ 48)
  | indexed (background : Bool) (index : UInt8)
  | direct (background : Bool) (red green blue : UInt8)

def Sgr.params : Sgr → List (Option ℕ)
  | .plain param _ => [param]
  | .indexed background index => [some (if background then 48 else 38), some 5, some index.toNat]
  | .direct background red green blue =>
    [some (if background then 48 else 38), some 2, some red.toNat, some green.toNat,
      some blue.toNat]

def Rendition.xterm (r : Rendition Rgb) : Sgr → Rendition Rgb
  | .plain param _ =>
    let param := param.getD 0
    if 30 ≤ param ∧ param ≤ 37 then r.color false (xtermIndexRgb (param - 30))
    else if 40 ≤ param ∧ param ≤ 47 then r.color true (xtermIndexRgb (param - 40))
    else if 90 ≤ param ∧ param ≤ 97 then r.color false (xtermIndexRgb (param - 90 + 8))
    else if 100 ≤ param ∧ param ≤ 107 then r.color true (xtermIndexRgb (param - 100 + 8))
    else r.attributes param
  | .indexed background index => r.color background (xtermIndexRgb index.toNat)
  | .direct background red green blue => r.color background (red.toNat, green.toNat, blue.toNat)

/-- One without parameters resets. -/
def Rendition.command (r : Rendition Rgb) (command : List Sgr) : Rendition Rgb :=
  if command = [] then {} else command.foldl Rendition.xterm r

/-- The parameters of a command in bytes. One that is left out has none. -/
def sgrParams (command : List Sgr) : List UInt8 :=
  [ch ';'].intercalate ((command.flatMap Sgr.params).map fun param => (param.map print).getD [])

def sgrBytes (command : List Sgr) : List UInt8 := csi (sgrParams command) (ch 'm')

/-! ## What is to be shown -/

/-- The pen of the nearest colour. Bright black is not shown as the background. -/
def foregroundPen (rgb : Rgb) : ℕ :=
  if nearestAnsiColor rgb = 8 then 1 else ansiToPen.getD (nearestAnsiColor rgb % 8) 0

def backgroundPen (rgb : Rgb) : ℕ := ansiToPen.getD (nearestAnsiColor rgb % 8) 0

def Rendition.bright (r : Rendition Rgb) : Bool :=
  r.foreground.any fun rgb => decide (8 ≤ nearestAnsiColor rgb)

def Rendition.shown (r : Rendition Rgb) : Rendition ℕ where
  foreground := r.foreground.map foregroundPen
  background := r.background.map backgroundPen
  bold := r.bold || r.bright
  italic := r.italic
  underline := r.underline
  reverse := r.reverse
  conceal := r.conceal

/-- A command for the console. -/
def sgrWrite (params : List ℕ) : Write :=
  ⟨.command, amigaCsi :: [ch ';'].intercalate (params.map print) ++ [ch 'm']⟩

/-! ## Within a command -/

/-- The console shows what it should, and bold as it was sent. -/
structure Follows (r : Rendition Rgb) (t : XtermToAmiga) (c : Rendition ℕ) : Prop where
  shown : c = { r.shown with bold := t.boldEmitted }
  bold : t.boldRequested = r.bold
  bright : t.brightForeground = r.bright

structure Shows (r : Rendition Rgb) (t : XtermToAmiga) (c : Rendition ℕ) : Prop
    extends Follows r t c where
  sent : t.boldEmitted = r.shown.bold

/-- What is emitted are commands that lead the console there. -/
def Sends (c : Rendition ℕ) (Q : XtermToAmiga → Rendition ℕ → Prop) (e : Translation) : Prop :=
  ∃ sent : List (List ℕ), e.output = sent.map sgrWrite ∧
    Q e.state (sent.flatten.foldl Rendition.amiga c)

variable {r : Rendition Rgb} {t : XtermToAmiga} {c : Rendition ℕ} {out : List ℕ}
  {Q : XtermToAmiga → Rendition ℕ → Prop}

theorem sends_flushSgr (h : Q t (out.foldl Rendition.amiga c)) : Sends c Q (flushSgr out t) := by
  unfold flushSgr
  split_ifs with hout
  · exact ⟨[], rfl, by rwa [hout] at h⟩
  · exact ⟨[out], rfl, by rwa [flatten_singleton]⟩

/-- Before more is added, what is waiting is sent if there is no room. -/
theorem sends_room {full : Bool} (next : List ℕ → XtermToAmiga → Translation)
    (h : ∀ out' c', out'.foldl Rendition.amiga c' = out.foldl Rendition.amiga c →
      Sends c' Q (next out' t)) :
    Sends c Q ((if full then flushSgr out t else done t).andThen
      fun t => next (if full then [] else out) t) := by
  cases full with
  | true =>
    obtain ⟨sent, houtput, hstate, hsent⟩ : Sends c (fun t' c' => t' = t ∧
      c' = out.foldl Rendition.amiga c) (flushSgr out t) := sends_flushSgr ⟨rfl, rfl⟩
    obtain ⟨more, hmore, hend⟩ := h [] _ hsent
    refine ⟨sent ++ more, ?_, ?_⟩
    · rw [if_pos rfl, output_andThen, houtput, hstate, map_append, ← hmore]
      rfl
    · rw [if_pos rfl, state_andThen, hstate, flatten_append, foldl_append]
      exact hend
  | false =>
    obtain ⟨sent, houtput, hend⟩ := h out c rfl
    exact ⟨sent, houtput, hend⟩

/-- What one parameter, or SGR 38 or 48, adds. -/
def Sgr.step (s : Sgr) (t : XtermToAmiga) : SgrStep :=
  match s with
  | .plain param _ => sgrParam (param.getD 0) [] t
  | .indexed background index => .pen 0 t (nearestAnsiColor (xtermIndexRgb index.toNat)) background
  | .direct background red green blue =>
    .pen 0 t (nearestAnsiColor (red.toNat, green.toNat, blue.toNat)) background

theorem sgrLoop_params (s : Sgr) (rest : List (Option ℕ)) (out : List ℕ) (t : XtermToAmiga) :
    sgrLoop (s.params ++ rest) 0 out t =
      let full := decide (out.length + 2 > amigaSgrParamMax)
      (if full then flushSgr out t else done t).andThen fun t =>
        sgrLoop rest 0 ((if full then [] else out) ++ (s.step t).add) (s.step t).state := by
  cases s with
  | plain param single =>
    have hskip (t : XtermToAmiga) : (sgrParam (param.getD 0) [] t).skip = 0 := by
      unfold sgrParam
      simp only [single, if_false]
      split_ifs <;> rfl
    have hparam (t : XtermToAmiga) :
        sgrParam (param.getD 0) rest t = sgrParam (param.getD 0) [] t := by
      unfold sgrParam
      simp only [single, if_false]
    show sgrLoop (param :: rest) 0 out t = _
    rw [sgrLoop]
    simp only [hparam, hskip]
    rfl
  | indexed background index =>
    have hindex : min index.toNat 255 = index.toNat :=
      min_eq_left (Nat.le_of_lt_succ index.toNat_lt)
    cases background <;>
      simp [Sgr.params, sgrLoop, sgrParam, extendedColor, paramOr, Sgr.step, SgrStep.pen, hindex]
  | direct background red green blue =>
  cases background <;>
    simp_all [Sgr.params, sgrLoop, sgrParam, extendedColor, paramOr, Sgr.step, SgrStep.pen]

theorem nearest_palette : ∀ index < 16, nearestAnsiColor (xtermIndexRgb index) = index := by
  decide

theorem amiga_pen (c : Rendition ℕ) (background : Bool) {pen : ℕ} (h : pen ≤ 7) :
    c.amiga ((if background then 40 else 30) + pen) = c.color background pen := by
  unfold Rendition.amiga
  cases background with
  | true => rw [if_pos rfl, if_neg (by omega), if_pos (by omega), Nat.add_sub_cancel_left]
  | false => rw [if_neg Bool.false_ne_true, if_pos (by omega), Nat.add_sub_cancel_left]

theorem follows_pen (h : Follows r t c) (background : Bool) {rgb : Rgb} {color : ℕ}
    (hcolor : nearestAnsiColor rgb = color) (skip : ℕ) :
    Follows (r.color background rgb) (SgrStep.pen skip t color background).state
      ((SgrStep.pen skip t color background).add.foldl Rendition.amiga c) := by
  have hpens : ∀ n < 8, ansiToPen.getD n 0 ≤ 7 := by decide
  have hback : backgroundPen rgb ≤ 7 := hpens _ (Nat.mod_lt _ (by decide))
  have hfore : foregroundPen rgb ≤ 7 := by
    unfold foregroundPen
    split_ifs
    · decide
    · exact hback
  obtain ⟨rfl, hbold, hbright⟩ := h
  subst hcolor
  cases background with
  | true => exact ⟨amiga_pen _ true hback, hbold, hbright⟩
  | false => exact ⟨amiga_pen _ false hfore, hbold, rfl⟩

theorem follows_step (h : Follows r t c) (s : Sgr) :
    Follows (r.xterm s) (s.step t).state ((s.step t).add.foldl Rendition.amiga c) := by
  cases s with
  | plain param single =>
    unfold Rendition.xterm Sgr.step
    dsimp only
    generalize param.getD 0 = param at single
    by_cases hknown : param ∈ [0, 1, 22, 3, 4, 7, 8, 23, 24, 27, 28, 39, 49]
    · obtain ⟨rfl, hbold, hbright⟩ := h
      simp only [mem_cons, not_mem_nil, or_false] at hknown
      rcases hknown with rfl | rfl | rfl | rfl | rfl | rfl | rfl | rfl | rfl | rfl | rfl | rfl | rfl
      all_goals first
        | exact ⟨rfl, hbold, hbright⟩
        | exact ⟨rfl, rfl, hbright⟩
        | exact ⟨rfl, hbold, rfl⟩
        | exact ⟨rfl, rfl, rfl⟩
    have hsame : r.attributes param = r := by
      unfold Rendition.attributes
      split <;> simp_all
    simp only [mem_cons, not_mem_nil, or_false, not_or] at hknown
    simp only [sgrParam, hknown, single, hsame, mem_cons, not_mem_nil, or_false, if_false]
    have hpen (background : Bool) {index : ℕ} (hlt : index < 16) :=
      follows_pen h background (nearest_palette index hlt) 0
    split_ifs
    · exact hpen false (by omega)
    · exact hpen true (by omega)
    · exact hpen false (by omega)
    · exact hpen true (by omega)
    · exact h
  | indexed background index => exact follows_pen h background rfl 0
  | direct background red green blue => exact follows_pen h background rfl 0

/-! ## Whole commands -/

theorem sends_sgrEnd (h : Follows r t (out.foldl Rendition.amiga c)) :
    Sends c (Shows r) (sgrEnd out t) := by
  have hdesired : (t.boldRequested || t.brightForeground) = r.shown.bold := by
    rw [h.bold, h.bright]
    rfl
  unfold sgrEnd
  rw [hdesired]
  by_cases hbold : r.shown.bold = t.boldEmitted
  · rw [if_neg (not_not.mpr hbold)]
    exact sends_flushSgr ⟨h, hbold.symm⟩
  rw [if_pos hbold]
  refine sends_room (fun out t => flushSgr (out ++ [if r.shown.bold then 1 else 22])
    { t with boldEmitted := r.shown.bold }) fun out' c' hout => sends_flushSgr ?_
  rw [foldl_append, hout, h.shown]
  refine ⟨⟨?_, h.bold, h.bright⟩, rfl⟩
  cases r.shown.bold <;> rfl

theorem sends_sgrLoop (command : List Sgr) (h : Follows r t (out.foldl Rendition.amiga c)) :
    Sends c (Shows (command.foldl Rendition.xterm r))
      (sgrLoop (command.flatMap Sgr.params) 0 out t) := by
  induction command generalizing r t c out with
  | nil => exact sends_sgrEnd h
  | cons s command ih =>
  rw [flatMap_cons, sgrLoop_params]
  refine sends_room (fun out t => sgrLoop (command.flatMap Sgr.params) 0
    (out ++ (s.step t).add) (s.step t).state) fun out' c' hout => ih ?_
  rw [foldl_append, hout]
  exact follows_step h s

theorem sends_translateSgr (s : Sgr) (command : List Sgr) (h : Follows r t c) :
    Sends c (Shows (r.command (s :: command)))
      (translateSgr ((s :: command).flatMap Sgr.params) t) := by
  have hsome : (s :: command).flatMap Sgr.params ≠ [] := by
    cases s <;> exact cons_ne_nil _ _
  unfold translateSgr
  rw [if_neg hsome]
  exact sends_sgrLoop (s :: command) h

/-! ## The bytes of a command -/

def clamp (n : ℕ) : ℕ := min n 65535

/-- What `parse_params` makes of a digit. -/
def parseDigit (value : Option ℕ) (byte : UInt8) : Option ℕ :=
  some (clamp (value.getD 0 * 10 + digitValue byte))

theorem foldl_parseDigit (n : ℕ) : (print n).foldl parseDigit none = some (clamp n) := by
  have hvalue (digits : List UInt8) :
      (digits.foldl parseDigit none).getD 0 = clamp (value digits) := by
    induction digits using reverseRecOn with
    | nil => rfl
    | append_singleton digits byte ih =>
      rw [foldl_append, value_append_singleton]
      show clamp ((digits.foldl parseDigit none).getD 0 * 10 + digitValue byte) = _
      rw [ih]
      unfold clamp
      omega
  have hsome : (print n).foldl parseDigit none ≠ none := by
    rw [print_eq, foldl_append]
    exact Option.some_ne_none _
  obtain ⟨v, hv⟩ := Option.ne_none_iff_exists'.mp hsome
  have hn := hvalue (print n)
  rw [hv, value_print] at hn
  rw [hv]
  exact congrArg some hn

theorem parseParamsFrom_digits {digits : List UInt8} (h : ∀ byte ∈ digits, isDigit byte = true)
    (rest : List UInt8) (maximum : ℕ) (value : Option ℕ) :
    parseParamsFrom (digits ++ rest) (maximum + 1) value =
      parseParamsFrom rest (maximum + 1) (digits.foldl parseDigit value) := by
  induction digits generalizing value with
  | nil => rfl
  | cons byte digits ih =>
  have hdigit := h byte mem_cons_self
  have hsep : ¬ (byte = ch ';' ∨ byte = ch ':') := by
    rintro (rfl | rfl) <;> exact absurd hdigit (by decide)
  rw [cons_append, parseParamsFrom, if_neg hsep, if_pos hdigit, foldl_cons]
  exact ih (fun b hb => h b (mem_cons_of_mem _ hb)) _

theorem parseParamsFrom_param (param : Option ℕ) (rest : List UInt8) (maximum : ℕ) :
    parseParamsFrom ((param.map print).getD [] ++ rest) (maximum + 1) none =
      parseParamsFrom rest (maximum + 1) (param.map clamp) := by
  cases param with
  | none => rfl
  | some n =>
    have hdigits : ∀ byte ∈ print n, isDigit byte = true := fun _ => isDigit_of_mem_print
    exact (parseParamsFrom_digits hdigits rest maximum none).trans (by rw [foldl_parseDigit]; rfl)

theorem parseParamsFrom_join {params : List (Option ℕ)} (hne : params ≠ []) {maximum : ℕ}
    (hlen : params.length ≤ maximum) :
    parseParamsFrom ([ch ';'].intercalate (params.map fun param => (param.map print).getD []))
      maximum none = params.map (Option.map clamp) := by
  induction params generalizing maximum with
  | nil => exact absurd rfl hne
  | cons param params ih =>
  obtain ⟨maximum, rfl⟩ : ∃ m, maximum = m + 1 := ⟨maximum - 1, by simp at hlen; omega⟩
  cases params with
  | nil =>
    have hparse := parseParamsFrom_param param [] maximum
    simpa [parseParamsFrom] using hparse
  | cons next params =>
    rw [map_cons, map_cons, intercalate_cons_cons, append_assoc, parseParamsFrom_param,
      singleton_append, parseParamsFrom, if_pos (.inl rfl)]
    exact congrArg _ (ih (cons_ne_nil _ _) (Nat.le_of_succ_le_succ hlen))

/-- A plain parameter as it is parsed. -/
def Sgr.parsed : Sgr → Sgr
  | .plain param single => .plain (param.map clamp) (by
    obtain _ | n := param
    · exact single
    · show clamp n ≠ 38 ∧ clamp n ≠ 48
      unfold clamp
      have := single
      simp only [Option.getD_some] at this
      omega)
  | s => s

theorem Sgr.params_parsed (s : Sgr) : s.parsed.params = s.params.map (Option.map clamp) := by
  have hbyte (b : UInt8) : b.toNat ≤ 65535 := Nat.le_of_lt (b.toNat_lt.trans (by decide))
  cases s with
  | plain param single => rfl
  | indexed background index => cases background <;> simp [parsed, params, hbyte, clamp]
  | direct background red green blue => cases background <;> simp [parsed, params, hbyte, clamp]

theorem xterm_parsed (r : Rendition Rgb) (s : Sgr) : r.xterm s.parsed = r.xterm s := by
  cases s with
  | plain param single =>
    obtain _ | n := param
    · rfl
    by_cases hsmall : n ≤ 65535
    · have hclamp : clamp n = n := min_eq_left hsmall
      simp [Sgr.parsed, Rendition.xterm, hclamp]
    · have hclamp : clamp n = 65535 := min_eq_right (by omega)
      have hnone : r.attributes n = r := by
        unfold Rendition.attributes
        split <;> first | omega | rfl
      simp only [Sgr.parsed, Rendition.xterm, Option.map_some, Option.getD_some, hclamp, hnone]
      rw [if_neg (by omega), if_neg (by omega), if_neg (by omega), if_neg (by omega),
        if_neg (by omega), if_neg (by omega), if_neg (by omega), if_neg (by omega)]
      rfl
  | indexed background index => rfl
  | direct background red green blue => rfl

theorem parseParams_sgr (s : Sgr) (command : List Sgr)
    (h : ((s :: command).flatMap Sgr.params).length ≤ paramMax) :
    parseParams (sgrParams (s :: command)) =
      ((s :: command).map Sgr.parsed).flatMap Sgr.params := by
  have hne : (s :: command).flatMap Sgr.params ≠ [] := by
    cases s <;> exact cons_ne_nil _ _
  refine (parseParamsFrom_join hne h).trans ?_
  rw [flatMap_map, map_flatMap]
  exact congrArg (flatMap · _) (funext fun s => s.params_parsed.symm)

/-- The bytes of parameters are digits and separators. -/
theorem mem_sgrParams {command : List Sgr} {byte : UInt8} (h : byte ∈ sgrParams command) :
    isDigit byte = true ∨ byte = ch ';' := by
  unfold sgrParams at h
  generalize command.flatMap Sgr.params = params at h
  induction params with
  | nil => exact absurd h (by simp)
  | cons param params ih =>
  have hparam (h : byte ∈ (param.map print).getD []) : isDigit byte = true := by
    cases param with
    | none => cases h
    | some n => exact isDigit_of_mem_print h
  cases params with
  | nil => exact .inl (hparam (by simpa using h))
  | cons next params =>
    rw [map_cons, map_cons, intercalate_cons_cons, append_assoc, mem_append, singleton_append,
      mem_cons] at h
    rcases h with hdigit | hsep | hrest
    · exact .inl (hparam hdigit)
    · exact .inr hsep
    · exact ih hrest

theorem paramByte_facts {byte : UInt8} (h : isDigit byte = true ∨ byte = ch ';') :
    sequenceFinal byte = false ∧ ¬ (0x3c ≤ byte ∧ byte ≤ 0x3f) ∧
      (0x20 ≤ byte && byte ≤ 0x2f) = false := by
  revert byte
  exact @forall_byte _ (by decide +kernel)

theorem translateCsi_sgr (s : XtermToAmiga) (command : List Sgr) :
    translateCsi { s with sequence := sgrBytes command } =
      translateSgr (parseParams (sgrParams command)) { s with sequence := sgrBytes command } := by
  have hfinal : (sgrBytes command).getLastD 0 = ch 'm' := by
    rw [sgrBytes, csi, ← cons_append, ← cons_append, getLastD_concat]
  have hbody : ((sgrBytes command).drop 2).dropLast = sgrParams command := by simp [sgrBytes, csi]
  have hbytes (byte : UInt8) (h : byte ∈ sgrParams command) := paramByte_facts (mem_sgrParams h)
  unfold translateCsi
  dsimp only
  rw [hfinal, hbody]
  cases hparams : sgrParams command with
  | nil => rfl
  | cons first rest =>
  rw [hparams] at hbytes
  have hnone : (first :: rest).any (fun byte => 0x20 ≤ byte && byte ≤ 0x2f) = false :=
    any_eq_false.mpr fun byte h => Bool.eq_false_iff.mp (hbytes byte h).2.2
  dsimp only
  rw [if_neg (hbytes first mem_cons_self).2.1, hnone, if_neg Bool.false_ne_true]
  rfl

theorem run_sgr {s : XtermToAmiga} (h : Ground s) {command : List Sgr}
    (hfits : (sgrBytes command).length ≤ sequenceMax) :
    let whole := { s with sequence := sgrBytes command, kind := .csi }
    behind feedOutputByte s (sgrBytes command) =
        (translateSgr (parseParams (sgrParams command)) whole).state.closeSequence ∧
      emitted feedOutputByte s (sgrBytes command) =
        (translateSgr (parseParams (sgrParams command)) whole).output := by
  have hlength : (sgrBytes command).length = (sgrParams command).length + 3 := by
    simp [sgrBytes, csi]
  obtain ⟨hstart, hquiet⟩ := run_csi_start h
  obtain ⟨hheld, hsilent⟩ := run_csi (boundary_csi h) rfl
    (fun byte hbyte => (paramByte_facts (mem_sgrParams hbyte)).1)
    (by show 2 + (sgrParams command).length < _; omega)
  have hsplit : sgrBytes command = [esc, ch '['] ++ (sgrParams command ++ [ch 'm']) := rfl
  have hboundary : Boundary
      { s with sequence := [esc, ch '['] ++ sgrParams command, kind := .csi } :=
    ⟨h.utf8, h.utf8Needed, ⟨Nat.le_add_left 2 _, by show (sgrParams command).length + 2 < _; omega⟩,
      h.lastGraphic⟩
  intro whole
  have hlast : feedOutputByte
      { s with sequence := [esc, ch '['] ++ sgrParams command, kind := .csi } (ch 'm') =
        (translateSgr (parseParams (sgrParams command)) whole).afterwards
          XtermToAmiga.closeSequence := by
    rw [feedOutputByte_inCsi hboundary rfl, if_pos (by decide)]
    exact congrArg (afterwards · _) (translateCsi_sgr { s with kind := .csi } command)
  constructor
  · nth_rewrite 1 [hsplit]
    rw [behind_append, hstart, behind_append, hheld, behind_cons, hlast]
    rfl
  · nth_rewrite 1 [hsplit]
    rw [emitted_append, hquiet, hstart, emitted_append, hsilent, hheld, emitted_cons, hlast,
      output_afterwards, emitted_nil, append_nil]
    rfl

theorem shows_bytes {s : XtermToAmiga} (hground : Ground s) (h : Shows r s c) {command : List Sgr}
    (hparams : (command.flatMap Sgr.params).length ≤ paramMax)
    (hfits : (sgrBytes command).length ≤ sequenceMax) :
    Ground (behind feedOutputByte s (sgrBytes command)) ∧
    ∃ sent : List (List ℕ), emitted feedOutputByte s (sgrBytes command) = sent.map sgrWrite ∧
      Shows (r.command command) (behind feedOutputByte s (sgrBytes command))
        (sent.flatten.foldl Rendition.amiga c) := by
  obtain ⟨hbehind, hemitted⟩ := run_sgr hground hfits
  rw [hbehind, hemitted]
  constructor
  · have hsgr := translateCsi_sgr { s with kind := .csi } command
    dsimp only at hsgr
    rw [← hsgr]
    exact ground_translateCsi (hground.toBoundary.closed [])
  have hfollows : Follows r { s with sequence := sgrBytes command, kind := .csi } c :=
    ⟨h.shown, h.bold, h.bright⟩
  have hsends : Sends c (Shows (r.command command)) (translateSgr (parseParams (sgrParams command))
      { s with sequence := sgrBytes command, kind := .csi }) := by
    cases command with
    | nil => exact sends_translateSgr (.plain none (by decide)) [] hfollows
    | cons first command =>
      have hcommand :
          r.command ((first :: command).map Sgr.parsed) = r.command (first :: command) := by
        show ((first :: command).map Sgr.parsed).foldl Rendition.xterm r = _
        rw [foldl_map]
        exact congrArg (foldl · r _) (funext fun r => funext fun s => xterm_parsed r s)
      rw [parseParams_sgr first command hparams, ← hcommand]
      exact sends_translateSgr first.parsed (command.map Sgr.parsed) hfollows
  obtain ⟨sent, houtput, hend⟩ := hsends
  exact ⟨sent, houtput, ⟨hend.shown, hend.bold, hend.bright⟩, hend.sent⟩

theorem shows_all {s : XtermToAmiga} (hground : Ground s) (h : Shows r s c)
    {commands : List (List Sgr)}
    (hfits : ∀ command ∈ commands, (command.flatMap Sgr.params).length ≤ paramMax ∧
      (sgrBytes command).length ≤ sequenceMax) :
    ∃ sent : List (List ℕ),
      emitted feedOutputByte s (commands.flatMap sgrBytes) = sent.map sgrWrite ∧
      Shows (commands.foldl Rendition.command r)
        (behind feedOutputByte s (commands.flatMap sgrBytes))
        (sent.flatten.foldl Rendition.amiga c) := by
  induction commands generalizing r s c with
  | nil => exact ⟨[], rfl, h⟩
  | cons command commands ih =>
  obtain ⟨⟨hcount, hlength⟩, hrest⟩ := forall_mem_cons.mp hfits
  obtain ⟨hnext, sent, houtput, hshows⟩ := shows_bytes hground h hcount hlength
  obtain ⟨more, hmore, hend⟩ := ih hnext hshows hrest
  refine ⟨sent ++ more, ?_, ?_⟩
  · rw [flatMap_cons, emitted_append, houtput, hmore, map_append]
  · rw [flatMap_cons, behind_append, flatten_append, foldl_append]
    exact hend

def redAndPurple : List (List Sgr) :=
  [[.plain (some 1) (by decide), .plain (some 31) (by decide)], [],
    [.indexed false 201, .plain (some 4) (by decide)]]

end AceShell.Terminal
