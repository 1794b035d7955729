import AceShell.Edit.OnLine

/-!
# The field of a line's number

After `type_numbered` in `edit.c`, which TL uses: the number is put right-aligned in a field of
eight bytes. One that `=` has set may be too long for it (`number_overruns_field`). The lines that
come are counted on from what `=` has set, or from one, so that a line's number is at most the
largest that was set and the number of lines read together (`numbered`). While this has eight
digits, every number fits and is shown as it is (`numbers_fit`).
-/

namespace AceShell.LineEditor

open Text Edit List Decimal

def fieldSize : ℕ := 8

/-- What `type_numbered` writes to the field. -/
def numberField (number : ℤ) : List UInt8 :=
  if 0 < number then
    let digits := (range 4).findIdx (fun k => number < 10 ^ (k + 1)) + 1
    replicate (5 - digits) 32 ++ print number.toNat
  else ascii "  +++"

theorem numberField_fits_iff (number : ℤ) :
    (numberField number).length ≤ fieldSize ↔ number < 10 ^ 8 := by
  unfold numberField fieldSize
  split_ifs with hpos
  · obtain ⟨n, rfl⟩ := Int.eq_ofNat_of_zero_le hpos.le
    rw [length_append, length_replicate, Int.toNat_natCast]
    generalize hfind : (range 4).findIdx (fun k => (n : ℤ) < 10 ^ (k + 1)) = digits
    have hle : digits ≤ 4 := hfind ▸ findIdx_le_length
    rcases hle.lt_or_eq with hlt | rfl
    · have hfound := (findIdx_eq (by simpa using hlt)).mp hfind
      have hsmall : n < 10 ^ (digits + 1) := by
        have hless : (n : ℤ) < 10 ^ (digits + 1) := by simpa using hfound.1
        exact_mod_cast hless
      have hprint := length_print_le (Nat.succ_pos _) hsmall
      have hpow : 10 ^ (digits + 1) ≤ 10 ^ 4 := Nat.pow_le_pow_right (by decide) hlt
      omega
    · have hlong := @lt_length_print 8 n
      have hshort := @length_print_le 8 n (by decide)
      omega
  · exact iff_of_true (by decide) (by omega)

/-- What `type_numbered` writes is in its field, and is the number. A line without one has `+++`. -/
structure Shown (number : ℤ) : Prop where
  fits : (numberField number).length ≤ fieldSize
  reads : 0 < number → value ((numberField number).dropWhile (· == 32)) = number

theorem shown_of_lt {number : ℤ} (h : number < 10 ^ 8) : Shown number := by
  refine ⟨(numberField_fits_iff number).mpr h, fun hpos => ?_⟩
  have hdigits : (print number.toNat).dropWhile (· == 32) = print number.toNat := by
    refine dropWhile_eq_self_iff.mpr fun hlong hblank => ?_
    have hdigit := isDigit_of_mem_print (getElem_mem hlong)
    rw [eq_of_beq hblank] at hdigit
    exact absurd hdigit (by decide)
  unfold numberField
  dsimp only
  rw [if_pos hpos, dropWhile_append_of_pos
    (fun _ hblank => beq_iff_eq.mpr (eq_of_mem_replicate hblank)), hdigits, value_print]
  exact Int.toNat_of_nonneg hpos.le

/-! ## The rule -/

/-- The next numbers to be given follow what `=` has set, or the lines read. -/
structure InSequence (top : ℕ) (e : Edit) : Prop where
  renumber : e.renumber ≤ top + e.taken.length + 1
  sources : ∀ s ∈ e.sources, s.nextNumber ≤ e.taken.length + 1

/-- A line has a number that is at most `top` and the number of lines read together. One that comes
for the first time may still be given the next number by `=`. -/
def numbered (top : ℕ) : Rule where
  line e line := line.processed = true ∧ line.number ≤ top + e.taken.length
  comes e line := (line.processed = true ∨ e.renumber ≤ top + e.taken.length) ∧
    line.number ≤ top + e.taken.length
  rest := InSequence top

variable {e e' : Edit} {line : Line} {top : ℕ}

theorem long_le {value : ℤ} (h : -2 ^ 31 ≤ value) : long value ≤ value := by
  unfold long
  rw [Int.bmod_def]
  split_ifs <;> omega

theorem InSequence.unmoved (hsame : Unmoved e e') (h : InSequence top e) : InSequence top e' where
  renumber := by
    have hold := h.renumber
    rw [hsame.taken]
    rcases hsame.renumber with heq | heq <;> omega
  sources s hs := by
    rw [hsame.taken]
    rcases hsame.sources s hs with hold | hnew
    · exact h.sources s hold
    · omega

theorem Brings.counts {s' : Source} (h : Brings e line s') : Counts e line s' := by
  cases h with
  | next _ _ _ _ hcounts => exact hcounts
  | phantom _ _ _ _ _ hcounts => exact hcounts

theorem InSequence.current (h : InSequence top e) :
    e.currentSource.nextNumber ≤ e.taken.length + 1 := by
  unfold currentSource
  rw [getD_eq_getElem?_getD]
  cases hat : e.sources[e.source]? with
  | none =>
    show (default : Source).nextNumber ≤ _
    have hdefault : (default : Source).nextNumber ≤ 1 := by decide
    omega
  | some s => exact h.sources s (mem_of_getElem? hat)

theorem length_taken (e : Edit) (ver : List Verification) (line : Line) (s' : Source) :
    ({ e with ver }.take line s').taken.length = e.taken.length + 1 := by
  exact length_append

theorem InSequence.taken (h : InSequence top e) {s' : Source} (ver : List Verification)
    (hcounts : Counts e line s') : InSequence top ({ e with ver }.take line s') := by
  have hlength := length_taken e ver line s'
  have hnow := h.current
  refine ⟨?_, fun s hs => ?_⟩
  · have hold := h.renumber
    show e.renumber ≤ _
    omega
  · rw [hlength]
    rcases mem_or_eq_of_mem_set hs with hold | rfl
    · have hsource := h.sources s hold
      omega
    · rw [hcounts.next]
      omega

/-- A line that arrives for the first time gets the next number, if `=` has set one. -/
theorem numbered_lineArrive (h : InSequence top e) (hline : (numbered top).comes e line) :
    InSequence top (e.lineArrive line).2 ∧
      (numbered top).line (e.lineArrive line).2 (e.lineArrive line).1 := by
  obtain ⟨hgiven, hnumber⟩ := hline
  have hsame : ∀ (renumber : ℤ) (globals : List Global), renumber ≤ top + e.taken.length + 1 →
      InSequence top { e with pointer := 0, renumber, globals } :=
    fun _ _ hrenumber => ⟨hrenumber, h.sources⟩
  unfold lineArrive
  dsimp only
  by_cases hproc : line.processed = true
  · rw [if_pos hproc]
    exact ⟨hsame _ _ h.renumber, hproc, hnumber⟩
  rw [if_neg hproc]
  have hlow := hgiven.resolve_left hproc
  by_cases hset : e.renumber > 0
  · rw [if_pos hset]
    have hnext := (@long_le (e.renumber + 1) (by omega)).trans (Int.add_le_add_right hlow 1)
    dsimp only
    split_ifs
    · exact ⟨hsame _ _ hnext, rfl, hlow⟩
    · exact ⟨⟨hnext, h.sources⟩, rfl, hlow⟩
  · rw [if_neg hset]
    dsimp only
    split_ifs
    · exact ⟨hsame _ _ h.renumber, rfl, hnumber⟩
    · exact ⟨⟨h.renumber, h.sources⟩, rfl, hnumber⟩

theorem lawful_numbered (top : ℕ) : (numbered top).Lawful where
  rest := InSequence.unmoved
  line hsame hline := ⟨hline.1, hsame.taken ▸ hline.2⟩
  comes hsame hline := by
    refine ⟨hline.1.imp_right fun hlow => ?_, hsame.taken ▸ hline.2⟩
    rw [hsame.taken]
    rcases hsame.renumber with heq | heq <;> omega
  known hline := ⟨.inl hline.1, hline.2⟩
  taken {e line s'} ver h hbrings := by
    have hcounts := hbrings.counts
    have hlength := length_taken e ver line s'
    have hnow := h.current
    have hrenumber := h.renumber
    refine ⟨h.taken ver hcounts, ⟨.inr ?_, ?_⟩, fun other hother => ⟨hother.1, ?_⟩⟩
    · show e.renumber ≤ _
      omega
    · rw [hcounts.number]
      omega
    · have hold := hother.2
      omega
  arrived {e line} h hline := by
    obtain ⟨hrest, hgiven⟩ := numbered_lineArrive h hline
    refine ⟨hrest, hgiven, fun other hother => ?_⟩
    obtain ⟨number, renumber, globals, ver, aborted, heq, -⟩ := lineArrive_eq e line
    rw [heq]
    exact hother
  fresh {e text} _ _ _ := ⟨rfl, by show (0 : ℤ) ≤ _; omega⟩
  text _ hline _ := hline

/-! ## Commands at the pointer -/

section Commands

variable {text : List UInt8} (h : (numbered top).Kept e)
include h

theorem numbered_touch (accesses : List Access) : (numbered top).Kept (e.touch accesses) :=
  ⟨⟨h.rest.renumber, h.rest.sources⟩, h.lines, h.typed⟩

theorem numbered_point (pointer : ℤ) : (numbered top).Kept { e with pointer } :=
  ⟨⟨h.rest.renumber, h.rest.sources⟩, h.lines, h.typed⟩

theorem numbered_setText (hcur : e.current = some line) (accesses : List Access)
    (text : List UInt8) : (numbered top).Kept ((e.touch accesses).setText line text) := by
  have hline := h.current hcur
  exact (lawful_numbered top).setCurrent (numbered_touch h accesses) hline

theorem numbered_verifyCurrent : (numbered top).Kept e.verifyCurrent :=
  (lawful_numbered top).verifyCurrent h

theorem numbered_atMatch {act : Line → List Access → ℕ → Edit}
    (hact : ∀ line accesses index, e.current = some line →
      (numbered top).Kept (act line accesses index)) :
    (numbered top).Kept (e.atMatch text act) := by
  unfold atMatch
  split
  · exact (lawful_numbered top).report h _
  rename_i line hcur
  generalize pointerFind line.text e.pointer text = outcome
  obtain ⟨accesses, _ | index⟩ := outcome
  · exact (lawful_numbered top).report (numbered_touch h accesses) _
  · exact hact line accesses index hcur

theorem numbered_recase (how : Recase) (count : ℤ) : (numbered top).Kept (e.recase how count) := by
  unfold recase
  split
  · exact (lawful_numbered top).report h _
  rename_i line hcur
  generalize recaseIn how count.toNat line.text e.pointer = outcome
  obtain ⟨accesses, text, pointer⟩ := outcome
  exact numbered_verifyCurrent (numbered_point (numbered_setText h hcur accesses text) pointer)

theorem numbered_erase (count : ℤ) : (numbered top).Kept (e.erase count) := by
  unfold erase
  split
  · exact (lawful_numbered top).report h _
  rename_i line hcur
  exact numbered_verifyCurrent (numbered_setText h hcur _ _)

theorem numbered_commandPointerString (after : Bool) :
    (numbered top).Kept (e.commandPointerString after text) :=
  numbered_atMatch h fun _ accesses _ _ => numbered_point (numbered_touch h accesses) _

theorem numbered_commandChange (type : GlobalType) (movePointer : Bool)
    (strings : Except String (List UInt8 × List UInt8)) :
    (numbered top).Kept (e.commandChange type movePointer strings) := by
  cases strings with
  | error message =>
    unfold commandChange
    split
    · exact (lawful_numbered top).report h _
    · exact (lawful_numbered top).report h _
  | ok strings =>
  obtain ⟨first, second⟩ := strings
  refine numbered_atMatch h fun line accesses index hcur => ?_
  dsimp only
  generalize changeAt _ type line.text index first second = changed
  obtain ⟨text, _ | _, pointer⟩ := changed
  · exact (lawful_numbered top).report (numbered_setText h hcur _ text) _
  refine numbered_verifyCurrent ?_
  have hset := numbered_setText h hcur (accesses ++ [⟨index, line.text.length, line.text.length⟩])
    text
  split_ifs
  · exact numbered_point hset pointer
  · exact hset

theorem numbered_commandDeleteWindow (from_ after : Bool) :
    (numbered top).Kept (e.commandDeleteWindow from_ after text) := by
  refine numbered_atMatch h fun line accesses index hcur => ?_
  exact numbered_verifyCurrent (numbered_setText h hcur _ _)

theorem numbered_commandSplit (after : Bool) :
    (numbered top).Kept (e.commandSplit after text) := by
  refine numbered_atMatch h fun line accesses index hcur => ?_
  have hline := h.current hcur
  refine (lawful_numbered top).sendHead ?_ hline ⟨rfl, ?_⟩
  · exact (lawful_numbered top).same (numbered_touch h _) rfl rfl
  · show (0 : ℤ) ≤ _
    omega

theorem numbered_setNumber {number : ℤ} (hpos : 0 ≤ number) (hle : number ≤ top) :
    (numbered top).Kept (e.setNumber number) := by
  have hnext := @long_le (number + 1) (by omega)
  refine ⟨⟨?_, h.rest.sources⟩, fun line hline => ?_, h.typed⟩
  · show long (number + 1) ≤ _
    omega
  rcases mem_held.mp hline with hqueue | hcur | hahead
  · exact h.lines line (mem_held.mpr (.inl hqueue))
  · obtain ⟨old, hold, rfl⟩ := Option.map_eq_some_iff.mp (Option.mem_toList.mp hcur)
    refine ⟨(h.current hold).1, ?_⟩
    show number ≤ top + e.taken.length
    omega
  · exact h.lines line (mem_held.mpr (.inr (.inr hahead)))

end Commands

/-! ## Sessions -/

def Order.sets : Order → Option ℤ
  | .renumber number => some number
  | _ => none

/-- A `=` that is executed next sets a number that is at most `top`. -/
def Session.Sets (top : ℕ) (s : Session) : Prop :=
  ∀ found ∈ s.next, ∀ number ∈ (readOrder found.2.1).1.sets, 0 ≤ number ∧ number ≤ top

instance (top : ℕ) (s : Session) : Decidable (s.Sets top) :=
  inferInstanceAs (Decidable (∀ found ∈ s.next, _))

variable {s : Session} {order : Order}

theorem numbered_act (h : (numbered top).Kept s.edit) (world : World) (repeating : Bool)
    (hsingle : order.single = true) (hsets : ∀ number ∈ order.sets, 0 ≤ number ∧ number ≤ top) :
    (numbered top).Kept (order.act world repeating s).edit := by
  refine (lawful_numbered top).act h world repeating hsingle fun hat => ?_
  cases order with
  | plain command =>
    cases command with
    | right count => exact numbered_point h _
    | left count => exact numbered_point h _
    | pointerReset => exact numbered_point h 0
    | pointerString after text => exact numbered_commandPointerString h after
    | _ => exact nomatch hat
  | renumber number => exact numbered_setNumber h (hsets number rfl).1 (hsets number rfl).2
  | recase how count => exact numbered_recase h how count
  | erase count => exact numbered_erase h count
  | change type movePointer strings text =>
    have hchange := numbered_commandChange h type movePointer strings
    unfold Order.act Session.saveCommand
    dsimp only
    split_ifs
    all_goals exact hchange
  | deleteWindow from_ after text => exact numbered_commandDeleteWindow h from_ after
  | split after text => exact numbered_commandSplit h after
  | _ => exact nomatch hat

theorem numbered_step (h : (numbered top).Kept s.edit) (world : World) (hsets : s.Sets top) :
    (numbered top).Kept (s.step world).edit := by
  unfold Session.step
  cases hnext : s.next with
  | none => exact (lawful_numbered top).turn h
  | some found =>
  obtain ⟨repeating, text, frames⟩ := found
  exact numbered_act (s := { s with frames := .text repeating (readOrder text).2 :: frames }) h
    world repeating (wellRead_readOrder text).single (hsets _ hnext)

/-- **Numbers are shown as they are as long as they are small.** In a session in which no `=` sets a
number above `top`, the number of each line fits its field and is what is shown there, as long as
`top` and the number of lines read so far have eight digits together. This is so for the lines in
the editor and for those that TL has typed. -/
theorem numbers_fit {world : World} {args : Arguments} {output : Option (List UInt8)} {task n : ℕ}
    {commands : List CommandFile} {breaks : List Bool}
    (h : Session.start world args output task commands breaks = some s)
    (hsets : ∀ m < n, (Session.run world m s).Sets top)
    (hread : top + (Session.run world n s).edit.taken.length < 10 ^ 8)
    (hline : line ∈ (Session.run world n s).edit.held ∨ line ∈ (Session.run world n s).edit.typed) :
    Shown line.number := by
  have hkept : ∀ m ≤ n, (numbered top).Kept (Session.run world m s).edit := by
    intro m
    induction m with
    | zero =>
      refine fun _ => (lawful_numbered top).start (fun content => ⟨?_, fun s hs => ?_⟩) h
      · show (0 : ℤ) ≤ top + 0 + 1
        omega
      · rw [mem_singleton.mp hs]
        exact le_rfl
    | succ m ih => exact fun hm => numbered_step (ih (Nat.le_of_succ_le hm)) world (hsets m hm)
  have hnumber := hline.elim ((hkept n le_rfl).lines line) ((hkept n le_rfl).typed line)
  refine shown_of_lt (hnumber.2.trans_lt ?_)
  exact_mod_cast hread

/-- The line gets a number of eight digits, and the one behind it the next. -/
theorem numbers_fit_cat : ∃ s, catSession "=99999990;TL;W\n" = some s ∧
    (Session.run catWorld 6 s).edit.typed.map Line.number = [99999990, 99999991] ∧
    ∀ line ∈ (Session.run catWorld 6 s).edit.typed, Shown line.number := by
  obtain ⟨s, hs⟩ := Option.isSome_iff_exists.mp (catSession_isSome "=99999990;TL;W\n")
  have hend : (catSession "=99999990;TL;W\n").map (fun s =>
      ((Session.run catWorld 6 s).edit.typed.map Line.number,
        (Session.run catWorld 6 s).edit.taken.length)) = some ([99999990, 99999991], 2) := by
    decide +kernel
  have hsets : (catSession "=99999990;TL;W\n").all (fun s => (range 6).all fun m =>
      (Session.run catWorld m s).Sets 99999990) = true := by
    decide +kernel
  rw [hs] at hend hsets
  obtain ⟨htyped, htaken⟩ := Prod.mk.inj (Option.some.inj hend)
  have hlow : ∀ m < 6, (Session.run catWorld m s).Sets 99999990 := fun m hm =>
    of_decide_eq_true (all_eq_true.mp hsets m (mem_range.mpr hm))
  refine ⟨s, hs, htyped, fun line hline => numbers_fit hs hlow ?_ (.inr hline)⟩
  rw [htaken]
  decide

/-- `=` sets the number of the line to one with nine digits. -/
theorem number_overruns_field : (catSession "=100000000\n").any fun s =>
    fieldSize < (numberField (Session.run catWorld 2 s).edit.currentNumber).length := by
  decide +kernel

end AceShell.LineEditor
