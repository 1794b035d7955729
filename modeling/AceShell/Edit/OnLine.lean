import AceShell.Edit.Pointer

/-!
# The pointer along a session

Each command keeps the lines and the pointer in order (`steady_act`), apart from a `>` that takes
the pointer past the largest `LONG` and a search for a string whose end would be past it. These two
leave the line at once. So along a session, the pointer is on the line exactly if neither happens
(`pointer_on_line_iff`).
-/

namespace AceShell.LineEditor

open Text Edit List Option

/-! ## Commands at the pointer -/

variable {line : Line} {text : List UInt8}

section Orders

variable {e : Edit}

def Reachable (e : Edit) (text : List UInt8) : Prop :=
  e.current ≠ none → text ≠ [] → e.pointer + text.length < 2 ^ 31

variable (h : Steady e)
include h

theorem Steady.verifyCurrent : Steady e.verifyCurrent := lawful_fitting.verifyCurrent h

theorem Steady.searches (hcur : e.current = some line) (hreach : Reachable e text) :
    Searches line.text text e.pointer (pointerFind line.text e.pointer text) :=
  searches_pointerFind ((h.current hcur).trans h.rest.bounded) h.rest.nonneg
    (hreach (hcur ▸ some_ne_none line))

theorem Steady.setText (htext : text.length ≤ e.capacity) : Steady (e.setText line text) :=
  lawful_fitting.setCurrent h htext

/-- A command that does something at the place of a match, and reports that there is none. -/
def Edit.atMatch (e : Edit) (text : List UInt8) (act : Line → List Access → ℕ → Edit) : Edit :=
  match e.current with
  | none => e.report "No current line"
  | some line =>
    match pointerFind line.text e.pointer text with
    | (accesses, none) => (e.touch accesses).report "No match"
    | (accesses, some index) => act line accesses index

theorem steady_atMatch (hreach : Reachable e text) {act : Line → List Access → ℕ → Edit}
    (hact : ∀ line accesses index, line.text.length ≤ e.capacity →
      (∀ access ∈ accesses, access.onLine = true) → index + text.length ≤ line.text.length →
      Steady (act line accesses index)) : Steady (e.atMatch text act) := by
  unfold atMatch
  split
  · exact h.report _
  rename_i line hcur
  have hsearch := h.searches hcur hreach
  generalize pointerFind line.text e.pointer text = outcome at hsearch ⊢
  obtain ⟨accesses, _ | index⟩ := outcome
  · exact (h.touch hsearch.onLine).report _
  · exact hact line accesses index (h.current hcur) hsearch.onLine (hsearch.found index rfl).1

theorem Steady.touchRest {accesses : List Access}
    (honLine : ∀ access ∈ accesses, access.onLine = true) (place length : ℕ) :
    Steady (e.touch (accesses ++ [⟨place, length, length⟩])) :=
  h.touch (forall_mem_append.mpr ⟨honLine,
    forall_mem_singleton.mpr (onLine_iff.mpr ⟨Int.natCast_nonneg place, le_rfl⟩)⟩)

theorem steady_recase (how : Recase) (count : ℤ) : Steady (e.recase how count) := by
  unfold recase
  split
  · exact h.report _
  rename_i line hcur
  have hroom : line.text.length ≤ e.capacity := h.current hcur
  have hbounded := h.rest.bounded
  have hrecased : Recased line.text e.pointer (recaseIn how count.toNat line.text e.pointer) :=
    recased_recaseIn how count.toNat h.rest.nonneg
  generalize recaseIn how count.toNat line.text e.pointer = outcome at hrecased ⊢
  obtain ⟨accesses, text, pointer⟩ := outcome
  have hlen : text.length = line.text.length := hrecased.length_eq
  have hsmall : pointer ≤ max e.pointer line.text.length := hrecased.small
  have htext : Steady ((e.touch accesses).setText line text) :=
    (h.touch hrecased.onLine).setText (hlen.trans_le hroom)
  refine (htext.point hrecased.nonneg ?_).verifyCurrent
  have hpointer := h.rest.small
  show pointer < 2 ^ 31
  omega

theorem steady_erase (count : ℤ) : Steady (e.erase count) := by
  unfold erase
  split
  · exact h.report _
  rename_i line hcur
  obtain ⟨honLine, hlen⟩ :
      (∀ access ∈ (pointerDelete line.text e.pointer count).1, access.onLine = true) ∧
        (pointerDelete line.text e.pointer count).2.length ≤ line.text.length :=
    pointerDelete_spec h.rest.nonneg
  exact ((h.touch honLine).setText (hlen.trans (h.current hcur))).verifyCurrent

theorem steady_commandPointerString (after : Bool) (hreach : Reachable e text)
    : Steady (e.commandPointerString after text) := by
  refine steady_atMatch h hreach fun line accesses index hroom honLine hfits => ?_
  have hbounded := h.rest.bounded
  refine (h.touch honLine).point ?_ ?_
  · split_ifs <;> omega
  · split_ifs <;> omega

omit h in
theorem changeAt_spec {capacity index : ℕ} {line first second : List UInt8} (type : GlobalType)
    (hline : line.length ≤ capacity) (hidx : index + first.length ≤ line.length) :
    (changeAt capacity type line index first second).1.length ≤ capacity ∧
      (changeAt capacity type line index first second).2.2 ≤ capacity := by
  have hinsert : ∀ {line line' : List UInt8} {place : ℕ}, line.length ≤ capacity →
      lineInsert capacity line place second = some line' →
      line.length + second.length ≤ capacity := by
    intro line line' place hline h
    unfold lineInsert at h
    split_ifs at h with hempty hlong
    · rw [hempty]
      exact hline
    · omega
  have hdeleted : (lineDelete line index first.length).length = line.length - first.length := by
    unfold lineDelete
    rw [length_append, length_take, length_drop]
    omega
  have hdeletedRoom : (lineDelete line index first.length).length ≤ capacity := by omega
  unfold changeAt
  cases type with
  | after =>
    dsimp only
    split
    · exact ⟨hline, Nat.zero_le _⟩
    rename_i line' heq
    have hboth := hinsert hline heq
    refine ⟨length_lineInsert_le hline heq, ?_⟩
    show index + first.length + second.length ≤ _
    omega
  | before =>
    dsimp only
    split
    · exact ⟨hline, Nat.zero_le _⟩
    rename_i line' heq
    have hboth := hinsert hline heq
    refine ⟨length_lineInsert_le hline heq, ?_⟩
    show index + second.length + first.length ≤ _
    omega
  | exchange =>
  dsimp only
  split
  · exact ⟨hdeletedRoom, Nat.zero_le _⟩
  rename_i line' heq
  have hboth := hinsert hdeletedRoom heq
  exact ⟨length_lineInsert_le hdeletedRoom heq, by show index + second.length ≤ _; omega⟩

theorem steady_commandChange (type : GlobalType) (movePointer : Bool)
    {strings : Except String (List UInt8 × List UInt8)}
    (hreach : ∀ first second, strings = .ok (first, second) → Reachable e first) :
    Steady (e.commandChange type movePointer strings) := by
  cases strings with
  | error message =>
    unfold commandChange
    split
    · exact h.report _
    · exact h.report _
  | ok strings =>
  obtain ⟨first, second⟩ := strings
  refine steady_atMatch h (hreach first second rfl)
    fun line accesses index hroom honLine hfits => ?_
  have hbounded := h.rest.bounded
  have htouch := h.touchRest honLine index line.text.length
  have hchange : (changeAt e.capacity type line.text index first second).1.length ≤ e.capacity ∧
      (changeAt e.capacity type line.text index first second).2.2 ≤ e.capacity :=
    changeAt_spec type hroom hfits
  generalize hres : changeAt e.capacity type line.text index first second = changed at hchange
  dsimp only
  rw [show changeAt (e.touch _).capacity type line.text index first second = changed from hres]
  obtain ⟨text, _ | _, pointer⟩ := changed
  · exact (htouch.setText hchange.1).report _
  refine Steady.verifyCurrent ?_
  have hsmall : pointer ≤ e.capacity := hchange.2
  split_ifs
  · exact (htouch.setText hchange.1).point (Int.natCast_nonneg pointer) (by omega)
  · exact htouch.setText hchange.1

theorem steady_commandDeleteWindow (from_ after : Bool) (hreach : Reachable e text)
    : Steady (e.commandDeleteWindow from_ after text) := by
  refine steady_atMatch h hreach fun line accesses index hroom honLine _ => ?_
  have hplace : 0 ≤ if after then (index : ℤ) + text.length else index := by
    split_ifs <;> omega
  have hdelete : ∀ {start count : ℤ}, 0 ≤ start → Steady
      ((e.touch (accesses ++ (pointerDelete line.text start count).1)).setText line
        (pointerDelete line.text start count).2) := by
    intro start count hstart
    obtain ⟨hmore, hlen⟩ := pointerDelete_spec hstart
    exact (h.touch (forall_mem_append.mpr ⟨honLine, hmore⟩)).setText (hlen.trans hroom)
  cases from_ with
  | true => exact (hdelete hplace).verifyCurrent
  | false => exact (hdelete h.rest.nonneg).verifyCurrent

theorem steady_commandSplit (after : Bool) (hreach : Reachable e text)
    : Steady (e.commandSplit after text) := by
  refine steady_atMatch h hreach fun line accesses index hroom honLine _ => ?_
  generalize (if after then index + text.length else index) = place
  have htouch := h.touchRest honLine place line.text.length
  have hhead : (line.text.take place).length ≤ e.capacity := (length_take_le' _ _).trans hroom
  have htail : (line.text.drop place).length ≤ e.capacity := by
    rw [length_drop]
    omega
  refine lawful_fitting.sendHead ?_ hhead htail
  exact lawful_fitting.same htouch rfl rfl

theorem steady_setNumber (number : ℤ) : Steady (e.setNumber number) := by
  refine ⟨{ h.rest with }, fun line hline => ?_, h.typed⟩
  rcases mem_held.mp hline with hqueue | hcur | hahead
  · exact h.lines line (mem_held.mpr (.inl hqueue))
  · obtain ⟨old, hold, rfl⟩ := map_eq_some_iff.mp (mem_toList.mp hcur)
    have hroom := h.current hold
    exact hroom
  · exact h.lines line (mem_held.mpr (.inr (.inr hahead)))

/-! ## Every command -/

structure Order.Fits (e : Edit) (order : Order) : Prop where
  advance : ∀ distance ∈ order.advance, 0 ≤ long (e.pointer + distance)
  reach : ∀ text ∈ order.searched, Reachable e text

theorem steady_execute (files : Files) {command : Command}
    (hsingle : (Order.plain command).single = true) (hfits : (Order.plain command).Fits e) :
    Steady (command.execute files e) := by
  refine lawful_fitting.execute h files hsingle fun hat => ?_
  cases command with
  | right count => exact h.point (hfits.advance count rfl) (long_lt _)
  | left count => exact h.point (le_max_left _ _) (max_lt (by decide) (long_lt _))
  | pointerReset => exact lawful_fitting.reset h
  | pointerString after text => exact steady_commandPointerString h after (hfits.reach text rfl)
  | _ => exact nomatch hat

end Orders

variable {order : Order}

section Sessions

variable {s : Session}

section Steps

variable (h : Steady s.edit)
include h

variable (world : World)

/-- **A command keeps the lines and the pointer in order.** -/
theorem steady_act (repeating : Bool) (hsingle : order.single = true)
    (hfits : order.Fits s.edit) : Steady (order.act world repeating s).edit := by
  refine lawful_fitting.act h world repeating hsingle fun hat => ?_
  cases order with
  | plain command => exact steady_execute h world.files hsingle hfits
  | renumber number => exact steady_setNumber h number
  | recase how count => exact steady_recase h how count
  | erase count => exact steady_erase h count
  | change type movePointer strings text =>
    have hchange : Steady (s.edit.commandChange type movePointer strings) := by
      refine steady_commandChange h type movePointer fun first second heq => ?_
      subst heq
      exact hfits.reach first rfl
    unfold Order.act Session.saveCommand
    dsimp only
    split_ifs
    all_goals exact hchange
  | deleteWindow from_ after text =>
    exact steady_commandDeleteWindow h from_ after (hfits.reach text rfl)
  | split after text => exact steady_commandSplit h after (hfits.reach text rfl)
  | _ => exact nomatch hat

theorem act_astray (repeating : Bool) (hsearched : order.searched = some text)
    (hshort : text.length ≤ 255) (hreach : ¬ Reachable s.edit text) :
    ∃ access ∈ (order.act world repeating s).edit.accesses, access.onLine = false := by
  unfold Reachable at hreach
  push Not at hreach
  obtain ⟨hsome, hempty, hend⟩ := hreach
  obtain ⟨line, hcur⟩ := ne_none_iff_exists'.mp hsome
  obtain ⟨access, hoff, hfind⟩ := pointerFind_past ((h.current hcur).trans h.rest.bounded)
    h.rest.nonneg h.rest.small hempty hshort hend
  have hmatch : ∀ act, ∃ access ∈ (s.edit.atMatch text act).accesses, access.onLine = false := by
    intro act
    unfold atMatch
    rw [hcur]
    dsimp only
    rw [hfind]
    exact ⟨access, mem_append_right s.edit.accesses (mem_singleton_self access), hoff⟩
  cases order with
  | plain command =>
    cases command with
    | pointerString after string =>
      obtain rfl : string = text := some.inj hsearched
      exact hmatch _
    | _ => exact nomatch hsearched
  | change type movePointer strings whole =>
    cases strings with
    | error message => exact nomatch hsearched
    | ok strings =>
    obtain ⟨first, second⟩ := strings
    obtain rfl : first = text := some.inj hsearched
    have hsaved : ∀ s' : Session, (s'.saveCommand repeating whole).edit = s'.edit := by
      intro s'
      unfold Session.saveCommand
      split_ifs
      all_goals rfl
    show ∃ access ∈ ((s.update _).saveCommand repeating whole).edit.accesses, _
    rw [hsaved]
    exact hmatch _
  | deleteWindow from_ after string =>
    obtain rfl : string = text := some.inj hsearched
    exact hmatch _
  | split after string =>
    obtain rfl : string = text := some.inj hsearched
    exact hmatch _
  | _ => exact nomatch hsearched

/-! ## Sessions -/

/-- The pointer is not negative, and what commands have read and changed of the current line's text
was on that line. -/
def Session.PointerOnLine (s : Session) : Prop :=
  0 ≤ s.edit.pointer ∧ ∀ access ∈ s.edit.accesses, access.onLine = true

/-- The number before a `>` does not take the pointer past the largest `LONG`, nor does the string
searched for from the pointer end past it. -/
def Session.Careful (s : Session) : Prop :=
  ∀ repeating text frames, s.next = some (repeating, text, frames) →
    ((readOrder text).1.advance ≠ none → (s.edit.pointer + countWritten text) % 2 ^ 32 < 2 ^ 31) ∧
    ∀ string ∈ (readOrder text).1.searched, Reachable s.edit string

theorem steady_step (hcare : s.Careful) : Steady (s.step world).edit := by
  unfold Session.step
  cases hnext : s.next with
  | none => exact lawful_fitting.turn h
  | some found =>
  obtain ⟨repeating, text, frames⟩ := found
  obtain ⟨hadv, hreach⟩ := hcare repeating text frames hnext
  have hread := wellRead_readOrder text
  have hfits : (readOrder text).1.Fits s.edit := by
    refine ⟨fun distance hdist => ?_, hreach⟩
    have hmod := hadv (ne_none_iff_exists'.mpr ⟨distance, hdist⟩)
    rw [hread.advance distance hdist, long_add_long]
    refine not_lt.mp fun hneg => ?_
    have hpast := long_neg_iff.mp hneg
    omega
  exact steady_act (s := { s with frames := .text repeating (readOrder text).2 :: frames }) h
    world repeating hread.single hfits

theorem not_pointerOnLine_step (hcare : ¬ s.Careful) :
    ¬ (s.step world).PointerOnLine := by
  unfold Session.Careful at hcare
  push Not at hcare
  obtain ⟨repeating, text, frames, hnext, hcareless⟩ := hcare
  have hread := wellRead_readOrder text
  have hstep : s.step world = (readOrder text).1.act world repeating
      { s with frames := .text repeating (readOrder text).2 :: frames } := by
    unfold Session.step
    rw [hnext]
  rw [hstep]
  rintro ⟨hnonneg, honLine⟩
  by_cases hadv : (readOrder text).1.advance ≠ none →
      (s.edit.pointer + countWritten text) % 2 ^ 32 < 2 ^ 31
  · obtain ⟨string, hsearched, hreach⟩ := hcareless hadv
    obtain ⟨access, hacc, hoff⟩ := act_astray
      (s := { s with frames := .text repeating (readOrder text).2 :: frames }) h world repeating
      hsearched (hread.short string hsearched) hreach
    exact Bool.false_ne_true (hoff.symm.trans (honLine access hacc))
  push Not at hadv
  obtain ⟨hsome, hpast⟩ := hadv
  obtain ⟨distance, hdist⟩ := ne_none_iff_exists'.mp hsome
  have hcount := hread.advance distance hdist
  generalize (readOrder text).1 = order at hdist hnonneg
  cases order with
  | plain command =>
    cases command with
    | right count =>
      obtain rfl : count = distance := some.inj hdist
      have hptr : 0 ≤ long (s.edit.pointer + count) := hnonneg
      have hneg : long (s.edit.pointer + countWritten text) < 0 := long_neg_iff.mpr hpast
      rw [hcount, long_add_long] at hptr
      omega
    | _ => exact nomatch hdist
  | _ => exact nomatch hdist

end Steps

theorem inOrder_opened (args : Arguments) (content : List UInt8) (interactive : Bool)
    (breaks : List Bool) : InOrder (args.opened content interactive breaks) where
  narrow := le_max_left _ _
  bounded := by
    show max args.lineWidth 1200 ≤ 65535
    unfold Arguments.lineWidth clamp
    split_ifs <;> omega
  nonneg := le_rfl
  small := by show (0 : ℤ) < 2 ^ 31; decide
  onLine := forall_mem_nil _

/-- **The pointer stays on the line as long as the commands are careful.** Along a session, the
pointer is never negative and no command leaves the current line's text, exactly if no `>` takes the
pointer past the largest `LONG` and no command searches for a string whose end is past it. -/
theorem pointer_on_line_iff {world : World} {args : Arguments} {output : Option (List UInt8)}
    {task : ℕ} {commands : List CommandFile} {breaks : List Bool}
    (h : Session.start world args output task commands breaks = some s) :
    (∀ n, (Session.run world n s).PointerOnLine) ↔ ∀ n, (Session.run world n s).Careful := by
  have hsteady : ∀ n, (∀ m < n, (Session.run world m s).Careful) →
      Steady (Session.run world n s).edit := by
    intro n
    induction n with
    | zero =>
      exact fun _ => lawful_fitting.start (fun content => inOrder_opened args content _ breaks) h
    | succ n ih =>
      intro hcareful
      exact steady_step (ih fun m hm => hcareful m (Nat.lt_succ_of_lt hm)) world
        (hcareful n (Nat.lt_succ_self n))
  constructor
  · intro honLine n
    -- The first step that is not careful would leave the line.
    induction n using Nat.strongRecOn with
    | ind n ih =>
      by_contra hcareless
      exact not_pointerOnLine_step (hsteady n ih) world hcareless (honLine (n + 1))
  · intro hcareful n
    have hn := hsteady n fun m _ => hcareful m
    exact ⟨hn.rest.nonneg, hn.rest.onLine⟩

end Sessions

/-! ## A number that wraps around -/

theorem step_finished {world : World} {s : Session} (hframes : s.frames = [])
    (hfinished : s.edit.finished = true) : s.step world = s := by
  unfold Session.step Session.next Session.turn
  rw [hframes]
  dsimp only
  rw [if_pos hfinished, ite_self]

/-- When a session is over, its states are those up to there. -/
theorem forall_run {world : World} {s : Session} {P : Session → Prop} {last : ℕ}
    (hframes : (Session.run world last s).frames = [])
    (hfinished : (Session.run world last s).edit.finished = true)
    (h : ∀ n ≤ last, P (Session.run world n s)) (n : ℕ) : P (Session.run world n s) := by
  have hstays : ∀ n, Session.run world (last + n) s = Session.run world last s := by
    intro n
    induction n with
    | zero => rfl
    | succ n ih =>
      show (Session.run world (last + n) s).step world = _
      rw [ih]
      exact step_finished hframes hfinished
  rcases le_total n last with hle | hge
  · exact h n hle
  · obtain ⟨more, rfl⟩ := Nat.exists_eq_add_of_le hge
    rw [hstays]
    exact h last le_rfl

instance (e : Edit) (text : List UInt8) : Decidable (Reachable e text) :=
  inferInstanceAs (Decidable (_ → _ → _))

instance (s : Session) : Decidable s.Careful :=
  decidable_of_iff (∀ found ∈ s.next,
    ((readOrder found.2.1).1.advance ≠ none →
      (s.edit.pointer + countWritten found.2.1) % 2 ^ 32 < 2 ^ 31) ∧
    ∀ string ∈ (readOrder found.2.1).1.searched, Reachable s.edit string)
    ⟨fun h repeating text frames hnext => h (repeating, text, frames) hnext,
      fun h _ hnext => h _ _ _ hnext⟩

/-- The pointer goes to the last character, changes it, and goes on behind it by a search. -/
theorem pointer_on_line_iff_cat : ∃ s, catSession "2>;$;<;PA/t/;W\n" = some s ∧
    (Session.run catWorld 11 s).edit.finished = true ∧
    (Session.run catWorld 11 s).edit.accesses = [⟨2, 3, 3⟩, ⟨2, 3, 3⟩] ∧
    ∀ n, (Session.run catWorld n s).PointerOnLine := by
  obtain ⟨s, hs⟩ := isSome_iff_exists.mp (catSession_isSome "2>;$;<;PA/t/;W\n")
  have hend : (catSession "2>;$;<;PA/t/;W\n").map (fun s =>
      ((Session.run catWorld 11 s).frames.isEmpty, (Session.run catWorld 11 s).edit.finished,
        (Session.run catWorld 11 s).edit.accesses)) =
      some (true, true, [⟨2, 3, 3⟩, ⟨2, 3, 3⟩]) := by
    decide +kernel
  have hcareful : ∀ s ∈ catSession "2>;$;<;PA/t/;W\n", ∀ n ≤ 11,
      (Session.run catWorld n s).Careful := by
    decide +kernel
  rw [hs] at hend
  obtain ⟨hframes, hrest⟩ := Prod.mk.inj (some.inj hend)
  obtain ⟨hfinished, haccesses⟩ := Prod.mk.inj hrest
  refine ⟨s, hs, hfinished, haccesses, (pointer_on_line_iff hs).mpr ?_⟩
  exact forall_run (isEmpty_iff.mp hframes) hfinished (hcareful s hs)

/-- The count 4294967291 is -5: the pointer goes five places before the line, and `$` changes the
character there. -/
theorem count_wraps_around :
    (catSession "4294967291>;$\n").map
        (fun s => ((Session.run catWorld 4 s).edit.pointer,
          (Session.run catWorld 4 s).edit.accesses)) = some (-5, [⟨-5, -4, 3⟩]) ∧
      ¬ ∀ s, catSession "4294967291>;$\n" = some s →
        ∀ n, (Session.run catWorld n s).PointerOnLine := by
  have hrun : (catSession "4294967291>;$\n").map
      (fun s => ((Session.run catWorld 4 s).edit.pointer,
        (Session.run catWorld 4 s).edit.accesses)) = some (-5, [⟨-5, -4, 3⟩]) := by
    decide +kernel
  refine ⟨hrun, fun hall => ?_⟩
  obtain ⟨s, hs⟩ := isSome_iff_exists.mp (catSession_isSome "4294967291>;$\n")
  obtain ⟨hnonneg, -⟩ := hall s hs 4
  rw [hs] at hrun
  have hpointer : (Session.run catWorld 4 s).edit.pointer = -5 :=
    (Prod.mk.inj (some.inj hrun)).1
  omega

end AceShell.LineEditor
