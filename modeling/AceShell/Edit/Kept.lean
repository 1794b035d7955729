import AceShell.Edit.Save
import AceShell.Edit.Session

/-!
# What is kept of every line

An invariant of the editor that speaks of each of its lines is a `Rule`. It is lawful when lines
that are read, that arrive, that are inserted and that are put together are as it says. Then every
command keeps it that does not work at the pointer (`Lawful.act`).
-/

namespace AceShell.LineEditor

open Text Edit List Loop

/-- What is said of a line in the editor, of a line that is about to arrive, and of the rest. -/
structure Rule where
  line : Edit → Line → Prop
  comes : Edit → Line → Prop
  rest : Edit → Prop

/-- What a rule may speak of besides the lines. -/
def Edit.frame (e : Edit) :=
  (e.width, e.capacity, e.accesses, e.taken, e.pointer, e.renumber, e.sources, e.ver)

/-- No rule sees the difference: the pointer may be back at the start, the renumbering over, and
files opened or closed. -/
structure Unmoved (e e' : Edit) : Prop where
  width : e'.width = e.width
  capacity : e'.capacity = e.capacity
  accesses : e'.accesses = e.accesses
  taken : e'.taken = e.taken
  pointer : e'.pointer = e.pointer ∨ e'.pointer = 0
  renumber : e'.renumber = e.renumber ∨ e'.renumber = 0
  sources : ∀ s ∈ e'.sources, s ∈ e.sources ∨ s.nextNumber = 1
  typed : ∀ line ∈ e'.typed, line ∈ e.typed ∨ e.current = some line

/-- The lines in the editor are as the rule says, and so were those that were typed. -/
structure Rule.Kept (r : Rule) (e : Edit) : Prop where
  rest : r.rest e
  lines : ∀ line ∈ e.held, r.line e line
  typed : ∀ line ∈ e.typed, r.line e line

/-- Lines that are read, that arrive, and that are made here are as the rule says. -/
structure Rule.Lawful (r : Rule) : Prop where
  rest {e e' : Edit} : Unmoved e e' → r.rest e → r.rest e'
  line {e e' : Edit} {line : Line} : Unmoved e e' → r.line e line → r.line e' line
  comes {e e' : Edit} {line : Line} : Unmoved e e' → r.comes e line → r.comes e' line
  known {e : Edit} {line : Line} : r.line e line → r.comes e line
  taken {e : Edit} {line : Line} {s' : Source} (ver : List Verification) :
    r.rest e → Brings e line s' → r.rest ({ e with ver }.take line s') ∧
      r.comes ({ e with ver }.take line s') line ∧
      ∀ other, r.line e other → r.line ({ e with ver }.take line s') other
  arrived {e : Edit} {line : Line} : r.rest e → r.comes e line →
    r.rest (e.lineArrive line).2 ∧ r.line (e.lineArrive line).2 (e.lineArrive line).1 ∧
      ∀ other, r.line e other → r.line (e.lineArrive line).2 other
  fresh {e : Edit} {text : List UInt8} (serial : ℕ) : r.rest e → text.length ≤ e.capacity →
    r.line e { serial, number := 0, text, newline := true, processed := true }
  text {e : Edit} {line : Line} {text : List UInt8} (newline : Bool) : r.line e line →
    (line.text.length ≤ e.capacity → text.length ≤ e.capacity) →
      r.line e { line with text, newline }

variable {e e' : Edit} {line : Line} {r : Rule}

theorem unmoved_of_frame (h : e'.frame = e.frame) : Unmoved e e' := by
  injection h with hwidth h
  injection h with hcapacity h
  injection h with haccesses h
  injection h with htaken h
  injection h with hpointer h
  injection h with hrenumber h
  injection h with hsources hver
  have htyped : e'.typed = e.typed := congrArg (filterMap Verification.typedLine) hver
  exact ⟨hwidth, hcapacity, haccesses, htaken, .inl hpointer, .inl hrenumber,
    fun _ hs => .inl (hsources ▸ hs), fun _ hline => .inl (htyped ▸ hline)⟩

theorem Aside.unmoved (h : Aside e e') : Unmoved e e' where
  width := h.store.width
  capacity := h.store.capacity
  accesses := h.accesses
  taken := h.store.taken
  pointer := .inl h.pointer
  renumber := .inl h.renumber
  sources _ hs := .inl (h.store.sources ▸ hs)
  typed := h.typed

theorem Aside.held (h : Aside e e') : e'.held = e.held := by
  unfold Edit.held
  rw [h.store.queue, h.store.current, h.store.ahead]

theorem mem_held : line ∈ e.held ↔
    line ∈ e.queue.toList ∨ line ∈ e.current.toList ∨ line ∈ e.ahead := by
  unfold held
  rw [mem_append, mem_append, or_assoc]

theorem Rule.Kept.current (h : r.Kept e) (hcur : e.current = some line) : r.line e line :=
  h.lines line (mem_held.mpr (.inr (.inl (by rw [hcur]; exact mem_singleton_self line))))

theorem unmoved_queuePush (e : Edit) (line : Line) : Unmoved e (e.queuePush line) := by
  obtain ⟨flushed, queue, -, heq⟩ := queuePush_spec e line
  rw [heq]
  exact unmoved_of_frame rfl

theorem unmoved_pushCurrent (e : Edit) : Unmoved e e.pushCurrent := by
  obtain ⟨flushed, queue, -, heq⟩ := pushCurrent_spec e
  rw [heq]
  exact unmoved_of_frame rfl

theorem held_lineArrive (e : Edit) (line : Line) : (e.lineArrive line).2.held = e.held := by
  obtain ⟨number, renumber, globals, ver, aborted, heq, -⟩ := lineArrive_eq e line
  rw [heq]
  rfl

theorem typed_lineArrive (e : Edit) (line : Line) : (e.lineArrive line).2.typed = e.typed := by
  unfold Edit.lineArrive
  dsimp only
  split_ifs
  · rfl
  · rfl
  · exact typed_of_ver rfl rfl
  · rfl
  · exact typed_of_ver rfl rfl

theorem typed_pullLine (e : Edit) : e.pullLine.2.typed = e.typed := by
  unfold Edit.pullLine
  split
  · rfl
  unfold Edit.sourceLine
  dsimp only
  generalize (if e.trailing = true then _ else _) = text
  split_ifs
  · rfl
  · rfl
  · exact typed_of_ver rfl rfl
  · rfl

/-! ## Texts -/

section Texts

variable {capacity : ℕ} {line text : List UInt8}

theorem length_lineDelete_le (line : List UInt8) (index count : ℕ) :
    (lineDelete line index count).length ≤ line.length := by
  unfold lineDelete
  rw [length_append, length_take, length_drop]
  omega

theorem length_lineInsert_le {line' : List UInt8} {index : ℕ} (hline : line.length ≤ capacity)
    (h : lineInsert capacity line index text = some line') : line'.length ≤ capacity := by
  unfold lineInsert at h
  split_ifs at h with hempty hlong
  · obtain rfl := Option.some.inj h
    exact hline
  · obtain rfl := Option.some.inj h
    rw [length_append, length_append, length_take, length_drop]
    omega

theorem Global.length_change_le (global : Global) (hline : line.length ≤ capacity) (index : ℕ) :
    (global.change capacity line index).1.length ≤ capacity := by
  have hdeleted := (length_lineDelete_le line index global.find.length).trans hline
  unfold Global.change
  cases global.type with
  | after =>
    dsimp only
    split
    · exact hline
    · exact length_lineInsert_le hline ‹_›
  | before =>
    dsimp only
    split
    · exact hline
    · exact length_lineInsert_le hline ‹_›
  | exchange =>
  dsimp only
  split
  · exact hdeleted
  · exact length_lineInsert_le hdeleted ‹_›

theorem Global.length_applyTo_le (global : Global) (hline : line.length ≤ capacity) :
    (global.applyTo capacity line).line.length ≤ capacity := by
  refine Loop.run_keeps (P := fun s : Applying => s.line.length ≤ capacity) (fun s hs => ?_) _ hline
  unfold Applying.step
  cases lineFind s.line s.start s.global.find s.global.qualifiers with
  | none => exact hs
  | some index =>
  have hchanged := s.global.length_change_le hs index
  dsimp only
  generalize s.global.change capacity s.line index = outcome at hchanged ⊢
  obtain ⟨line', _ | resume⟩ := outcome
  · exact hchanged
  · exact hchanged

theorem length_applyGlobals_le {globals : List Global} (hline : line.length ≤ capacity) :
    (applyGlobals capacity globals line).1.length ≤ capacity := by
  induction globals generalizing line with
  | nil => exact hline
  | cons global rest ih =>
  unfold applyGlobals
  split_ifs
  · exact ih hline
  have hchanged := global.length_applyTo_le hline
  generalize global.applyTo capacity line = s at hchanged ⊢
  obtain ⟨line', global', _, _ | _⟩ := s
  · exact hchanged
  · exact ih hchanged

theorem length_of_mem_fileLines {fuel : ℕ} {content : List UInt8}
    (h : text ∈ fileLines capacity fuel content) : text.length ≤ capacity := by
  induction fuel generalizing content with
  | zero => exact nomatch h
  | succ fuel ih =>
  unfold fileLines at h
  dsimp only at h
  split_ifs at h with hempty hshort
  · exact nomatch h
  · rcases mem_cons.mp h with rfl | hrest
    · exact hshort.le
    · exact ih hrest
  · rcases mem_cons.mp h with rfl | hrest
    · exact length_take_le _ _
    · exact ih hrest

end Texts

namespace Rule.Lawful

variable (hr : r.Lawful)
include hr

section Store

variable (h : r.Kept e)
include h

/-! ## Lines in their places -/

theorem place (hsame : Unmoved e e') (hlines : ∀ line ∈ e'.held, r.line e line) : r.Kept e' :=
  ⟨hr.rest hsame h.rest, fun line hline => hr.line hsame (hlines line hline),
    fun line hline => hr.line hsame ((hsame.typed line hline).elim (h.typed line) h.current)⟩

theorem other (hsame : Unmoved e e') (hheld : e'.held = e.held) : r.Kept e' :=
  hr.place h hsame fun line hline => h.lines line (hheld ▸ hline)

theorem same (hframe : e'.frame = e.frame) (hheld : e'.held = e.held) : r.Kept e' :=
  hr.other h (unmoved_of_frame hframe) hheld

theorem aside (haside : Aside e e') : r.Kept e' := hr.other h haside.unmoved haside.held

theorem reset : r.Kept { e with pointer := 0 } :=
  hr.other h ⟨rfl, rfl, rfl, rfl, .inr rfl, .inl rfl, fun _ => .inl, fun _ => .inl⟩ rfl

theorem report (text : String) : r.Kept (e.report text) := hr.aside h (aside_report e text)

theorem setCurrent (hline : r.line e line) : r.Kept { e with current := some line } := by
  refine hr.place h (unmoved_of_frame rfl) fun other hother => ?_
  rcases mem_held.mp hother with hqueue | hcur | hahead
  · exact h.lines other (mem_held.mpr (.inl hqueue))
  · obtain rfl : other = line := mem_singleton.mp hcur
    exact hline
  · exact h.lines other (mem_held.mpr (.inr (.inr hahead)))

theorem queuePush (hline : r.line e line) : r.Kept (e.queuePush line) := by
  refine hr.place h (unmoved_queuePush e line) fun other hother => ?_
  obtain ⟨flushed, queue, hlist, heq⟩ := queuePush_spec e line
  rw [heq] at hother
  rcases mem_held.mp hother with hqueue | hrest
  · have hmem : other ∈ e.queue.toList ++ [line] := by
      rw [← hlist]
      exact mem_append_right flushed hqueue
    rcases mem_append.mp hmem with hold | hnew
    · exact h.lines other (mem_held.mpr (.inl hold))
    · obtain rfl := mem_singleton.mp hnew
      exact hline
  · exact h.lines other (mem_held.mpr (.inr hrest))

theorem giveBack (hline : r.line e line) : r.Kept { e with ahead := line :: e.ahead } := by
  refine hr.place h (unmoved_of_frame rfl) fun other hother => ?_
  rcases mem_append.mp hother with hold | hnew
  · exact h.lines other (mem_append_left _ hold)
  rcases mem_cons.mp hnew with rfl | hahead
  · exact hline
  · exact h.lines other (mem_append_right _ hahead)

theorem pushCurrent : r.Kept e.pushCurrent := by
  unfold Edit.pushCurrent
  split
  · exact hr.queuePush h (h.current ‹_›)
  · exact h

theorem queueFlush : r.Kept e.queueFlush := by
  refine run_keeps (P := r.Kept) (fun s hs => ?_) _ h
  unfold flushStep
  cases hpop : s.queue.popFront with
  | none => exact hs
  | some popped =>
  obtain ⟨line, queue⟩ := popped
  obtain ⟨hlist, -, -⟩ := RingBuffer.popFront_eq_some _ hpop
  refine hr.place hs (unmoved_of_frame rfl) fun other hother => ?_
  refine hs.lines other (mem_held.mpr ((mem_held.mp hother).imp_left fun hqueue => ?_))
  rw [hlist]
  exact mem_cons_of_mem line hqueue

/-! ## Lines that come -/

theorem pullLine : r.Kept e.pullLine.2 ∧ (∀ line ∈ e.pullLine.1, r.comes e.pullLine.2 line) ∧
    ∀ line, r.line e line → r.line e.pullLine.2 line := by
  rcases pullLine_cases e with
    ⟨-, -, heq⟩ | ⟨first, rest, hahead, heq⟩ | ⟨line, s', ver, -, -, -, hbrings, heq⟩
  · rw [heq]
    exact ⟨h, nofun, fun _ => id⟩
  · have hlines : ∀ line ∈ e.queue.toList ++ e.current.toList ++ first :: rest, r.line e line := by
      rw [← hahead]
      exact h.lines
    rw [heq]
    refine ⟨hr.place h (unmoved_of_frame rfl) fun line hline => hlines line ?_,
      fun line hline => ?_, fun _ => hr.line (unmoved_of_frame rfl)⟩
    · exact (mem_append.mp hline).elim (mem_append_left _)
        fun hrest => mem_append_right _ (mem_cons_of_mem first hrest)
    · obtain rfl := Option.mem_some.mp hline
      have hfirst := hr.known (hlines first (mem_append_right _ mem_cons_self))
      exact hr.comes (e := e) (unmoved_of_frame rfl) hfirst
  · obtain ⟨hrest, hcomes, hothers⟩ := hr.taken ver h.rest hbrings
    have htyped := typed_pullLine e
    rw [heq] at htyped ⊢
    refine ⟨⟨hrest, fun other hother => hothers other (h.lines other hother),
      fun other hother => hothers other (h.typed other (htyped ▸ hother))⟩, ?_, hothers⟩
    intro other hother
    obtain rfl := Option.mem_some.mp hother
    exact hcomes

theorem lineArrive (hline : r.comes e line) : r.Kept (e.lineArrive line).2 := by
  obtain ⟨hrest, -, hothers⟩ := hr.arrived h.rest hline
  exact ⟨hrest, fun other hother => hothers other (h.lines other (held_lineArrive e line ▸ hother)),
    fun other hother => hothers other (h.typed other (typed_lineArrive e line ▸ hother))⟩

theorem arrive (hline : r.comes e line) : r.Kept (e.arrive line) :=
  hr.setCurrent (hr.lineArrive h hline) (hr.arrived h.rest hline).2.1

/-! ## Moves -/

theorem nextLine : r.Kept e.nextLine.2 := by
  obtain ⟨hkept, hcomes, -⟩ := hr.pullLine h
  rcases nextLine_cases e with ⟨text, heq⟩ | ⟨line, e', hpull, heq⟩
  · rw [heq]
    exact hr.report h text
  rw [hpull] at hkept hcomes
  rw [heq]
  exact hr.arrive (hr.pushCurrent hkept)
    (hr.comes (unmoved_pushCurrent e') (hcomes line rfl))

theorem previousLine : r.Kept e.previousLine.2 := by
  unfold Edit.previousLine queuePop
  cases hpop : e.queue.popBack with
  | none => exact hr.report h _
  | some popped =>
  obtain ⟨line, queue⟩ := popped
  obtain ⟨hlist, -, -⟩ := RingBuffer.popBack_eq_some _ hpop
  have hback : Unmoved e { e with queue, ahead := e.current.toList ++ e.ahead
                                  current := some line, pointer := 0 } :=
    ⟨rfl, rfl, rfl, rfl, .inr rfl, .inl rfl, fun _ => .inl, fun _ => .inl⟩
  refine hr.place h hback fun other hother => h.lines other ?_
  unfold held
  rw [hlist, append_assoc]
  exact hother

omit h in
theorem closed : Closed r.Kept where
  same haside h := hr.aside h haside
  next := hr.nextLine
  previous := hr.previousLine

theorem deleteCurrent : r.Kept e.deleteCurrent.2 := by
  obtain ⟨hkept, hcomes, -⟩ := hr.pullLine h
  unfold Edit.deleteCurrent
  split
  · exact hr.report h _
  split_ifs
  · exact hr.report h _
  generalize e.pullLine = outcome at hkept hcomes ⊢
  obtain ⟨_ | line, e'⟩ := outcome
  · exact hr.report hkept _
  · exact hr.arrive hkept (hcomes line rfl)

theorem drainStep : r.Kept e.drainStep.2 := by
  obtain ⟨hkept, hcomes, -⟩ := hr.pullLine h
  unfold Edit.drainStep
  generalize e.pullLine = outcome at hkept hcomes ⊢
  obtain ⟨_ | line, e'⟩ := outcome
  · exact hkept
  dsimp only
  split_ifs
  · exact hkept
  · exact hr.queuePush (hr.lineArrive hkept (hcomes line rfl))
      (hr.arrived hkept.rest (hcomes line rfl)).2.1

theorem drainSource : r.Kept e.drainSource := by
  refine hr.queueFlush (run_keeps (P := r.Kept) (fun _ => hr.drainStep) _ ?_)
  have hpushed := hr.pushCurrent h
  refine hr.place hpushed (unmoved_of_frame rfl) fun line hline => hpushed.lines line ?_
  rcases mem_held.mp hline with hqueue | hnone | hahead
  · exact mem_held.mpr (.inl hqueue)
  · exact nomatch hnone
  · exact mem_held.mpr (.inr (.inr hahead))

/-! ## Lines that go and files -/

theorem deleteRange (first last : ℤ) : r.Kept (e.deleteRange first last) := by
  refine run_keeps (P := fun s : ℤ × Edit => r.Kept s.2) (fun s hs => ?_) _ h
  have hnext := hr.deleteCurrent hs
  unfold deleteRangeStep
  split_ifs
  · exact hs
  generalize s.2.deleteCurrent = outcome at hnext ⊢
  obtain ⟨_ | _, e'⟩ := outcome
  · exact hnext
  · exact hnext

theorem commandDelete (lines : Deletion) : r.Kept (e.commandDelete lines) := by
  cases lines with
  | rest =>
    refine run_keeps (P := r.Kept) (fun s hs => ?_) _ h
    unfold deleteRestStep
    split_ifs
    · exact hs
    · exact hr.deleteCurrent hs
  | current => exact hr.deleteCurrent h
  | number first =>
    have hmove := hr.closed.moveToNumber first h
    unfold Edit.commandDelete
    dsimp only
    generalize e.moveToNumber first = outcome at hmove ⊢
    obtain ⟨_ | _, e'⟩ := outcome
    · exact hmove
    · exact hr.deleteCurrent hmove
  | range first last =>
  have hmove := hr.closed.moveToNumber first h
  unfold Edit.commandDelete
  dsimp only
  generalize e.moveToNumber first = outcome at hmove ⊢
  obtain ⟨_ | _, e'⟩ := outcome
  · exact hmove
  split_ifs
  · exact hr.aside hmove (aside_reportTooSmall e' last)
  · exact hr.deleteRange hmove first last

theorem commandDeleteFound (qualifiers : Qualifiers)
    (text : Option (List UInt8)) : r.Kept (e.commandDeleteFound qualifiers text) := by
  have hsearch : ∀ e : Edit, r.Kept e → r.Kept (run deleteFoundStep (e.toCome + 1) e) := by
    intro e h
    refine run_keeps (P := r.Kept) (fun s hs => ?_) _ h
    unfold deleteFoundStep
    split_ifs
    · exact hr.same hs rfl rfl
    · exact hr.report hs _
    · exact hr.deleteCurrent hs
  unfold Edit.commandDeleteFound
  cases text with
  | some text => exact hsearch _ (hr.same h rfl rfl)
  | none =>
    split_ifs
    · exact hr.report h _
    · exact hsearch e h

theorem insertLine {text : List UInt8} (htext : text.length ≤ e.capacity) :
    r.Kept (e.insertLine text) ∧ (e.insertLine text).capacity = e.capacity := by
  have hserial : r.Kept { e with nextSerial := e.nextSerial + 1 } := hr.same h rfl rfl
  exact ⟨hr.queuePush hserial (hr.fresh _ hserial.rest htext), (unmoved_queuePush _ _).capacity⟩

theorem insertFile (files : Files) (name : List UInt8) :
    r.Kept (LineEditor.Edit.insertFile files e name) := by
  unfold Edit.insertFile
  split
  · exact hr.aside h (aside_put e rfl)
  refine (foldlRecOn (motive := fun e' => r.Kept e' ∧ e'.capacity = e.capacity) _ _ ⟨h, rfl⟩
    fun e' he' text htext => ?_).1
  obtain ⟨hkept, hcapacity⟩ := hr.insertLine he'.1
    ((length_of_mem_fileLines htext).trans_eq he'.2.symm)
  exact ⟨hkept, hcapacity.trans he'.2⟩

theorem commandTo (writable : List UInt8 → Bool)
    (name : Option (List UInt8)) : r.Kept (LineEditor.Edit.commandTo writable e name) := by
  have hselect : ∀ sinks index, r.Kept (e.selectSink sinks index) := by
    intro sinks index
    unfold selectSink
    split
    · exact h
    · exact hr.same h rfl rfl
  unfold Edit.commandTo
  cases name with
  | none => exact hr.queueFlush (hselect _ _)
  | some name =>
  dsimp only
  split
  · exact hr.queueFlush (hselect _ _)
  split_ifs
  · exact hr.queueFlush (hselect _ _)
  · exact hr.aside h (aside_put e rfl)

theorem closeNamedFile (name : List UInt8) : r.Kept (e.closeNamedFile name) := by
  unfold Edit.closeNamedFile
  split
  · split_ifs
    · exact hr.report h _
    unfold closeSink
    dsimp only
    split_ifs
    all_goals exact hr.same h rfl rfl
  · split
    · split_ifs
      · exact hr.report h _
      · exact hr.other h ⟨rfl, rfl, rfl, rfl, .inl rfl, .inl rfl,
          fun _ hs => .inl (mem_of_mem_eraseIdx hs), fun _ => .inl⟩ rfl
    · exact hr.aside h (aside_put e rfl)

theorem rewindFile : r.Kept e.rewindFile := by
  unfold Edit.rewindFile
  split_ifs
  · exact hr.report h _
  · exact hr.report h _
  have hdrained := hr.drainSource h
  generalize e.drainSource = drained at hdrained
  have hagain : Unmoved drained { drained with
      sources := [⟨drained.sinkName, drained.sink, drained.sink, 1, false⟩], source := 0
      mainSource := true, renumber := 0 }.openWorkFile :=
    ⟨rfl, rfl, rfl, rfl, .inl rfl, .inr rfl, fun s hs => .inr (by rw [mem_singleton.mp hs]),
      fun _ => .inl⟩
  have hentered : ∀ {e : Edit}, r.Kept e → r.Kept { e with entrySerial := e.currentSerial } :=
    fun h => hr.same h rfl rfl
  exact hentered (hr.nextLine (hr.other hdrained hagain rfl))

theorem commandFrom (files : Files) (name : Option (List UInt8)) :
    r.Kept (LineEditor.Edit.commandFrom files e name) := by
  unfold Edit.commandFrom
  cases name with
  | none => exact hr.same h rfl rfl
  | some name =>
  unfold openSource
  dsimp only
  cases e.findSource (name.take (nameSize - 1)) with
  | some index => exact hr.same h rfl rfl
  | none =>
    cases files (name.take (nameSize - 1)) with
    | none => exact hr.aside h (aside_put e rfl)
    | some content =>
      refine hr.other h ⟨rfl, rfl, rfl, rfl, .inl rfl, .inl rfl,
        fun s hs => (mem_append.mp hs).imp_right fun hnew => ?_, fun _ => .inl⟩ rfl
      rw [mem_singleton.mp hnew]

/-! ## Lines that change -/

theorem verifyCurrent : r.Kept e.verifyCurrent := hr.same h rfl rfl

theorem sendHead {head tail : Line} (hhead : r.line e head) (htail : r.line e tail) :
    r.Kept (e.sendHead head tail) := by
  have hcur : r.Kept { e with current := some head } := hr.setCurrent h hhead
  unfold Edit.sendHead
  dsimp only
  generalize hshow : (if e.verify = true then _ else _) = shown
  have hshown : r.Kept shown ∧ Unmoved { e with current := some head } shown := by
    rw [← hshow]
    split_ifs
    · have haside := aside_verifyLine { e with current := some head } head true
      exact ⟨hr.aside hcur haside, haside.unmoved⟩
    · exact ⟨hcur, unmoved_of_frame rfl⟩
  have hstay : ∀ {line}, r.line e line → r.line shown line :=
    fun hline => hr.line hshown.2 (hr.line (e := e) (unmoved_of_frame rfl) hline)
  have hset := hr.setCurrent (hr.queuePush hshown.1 (hstay hhead))
    (hr.line (unmoved_queuePush shown head) (hstay htail))
  exact hr.verifyCurrent (hr.reset hset)

theorem commandJoin : r.Kept e.commandJoin := by
  obtain ⟨hkept, hcomes, hothers⟩ := hr.pullLine h
  unfold Edit.commandJoin
  split
  · exact hr.report h _
  rename_i line hcur
  have hline := hothers line (h.current hcur)
  split_ifs
  · exact hr.report h _
  generalize e.pullLine = outcome at hkept hcomes hline ⊢
  obtain ⟨_ | next, e'⟩ := outcome
  · exact hr.report hkept _
  dsimp only
  split_ifs
  · exact hr.verifyCurrent (hr.setCurrent hkept (hr.text _ hline id))
  obtain ⟨-, hnext, hstay⟩ := hr.arrived hkept.rest (hcomes next rfl)
  have harrived := hr.lineArrive hkept (hcomes next rfl)
  have hhere := hstay line hline
  generalize e'.lineArrive next = arrived at hnext hhere harrived ⊢
  obtain ⟨next', e''⟩ := arrived
  split
  · exact hr.giveBack (hr.report harrived _) (hr.line (aside_report e'' _).unmoved hnext)
  · rename_i text heq
    have hjoined := hr.setCurrent harrived
      (hr.text next'.newline hhere fun hroom => length_lineInsert_le hroom heq)
    exact hr.verifyCurrent (hr.reset hjoined)

theorem commandGlobal (type : GlobalType) (find replacement : List UInt8) :
    r.Kept (e.commandGlobal type find replacement) := by
  have hother : ∀ globals nextGlobal, r.Kept { e with globals, nextGlobal } :=
    fun _ _ => hr.same h rfl rfl
  unfold Edit.commandGlobal
  dsimp only
  split
  · exact hr.aside (hother _ _) (aside_put _ rfl)
  rename_i line hcur
  have htext : line.text.length ≤ e.capacity → (applyGlobals e.capacity
      [{ id := e.nextGlobal, type, find, replacement }] line.text).1.length ≤ e.capacity :=
    length_applyGlobals_le
  generalize applyGlobals e.capacity _ line.text = outcome at htext ⊢
  obtain ⟨text, changed, fits⟩ := outcome
  have hchanged := hr.text line.newline (h.current hcur) htext
  have hset : r.Kept { e with nextGlobal := e.nextGlobal + 1, globals := e.globals ++ changed
                              current := some { line with text } } :=
    hr.setCurrent (hother (e.globals ++ changed) (e.nextGlobal + 1))
      (hr.line (e := e) (unmoved_of_frame rfl) hchanged)
  have hkept : ∀ (e' : Edit) (changes : Bool), r.Kept e' →
      r.Kept (if changes then e'.verifyCurrent else e') := by
    intro e' changes h'
    split_ifs
    · exact hr.verifyCurrent h'
    · exact h'
  refine hr.aside (hkept _ _ ?_) (aside_put _ rfl)
  cases fits with
  | true => exact hset
  | false => exact hr.report hset _

theorem commandGlobalState (cancel enable : Bool) (id : Option ℤ) :
    r.Kept (e.commandGlobalState cancel enable id) := by
  unfold Edit.commandGlobalState
  cases id with
  | none => exact hr.same h rfl rfl
  | some id =>
  dsimp only
  split
  · exact hr.same h rfl rfl
  split_ifs
  · exact hr.report h _
  · exact h

end Store

/-! ## Sessions -/

end Rule.Lawful

def Order.single : Order → Bool
  | .plain (.group _ _) => false
  | _ => true

/-- The command works at the pointer, or moves it. -/
def Command.atPointer : Command → Bool
  | .right _ | .left _ | .pointerReset | .pointerString _ _ => true
  | _ => false

def Order.atPointer : Order → Bool
  | .plain command => command.atPointer
  | .recase _ _ | .erase _ | .change _ _ _ _ | .deleteWindow _ _ _ | .split _ _ => true
  | .renumber _ => true
  | _ => false

namespace Rule.Lawful

variable {s : Session} {order : Order} (hr : r.Lawful)
include hr

section Sessions

variable (h : r.Kept s.edit)
include h

theorem setCommands (commands : List CommandFile) : r.Kept (s.setCommands commands).edit :=
  hr.same h rfl rfl

theorem insertLines : r.Kept s.insertLines.edit := by
  refine Loop.run_keeps (P := fun s : Session => r.Kept s.edit) (fun s hs => ?_) _ h
  unfold Session.insertStep
  generalize commandLine s.commands = outcome
  obtain ⟨_ | text, commands⟩ := outcome
  · exact hr.report (hr.setCommands hs commands) _
  dsimp only
  split_ifs
  · exact hr.setCommands hs commands
  · exact (hr.insertLine (hr.setCommands hs commands) (length_take_le _ _)).1

variable (world : World)

theorem insertText (file : Option (List UInt8)) : r.Kept (s.insertText world file).edit := by
  cases file with
  | some name => exact hr.insertFile h world.files name
  | none => exact hr.insertLines h

omit hr h in
theorem after {move : Edit → Bool × Edit} {next : Session → Session}
    (hmove : r.Kept (move s.edit).2) (hnext : ∀ s : Session, r.Kept s.edit → r.Kept (next s).edit) :
    r.Kept (s.after move next).edit := by
  unfold Session.after
  generalize move s.edit = outcome at hmove ⊢
  obtain ⟨_ | _, e⟩ := outcome
  · exact hmove
  · exact hnext _ hmove

theorem insert (place : Place) (file : Option (List UInt8)) :
    r.Kept (s.insert world place file).edit := by
  have hput : ∀ s : Session, r.Kept s.edit → r.Kept (s.insertText world file).edit :=
    fun s hs => hr.insertText hs world file
  cases place with
  | here => exact hput s h
  | atEnd => exact hput _ (hr.closed.commandMove .last h)
  | number number => exact after (hr.closed.moveToNumber number h) hput

theorem replace (lines : Replaced) (file : Option (List UInt8)) :
    r.Kept (s.replace world lines file).edit := by
  have hput : ∀ s : Session, r.Kept s.edit →
      r.Kept ((s.insertText world file).update Edit.verifyCurrent).edit :=
    fun s hs => hr.verifyCurrent (hr.insertText hs world file)
  cases lines with
  | current => exact after (hr.deleteCurrent h) hput
  | number number =>
    exact after (hr.closed.moveToNumber number h) fun s hs => after (hr.deleteCurrent hs) hput
  | range first last =>
    exact after (hr.closed.moveToNumber first h) fun s hs =>
      hput _ (hr.deleteRange hs first last)

omit h in
theorem execute (h : r.Kept e) (files : Files) {command : Command}
    (hsingle : (Order.plain command).single = true)
    (hat : command.atPointer = true → r.Kept (command.execute files e)) :
    r.Kept (command.execute files e) := by
  cases command with
  | refused message => exact hr.report h message
  | move target => exact hr.closed.commandMove target h
  | next count => exact Closed.repeated (fun _ => hr.nextLine) count h
  | previous count => exact Closed.repeated (fun _ => hr.previousLine) count h
  | find backward qualifiers text => exact hr.closed.commandFind backward qualifiers text h
  | type numbered limit => exact hr.closed.commandType numbered limit h
  | typeQueue => exact hr.closed.commandTypeQueue h
  | typeNew => exact hr.closed.commandTypeNew h
  | verify =>
    unfold Command.execute
    split
    · exact hr.aside h (aside_verifyLine e _ true)
    · exact h
  | verifyHex => exact hr.aside h (aside_verifyHex e)
  | right _ | left _ | pointerReset | pointerString _ _ => exact hat rfl
  | verification _ | halt _ | write => exact hr.same h rfl rfl
  | from_ name => exact hr.commandFrom h files name
  | group count body => exact absurd hsingle Bool.false_ne_true

/-- **A command that does not work at the pointer keeps the rule.** -/
theorem act (repeating : Bool) (hsingle : order.single = true)
    (hat : order.atPointer = true → r.Kept (order.act world repeating s).edit) :
    r.Kept (order.act world repeating s).edit := by
  have hfinished : r.Kept { s.edit with finished := true } := hr.same h rfl rfl
  cases order with
  | refused message => exact hr.report h message
  | refusedHere message => exact hr.report h _
  | unknown character =>
    cases character with
    | none => exact hr.report h _
    | some character =>
      exact hr.aside h (.of_ver (by constructor <;> rfl) rfl rfl rfl rfl rfl)
  | nothing => exact h
  | group count body => exact h
  | repeatSaved =>
    unfold Order.act
    split_ifs
    · exact hr.report h _
    · exact h
  | plain command => exact hr.execute h world.files hsingle hat
  | renumber _ | recase _ _ | erase _ | change _ _ _ _ | deleteWindow _ _ _ | split _ _ =>
    exact hat rfl
  | insert place file => exact hr.insert h world place file
  | delete lines => exact hr.commandDelete h lines
  | deleteFound qualifiers text => exact hr.commandDeleteFound h qualifiers text
  | replace lines file => exact hr.replace h world lines file
  | join => exact hr.commandJoin h
  | trailing value => exact hr.same h rfl rfl
  | showState => exact hr.aside h (aside_put _ rfl)
  | showGlobals => exact hr.aside h (aside_put _ rfl)
  | global type find replacement => exact hr.commandGlobal h type find replacement
  | globalState cancel enable id => exact hr.commandGlobalState h cancel enable id
  | commands name =>
    unfold Order.act Session.pushCommandFile
    dsimp only
    split_ifs
    · exact hr.report h _
    split
    · exact hr.aside h (aside_put _ rfl)
    · exact hr.setCommands h _
  | to_ name => exact hr.commandTo h world.writable name
  | close name => exact hr.closeNamedFile h name
  | rewind => exact hr.rewindFile h
  | quit =>
    unfold Order.act Session.quit
    dsimp only
    split_ifs
    · exact hr.setCommands h _
    · exact hfinished
  | stop => exact hfinished

theorem turn : r.Kept s.turn.edit := by
  have hend : ∀ frames, r.Kept ({ s with frames }.endLine).edit := by
    intro frames
    unfold Session.endLine
    split_ifs
    · exact h
    · exact hr.aside h (aside_verifyPending s.edit)
  have hleave : ∀ frames, r.Kept (s.leave frames).edit := by
    intro frames
    unfold Session.leave
    split_ifs
    · exact hend frames
    · exact h
  unfold Session.turn
  by_cases hastray : s.astray = true
  · rw [if_pos hastray]
    exact h
  rw [if_neg hastray]
  cases s.frames with
  | nil =>
    dsimp only
    split_ifs
    · exact h
    unfold Session.readLine
    split
    all_goals exact hr.same h rfl rfl
  | cons frame frames =>
  dsimp only
  by_cases hdone : (s.edit.finished || s.edit.aborted) = true
  · rw [if_pos hdone]
    exact hend []
  rw [if_neg hdone]
  cases frame with
  | text repeating text => exact hleave frames
  | group repeating count body =>
  dsimp only
  split_ifs
  · exact hleave frames
  · exact h

end Sessions

theorem start {world : World} {args : Arguments} {output : Option (List UInt8)} {task : ℕ}
    {commands : List CommandFile} {breaks : List Bool}
    (hopened : ∀ content, r.rest (args.opened content (attended commands) breaks))
    (h : Session.start world args output task commands breaks = some s) : r.Kept s.edit := by
  have hkept : ∀ content, r.Kept (args.opened content (attended commands) breaks) := by
    intro content
    have hheld : (args.opened content (attended commands) breaks).held = [] := by
      exact congrArg (· ++ [] ++ []) (RingBuffer.toList_empty _ args.depthLimit_pos)
    exact ⟨hopened content, hheld ▸ forall_mem_nil _, forall_mem_nil _⟩
  have hfst : ∀ e, args.start world.files (attended commands) breaks = some e → r.Kept e := by
    intro e he
    cases hfile : world.files args.name with
    | none =>
      unfold Arguments.start Edit.openSource at he
      rw [hfile] at he
      exact nomatch he
    | some content =>
      rw [start_eq hfile] at he
      obtain rfl := Option.some.inj he
      exact hr.nextLine (hkept content)
  unfold Session.start at h
  dsimp only at h
  split_ifs at h
  cases hstart : args.start world.files (attended commands) breaks with
  | none =>
    rw [hstart] at h
    exact nomatch h
  | some e =>
  have he := hfst e hstart
  rw [hstart] at h
  cases output with
  | none =>
    obtain rfl := Option.some.inj h
    exact hr.same he rfl rfl
  | some name =>
    obtain rfl := Option.some.inj h
    exact hr.same he rfl rfl

end Rule.Lawful

end AceShell.LineEditor
