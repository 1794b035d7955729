import AceShell.Edit.Store
import AceShell.Lib.Lines

/-!
# Lines that come and go

What the operations on the store can do, in any state. A line that comes is the one on the stack or
the next one of the source, cut and stripped (`pullLine_cases`). Its arrival applies the global
changes and counts them (`lineArrive_eq`). A line that goes into the full queue pushes the oldest
one into the file (`queuePush_spec`).
-/

namespace AceShell.LineEditor

open Edit Lines Text List

/-! ## Global changes do not depend on their counts -/

def Global.uncounted (global : Global) : Global := { global with count := 0 }

theorem Global.eq_of_uncounted {global global' : Global}
    (h : global'.uncounted = global.uncounted) : ∃ count, global' = { global with count } := by
  obtain ⟨id', type', enabled', count', qualifiers', find', replacement'⟩ := global'
  obtain ⟨rfl, rfl, rfl, -, rfl, rfl, rfl⟩ := Global.mk.inj h
  exact ⟨count', rfl⟩

theorem Applying.run_count (capacity rounds count : ℕ) (s : Applying) :
    ∃ count', Loop.run (step capacity) rounds { s with global := { s.global with count } } =
      { Loop.run (step capacity) rounds s with global := { s.global with count := count' } } := by
  induction rounds generalizing s count with
  | zero => exact ⟨count, rfl⟩
  | succ rounds ih =>
  have hchange (index : ℕ) : ({ s.global with count } : Global).change capacity s.line index =
      s.global.change capacity s.line index := rfl
  unfold Loop.run step
  dsimp only
  cases lineFind s.line s.start s.global.find s.global.qualifiers with
  | none => exact ⟨count, rfl⟩
  | some index =>
  dsimp only
  rw [hchange]
  generalize s.global.change capacity s.line index = outcome
  obtain ⟨line', _ | resume⟩ := outcome
  · exact ⟨count, rfl⟩
  · exact ih (count + 1) { s with
      line := line', global := { s.global with count := s.global.count + 1 }, start := resume }

theorem applyGlobals_congr {globals globals' : List Global}
    (h : globals'.map Global.uncounted = globals.map Global.uncounted) (capacity : ℕ)
    (line : List UInt8) :
    (applyGlobals capacity globals' line).1 = (applyGlobals capacity globals line).1 ∧
      (applyGlobals capacity globals' line).2.1.map Global.uncounted =
        globals.map Global.uncounted := by
  induction globals generalizing globals' line with
  | nil =>
    obtain rfl : globals' = [] := map_eq_nil_iff.mp h
    exact ⟨rfl, rfl⟩
  | cons global rest ih =>
  obtain ⟨global', rest', rfl⟩ : ∃ global' rest', globals' = global' :: rest' := by
    cases globals' with
    | nil => exact absurd h.symm (cons_ne_nil _ _)
    | cons global' rest' => exact ⟨global', rest', rfl⟩
  obtain ⟨hfst, hrest⟩ := cons.inj h
  obtain ⟨count, rfl⟩ := Global.eq_of_uncounted hfst
  obtain ⟨count', heq⟩ := Applying.run_count capacity (line.length + 1) count { line, global }
  unfold applyGlobals
  split_ifs
  · obtain ⟨htext, hglobals⟩ := ih hrest line
    exact ⟨htext, congrArg (global.uncounted :: ·) hglobals⟩
  unfold Global.applyTo
  rw [heq]
  generalize Loop.run _ _ { line, global : Applying } = s
  obtain ⟨line', _, _, _ | _⟩ := s
  · exact ⟨rfl, congrArg (global.uncounted :: ·) hrest⟩
  · obtain ⟨htext, hglobals⟩ := ih hrest line'
    exact ⟨htext, congrArg (global.uncounted :: ·) hglobals⟩

/-! ## Arriving -/

variable {e e' : Edit} {line : Line} {s' : Source}

namespace Edit

def cutText (e : Edit) (text : List UInt8) : List UInt8 :=
  if e.trailing then text.take e.width else stripBlanks (text.take e.width)

def arrivedText (e : Edit) (line : Line) : List UInt8 :=
  if line.processed then line.text else (applyGlobals e.capacity e.globals line.text).1

end Edit

theorem lineArrive_eq (e : Edit) (line : Line) : ∃ number renumber globals ver aborted,
    e.lineArrive line = ({ line with number, processed := true, text := e.arrivedText line },
      { e with pointer := 0, renumber, globals, ver, aborted }) ∧
    globals.map Global.uncounted = e.globals.map Global.uncounted := by
  have hglobals := (@applyGlobals_congr e.globals e.globals rfl e.capacity line.text).2
  unfold lineArrive arrivedText
  by_cases hproc : line.processed = true
  · rw [if_pos hproc, if_pos hproc, ← hproc]
    exact ⟨line.number, e.renumber, e.globals, e.ver, e.aborted, rfl, rfl⟩
  rw [if_neg hproc, if_neg hproc]
  by_cases hnum : e.renumber > 0
  · rw [if_pos hnum]
    dsimp only
    generalize applyGlobals e.capacity e.globals line.text = outcome at hglobals ⊢
    obtain ⟨text, globals, _ | _⟩ := outcome
    all_goals exact ⟨_, _, globals, _, _, rfl, hglobals⟩
  · rw [if_neg hnum]
    dsimp only
    generalize applyGlobals e.capacity e.globals line.text = outcome at hglobals ⊢
    obtain ⟨text, globals, _ | _⟩ := outcome
    all_goals exact ⟨_, _, globals, _, _, rfl, hglobals⟩

/-! ## Reading -/

def Line.shape (line : Line) : TextLine × Bool := (⟨line.text, line.newline⟩, line.phantom)

/-- Lines are numbered in the order of reading. -/
structure Counts (e : Edit) (line : Line) (s' : Source) : Prop where
  number : line.number = e.currentSource.nextNumber
  next : s'.nextNumber = e.currentSource.nextNumber + 1

/-- Reading on in the source brings its next line, or behind the last one the phantom. -/
inductive Brings (e : Edit) (line : Line) (s' : Source) : Prop
  | next (first : TextLine) (hlines : linesOf e.currentSource.rest = first :: linesOf s'.rest)
      (hshape : line.shape = (⟨e.cutText first.text, first.newline⟩, false))
      (hended : s'.ended = e.currentSource.ended) (hcounts : Counts e line s')
  | phantom (hrest : e.currentSource.rest = []) (hopen : e.currentSource.ended = false)
      (hshape : line.shape = (⟨[], false⟩, true)) (hrest' : s'.rest = [])
      (hended : s'.ended = true) (hcounts : Counts e line s')

theorem sourceLine_cases (e : Edit) :
    (e.currentSource.rest = [] ∧ e.sourceLine = (none, e)) ∨
    ∃ line s' ver, line.processed = false ∧ s'.content = e.currentSource.content ∧
      Brings e line s' ∧ e.sourceLine = (some line, { e with ver }.take line s') := by
  unfold sourceLine
  dsimp only
  by_cases hrest : e.currentSource.rest = []
  · rw [if_pos hrest]
    cases hended : e.currentSource.ended with
    | true => exact Or.inl ⟨hrest, if_pos rfl⟩
    | false =>
    refine Or.inr ⟨_, _, e.ver, ?_, ?_, ?_, if_neg Bool.false_ne_true⟩
    · rfl
    · rfl
    · exact Brings.phantom hrest hended rfl hrest rfl ⟨rfl, rfl⟩
  rw [if_neg hrest]
  right
  by_cases hlong : e.width < (e.currentSource.rest.takeWhile (· != lf)).length
  · rw [if_pos hlong]
    refine ⟨_, _, _, ?_, ?_, ?_, rfl⟩
    · rfl
    · rfl
    · exact Brings.next _ (linesOf_eq_cons hrest) rfl rfl ⟨rfl, rfl⟩
  · rw [if_neg hlong]
    refine ⟨_, _, _, ?_, ?_, ?_, rfl⟩
    · rfl
    · rfl
    · exact Brings.next _ (linesOf_eq_cons hrest) rfl rfl ⟨rfl, rfl⟩

theorem pullLine_cases (e : Edit) :
    (e.ahead = [] ∧ e.currentSource.rest = [] ∧ e.pullLine = (none, e)) ∨
    (∃ line rest, e.ahead = line :: rest ∧ e.pullLine = (some line, { e with ahead := rest })) ∨
    ∃ line s' ver, e.ahead = [] ∧ line.processed = false ∧
      s'.content = e.currentSource.content ∧ Brings e line s' ∧
      e.pullLine = (some line, { e with ver }.take line s') := by
  by_cases hahead : e.ahead = []
  · have hpull : e.pullLine = e.sourceLine := by
      unfold pullLine
      rw [hahead]
    rw [hpull]
    rcases sourceLine_cases e with ⟨hrest, heq⟩ | ⟨line, s', ver, hproc, hcontent, hbrings, heq⟩
    · exact Or.inl ⟨hahead, hrest, heq⟩
    · exact Or.inr (Or.inr ⟨line, s', ver, hahead, hproc, hcontent, hbrings, heq⟩)
  · obtain ⟨line, rest, hcons⟩ := exists_cons_of_ne_nil hahead
    refine Or.inr (Or.inl ⟨line, rest, hcons, ?_⟩)
    unfold pullLine
    rw [hcons]

theorem currentSource_take (h : e.source < e.sources.length) :
    (e.take line s').currentSource = s' := by
  unfold Edit.currentSource Edit.take
  rw [getD_eq_getElem?_getD, getElem?_set_self h]
  rfl

theorem source_lt_of_rest (h : e.currentSource.rest ≠ []) : e.source < e.sources.length := by
  by_contra hnot
  refine h ?_
  unfold currentSource
  rw [getD_eq_getElem?_getD, getElem?_eq_none (not_lt.mp hnot)]
  rfl

theorem Brings.source_lt (h : Brings e line s') (hphantom : line.phantom = false) :
    e.source < e.sources.length := by
  cases h with
  | next first hlines =>
    refine source_lt_of_rest fun hnil => ?_
    rw [hnil] at hlines
    exact nomatch hlines
  | phantom _ _ hshape => exact nomatch hphantom.symm.trans (congrArg Prod.snd hshape)

theorem toCome_pullLine (hpull : e.pullLine = (some line, e'))
    (hopen : line.phantom = false ∨ e.source < e.sources.length) : e'.toCome < e.toCome := by
  rcases pullLine_cases e with
    ⟨-, -, heq⟩ | ⟨line', rest, hahead, heq⟩ | ⟨line', s', ver, hahead, -, -, hbrings, heq⟩
  · exact nomatch heq.symm.trans hpull
  · obtain ⟨-, rfl⟩ := Prod.mk.inj (heq.symm.trans hpull)
    unfold toCome
    rw [hahead, length_cons]
    show rest.length + e.currentSource.rest.length + (if e.currentSource.ended then 0 else 1) < _
    omega
  obtain ⟨hline, rfl⟩ := Prod.mk.inj (heq.symm.trans hpull)
  obtain rfl := Option.some.inj hline
  have hnow : ({ e with ver }.take line' s').currentSource = s' :=
    currentSource_take (hopen.elim hbrings.source_lt id)
  have hempty : ({ e with ver }.take line' s').ahead = [] := hahead
  unfold toCome
  rw [hnow, hempty, hahead]
  cases hbrings with
  | next first hlines _ hended =>
    have hshorter := length_lt_of_linesOf hlines
    rw [hended]
    omega
  | phantom hrest hopen _ hrest' hended =>
    rw [hrest, hopen, hrest', hended]
    exact Nat.lt_succ_self _

/-! ## Lines that go -/

namespace Edit

def held (e : Edit) : List Line := e.queue.toList ++ e.current.toList ++ e.ahead

def passOn (e : Edit) (lines : List Line) (queue : RingBuffer Line) : Edit :=
  { e with queue, sink := e.sink ++ bytesOf lines }

def out (e : Edit) : List UInt8 := e.sink ++ bytesOf e.queue.toList

end Edit

theorem enqueue_eq (h : e.queue.count < e.queue.limit) :
    e.enqueue line = { e with queue := e.queue.pushBack line h } := by
  unfold enqueue
  rw [dif_pos h]

theorem queuePush_last (e : Edit) (line : Line) :
    ∃ flushed kept queue, flushed ++ kept = e.queue.toList ∧ queue.toList = kept ++ [line] ∧
      e.queuePush line = e.passOn flushed queue := by
  unfold queuePush
  split_ifs with hfull
  · cases hpop : e.queue.popFront with
    | none =>
      have hzero := RingBuffer.popFront_eq_none _ hpop
      have hpos : 0 < e.queue.limit := e.queue.slots_pos
      omega
    | some popped =>
      obtain ⟨oldest, queue⟩ := popped
      obtain ⟨hlist, hlim, hcnt⟩ := RingBuffer.popFront_eq_some _ hpop
      have hroom : queue.count < queue.limit := by omega
      refine ⟨[oldest], queue.toList, queue.pushBack line hroom, hlist.symm,
        RingBuffer.toList_pushBack _ _ _, ?_⟩
      dsimp only [sinkWrite]
      rw [enqueue_eq hroom]
      unfold passOn
      rw [bytesOf_cons, bytesOf_nil, append_nil]
  · have hroom : e.queue.count < e.queue.limit := Nat.lt_of_le_of_ne e.queue.count_le hfull
    refine ⟨[], e.queue.toList, e.queue.pushBack line hroom, rfl,
      RingBuffer.toList_pushBack _ _ _, ?_⟩
    rw [enqueue_eq hroom]
    unfold passOn
    rw [bytesOf_nil, append_nil]

theorem queuePush_spec (e : Edit) (line : Line) :
    ∃ flushed queue, flushed ++ queue.toList = e.queue.toList ++ [line] ∧
      e.queuePush line = e.passOn flushed queue := by
  obtain ⟨flushed, kept, queue, hold, hnew, hpush⟩ := queuePush_last e line
  refine ⟨flushed, queue, ?_, hpush⟩
  rw [hnew, ← append_assoc, hold]

theorem pushCurrent_spec (e : Edit) :
    ∃ flushed queue, flushed ++ queue.toList = e.queue.toList ++ e.current.toList ∧
      e.pushCurrent = e.passOn flushed queue := by
  unfold pushCurrent
  cases hcur : e.current with
  | some line => exact queuePush_spec e line
  | none =>
    refine ⟨[], e.queue, (append_nil _).symm, ?_⟩
    unfold passOn
    rw [bytesOf_nil, append_nil]

theorem out_passOn {flushed lines : List Line} {queue : RingBuffer Line}
    (h : flushed ++ queue.toList = e.queue.toList ++ lines) :
    (e.passOn flushed queue).out = e.out ++ bytesOf lines := by
  show e.sink ++ bytesOf flushed ++ bytesOf queue.toList = e.sink ++ bytesOf e.queue.toList ++ _
  rw [append_assoc, ← bytesOf_append, h, bytesOf_append, append_assoc]

/-! ## Moving -/

theorem nextLine_cases (e : Edit) : (∃ text, e.nextLine = (false, e.report text)) ∨
    ∃ line e', e.pullLine = (some line, e') ∧
      e.nextLine = (true, e'.pushCurrent.arrive line) := by
  unfold nextLine
  split_ifs
  · exact Or.inl ⟨_, rfl⟩
  rcases pullLine_cases e with ⟨-, -, heq⟩ | ⟨line, rest, -, heq⟩ | ⟨line, s', ver, -, -, -, -, heq⟩
  · rw [heq]
    exact Or.inl ⟨_, rfl⟩
  all_goals
    rw [heq]
    exact Or.inr ⟨_, _, rfl, rfl⟩

/-- What passing on to a line leaves as it is. -/
structure Onward (e e' : Edit) : Prop where
  sources : e'.sources = e.sources
  source : e'.source = e.source
  ahead : e'.ahead = e.ahead

theorem onward_arrive (e : Edit) (line : Line) : Onward e (e.pushCurrent.arrive line) := by
  obtain ⟨flushed, queue, -, hpush⟩ := pushCurrent_spec e
  obtain ⟨number, renumber, globals, ver, aborted, harrive, -⟩ :=
    lineArrive_eq (e.passOn flushed queue) line
  rw [hpush]
  unfold arrive
  rw [harrive]
  exact ⟨rfl, rfl, rfl⟩

theorem Onward.toCome_eq (h : Onward e e') : e'.toCome = e.toCome := by
  unfold toCome currentSource
  rw [h.ahead, h.sources, h.source]

theorem source_pullLine (hpull : e.pullLine = (some line, e')) :
    e'.source = e.source ∧ e'.sources.length = e.sources.length := by
  rcases pullLine_cases e with
    ⟨-, -, heq⟩ | ⟨line', rest, -, heq⟩ | ⟨line', s', ver, -, -, -, -, heq⟩
  · exact nomatch heq.symm.trans hpull
  · obtain ⟨-, rfl⟩ := Prod.mk.inj (heq.symm.trans hpull)
    exact ⟨rfl, rfl⟩
  · obtain ⟨-, rfl⟩ := Prod.mk.inj (heq.symm.trans hpull)
    exact ⟨rfl, length_set⟩

theorem source_nextLine (e : Edit) :
    e.nextLine.2.source = e.source ∧ e.nextLine.2.sources.length = e.sources.length := by
  rcases nextLine_cases e with ⟨text, heq⟩ | ⟨line, e', hpull, heq⟩
  · rw [heq]
    exact ⟨rfl, rfl⟩
  · rw [heq, (onward_arrive e' line).source, (onward_arrive e' line).sources]
    exact source_pullLine hpull

theorem length_sources_previousLine : e.previousLine.2.sources.length = e.sources.length := by
  unfold previousLine queuePop
  cases e.queue.popBack with
  | none => rfl
  | some popped => rfl

end AceShell.LineEditor
