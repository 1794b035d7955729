import AceShell.Edit.Conserve

/-!
# Draining the source

W writes what is in the editor and then reads on in the current source, up to the first phantom it
meets (`drain_source`), whatever the state (`drainSource_writes`). That phantom need not be the one
of the current source: one that a P went back over waits on the `ahead` stack, with whatever is
behind it. So the document is what is saved and what is behind such a phantom (`bytes_passing`).
-/

namespace AceShell.LineEditor

open Edit Lines List Loop

variable {e e' : Edit} {line : Line} {fuel : ℕ}

/-! ## Writing the queue -/

theorem flushStep_spec (e : Edit) : (e.flushStep = (false, e) ∧ e.queue.count = 0) ∨
    ∃ line queue, e.queue.toList = line :: queue.toList ∧ queue.count + 1 = e.queue.count ∧
      e.flushStep = (true, { e with queue }.sinkWrite line) := by
  unfold flushStep
  cases hpop : e.queue.popFront with
  | none => exact Or.inl ⟨rfl, RingBuffer.popFront_eq_none _ hpop⟩
  | some popped =>
    obtain ⟨hlist, -, hcnt⟩ := RingBuffer.popFront_eq_some _ hpop
    exact Or.inr ⟨popped.1, popped.2, hlist, hcnt, rfl⟩

theorem flushStep_falls : Loop.Falls (fun _ => True) (fun e => e.queue.count) flushStep := by
  intro s _ hgo
  rcases flushStep_spec s with ⟨heq, -⟩ | ⟨line, queue, -, hcnt, heq⟩
  · rw [heq] at hgo
    exact nomatch hgo
  · rw [heq]
    exact ⟨trivial, by show queue.count < s.queue.count; omega⟩

theorem queueFlush_sink (e : Edit) : e.queueFlush.sink = e.out := by
  refine run_total _ out sink flushStep_falls ?_ ?_ trivial (Nat.lt_succ_self _)
  · intro s _ hgo
    rcases flushStep_spec s with ⟨heq, -⟩ | ⟨line, queue, hlist, -, heq⟩
    · rw [heq] at hgo
      exact nomatch hgo
    rw [heq]
    show s.sink ++ line.bytes ++ bytesOf queue.toList = s.out
    unfold out
    rw [hlist, bytesOf_cons, append_assoc]
  intro s _ hstop
  rcases flushStep_spec s with ⟨heq, hzero⟩ | ⟨line, queue, -, -, heq⟩
  · have hnil : s.queue.toList = [] := by
      rw [← length_eq_zero_iff, RingBuffer.length_toList, hzero]
    rw [heq]
    unfold out
    rw [hnil, bytesOf_nil, append_nil]
  · rw [heq] at hstop
    exact nomatch hstop

theorem queueFlush_keeps (e : Edit) :
    ∃ queue sink, queue.toList = [] ∧ e.queueFlush = { e with queue, sink } := by
  have hcnt : e.queueFlush.queue.count = 0 := by
    refine run_total _ (fun _ => 0) (fun s => s.queue.count) flushStep_falls
      (fun _ _ _ => rfl) ?_ trivial (Nat.lt_succ_self _)
    intro s _ hstop
    rcases flushStep_spec s with ⟨heq, hzero⟩ | ⟨line, queue, -, -, heq⟩
    · rw [heq]
      exact hzero
    · rw [heq] at hstop
      exact nomatch hstop
  have hkeeps : ∃ queue sink, e.queueFlush = { e with queue, sink } := by
    refine run_keeps (P := fun s : Edit => ∃ queue sink, s = { e with queue, sink }) ?_ _
      ⟨e.queue, e.sink, rfl⟩
    rintro s ⟨queue, sink, rfl⟩
    rcases flushStep_spec { e with queue, sink } with ⟨heq, -⟩ | ⟨line, queue', -, -, heq⟩
    · rw [heq]
      exact ⟨queue, sink, rfl⟩
    · rw [heq]
      exact ⟨queue', sink ++ line.bytes, rfl⟩
  obtain ⟨queue, sink, heq⟩ := hkeeps
  refine ⟨queue, sink, ?_, heq⟩
  rw [heq] at hcnt
  rw [← length_eq_zero_iff, RingBuffer.length_toList, ← hcnt]

/-! ## What reading does to a line -/

theorem applyGlobals_empty (capacity : ℕ) (globals : List Global) :
    (applyGlobals capacity globals []).1 = [] := by
  have hfind : ∀ (text : List UInt8) (qualifiers : Qualifiers),
      lineFind [] 0 text qualifiers = none := by
    intro text qualifiers
    unfold lineFind
    split_ifs with hempty
    · rfl
    have hlen : text.length ≠ 0 := fun hzero => hempty (length_eq_zero_iff.mp hzero)
    have hnone : ([] : List UInt8).length + 1 - text.length - 0 = 0 := by
      show 0 + 1 - text.length - 0 = 0
      omega
    rw [hnone]
    rfl
  have happly (global : Global) : global.applyTo capacity [] = { line := [], global } := by
    unfold Global.applyTo Loop.run Applying.step
    dsimp only
    rw [hfind]
  induction globals with
  | nil => rfl
  | cons global rest ih =>
  unfold applyGlobals
  split_ifs
  · exact ih
  · rw [happly]
    exact ih

namespace Edit

def rereadText (e : Edit) (text : List UInt8) : List UInt8 :=
  (applyGlobals e.capacity e.globals (e.cutText text)).1

def reread (e : Edit) (content : List UInt8) : List UInt8 :=
  bytes ((linesOf content).map fun line => ⟨e.rereadText line.text, line.newline⟩)

/-- What draining writes of the lines on the stack and of the source behind them. The first phantom
ends it. -/
def comes (e : Edit) (rest : List UInt8) : List Line → List UInt8
  | [] => e.reread rest
  | line :: ahead =>
    if line.phantom then []
    else TextLine.bytes ⟨e.arrivedText line, line.newline⟩ ++ e.comes rest ahead

theorem comes_cons (e : Edit) (rest : List UInt8) (h : line.phantom = false) (ahead : List Line)
    : e.comes rest (line :: ahead) =
      TextLine.bytes ⟨e.arrivedText line, line.newline⟩ ++ e.comes rest ahead := by
  rw [comes, h, if_neg Bool.false_ne_true]

def behind (e : Edit) : List Line := (e.ahead.dropWhile (!·.phantom)).tail

end Edit

structure SameReading (e e' : Edit) : Prop where
  width : e'.width = e.width
  capacity : e'.capacity = e.capacity
  trailing : e'.trailing = e.trailing
  globals : e'.globals.map Global.uncounted = e.globals.map Global.uncounted

namespace SameReading

variable {e e' e'' : Edit}

theorem refl (e : Edit) : SameReading e e := ⟨rfl, rfl, rfl, rfl⟩

section

variable (h : SameReading e e')
include h

theorem trans (h' : SameReading e' e'') : SameReading e e'' :=
  ⟨h'.width.trans h.width, h'.capacity.trans h.capacity, h'.trailing.trans h.trailing,
    h'.globals.trans h.globals⟩

theorem rereadText_eq (text : List UInt8) :
    e'.rereadText text = e.rereadText text := by
  unfold rereadText cutText
  rw [h.width, h.capacity, h.trailing]
  exact (applyGlobals_congr h.globals _ _).1

theorem reread_eq (content : List UInt8) :
    e'.reread content = e.reread content := by
  unfold reread
  simp only [h.rereadText_eq]

theorem arrivedText_eq (line : Line) :
    e'.arrivedText line = e.arrivedText line := by
  unfold arrivedText
  rw [h.capacity, (applyGlobals_congr h.globals _ _).1]

theorem comes_eq (rest : List UInt8) (ahead : List Line) :
    e'.comes rest ahead = e.comes rest ahead := by
  induction ahead with
  | nil => exact h.reread_eq rest
  | cons line ahead ih =>
    unfold comes
    rw [h.arrivedText_eq, ih]

end

end SameReading

/-! ## Lines that come -/

theorem shape_eq {text : TextLine} {phantom : Bool} (h : line.shape = (text, phantom)) :
    (line.text = text.text ∧ line.newline = text.newline) ∧ line.phantom = phantom := by
  obtain ⟨rfl, rfl⟩ := Prod.mk.inj h
  exact ⟨⟨rfl, rfl⟩, rfl⟩

theorem rest_take {s' : Source} (h : e.currentSource.rest = []) (h' : s'.rest = []) :
    (e.take line s').currentSource.rest = [] := by
  by_cases hopen : e.source < e.sources.length
  · rw [currentSource_take hopen]
    exact h'
  have hsame : (e.take line s').currentSource = e.currentSource := by
    show (e.sources.set e.source s').getD e.source default = e.sources.getD e.source default
    rw [set_eq_of_length_le (not_lt.mp hopen)]
  rw [hsame]
  exact h

theorem reread_of_linesOf {content rest : List UInt8} {first : TextLine}
    (h : linesOf content = first :: linesOf rest) (e : Edit) :
    e.reread content =
      TextLine.bytes ⟨e.rereadText first.text, first.newline⟩ ++ e.reread rest := by
  unfold reread
  rw [h, map_cons, bytes_cons]

theorem Line.bytes_eq (h : line.phantom = false) :
    line.bytes = TextLine.bytes ⟨line.text, line.newline⟩ := by
  unfold Line.bytes
  rw [h]
  rfl

theorem Line.bytes_phantom (h : line.phantom = true) (htext : line.text = []) :
    line.bytes = [] := by
  unfold Line.bytes
  rw [h, htext]
  rfl

theorem arrivedText_of_cut {text : List UInt8} (hproc : line.processed = false)
    (htext : line.text = e.cutText text) : e.arrivedText line = e.rereadText text := by
  unfold arrivedText rereadText
  rw [hproc, if_neg Bool.false_ne_true, htext]

structure Pulls (e : Edit) (line : Line) (e' : Edit) : Prop where
  reading : SameReading e e'
  current : e'.current = e.current
  queue : e'.queue = e.queue
  sink : e'.sink = e.sink
  comes : line.phantom = false → e.comes e.currentSource.rest e.ahead =
    TextLine.bytes ⟨e.arrivedText line, line.newline⟩ ++ e.comes e'.currentSource.rest e'.ahead
  behind : line.phantom = false → e'.behind = e.behind
  fewer : line.phantom = false → e'.toCome < e.toCome
  nothing : line.phantom = true → e.comes e.currentSource.rest e.ahead = []
  left : line.phantom = true → e'.ahead = e.behind
  ended : line.phantom = true → e.ahead = [] →
    e.arrivedText line = [] ∧ e.comes e'.currentSource.rest e'.ahead = []

theorem pullLine_pulls (e : Edit) :
    (e.pullLine = (none, e) ∧ e.ahead = [] ∧ e.currentSource.rest = []) ∨
      ∃ line e', e.pullLine = (some line, e') ∧ Pulls e line e' := by
  rcases pullLine_cases e with ⟨hahead, hrest, heq⟩ | ⟨line, ahead, hahead, heq⟩ |
    ⟨line, s', ver, hahead, hproc, -, hbrings, heq⟩
  · exact Or.inl ⟨heq, hahead, hrest⟩
  · refine Or.inr ⟨line, _, heq, ⟨⟨rfl, rfl, rfl, rfl⟩, rfl, rfl, rfl, ?_, ?_, ?_, ?_, ?_, ?_⟩⟩
    · intro hphantom
      rw [hahead]
      exact e.comes_cons _ hphantom ahead
    · intro hphantom
      unfold behind
      rw [hahead, dropWhile_cons_of_pos (by rw [hphantom]; rfl)]
    · exact fun hphantom => toCome_pullLine heq (.inl hphantom)
    · intro hphantom
      rw [hahead]
      exact if_pos hphantom
    · intro hphantom
      unfold behind
      rw [hahead, dropWhile_cons_of_neg (by rw [hphantom]; exact Bool.false_ne_true)]
      rfl
    · intro _ hnil
      exact absurd (hahead.symm.trans hnil) (cons_ne_nil _ _)
  have hbehind : e.behind = [] := by
    unfold behind
    rw [hahead]
    rfl
  have hstack : ({ e with ver }.take line s').ahead = [] := hahead
  have hfewer := fun hphantom => toCome_pullLine heq (.inl hphantom)
  cases hbrings with
  | next first hlines hshape hended hcounts =>
    obtain ⟨⟨htext, hnewline⟩, hphantom⟩ := shape_eq hshape
    have hyes : line.phantom ≠ true := by
      rw [hphantom]
      exact Bool.false_ne_true
    have hsrc : ({ e with ver }.take line s').currentSource = s' :=
      currentSource_take ((Brings.next first hlines hshape hended hcounts).source_lt hphantom)
    refine Or.inr ⟨line, _, heq, ⟨⟨rfl, rfl, rfl, rfl⟩, rfl, rfl, rfl, fun _ => ?_, fun _ => ?_,
      hfewer, (absurd · hyes), (absurd · hyes), (absurd · hyes)⟩⟩
    · rw [hsrc, hahead, arrivedText_of_cut hproc htext, hnewline]
      exact reread_of_linesOf hlines e
    rw [hbehind]
    unfold behind
    rw [hstack]
    rfl
  | phantom hrest _ hshape hrest' =>
  obtain ⟨⟨htext, -⟩, hphantom⟩ := shape_eq hshape
  have hno : line.phantom ≠ false := by
    rw [hphantom]
    exact Bool.noConfusion
  refine Or.inr ⟨line, _, heq, ⟨⟨rfl, rfl, rfl, rfl⟩, rfl, rfl, rfl, (absurd · hno),
    (absurd · hno), hfewer, fun _ => ?_, fun _ => ?_, fun _ _ => ⟨?_, ?_⟩⟩⟩
  · rw [hahead, hrest]
    rfl
  · rw [hbehind]
    exact hahead
  · unfold arrivedText
    rw [hproc, htext]
    exact applyGlobals_empty _ _
  · have hrest'' : ({ e with ver }.take line s').currentSource.rest = [] := rest_take hrest hrest'
    rw [hrest'', hstack]
    rfl

/-! ## Draining -/

theorem queue_arrival (e : Edit) (hphantom : line.phantom = false) :
    ∃ e', (let (line, e) := e.lineArrive line; e.queuePush line) = e' ∧ SameReading e e' ∧
      e'.current = e.current ∧ e'.ahead = e.ahead ∧ e'.currentSource = e.currentSource ∧
      e'.out = e.out ++ TextLine.bytes ⟨e.arrivedText line, line.newline⟩ := by
  obtain ⟨number, renumber, globals, ver, aborted, harrive, hglobals⟩ := lineArrive_eq e line
  rw [harrive]
  obtain ⟨flushed, queue, hlist, hpush⟩ := queuePush_spec
    { e with pointer := 0, renumber, globals, ver, aborted }
    { line with number, processed := true, text := e.arrivedText line }
  refine ⟨_, hpush, ⟨rfl, rfl, rfl, hglobals⟩, rfl, rfl, rfl, ?_⟩
  rw [out_passOn hlist, bytesOf_cons, bytesOf_nil, append_nil]
  exact congrArg (e.out ++ ·) (@Line.bytes_eq { line with
    number, processed := true, text := e.arrivedText line } hphantom)

/-- A round of draining is the last one, or a line has gone from what comes to the file and the
queue. -/
structure DrainStep (e : Edit) (more : Bool) (e' : Edit) : Prop where
  reading : SameReading e e'
  current : e'.current = e.current
  comes : more = true → e'.out ++ e.comes e'.currentSource.rest e'.ahead =
    e.out ++ e.comes e.currentSource.rest e.ahead
  behind : more = true → e'.behind = e.behind
  fewer : more = true → e'.toCome < e.toCome
  done : more = false → e'.out = e.out ++ e.comes e.currentSource.rest e.ahead
  left : more = false → e'.ahead = e.behind

theorem drainStep_spec (e : Edit) : DrainStep e e.drainStep.1 e.drainStep.2 := by
  unfold drainStep
  rcases pullLine_pulls e with ⟨heq, hahead, hrest⟩ | ⟨line, e', heq, hpulls⟩
  · rw [heq]
    refine ⟨SameReading.refl e, rfl, (nomatch ·), (nomatch ·), (nomatch ·), fun _ => ?_,
      fun _ => ?_⟩
    · rw [hahead, hrest]
      exact (append_nil e.out).symm
    · unfold behind
      rw [hahead]
      rfl
  have hout : e'.out = e.out := by
    unfold out
    rw [hpulls.queue, hpulls.sink]
  rw [heq]
  dsimp only
  cases hphantom : line.phantom with
  | true =>
    refine ⟨hpulls.reading, hpulls.current, (nomatch ·), (nomatch ·), (nomatch ·), fun _ => ?_,
      fun _ => hpulls.left hphantom⟩
    rw [hpulls.nothing hphantom, append_nil]
    exact hout
  | false =>
  obtain ⟨e'', hqueued, hreading, hcur, hstack, hsrc, hwritten⟩ := queue_arrival e' hphantom
  rw [if_neg Bool.false_ne_true]
  dsimp only at hqueued ⊢
  rw [hqueued]
  refine ⟨hpulls.reading.trans hreading, hcur.trans hpulls.current, fun _ => ?_, fun _ => ?_,
    fun _ => ?_, (nomatch ·), (nomatch ·)⟩
  · rw [hwritten, hout, hsrc, hstack, hpulls.comes hphantom, hpulls.reading.arrivedText_eq,
      append_assoc]
  · rw [← hpulls.behind hphantom]
    unfold behind
    rw [hstack]
  have hcome : e''.toCome = e'.toCome := by
    unfold toCome
    rw [hstack, hsrc]
  rw [hcome]
  exact hpulls.fewer hphantom

theorem drainStep_falls (e : Edit) : Loop.Falls (SameReading e) toCome drainStep :=
  fun s hreading hgo => ⟨hreading.trans (drainStep_spec s).reading, (drainStep_spec s).fewer hgo⟩

theorem out_run_drainStep (e : Edit) (hfuel : e.toCome < fuel) :
    (run drainStep fuel e).out = e.out ++ e.comes e.currentSource.rest e.ahead := by
  refine run_total toCome (fun s => s.out ++ e.comes s.currentSource.rest s.ahead)
    out (drainStep_falls e) ?_ ?_ (SameReading.refl e) hfuel
  · intro s hreading hgo
    have hcomes := (drainStep_spec s).comes hgo
    rwa [hreading.comes_eq, hreading.comes_eq] at hcomes
  · intro s hreading hstop
    have hdone := (drainStep_spec s).done hstop
    rwa [hreading.comes_eq] at hdone

theorem ahead_run_drainStep (e : Edit) (hfuel : e.toCome < fuel) :
    (run drainStep fuel e).ahead = e.behind :=
  run_total toCome behind ahead (drainStep_falls e)
    (fun s _ hgo => (drainStep_spec s).behind hgo) (fun s _ hstop => (drainStep_spec s).left hstop)
    (SameReading.refl e) hfuel

theorem drainSource_writes (e : Edit) :
    e.drainSource.sink =
      e.out ++ bytesOf e.current.toList ++ e.comes e.currentSource.rest e.ahead := by
  obtain ⟨flushed, queue, hlist, heq⟩ := pushCurrent_spec e
  have hdrain : e.drainSource.sink = (e.passOn flushed queue).out ++
      e.comes e.currentSource.rest e.ahead := by
    have hreading : SameReading e { e.passOn flushed queue with current := none } :=
      ⟨rfl, rfl, rfl, rfl⟩
    unfold drainSource
    rw [queueFlush_sink, heq, out_run_drainStep _ (Nat.lt_succ_self _), hreading.comes_eq]
    rfl
  rw [hdrain, out_passOn hlist]

theorem drainSource_congr (hreading : SameReading e e') (hout : e'.out = e.out)
    (hcur : e'.current = e.current) (hahead : e'.ahead = e.ahead)
    (hsrc : e'.currentSource = e.currentSource) : e'.drainSource.sink = e.drainSource.sink := by
  rw [drainSource_writes, drainSource_writes, hreading.comes_eq, hout, hcur, hahead, hsrc]

/-! ## Draining a sound state -/

section Sound

variable {files : Files} {held : List Line}

namespace Edit

def remaining (e : Edit) : List TextLine := (linesOf e.currentSource.rest).map stripped

def coming (e : Edit) : List UInt8 :=
  bytesOf (e.ahead.takeWhile (!·.phantom)) ++
    if e.ahead.all (!·.phantom) then bytes e.remaining else []

end Edit

theorem reread_sound (h : Sound files e) : e.reread e.currentSource.rest = bytes e.remaining := by
  refine congrArg bytes (map_congr_left fun line hline => ?_)
  unfold rereadText cutText
  rw [h.plain, h.strips, take_of_length_le ((h.followed e.source h.chosen).fits line hline)]
  rfl

theorem comes_sound (h : Sound files e) (ahead : List Line) :
    e.comes e.currentSource.rest ahead = bytesOf (ahead.takeWhile (!·.phantom)) ++
      if ahead.all (!·.phantom) then bytes e.remaining else [] := by
  induction ahead with
  | nil => exact reread_sound h
  | cons line ahead ih =>
  cases hphantom : line.phantom with
  | true => simp [comes, hphantom]
  | false =>
    rw [e.comes_cons _ hphantom, ih, arrivedText_plain h.plain, ← Line.bytes_eq hphantom]
    simp [hphantom]

/-- **What is saved.** It is what was written, the queue, the current line and what is to come. -/
theorem drainSource_sink (h : Sound files e) :
    e.drainSource.sink = e.sink ++ bytesOf (e.queue.toList ++ e.current.toList) ++ e.coming := by
  rw [drainSource_writes, comes_sound h, bytesOf_append, ← append_assoc e.sink]
  rfl

/-! ## What is lost -/

namespace Edit

def passing (e : Edit) : List TextLine := textLines (e.taken.map Prod.snd) ++ e.remaining

/-- The lines that draining does not get to: those behind a phantom on the stack, and then those of
the source. -/
def behindPhantom (e : Edit) : List TextLine :=
  if e.ahead.all (!·.phantom) then []
  else textLines (e.ahead.dropWhile (!·.phantom)) ++ e.remaining

end Edit

theorem Tracks.takenEmpty (h : Tracks files held e) :
    ∀ line ∈ e.taken.map Prod.snd, line.Empty := by
  intro line hline
  obtain ⟨entry, hent, rfl⟩ := mem_map.mp hline
  refine (h.followed entry.1 (h.known entry hent)).empty entry.2 ?_
  exact mem_map_of_mem (mem_filter.mpr ⟨hent, beq_self_eq_true _⟩)

theorem Tracks.heldEmpty (h : Tracks files held e) : ∀ line ∈ held, line.Empty := by
  intro line hline
  obtain ⟨gone, -, hall⟩ := h.conserved
  have hmem : line.shape ∈ (e.taken.map Prod.snd).map Line.shape := by
    rw [← hall]
    exact mem_map_of_mem (mem_append_right gone hline)
  obtain ⟨line', hline', hshape⟩ := mem_map.mp hmem
  have hempty := h.takenEmpty line' hline'
  unfold Line.shape at hshape
  simp only [Prod.mk.injEq, TextLine.mk.injEq] at hshape
  unfold Line.Empty at hempty ⊢
  rwa [hshape.1.1, hshape.1.2, hshape.2] at hempty

theorem bytes_passing (h : Sound files e) :
    bytes e.passing = e.drainSource.sink ++ bytes e.behindPhantom := by
  obtain ⟨gone, hsink, hall⟩ := h.conserved
  have hread : bytes (textLines (e.taken.map Prod.snd)) =
      e.sink ++ bytesOf (e.queue.toList ++ e.current.toList) ++ bytesOf e.ahead := by
    rw [← bytesOf_eq_bytes h.takenEmpty, ← bytesOf_of_shape hall, bytesOf_append, ← hsink]
    unfold held
    rw [bytesOf_append _ e.ahead, append_assoc]
  have hahead : ∀ line ∈ e.ahead, line.Empty := fun line hline =>
    h.heldEmpty line (mem_append_right _ hline)
  unfold passing behindPhantom
  rw [bytes_append, hread, drainSource_sink h]
  unfold coming
  by_cases hnone : e.ahead.all (!·.phantom) = true
  · rw [if_pos hnone, if_pos hnone, bytes_nil, append_nil,
      takeWhile_eq_self_iff.mpr (all_eq_true.mp hnone), append_assoc]
  have hsplit := takeWhile_append_dropWhile (p := fun l : Line => !l.phantom) (l := e.ahead)
  have hbehind : bytesOf (e.ahead.dropWhile (!·.phantom)) =
      bytes (textLines (e.ahead.dropWhile (!·.phantom))) :=
    bytesOf_eq_bytes fun line hline => hahead line (dropWhile_subset _ hline)
  rw [if_neg hnone, if_neg hnone, append_nil, bytes_append, ← hbehind, ← append_assoc,
    append_assoc _ (bytesOf (e.ahead.takeWhile _)), ← bytesOf_append, hsplit]

theorem lineFeed_notMem_passing (h : Sound files e) : ∀ line ∈ e.passing, lineFeed ∉ line.text := by
  have hfile : ∀ (content : List UInt8) (line : TextLine),
      line ∈ (linesOf content).map stripped → lineFeed ∉ line.text := by
    intro content line hline
    obtain ⟨line', hline', rfl⟩ := mem_map.mp hline
    intro hmem
    apply lineFeed_notMem_linesOf hline'
    exact mem_reverse.mp (dropWhile_subset _ (mem_reverse.mp hmem))
  intro line hline
  rcases mem_append.mp hline with hline | hline
  · obtain ⟨it, hit, rfl⟩ := mem_map.mp hline
    obtain ⟨hit, hphantom⟩ := mem_filter.mp hit
    obtain ⟨entry, hent, rfl⟩ := mem_map.mp hit
    refine hfile (e.sourceAt entry.1).content _ ?_
    rw [(h.followed entry.1 (h.known entry hent)).read]
    refine mem_append_left _ (mem_map_of_mem (mem_filter.mpr ⟨?_, hphantom⟩))
    exact mem_map_of_mem (mem_filter.mpr ⟨hent, beq_self_eq_true _⟩)
  · exact hfile _ line hline

/-- The saved file has the lines of the document exactly if none was lost and none but the last
lacks its line feed. -/
theorem linesOf_saved_iff (h : Sound files e) :
    linesOf e.drainSource.sink = e.passing.filter TextLine.visible ↔
      (∀ line ∈ e.behindPhantom, line.visible = false) ∧
      ∀ line ∈ (e.passing.filter TextLine.visible).dropLast, line.newline = true := by
  have hbytes := bytes_passing h
  rw [← bytes_filter_visible] at hbytes
  rw [← bytes_eq_nil_iff, ← unbroken_iff fun line hline =>
    ⟨lineFeed_notMem_passing h line (mem_of_mem_filter hline), (mem_filter.mp hline).2⟩]
  constructor
  · intro hlines
    constructor
    · rw [← hlines, bytes_linesOf] at hbytes
      exact self_eq_append_right.mp hbytes
    · rw [← hlines]
      exact unbroken_linesOf _
  · rintro ⟨hlost, hunbroken⟩
    rw [hlost, append_nil] at hbytes
    rw [← hbytes, linesOf_bytes hunbroken]

end Sound

end AceShell.LineEditor
