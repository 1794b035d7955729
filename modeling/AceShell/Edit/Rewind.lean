import AceShell.Edit.Drain
import AceShell.Edit.Session

/-!
# Rewinding

REWIND drains the source into the output file and goes on with that file as the source. Its lines
are then read as the lines of any source are: they are cut at the width, lose their trailing blanks
unless TR+ was given, and every global change is applied to them once more. So W after REWIND writes
what W alone would have written, read in this way (`rewind_rereads`).
-/

namespace AceShell.LineEditor

open Edit Lines Text List Option

variable {e e' : Edit}

/-! ## The state behind it -/

structure Drained (e e' : Edit) : Prop where
  reading : SameReading e e'
  current : e'.current = none
  ahead : e'.ahead = e.behind
  queue : e'.queue.toList = []

theorem drained_drainSource (e : Edit) : Drained e e.drainSource := by
  obtain ⟨flushed, queue, -, heq⟩ := pushCurrent_spec e
  unfold drainSource
  rw [heq]
  have hahead := ahead_run_drainStep { e.passOn flushed queue with current := none }
    (Nat.lt_succ_self _)
  have hkeeps : ∀ fuel, SameReading e (Loop.run drainStep fuel
        { e.passOn flushed queue with current := none }) ∧
      (Loop.run drainStep fuel { e.passOn flushed queue with current := none }).current = none :=
    fun fuel => Loop.run_keeps (P := fun s => SameReading e s ∧ s.current = none)
      (fun s hs => ⟨hs.1.trans (drainStep_spec s).reading,
        (drainStep_spec s).current.trans hs.2⟩) fuel ⟨⟨rfl, rfl, rfl, rfl⟩, rfl⟩
  obtain ⟨hreading, hcur⟩ := hkeeps _
  obtain ⟨queue', sink, hnil, hflush⟩ := queueFlush_keeps (Loop.run drainStep
    (({ e.passOn flushed queue with current := none } : Edit).toCome + 1)
    { e.passOn flushed queue with current := none })
  rw [hflush]
  exact ⟨{ hreading with }, hcur, hahead, hnil⟩

/-! ## Rewinding -/

theorem nextLine_drainSource (hcur : e.current = none) (hahead : e.ahead = []) :
    e.nextLine.2.drainSource.sink = e.drainSource.sink := by
  have hceiling : e.ceilingReached = false := by
    unfold ceilingReached
    rw [hcur]
  have hpush : ∀ s : Edit, s.current = none → s.pushCurrent = s := by
    intro s hs
    unfold pushCurrent
    rw [hs]
  unfold nextLine
  rw [hceiling, if_neg Bool.false_ne_true]
  rcases pullLine_pulls e with ⟨heq, -, -⟩ | ⟨line, e', heq, hpulls⟩
  · rw [heq]
    exact drainSource_congr ⟨rfl, rfl, rfl, rfl⟩ rfl rfl rfl rfl
  rw [heq]
  dsimp only
  rw [hpush e' (hpulls.current.trans hcur)]
  obtain ⟨number, renumber, globals, ver, aborted, harrive, hglobals⟩ := lineArrive_eq e' line
  unfold arrive
  rw [harrive, hpulls.reading.arrivedText_eq]
  let line' : Line := { line with number, processed := true, text := e.arrivedText line }
  let e'' : Edit :=
    { e' with pointer := 0, renumber, globals, ver, aborted, current := some line' }
  have hreading : SameReading e e'' := hpulls.reading.trans ⟨rfl, rfl, rfl, hglobals⟩
  have hout : e'.out = e.out := by
    unfold out
    rw [hpulls.queue, hpulls.sink]
  rw [drainSource_writes, drainSource_writes e, hcur, hreading.comes_eq, toList_none,
    bytesOf_nil, append_nil]
  show e'.out ++ (line'.bytes ++ []) ++ e.comes e'.currentSource.rest e'.ahead = _
  rw [hout, append_nil, append_assoc]
  cases hphantom : line.phantom with
  | true =>
    obtain ⟨hempty, hnothing⟩ := hpulls.ended hphantom hahead
    rw [@Line.bytes_phantom line' hphantom hempty, hnothing, hpulls.nothing hphantom]
    rfl
  | false => rw [@Line.bytes_eq line' hphantom, hpulls.comes hphantom]

theorem rewindFile_rereads (hsink : e.onMainSink = true) (hsrc : e.onMainSource = true)
    (hbehind : e.behind = []) : e.rewindFile.drainSource.sink = e.reread e.drainSource.sink := by
  obtain ⟨hreading, hcur, hahead, hqueue⟩ := drained_drainSource e
  unfold rewindFile
  rw [hsink, hsrc]
  generalize e.drainSource = d at hreading hcur hahead hqueue ⊢
  let opened : Edit :=
    ({ d with sources := [⟨d.sinkName, d.sink, d.sink, 1, false⟩], source := 0
              mainSource := true, renumber := 0 } : Edit).openWorkFile
  have hreading' : SameReading e opened := { hreading with }
  have hempty : opened.ahead = [] := hahead.trans hbehind
  have hout : opened.out = [] := by
    show [] ++ bytesOf d.queue.toList = []
    rw [hqueue]
    rfl
  -- The serial number of the new current line is of no consequence.
  have hser : ({ opened.nextLine.2 with entrySerial := opened.nextLine.2.currentSerial } :
      Edit).drainSource.sink = opened.nextLine.2.drainSource.sink :=
    drainSource_congr ⟨rfl, rfl, rfl, rfl⟩ rfl rfl rfl rfl
  calc _ = opened.nextLine.2.drainSource.sink := hser
    _ = opened.drainSource.sink := nextLine_drainSource hcur hempty
    _ = opened.comes opened.currentSource.rest [] := by
      rw [drainSource_writes, hout, hempty, show opened.current = none from hcur]
      rfl
    _ = e.reread d.sink := hreading'.reread_eq d.sink

namespace Session

def writtenByW (world : World) (s : Session) : List UInt8 :=
  ((Order.plain .write).act world false s).edit.drainSource.sink

end Session

/-- **REWIND reads the file again.** What W writes after REWIND is what W alone would have written,
with each line read as a line of a source is, unless REWIND was refused. No line may wait behind the
end of another file. -/
theorem rewind_rereads (world : World) (s : Session) (hbehind : s.edit.behind = []) :
    (Order.rewind.act world false s).writtenByW world =
      if s.edit.onMainSink && s.edit.onMainSource then s.edit.reread (s.writtenByW world)
      else s.writtenByW world := by
  have hwritten : ∀ t : Session, t.writtenByW world = t.edit.drainSource.sink :=
    fun t => drainSource_congr ⟨rfl, rfl, rfl, rfl⟩ rfl rfl rfl rfl
  have hrewind : (Order.rewind.act world false s).edit = s.edit.rewindFile := rfl
  have hrefused : ∀ text, (s.edit.report text).drainSource.sink = s.edit.drainSource.sink :=
    fun text => drainSource_congr ⟨rfl, rfl, rfl, rfl⟩ rfl rfl rfl rfl
  rw [hwritten, hwritten, hrewind]
  cases hsink : s.edit.onMainSink with
  | false =>
    unfold rewindFile
    rw [hsink]
    exact hrefused _
  | true =>
  cases hsource : s.edit.onMainSource with
  | false =>
    unfold rewindFile
    rw [hsink, hsource]
    exact hrefused _
  | true => exact rewindFile_rereads hsink hsource hbehind

def blankSession : Option Session :=
  (catSession "E/cat/cat /\n").map (Session.run catWorld 2)

theorem rewind_rereads_blank : ∃ s, blankSession = some s ∧ s.edit.behind = [] ∧
    (Order.rewind.act catWorld false s).writtenByW catWorld =
      s.edit.reread (s.writtenByW catWorld) := by
  have hsome : blankSession.isSome = true := rfl
  have hstate : blankSession.map (fun s =>
      (s.edit.behind, s.edit.onMainSink && s.edit.onMainSource)) = some ([], true) := by
    decide +kernel
  obtain ⟨s, hs⟩ := isSome_iff_exists.mp hsome
  rw [hs] at hstate
  obtain ⟨hbehind, hmain⟩ := Prod.mk.inj (some.inj hstate)
  refine ⟨s, hs, hbehind, ?_⟩
  have hreread := rewind_rereads catWorld s hbehind
  rwa [if_pos hmain] at hreread

/-- W alone writes the blank that the command has put behind the line, and REWIND takes it away. -/
theorem rewind_drops_blank :
    blankSession.map (fun s => (s.writtenByW catWorld,
        (Order.rewind.act catWorld false s).writtenByW catWorld)) =
      some (ascii "cat \n", ascii "cat\n") ∧
    ¬ ∀ s n, catSession "E/cat/cat /\n" = some s →
      (Order.rewind.act catWorld false (Session.run catWorld n s)).writtenByW catWorld =
        (Session.run catWorld n s).writtenByW catWorld := by
  have hrun : blankSession.map (fun s => (s.writtenByW catWorld,
      (Order.rewind.act catWorld false s).writtenByW catWorld)) =
        some (ascii "cat \n", ascii "cat\n") := by
    decide +kernel
  refine ⟨hrun, fun hall => ?_⟩
  obtain ⟨s, hs⟩ := isSome_iff_exists.mp (catSession_isSome "E/cat/cat /\n")
  have hsame := hall s 2 hs
  unfold blankSession at hrun
  rw [hs] at hrun
  obtain ⟨halone, hrewound⟩ := Prod.mk.inj (some.inj hrun)
  rw [halone, hrewound] at hsame
  exact absurd hsame (by decide)

end AceShell.LineEditor
