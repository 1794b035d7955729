import AceShell.Edit.Drain

/-!
# What is saved

While one file is edited, it is saved as it was, without trailing blanks (`conserves_document`).
With FROM, the lines of several files pass through the editor, and each file has its own phantom.
Draining ends at the first one, so that lines behind the phantom of another file are lost. A last
line without a line feed runs together with the line that follows it (`switching_conserves_iff`).
-/

namespace AceShell.LineEditor

open Edit Lines Text List Option

variable {content : List UInt8} {e : Edit}

section Sessions

variable {files files' : Files} {args : Arguments}

def Arguments.opened (args : Arguments) (content : List UInt8) (interactive : Bool)
    (breaks : List Bool) : Edit :=
  { args.initial interactive breaks with
    sources := [⟨args.name.take (nameSize - 1), content, content, 1, false⟩] }

theorem sound_opened (interactive : Bool) (breaks : List Bool)
    (hroom : ∀ name content, files name = some content →
      ∀ line ∈ linesOf content, line.text.length ≤ args.lineWidth)
    (hfile : ∃ name, files name = some content) :
    Sound files (args.opened content interactive breaks) where
  plain := rfl
  strips := rfl
  chosen := Nat.zero_lt_one
  room := hroom
  opened := by
    intro s hs
    rw [mem_singleton.mp hs]
    exact hfile
  known := nofun
  conserved := ⟨[], rfl, rfl⟩
  followed := by
    intro i hi
    obtain ⟨name, hname⟩ := hfile
    rw [Nat.lt_one_iff.mp hi]
    exact Followed.start rfl rfl (hroom name content hname)

theorem start_eq (hopen : files args.name = some content) (interactive : Bool)
    (breaks : List Bool) :
    args.start files interactive breaks =
      some (args.opened content interactive breaks).nextLine.2 := by
  unfold Arguments.start openSource
  rw [hopen]
  rfl

def reached (files : Files) (args : Arguments) (interactive : Bool) (breaks : List Bool)
    (lines : List (List Command)) : Option Edit :=
  (args.start files interactive breaks).map (executeLines files lines)

/-- What W leaves in the output file, of a session that has not read outside a line. -/
def Edit.saved (e : Edit) : Option (List UInt8) :=
  if e.astray then none else some e.drainSource.sink

theorem session_eq {interactive : Bool} {breaks : List Bool} {lines : List (List Command)}
    (h : reached files args interactive breaks lines = some e) :
    session files args interactive breaks lines = some e.drainSource.sink := by
  unfold session
  obtain ⟨e₀, hstart, rfl⟩ := map_eq_some_iff.mp h
  rw [hstart]
  rfl

/-! ## One file -/

section One

variable (h : Sound files e) (hone : e.sources.length = 1)

include h hone

theorem takenFrom_zero : e.takenFrom 0 = e.taken.map Prod.snd := by
  unfold takenFrom
  rw [filter_eq_self.mpr]
  intro entry hent
  have hlt := h.known entry hent
  rw [hone, Nat.lt_one_iff] at hlt
  rw [hlt]
  rfl

theorem currentSource_of_one : e.currentSource = e.sourceAt 0 := by
  have hchosen := h.chosen
  rw [hone, Nat.lt_one_iff] at hchosen
  unfold currentSource sourceAt
  rw [hchosen]

theorem passing_of_one : e.passing = (linesOf (e.sourceAt 0).content).map stripped := by
  have hfollowed := h.followed 0 (by omega)
  rw [hfollowed.read, takenFrom_zero h hone, ← currentSource_of_one h hone]
  rfl

theorem behindPhantom_of_one : e.behindPhantom = [] := by
  have hfollowed := h.followed 0 (by omega)
  rw [takenFrom_zero h hone] at hfollowed
  unfold behindPhantom
  by_cases hnone : e.ahead.all (!·.phantom) = true
  · rw [if_pos hnone]
  -- The first phantom on the stack is a phantom that was read, and it was read last.
  have hsplit := takeWhile_append_dropWhile (p := fun l : Line => !l.phantom) (l := e.ahead)
  cases hdrop : e.ahead.dropWhile (!·.phantom) with
  | nil =>
    rw [dropWhile_eq_nil_iff] at hdrop
    exact absurd (all_eq_true.mpr hdrop) hnone
  | cons phantom behind =>
  have hphantom : phantom.phantom = true := by
    have hhead := head?_dropWhile_not (fun l : Line => !l.phantom) e.ahead
    rw [hdrop] at hhead
    simpa using hhead
  obtain ⟨gone, -, hall⟩ := h.conserved
  rw [hdrop] at hsplit
  unfold held at hall
  rw [← hsplit, ← append_assoc, ← append_assoc, map_append] at hall
  obtain ⟨front, tail, htaken, -, htail⟩ := map_eq_append_iff.mp hall.symm
  obtain ⟨it, after, rfl, hit, hafter⟩ := map_eq_cons_iff.mp htail
  have hitPhantom : it.phantom = true := (congrArg Prod.snd hit).trans hphantom
  have hnil : after = [] := hfollowed.last front it after htaken hitPhantom
  have hbehind : behind = [] := by
    rw [hnil] at hafter
    exact map_eq_nil_iff.mp hafter.symm
  have hended : (e.sourceAt 0).ended = true := by
    cases hopen : (e.sourceAt 0).ended with
    | true => rfl
    | false =>
    have hmem : it ∈ e.taken.map Prod.snd := by
      rw [htaken]
      simp
    exact nomatch ((hfollowed.notEnded hopen it hmem).symm.trans hitPhantom)
  have hrem : e.remaining = [] := by
    unfold remaining
    rw [currentSource_of_one h hone, hfollowed.ended hended]
    rfl
  rw [hbehind, hrem]
  simp [textLines, hphantom]

end One

theorem closed_one : StoreClosed fun e => Sound files e ∧ e.sources.length = 1 where
  same hsame h := ⟨closed_sound.same hsame h.1, by rw [hsame.sources]; exact h.2⟩
  next h := ⟨sound_nextLine h.1, (source_nextLine _).2.trans h.2⟩
  previous h := ⟨sound_previousLine h.1, length_sources_previousLine.trans h.2⟩

theorem stripped_newline_dropLast (content : List UInt8) :
    ∀ line ∈ ((linesOf content).map stripped).dropLast, line.newline = true := by
  intro line hline
  rw [← map_dropLast] at hline
  obtain ⟨line', hline', rfl⟩ := mem_map.mp hline
  exact (unbroken_linesOf content).newline_dropLast line' hline'

theorem getLast?_visible_stripped
    (h : ∀ last, (linesOf content).getLast? = some last → (stripped last).visible = true) :
    (((linesOf content).map stripped).filter TextLine.visible).getLast?.map TextLine.newline =
      (linesOf content).getLast?.map TextLine.newline := by
  rcases eq_nil_or_concat (linesOf content) with hnil | ⟨front, last, hlast⟩
  · rw [hnil]
    rfl
  rw [concat_eq_append] at hlast
  have hvisible := h last (by rw [hlast, getLast?_concat])
  rw [hlast, map_append, filter_append, map_cons, map_nil,
    filter_cons_of_pos hvisible, filter_nil, getLast?_concat, getLast?_concat]
  rfl

/-- **The document is conserved.** With commands that only move and show, and none of which reads
outside a line, a file whose lines fit is saved with the same lines without their trailing blanks.
Only a last line that had nothing else, and no line feed, is no longer there; otherwise the saved
file ends in a line feed exactly if the file did. -/
theorem conserves_document {content : List UInt8} (hopen : files args.name = some content)
    (hfits : ∀ line ∈ linesOf content, line.text.length ≤ args.lineWidth) (interactive : Bool)
    (breaks : List Bool) {lines : List (List Command)}
    (hstays : ∀ line ∈ lines, allStay line = true)
    (hinside : ∀ e, reached files args interactive breaks lines = some e → e.astray = false) :
    ∃ saved, (reached files args interactive breaks lines).bind Edit.saved = some saved ∧
      linesOf saved = ((linesOf content).map stripped).filter TextLine.visible ∧
      ((∀ last, (linesOf content).getLast? = some last → (stripped last).visible = true) →
        (saved.getLast? = some lf ↔ content.getLast? = some lf)) := by
  -- The commands open no file, so this one can be taken for all there are.
  have hsound : Sound (fun _ => some content) (args.opened content interactive breaks) := by
    refine sound_opened interactive breaks ?_ ⟨args.name, rfl⟩
    intro name content' hcontent
    rw [← some.inj hcontent]
    exact hfits
  have hstart := closed_one.next ⟨hsound, rfl⟩
  obtain ⟨hend, hone⟩ := executeLines_keeps files False closed_one (fun h => h.elim)
    (Or.inr hstays) hstart
  have hcontent : ((executeLines files lines
      (args.opened content interactive breaks).nextLine.2).sourceAt 0).content = content := by
    obtain ⟨name, hname⟩ := hend.opened _ (getElem_mem (by omega : 0 < _))
    unfold sourceAt
    rw [getD_eq_getElem?_getD, getElem?_eq_getElem (by omega)]
    exact (some.inj hname).symm
  have hreached : reached files args interactive breaks lines =
      some (executeLines files lines (args.opened content interactive breaks).nextLine.2) := by
    unfold reached
    rw [start_eq hopen]
    rfl
  generalize executeLines files lines (args.opened content interactive breaks).nextLine.2 = e
    at hend hone hcontent hreached
  have hsaved : (reached files args interactive breaks lines).bind Edit.saved =
      some e.drainSource.sink := by
    rw [hreached, bind_some, Edit.saved, hinside e hreached]
    rfl
  have hpassing := passing_of_one hend hone
  rw [hcontent] at hpassing
  have hlines : linesOf e.drainSource.sink =
      ((linesOf content).map stripped).filter TextLine.visible := by
    rw [← hpassing, linesOf_saved_iff hend, behindPhantom_of_one hend hone, hpassing]
    exact ⟨nofun,
      newline_dropLast_visible (stripped_newline_dropLast content)⟩
  refine ⟨_, hsaved, hlines, fun hlast => ?_⟩
  show _ = some lineFeed ↔ _ = some lineFeed
  rw [getLast?_eq_lineFeed, getLast?_eq_lineFeed, hlines, getLast?_visible_stripped hlast]

def blankFile : Files := fun _ => some (ascii "a \nb")

/-- Forwards and back, with groups and searches from the pointer. -/
def blankMoves : List (List Command) :=
  [[.next 1, .previous 1, .group 2 [.move .last, .move .lowest], .right 1, .find false {} none],
    [.move .lowest, .pointerString true (ascii "a"), .left 1, .pointerString false (ascii "a"),
      .type true (some 1), .verifyHex],
    [.group 3 [.next 1], .write]]

theorem conserves_document_blanks :
    ∃ saved, (reached blankFile { name := ascii "A" } false [] blankMoves).bind Edit.saved =
        some saved ∧
      linesOf saved = ((linesOf (ascii "a \nb")).map stripped).filter TextLine.visible ∧
      ((∀ last, (linesOf (ascii "a \nb")).getLast? = some last → (stripped last).visible = true) →
        (saved.getLast? = some lf ↔ (ascii "a \nb").getLast? = some lf)) := by
  have hopen : blankFile ({ name := ascii "A" } : Arguments).name = some (ascii "a \nb") := rfl
  have hstays : ∀ line ∈ blankMoves, allStay line = true := by decide
  have hinside : (reached blankFile { name := ascii "A" } false [] blankMoves).map Edit.astray =
    some false := by decide +kernel
  refine conserves_document hopen ?_ false [] hstays fun e hreached => ?_
  · exact forall_mem_cons.mpr ⟨by decide, forall_mem_singleton.mpr (by decide)⟩
  · rw [hreached] at hinside
    exact some.inj hinside

/-- A last line of blanks has no line feed behind it, but the saved file ends in one. -/
theorem blank_last_line_dropped :
    session (fun _ => some (ascii "a\n ")) { name := ascii "A" } false [] [[.write]] =
        some (ascii "a\n") ∧
      (ascii "a\n").getLast? = some lf ∧ (ascii "a\n ").getLast? ≠ some lf := by
  decide +kernel

/-! ## Several files -/

/-- **Switching the source.** What was read are the first lines of the files that were opened. They
and the rest of the current source are the lines of the saved file exactly if nothing is behind a
phantom on the stack, and only the last of them lacks its line feed. -/
theorem switching_conserves_iff {content : List UInt8} (hopen : files args.name = some content)
    (hroom : ∀ name content, files name = some content →
      ∀ line ∈ linesOf content, line.text.length ≤ args.lineWidth)
    (interactive : Bool) (breaks : List Bool) (lines : List (List Command)) :
    ∃ e, reached files args interactive breaks lines = some e ∧
      session files args interactive breaks lines = some e.drainSource.sink ∧
      (∀ i < e.sources.length, (∃ name, files name = some (e.sourceAt i).content) ∧
        (linesOf (e.sourceAt i).content).map stripped =
          textLines (e.takenFrom i) ++ (linesOf (e.sourceAt i).rest).map stripped) ∧
      (linesOf e.drainSource.sink = e.passing.filter TextLine.visible ↔
        (∀ line ∈ e.behindPhantom, line.visible = false) ∧
        ∀ line ∈ (e.passing.filter TextLine.visible).dropLast, line.newline = true) := by
  have hstart := sound_nextLine (sound_opened interactive breaks hroom ⟨args.name, hopen⟩)
  have hend : Sound files
      (executeLines files lines (args.opened content interactive breaks).nextLine.2) :=
    executeLines_keeps files True closed_sound (fun _ _ name => sound_commandFrom name)
      (Or.inl trivial) hstart
  have hreached : reached files args interactive breaks lines =
      some (executeLines files lines (args.opened content interactive breaks).nextLine.2) := by
    unfold reached
    rw [start_eq hopen]
    rfl
  refine ⟨_, hreached, session_eq hreached, ?_, linesOf_saved_iff hend⟩
  intro i hi
  refine ⟨?_, (hend.followed i hi).read⟩
  unfold sourceAt
  rw [getD_eq_getElem?_getD, getElem?_eq_getElem hi]
  exact hend.opened _ (getElem_mem hi)

/-- Two files of one line each. -/
def twoFiles : Files := fun name =>
  if name = ascii "A" then some (ascii "one\n")
  else if name = ascii "B" then some (ascii "two\n")
  else none

theorem twoFiles_fit {name : List UInt8} (h : twoFiles name = some content) :
    ∀ line ∈ linesOf content, line.text.length ≤ 120 := by
  unfold twoFiles at h
  split_ifs at h
  · rw [← some.inj h]
    exact forall_mem_singleton.mpr (by decide)
  · rw [← some.inj h]
    exact forall_mem_singleton.mpr (by decide)

/-- Both files are read to their ends, and both are saved. -/
theorem switching_conserves_iff_twoFiles :
    ∃ e, reached twoFiles { name := ascii "A" } false []
        [[.move .last, .from_ (some (ascii "B")), .move .last, .write]] = some e ∧
      e.passing = [⟨ascii "one", true⟩, ⟨ascii "two", true⟩] ∧
      session twoFiles { name := ascii "A" } false []
        [[.move .last, .from_ (some (ascii "B")), .move .last, .write]] = some e.drainSource.sink ∧
      linesOf e.drainSource.sink = e.passing.filter TextLine.visible := by
  have hopen : twoFiles ({ name := ascii "A" } : Arguments).name = some (ascii "one\n") := rfl
  have hstate : (reached twoFiles { name := ascii "A" } false []
      [[.move .last, .from_ (some (ascii "B")), .move .last, .write]]).map
        (fun e => (e.passing, e.behindPhantom)) =
      some ([⟨ascii "one", true⟩, ⟨ascii "two", true⟩], []) := by
    decide +kernel
  obtain ⟨e, hreached, hsession, -, hiff⟩ := switching_conserves_iff hopen
    (fun _ _ => twoFiles_fit) false []
    [[.move .last, .from_ (some (ascii "B")), .move .last, .write]]
  rw [hreached] at hstate
  obtain ⟨hpassing, hbehind⟩ := Prod.mk.inj (some.inj hstate)
  refine ⟨e, hreached, hpassing, hsession, hiff.mpr ?_⟩
  rw [hpassing, hbehind]
  decide +kernel

/-- The phantom of A is passed, and P goes back over it. Then the line of B is never read. -/
theorem phantom_hides_source :
    (reached twoFiles { name := ascii "A" } false []
      [[.next 1, .previous 1, .from_ (some (ascii "B")), .write]]).map
        (fun e => (e.drainSource.sink, linesOf e.drainSource.sink, e.passing)) =
      some (ascii "one\n", [⟨ascii "one", true⟩], [⟨ascii "one", true⟩, ⟨ascii "two", true⟩]) := by
  decide +kernel

end Sessions

end AceShell.LineEditor
