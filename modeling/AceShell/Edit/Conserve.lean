import AceShell.Edit.Moves
import AceShell.Edit.Pulling

/-!
# The document is conserved

The lines that were read are, in the order of their reading, those that were written, those of the
queue, the current one and those on the `ahead` stack (`Tracks`). Each of the moves only shifts the
borders between them. What is read from a file is its lines without their trailing blanks, and then
the phantom (`Followed`).
-/

namespace AceShell.LineEditor

open Edit Lines List

def stripped (line : TextLine) : TextLine := { line with text := stripBlanks line.text }

def textLines (lines : List Line) : List TextLine :=
  (lines.filter (!·.phantom)).map fun line => line.shape.1

@[simp] theorem textLines_append (lines more : List Line) :
    textLines (lines ++ more) = textLines lines ++ textLines more := by
  unfold textLines
  rw [filter_append, map_append]

def Line.Empty (line : Line) : Prop :=
  line.phantom = true → line.text = [] ∧ line.newline = false

variable {line : Line}

theorem Line.bytes_of_shape {line' : Line} (h : line'.shape = line.shape) :
    line'.bytes = line.bytes := by
  unfold Line.shape at h
  simp only [Prod.mk.injEq, TextLine.mk.injEq] at h
  exact Line.bytes_congr h.1.1 h.1.2 h.2

variable {lines : List Line}

theorem bytesOf_of_shape {lines' : List Line} (h : lines'.map Line.shape = lines.map Line.shape)
    : bytesOf lines' = bytesOf lines := by
  induction lines generalizing lines' with
  | nil =>
    rw [map_eq_nil_iff.mp h]
  | cons line lines ih =>
  cases lines' with
  | nil => exact nomatch h
  | cons line' lines' =>
    simp only [map_cons, cons.injEq] at h
    rw [bytesOf_cons, bytesOf_cons, Line.bytes_of_shape h.1, ih h.2]

theorem bytesOf_eq_bytes (h : ∀ line ∈ lines, line.Empty) :
    bytesOf lines = bytes (textLines lines) := by
  induction lines with
  | nil => rfl
  | cons line lines ih =>
  have hrest := ih fun line hmem => h line (mem_cons_of_mem _ hmem)
  have happ : textLines (line :: lines) = textLines [line] ++ textLines lines :=
    textLines_append [line] lines
  rw [happ, bytes_append, bytesOf_cons]
  congr 1
  cases hphantom : line.phantom with
  | true =>
    obtain ⟨htext, -⟩ := h line mem_cons_self hphantom
    have hnone : textLines [line] = [] := by simp [textLines, hphantom]
    rw [hnone]
    unfold Line.bytes
    rw [hphantom, htext]
    rfl
  | false =>
  have hone : textLines [line] = [line.shape.1] := by simp [textLines, hphantom]
  rw [hone, bytes_cons, bytes_nil, append_nil]
  unfold Line.bytes
  rw [hphantom]
  rfl

/-! ## Reading a file -/

/-- Reading on in a file gives its next line cut and stripped, or behind the last one the phantom.
-/
inductive Reads (width : ℕ) (s : Source) (line : Line) (s' : Source) : Prop
  | next (first : TextLine) (hlines : linesOf s.rest = first :: linesOf s'.rest)
      (hshape : line.shape = (stripped { first with text := first.text.take width }, false))
      (hended : s'.ended = s.ended) (hcontent : s'.content = s.content)
  | phantom (hrest : s.rest = []) (hopen : s.ended = false)
      (hshape : line.shape = (⟨[], false⟩, true)) (hrest' : s'.rest = [])
      (hended : s'.ended = true) (hcontent : s'.content = s.content)

/-- The lines that were read from a file, with what is left of it. -/
structure Followed (width : ℕ) (s : Source) (lines : List Line) : Prop where
  /-- The lines of the file are those that were read and those that are left. -/
  read : (linesOf s.content).map stripped = textLines lines ++ (linesOf s.rest).map stripped
  fits : ∀ line ∈ linesOf s.rest, line.text.length ≤ width
  ended : s.ended = true → s.rest = []
  notEnded : s.ended = false → ∀ line ∈ lines, line.phantom = false
  empty : ∀ line ∈ lines, line.Empty
  /-- Nothing was read behind the phantom. -/
  last : ∀ front line behind, lines = front ++ line :: behind → line.phantom = true → behind = []

variable {width : ℕ} {s : Source}

theorem Followed.start (hrest : s.rest = s.content) (hended : s.ended = false)
    (hfits : ∀ line ∈ linesOf s.content, line.text.length ≤ width) :
    Followed width s [] where
  read := by rw [hrest]; rfl
  fits := by rwa [hrest]
  ended := fun h => nomatch (hended.symm.trans h)
  notEnded := fun _ line hmem => nomatch hmem
  empty := fun line hmem => nomatch hmem
  last := fun front line behind h => by simp at h

variable {s' : Source}

theorem Followed.reads (h : Followed width s lines) (hreads : Reads width s line s') :
    Followed width s' (lines ++ [line]) := by
  -- Nothing is read once the phantom was: either kind of reading needs a file that has not ended.
  have hopen : s.ended = false := by
    cases hended : s.ended with
    | false => rfl
    | true =>
    have hnil := h.ended hended
    cases hreads with
    | next first hlines =>
      rw [hnil] at hlines
      exact nomatch hlines
    | phantom hrest hopen => exact nomatch (hopen.symm.trans hended)
  have hlast : ∀ front it behind, lines ++ [line] = front ++ it :: behind → it.phantom = true →
      behind = [] := by
    intro front it behind hsplit hphantom
    rcases eq_nil_or_concat behind with rfl | ⟨behind, final, rfl⟩
    · rfl
    rw [concat_eq_append, ← cons_append, ← append_assoc] at hsplit
    have hlines : lines = front ++ it :: behind := (append_inj' hsplit rfl).1
    have hmem : it ∈ lines := by rw [hlines]; simp
    exact nomatch ((h.notEnded hopen it hmem).symm.trans hphantom)
  cases hreads with
  | next first hlines hshape hended hcontent =>
    unfold Line.shape at hshape
    simp only [Prod.mk.injEq] at hshape
    obtain ⟨hline, hphantom⟩ := hshape
    have hfst : first.text.length ≤ width := h.fits first (by rw [hlines]; simp)
    rw [take_of_length_le hfst] at hline
    have htext : textLines [line] = [stripped first] := by
      simp only [textLines, Line.shape, hphantom, Bool.not_false, filter_cons_of_pos,
        filter_nil, map_cons, map_nil, hline]
    exact {
      read := by
        rw [hcontent, h.read, hlines, textLines_append, htext, append_assoc]
        rfl
      fits := fun it hmem => h.fits it (by rw [hlines]; exact mem_cons_of_mem _ hmem)
      ended := fun h' => nomatch (hopen.symm.trans (hended.symm.trans h'))
      notEnded := fun _ =>
        forall_mem_append.mpr ⟨h.notEnded hopen, forall_mem_singleton.mpr hphantom⟩
      empty := by
        refine forall_mem_append.mpr ⟨h.empty, forall_mem_singleton.mpr fun hit => ?_⟩
        exact nomatch (hphantom.symm.trans hit)
      last := hlast }
  | phantom hrest _ hshape hrest' hended hcontent =>
  unfold Line.shape at hshape
  simp only [Prod.mk.injEq, TextLine.mk.injEq] at hshape
  obtain ⟨⟨htext, hnewline⟩, hphantom⟩ := hshape
  have hnone : textLines [line] = [] := by simp [textLines, hphantom]
  exact {
    read := by rw [hcontent, h.read, hrest, hrest', textLines_append, hnone, append_nil]
    fits := by
      rw [hrest']
      exact nofun
    ended := fun _ => hrest'
    notEnded := fun h' => absurd (hended.symm.trans h') Bool.noConfusion
    empty := by
      exact forall_mem_append.mpr ⟨h.empty, forall_mem_singleton.mpr (fun _ => ⟨htext, hnewline⟩)⟩
    last := hlast }

/-! ## The lines in the editor -/

namespace Edit

/-- The source at a place. -/
def sourceAt (e : Edit) (i : ℕ) : Source := e.sources.getD i default

def takenFrom (e : Edit) (i : ℕ) : List Line := (e.taken.filter (·.1 == i)).map Prod.snd

end Edit

/-- The lines `held`, behind those that were written, are all that were read. -/
structure Tracks (files : Files) (held : List Line) (e : Edit) : Prop where
  plain : e.globals = []
  strips : e.trailing = false
  chosen : e.source < e.sources.length
  /-- The lines of every file that can be opened fit. -/
  room : ∀ name content, files name = some content →
    ∀ line ∈ linesOf content, line.text.length ≤ e.width
  opened : ∀ s ∈ e.sources, ∃ name, files name = some s.content
  known : ∀ entry ∈ e.taken, entry.1 < e.sources.length
  conserved : ∃ gone, e.sink = bytesOf gone ∧
    (gone ++ held).map Line.shape = (e.taken.map Prod.snd).map Line.shape
  followed : ∀ i < e.sources.length, Followed e.width (e.sourceAt i) (e.takenFrom i)

namespace Tracks

variable {files : Files} {held : List Line} {e : Edit}

theorem same {e' : Edit} (hs : SameStore e e') (h : Tracks files held e) :
    Tracks files held e' where
  plain := hs.globals.trans h.plain
  strips := hs.trailing.trans h.strips
  chosen := by rw [hs.source, hs.sources]; exact h.chosen
  room := by rw [hs.width]; exact h.room
  opened := by rw [hs.sources]; exact h.opened
  known := by rw [hs.taken, hs.sources]; exact h.known
  conserved := by rw [hs.sink, hs.taken]; exact h.conserved
  followed := by
    unfold sourceAt takenFrom
    rw [hs.width, hs.sources, hs.taken]
    exact h.followed

theorem place (h : Tracks files held e) (queue : RingBuffer Line) (ahead : List Line)
    (current : Option Line) (pointer : ℤ) :
    Tracks files held { e with queue, ahead, current, pointer } :=
  { h with }

theorem reshape {held' : List Line} (hshape : held'.map Line.shape = held.map Line.shape)
    (h : Tracks files held e) : Tracks files held' e := by
  obtain ⟨gone, hsink, hall⟩ := h.conserved
  refine { h with conserved := ⟨gone, hsink, ?_⟩ }
  rw [map_append, hshape, ← map_append, hall]

theorem write {flushed : List Line} {queue : RingBuffer Line}
    (h : Tracks files (flushed ++ held) e) :
    Tracks files held (e.passOn flushed queue) := by
  obtain ⟨gone, hsink, hall⟩ := h.conserved
  refine { h with conserved := ⟨gone ++ flushed, ?_, ?_⟩ }
  · rw [bytesOf_append, ← hsink]
    rfl
  · rw [append_assoc]
    exact hall

theorem take (h : Tracks files held e) (hreads : Reads e.width e.currentSource line s') :
    Tracks files (held ++ [line]) (e.take line s') where
  plain := h.plain
  strips := h.strips
  chosen := by
    unfold Edit.take
    rw [length_set]
    exact h.chosen
  room := h.room
  opened := by
    intro s hs
    rcases mem_or_eq_of_mem_set hs with hs | rfl
    · exact h.opened s hs
    have hcontent : s.content = e.currentSource.content := by
      cases hreads with
      | next _ _ _ _ hcontent => exact hcontent
      | phantom _ _ _ _ _ hcontent => exact hcontent
    rw [hcontent]
    apply h.opened
    unfold currentSource
    rw [getD_eq_getElem?_getD, getElem?_eq_getElem h.chosen]
    exact getElem_mem h.chosen
  known := by
    intro entry hent
    unfold Edit.take at hent ⊢
    rw [length_set]
    rcases mem_append.mp hent with hent | hent
    · exact h.known entry hent
    · rw [mem_singleton.mp hent]
      exact h.chosen
  conserved := by
    obtain ⟨gone, hsink, hall⟩ := h.conserved
    refine ⟨gone, hsink, ?_⟩
    unfold Edit.take
    rw [← append_assoc, map_append, hall, map_append, map_append]
    rfl
  followed := by
    intro i hi
    unfold Edit.take at hi ⊢
    rw [length_set] at hi
    unfold sourceAt takenFrom
    rw [filter_append, map_append, getD_eq_getElem?_getD, getElem?_set]
    by_cases hsrc : e.source = i
    · have hfollowed := h.followed i hi
      rw [← hsrc] at hfollowed ⊢
      have hself : [(e.source, line)].filter (·.1 == e.source) = [(e.source, line)] := by simp
      rw [if_pos rfl, if_pos h.chosen, hself]
      exact hfollowed.reads hreads
    · rw [if_neg hsrc, filter_cons_of_neg (by simpa using hsrc), filter_nil, map_nil, append_nil]
      exact h.followed i hi

end Tracks

/-! ## The operations -/

variable {i : ℕ} {name : List UInt8}

section Operations

variable {files : Files} {e : Edit}

theorem Brings.reads (hstrips : e.trailing = false)
    (hcontent : s'.content = e.currentSource.content) (h : Brings e line s') :
    Reads e.width e.currentSource line s' := by
  cases h with
  | next first hlines hshape hended =>
    refine Reads.next first hlines ?_ hended hcontent
    rw [hshape]
    unfold cutText
    rw [hstrips]
    rfl
  | phantom hrest hopen hshape hrest' hended =>
    exact Reads.phantom hrest hopen hshape hrest' hended hcontent

theorem arrivedText_plain (hplain : e.globals = []) (line : Line) :
    e.arrivedText line = line.text := by
  unfold arrivedText
  rw [hplain]
  exact ite_self line.text

theorem lineArrive_spec (hplain : e.globals = []) (line : Line) :
    ∃ line' e', e.lineArrive line = (line', e') ∧ line'.shape = line.shape ∧ SameStore e e' := by
  obtain ⟨number, renumber, globals, ver, aborted, heq, hglobals⟩ := lineArrive_eq e line
  rw [hplain] at hglobals
  obtain rfl : globals = [] := map_eq_nil_iff.mp hglobals
  rw [arrivedText_plain hplain] at heq
  exact ⟨_, _, heq, rfl, ⟨rfl, rfl, rfl, rfl, rfl, rfl, rfl, rfl, hplain.symm, rfl, rfl⟩⟩

/-! ## The moves -/

def Sound (files : Files) (e : Edit) : Prop := Tracks files e.held e

theorem sound_arrive (h : Tracks files (e.queue.toList ++ line :: e.ahead) e)
    : Sound files (e.arrive line) := by
  obtain ⟨line', e', heq, hshape, hsame⟩ := lineArrive_spec h.plain line
  have hheld : ({ e' with current := some line' } : Edit).held =
      e.queue.toList ++ line' :: e.ahead := by
    show e'.queue.toList ++ [line'] ++ e'.ahead = _
    rw [hsame.queue, hsame.ahead, append_assoc]
    rfl
  unfold arrive
  rw [heq]
  unfold Sound
  rw [hheld]
  have hreshaped : Tracks files (e.queue.toList ++ line' :: e.ahead) e :=
    h.reshape (by rw [map_append, map_append, map_cons, map_cons, hshape])
  exact (hreshaped.same hsame).place e'.queue e'.ahead (some line') e'.pointer

theorem sound_pass (h : Tracks files (e.queue.toList ++ e.current.toList ++ line :: e.ahead) e) :
    Sound files (e.pushCurrent.arrive line) := by
  obtain ⟨flushed, queue, hlist, heq⟩ := pushCurrent_spec e
  rw [← hlist, append_assoc] at h
  rw [heq]
  exact sound_arrive h.write

theorem tracks_pullLine {e' : Edit} (h : Sound files e) (hpull : e.pullLine = (some line, e')) :
    Tracks files (e'.queue.toList ++ e'.current.toList ++ line :: e'.ahead) e' := by
  unfold Sound held at h
  rcases pullLine_cases e with
    ⟨-, -, heq⟩ | ⟨line', rest, hahead, heq⟩ | ⟨line', s', ver, hahead, -, hcontent, hbrings, heq⟩
  · exact nomatch heq.symm.trans hpull
  · obtain ⟨hline, rfl⟩ := Prod.mk.inj (heq.symm.trans hpull)
    obtain rfl := Option.some.inj hline
    rw [hahead] at h
    exact h.place e.queue rest e.current e.pointer
  obtain ⟨hline, rfl⟩ := Prod.mk.inj (heq.symm.trans hpull)
  obtain rfl := Option.some.inj hline
  have hsame : SameStore e { e with ver } := by constructor <;> rfl
  have hreads := hbrings.reads h.strips hcontent
  have hheld : e.queue.toList ++ e.current.toList ++ line' :: e.ahead =
      e.queue.toList ++ e.current.toList ++ e.ahead ++ [line'] := by
    rw [hahead, append_nil]
  show Tracks files (e.queue.toList ++ e.current.toList ++ line' :: e.ahead) _
  rw [hheld]
  exact (h.same hsame).take hreads

theorem sound_nextLine (h : Sound files e) : Sound files e.nextLine.2 := by
  rcases nextLine_cases e with ⟨text, heq⟩ | ⟨line, e', hpull, heq⟩
  · rw [heq]
    exact Tracks.same (aside_report e text).store h
  · rw [heq]
    exact sound_pass (tracks_pullLine h hpull)

theorem sound_previousLine (h : Sound files e) : Sound files e.previousLine.2 := by
  unfold previousLine queuePop
  cases hpop : e.queue.popBack with
  | none => exact Tracks.same (aside_report e _).store h
  | some popped =>
  obtain ⟨line, queue⟩ := popped
  obtain ⟨hlist, -, -⟩ := RingBuffer.popBack_eq_some _ hpop
  unfold Sound held at h ⊢
  rw [hlist] at h
  rw [append_assoc] at h
  exact h.place queue (e.current.toList ++ e.ahead) (some line) 0

/-! ## Switching the source -/

theorem sound_switch (hi : i < e.sources.length) (h : Sound files e) :
    Sound files { e with source := i } :=
  { h with chosen := hi }

theorem findSource_lt (h : e.findSource name = some i) : i < e.sources.length := by
  have hmem := mem_of_find?_eq_some h
  rwa [mem_reverse, mem_range] at hmem

theorem sound_open {name' content : List UInt8} (hfile : files name = some content)
    (h : Sound files e) :
    Sound files { e with sources := e.sources ++ [⟨name', content, content, 1, false⟩] } where
  plain := h.plain
  strips := h.strips
  chosen := by
    rw [length_append]
    exact Nat.lt_add_right 1 h.chosen
  room := h.room
  opened := by
    exact forall_mem_append.mpr ⟨h.opened, forall_mem_singleton.mpr ⟨name, hfile⟩⟩
  known := by
    intro entry hent
    rw [length_append]
    exact Nat.lt_add_right 1 (h.known entry hent)
  conserved := h.conserved
  followed := by
    intro i hi
    rw [length_append] at hi
    unfold sourceAt
    rw [getD_eq_getElem?_getD]
    rcases Nat.lt_or_eq_of_le (Nat.le_of_lt_succ hi) with hold | hnew
    · rw [getElem?_append_left hold]
      exact h.followed i hold
    have hnone : e.taken.filter (·.1 == i) = [] := by
      rw [filter_eq_nil_iff]
      intro entry hent heq
      have hlt := h.known entry hent
      rw [beq_iff_eq] at heq
      omega
    unfold takenFrom
    rw [hnone, hnew, getElem?_concat_length]
    exact Followed.start rfl rfl (h.room name content hfile)

theorem sound_commandFrom (name : Option (List UInt8)) (h : Sound files e) :
    Sound files (commandFrom files e name) := by
  unfold commandFrom
  cases name with
  | none => exact sound_switch (Nat.zero_lt_of_lt h.chosen) h
  | some name =>
  dsimp only
  unfold openSource
  cases hfind : e.findSource (name.take (nameSize - 1)) with
  | some i => exact sound_switch (findSource_lt hfind) h
  | none =>
  cases hfile : files (name.take (nameSize - 1)) with
  | none => exact Tracks.same (aside_put e rfl).store h
  | some content =>
    refine sound_switch ?_ (sound_open hfile h)
    rw [length_append]
    exact Nat.lt_succ_self _

theorem closed_sound : StoreClosed (Sound files) where
  same hsame h := by
    unfold Sound held at h ⊢
    rw [hsame.queue, hsame.current, hsame.ahead]
    exact h.same hsame
  next := sound_nextLine
  previous := sound_previousLine

end Operations

end AceShell.LineEditor
