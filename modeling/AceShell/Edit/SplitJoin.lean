import AceShell.Edit.Moves
import AceShell.Edit.Pulling
import AceShell.Edit.Session

/-!
# Splitting and joining

SA and SB leave the first part of a line in the queue and make the rest of it current. P and CL go
back to the first part and join the two again (`join_undoes_split`).
-/

namespace AceShell.LineEditor

open Edit List Text

variable {e e' : Edit} {line head tail : Line}

theorem previousLine_eq {front : List Line} (h : e.queue.toList = front ++ [line]) :
    ∃ queue, queue.toList = front ∧ e.previousLine = (true,
      { e with queue, ahead := e.current.toList ++ e.ahead, current := some line
               pointer := 0 }) := by
  obtain ⟨queue, hpop, hfront⟩ := RingBuffer.popBack_of_toList _ h
  refine ⟨queue, hfront, ?_⟩
  unfold previousLine queuePop
  rw [hpop]

theorem commandJoin_tail {rest : List Line} (hcur : e.current = some line)
    (hphantom : line.phantom = false) (hahead : e.ahead = tail :: rest)
    (htail : tail.phantom = false) (hproc : tail.processed = true)
    (hroom : line.text.length + tail.text.length ≤ e.capacity) :
    e.commandJoin = { e with ahead := rest, modified := true, pointer := 0
                             current := some { line with text := line.text ++ tail.text
                                                         newline := tail.newline } } := by
  have hinsert : lineInsert e.capacity line.text line.text.length tail.text =
      some (line.text ++ tail.text) := by
    unfold lineInsert
    split_ifs with hempty
    · rw [hempty, append_nil]
    · omega
    · rw [take_length, drop_length, append_nil]
  have hpull : e.pullLine = (some tail, { e with ahead := rest }) := by
    unfold pullLine
    rw [hahead]
  unfold commandJoin
  simp only [hcur, hphantom, hpull, htail, Bool.false_eq_true, if_false]
  unfold lineArrive
  rw [if_pos hproc]
  rw [hinsert]
  rfl

/-- The lines of `e` with others in place of its current line: `parts`, and then `line`, which is
current. The oldest lines may have gone to the file. -/
structure InPlace (parts : List Line) (line : Line) (e e' : Edit) : Prop where
  current : e'.current = some line
  before : ∃ flushed kept, flushed ++ kept = e.queue.toList ∧ e'.queue.toList = kept ++ parts ∧
    e'.sink = e.sink ++ bytesOf flushed
  ahead : e'.ahead = e.ahead
  sources : e'.sources = e.sources
  source : e'.source = e.source
  capacity : e'.capacity = e.capacity

theorem inPlace_sendHead {e₀ : Edit} (h : SameStore e e₀) (head tail : Line) :
    InPlace [head] tail e (e₀.sendHead head tail) := by
  have hshown : SameStore { e₀ with current := some head }
      (if e₀.verify then ({ e₀ with current := some head } : Edit).verifyLine head true
        else { e₀ with current := some head }) := by
    split_ifs
    · exact (aside_verifyLine _ head true).store
    · exact SameStore.refl _
  unfold sendHead
  dsimp only
  generalize (if e₀.verify then ({ e₀ with current := some head } : Edit).verifyLine head true
    else { e₀ with current := some head }) = shown at hshown ⊢
  obtain ⟨flushed, kept, queue, hold, hnew, hpush⟩ := queuePush_last shown head
  rw [hshown.queue, h.queue] at hold
  rw [hpush]
  exact {
    current := rfl
    before := ⟨flushed, kept, hold, hnew,
      congrArg (· ++ bytesOf flushed) (hshown.sink.trans h.sink)⟩
    ahead := hshown.ahead.trans h.ahead
    sources := hshown.sources.trans h.sources
    source := hshown.source.trans h.source
    capacity := hshown.capacity.trans h.capacity }

/-- **P;CL.** -/
def Edit.rejoin (e : Edit) : Edit := (repeated previousLine 1 e).commandJoin

theorem InPlace.rejoin (h : InPlace [head] tail e e')
    (hline : { head with text := head.text ++ tail.text, newline := tail.newline } = line)
    (hhead : head.phantom = false) (htail : tail.phantom = false) (hproc : tail.processed = true)
    (hroom : head.text.length + tail.text.length ≤ e.capacity) :
    InPlace [] line e e'.rejoin := by
  obtain ⟨flushed, kept, hold, hnew, hsink⟩ := h.before
  obtain ⟨queue, hkept, hback⟩ := previousLine_eq hnew
  unfold Edit.rejoin repeated
  rw [hback]
  unfold repeated
  have hahead : e'.current.toList ++ e'.ahead = tail :: e.ahead := by
    rw [h.current, h.ahead]
    rfl
  rw [hahead, commandJoin_tail (e := { e' with queue, ahead := tail :: e.ahead
                                               current := some head, pointer := 0 })
    rfl hhead rfl htail hproc (hroom.trans_eq h.capacity.symm)]
  exact { h with
    current := congrArg some hline
    before := ⟨flushed, kept, hold, hkept.trans (append_nil _).symm, hsink⟩
    ahead := rfl }

theorem pointerFind_nil (pointer : ℤ) (text : List UInt8) :
    (pointerFind [] pointer text).2 = none := by
  unfold pointerFind
  split_ifs with hnone
  · rfl
  have hpos := length_pos_iff.mpr fun hempty => hnone (.inl hempty)
  have hoff : (⟨pointer, pointer + text.length, 0⟩ : Access).onLine = false := by
    unfold Access.onLine
    simp
    omega
  unfold pointerFindIn
  dsimp only [length_nil]
  rw [hoff, Bool.not_false, if_pos rfl]
  split_ifs
  · rfl
  · rfl

/-- **Joining undoes splitting.** SA or SB and then P;CL give the line back as it was, with its text
and its line feed, and with the lines that were around it. -/
theorem join_undoes_split (hcur : e.current = some line)
    (hphantom : line.phantom = true → line.text = []) (hroom : line.text.length ≤ e.capacity)
    (after : Bool) {text : List UInt8} {accesses : List Access} {index : ℕ}
    (hfind : pointerFind line.text e.pointer text = (accesses, some index)) :
    InPlace [] line e (e.commandSplit after text).rejoin := by
  have hreal : line.phantom = false := by
    rw [Bool.eq_false_iff]
    intro hyes
    have hnone := pointerFind_nil e.pointer text
    rw [← hphantom hyes, hfind] at hnone
    exact nomatch hnone
  unfold commandSplit
  rw [hcur]
  dsimp only
  rw [hfind]
  dsimp only
  generalize (if after then index + text.length else index) = index
  have hlen : (line.text.take index).length + (line.text.drop index).length ≤ e.capacity := by
    rw [← length_append, take_append_drop]
    exact hroom
  refine (inPlace_sendHead (by constructor <;> rfl) _ _).rejoin ?_ hreal rfl rfl hlen
  rw [take_append_drop]

theorem join_undoes_split_cat : ∃ s line, catSession "" = some s ∧ s.edit.current = some line ∧
    InPlace [] line s.edit (s.edit.commandSplit true (ascii "a")).rejoin := by
  obtain ⟨s, hs⟩ := Option.isSome_iff_exists.mp (catSession_isSome "")
  have hstate : (catSession "").map (fun s => (s.edit.current, s.edit.pointer, s.edit.capacity)) =
      some (some ⟨1, 1, ascii "cat", true, false, true⟩, 0, 1200) := by
    decide +kernel
  rw [hs] at hstate
  simp only [Option.map_some, Option.some.injEq, Prod.mk.injEq] at hstate
  obtain ⟨hcur, hpointer, hcapacity⟩ := hstate
  have hfind : pointerFind (ascii "cat") s.edit.pointer (ascii "a") =
      ([⟨0, 1, 3⟩, ⟨1, 2, 3⟩], some 1) := by
    rw [hpointer]
    decide +kernel
  refine ⟨s, _, hs, hcur, join_undoes_split hcur nofun ?_ true hfind⟩
  rw [hcapacity]
  decide

end AceShell.LineEditor
