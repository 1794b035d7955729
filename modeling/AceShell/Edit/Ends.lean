import AceShell.Edit.Drain
import AceShell.Edit.Session

/-!
# The loops end by themselves

The loops of the program count their rounds in this model, but the count never ends them: a round
that goes on has moved, deleted or read a line, which uses up what can still come, the queue or the
commands. So one of the rounds that the model allows is the last one (`loops_end`).
-/

namespace AceShell.LineEditor

open Edit Loop

variable {e e' : Edit}

def Chosen (e : Edit) : Prop := e.source < e.sources.length

theorem Onward.falls {line : Line} {e₁ : Edit} (h : Chosen e)
    (hpull : e.pullLine = (some line, e')) (honward : Onward e' e₁) :
    Chosen e₁ ∧ e₁.toCome < e.toCome := by
  refine ⟨?_, honward.toCome_eq ▸ toCome_pullLine hpull (.inr h)⟩
  unfold Chosen
  rw [honward.source, honward.sources, (source_pullLine hpull).1, (source_pullLine hpull).2]
  exact h

theorem falls_nextLine : Falls Chosen toCome nextLine := by
  intro e h hmoved
  rcases nextLine_cases e with ⟨text, heq⟩ | ⟨line, e', hpull, heq⟩
  · rw [heq] at hmoved
    cases hmoved
  · rw [heq]
    exact (onward_arrive e' line).falls h hpull

theorem falls_deleteCurrent : Falls Chosen toCome deleteCurrent := by
  intro e h
  unfold deleteCurrent
  split
  · exact nofun
  split_ifs
  · exact nofun
  rcases hpull : e.pullLine with ⟨_ | line, e'⟩
  · exact nofun
  intro _
  obtain ⟨number, renumber, globals, ver, aborted, harrive, -⟩ := lineArrive_eq e' line
  have honward : Onward e' (e'.arrive line) := by
    unfold arrive
    rw [harrive]
    exact ⟨rfl, rfl, rfl⟩
  exact honward.falls h hpull

theorem falls_previousLine : Falls (fun _ => True) (fun e => e.queue.count) previousLine := by
  intro e _
  unfold previousLine queuePop
  cases hpop : e.queue.popBack with
  | none => exact nofun
  | some popped =>
  obtain ⟨-, -, hcnt⟩ := RingBuffer.popBack_eq_some _ hpop
  refine fun _ => ⟨trivial, ?_⟩
  show popped.2.count < e.queue.count
  omega

/-! ## Rounds -/

theorem aside_forward (h : Aside e e') (hchosen : Chosen e) :
    Chosen e' ∧ e'.toCome = e.toCome := by
  unfold Chosen toCome currentSource
  rw [h.store.ahead, h.store.sources, h.store.source]
  exact ⟨hchosen, rfl⟩

theorem aside_backward (h : Aside e e') (_ : True) : True ∧ e'.queue.count = e.queue.count := by
  rw [h.store.queue]
  exact ⟨trivial, rfl⟩

theorem round_deleteRestStep (e : Edit) :
    Round deleteCurrent e e.deleteRestStep.1 e.deleteRestStep.2 := by
  unfold deleteRestStep
  split_ifs
  · exact .stay rfl (.refl e)
  · exact .move e (.refl e) rfl

theorem round_deleteRangeStep (last : ℤ) (s : ℤ × Edit) :
    Round deleteCurrent s.2 (deleteRangeStep last s).1 (deleteRangeStep last s).2.2 := by
  unfold deleteRangeStep
  split_ifs
  · exact .stay rfl (.refl s.2)
  · rcases heq : s.2.deleteCurrent with ⟨_ | _, e⟩ <;> exact .move s.2 (.refl s.2) heq.symm

theorem round_deleteFoundStep (e : Edit) :
    Round deleteCurrent e e.deleteFoundStep.1 e.deleteFoundStep.2 := by
  unfold deleteFoundStep
  split_ifs
  · exact .stay rfl ⟨by constructor <;> rfl, rfl, rfl, rfl, fun _ => .inl⟩
  · exact .stay rfl (aside_report e _)
  · exact .move e (.refl e) rfl

/-- A loop whose rounds move makes no more of them than moves are left. -/
theorem finishes_of_round {σ : Type} {P : Edit → Prop} {left : Edit → ℕ} (store : σ → Edit)
    {step : σ → Bool × σ} {move : Edit → Bool × Edit} (hmove : Falls P left move)
    (haside : ∀ {e e'}, Aside e e' → P e → P e' ∧ left e' = left e)
    (hround : ∀ s, Round move (store s) (step s).1 (store (step s).2)) {s : σ} (hs : P (store s)) :
    Finishes step (left (store s) + 1) s := by
  have hfall : Falls (fun s => P (store s)) (fun s => left (store s)) step := by
    intro s hs hgo
    have h := hround s
    rw [hgo] at h
    cases h with
    | stay hlast | stop hlast => cases hlast
    | move e hsame heq =>
      obtain ⟨he, hstart⟩ := haside hsame hs
      have hnext := hmove e he (by rw [← heq])
      rwa [← heq, hstart] at hnext
  exact hfall.finishes hs (Nat.lt_succ_self _)

theorem unread_commandLine {commands commands' : List CommandFile} {text : List UInt8}
    (h : commandLine commands = (some text, commands')) :
    Session.unread commands' < Session.unread commands := by
  induction commands with
  | nil => cases h
  | cons file below ih =>
  rw [commandLine] at h
  split_ifs at h with hempty
  · exact (ih h).trans_le (Nat.le_add_left _ _)
  · cases h
    have hpos := List.length_pos_iff.mpr hempty
    have hdrop := (List.dropWhile_sublist (· != lf) (l := file.rest)).length_le
    simp only [Session.unread, List.map_cons, List.sum_cons, List.length_drop]
    omega

theorem falls_insertStep :
    Falls (fun _ => True) (fun s : Session => Session.unread s.commands) Session.insertStep := by
  intro s _
  unfold Session.insertStep
  rcases hline : commandLine s.commands with ⟨_ | text, commands⟩
  · exact nofun
  dsimp only
  split_ifs
  · exact nofun
  · exact fun _ => ⟨trivial, unread_commandLine hline⟩

theorem lineFindIn_mem {line text : List UInt8} {start index : ℕ} {qualifiers : Qualifiers}
    {indices : List ℕ} {found : Option ℕ}
    (h : lineFindIn line start text qualifiers indices found = some index) :
    index ∈ indices ∨ found = some index := by
  induction indices generalizing found with
  | nil => exact .inr h
  | cons first rest ih =>
  have hlater {found : Option ℕ}
      (h : lineFindIn line start text qualifiers rest found = some index) :
      index ∈ first :: rest ∨ found = some index := (ih h).imp_left (List.mem_cons_of_mem _)
  unfold lineFindIn at h
  split_ifs at h
  · exact hlater h
  · exact .inr h
  · exact hlater h
  · exact .inl (Option.some.inj h ▸ List.mem_cons_self)
  · rcases hlater h with hrest | hfirst
    · exact .inl hrest
    · exact .inl (Option.some.inj hfirst ▸ List.mem_cons_self)

theorem lineFind_bounds {line text : List UInt8} {start index : ℕ} {qualifiers : Qualifiers}
    (h : lineFind line start text qualifiers = some index) :
    0 < text.length ∧ start ≤ index ∧ index + text.length ≤ line.length := by
  unfold lineFind at h
  split_ifs at h with hempty
  have hpos := List.length_pos_iff.mpr hempty
  rcases lineFindIn_mem h with hmem | hnone
  · rw [List.mem_range'_1] at hmem
    omega
  · cases hnone

/-- What is left of the line behind a change is shorter than before. -/
theorem falls_applying (capacity : ℕ) : Falls (fun _ => True)
    (fun s : Applying => s.line.length - s.start) (Applying.step capacity) := by
  intro s _
  unfold Applying.step
  cases hfind : lineFind s.line s.start s.global.find s.global.qualifiers with
  | none => exact nofun
  | some index =>
  obtain ⟨hpos, hstart, hend⟩ := lineFind_bounds hfind
  dsimp only
  rcases hchange : s.global.change capacity s.line index with ⟨line, _ | resume⟩
  · exact nofun
  refine fun _ => ⟨trivial, ?_⟩
  show line.length - resume < s.line.length - s.start
  unfold Global.change lineInsert lineDelete at hchange
  cases htype : s.global.type <;> rw [htype] at hchange <;> grind

/-- **The loops end.** Within the rounds that the model allows, one is the last: forwards and when
lines are deleted no more than lines can come, backwards no more than are queued, and when lines are
inserted no more than there are bytes of commands, and when a line is changed than it has letters.
-/
theorem loops_end (h : Chosen e) :
    Finishes endStep (e.toCome + 1) e ∧ Finishes highestStep (e.toCome + 1) e ∧
    Finishes lowestStep (e.queue.count + 1) e ∧
    (∀ number moved, Finishes (forwardStep number) (e.toCome + 1) (moved, e) ∧
      Finishes (backwardStep number) (e.queue.count + 1) (moved, e)) ∧
    Finishes findStep (e.toCome + 1) e ∧ Finishes findBackStep (e.queue.count + 1) e ∧
    (∀ numbered limit, Finishes (typeStep numbered) (e.toCome + 1) (limit, e)) ∧
    (∀ threshold, Finishes (typeNewStep threshold) (e.toCome + 1) e) ∧
    (∀ first last, Finishes (deleteRangeStep last) (e.toCome + 1) (first, e)) ∧
    Finishes deleteRestStep (e.toCome + 1) e ∧ Finishes deleteFoundStep (e.toCome + 1) e ∧
    Finishes flushStep (e.queue.count + 1) e ∧ Finishes drainStep (e.toCome + 1) e ∧
    (∀ s : Session, s.edit = e →
      Finishes Session.insertStep (Session.unread s.commands + 1) s) ∧
    ∀ global line, Finishes (Applying.step e.capacity) (line.length + 1) { line, global } := by
  refine ⟨?_, ?_, ?_, fun number moved => ⟨?_, ?_⟩, ?_, ?_, fun numbered limit => ?_,
    fun threshold => ?_, fun first last => ?_, ?_, ?_, ?_, ?_, fun s _ => ?_, fun global line => ?_⟩
  · exact finishes_of_round id falls_nextLine aside_forward round_endStep h
  · exact finishes_of_round id falls_nextLine aside_forward round_highestStep h
  · exact finishes_of_round id falls_previousLine aside_backward round_lowestStep trivial
  · exact finishes_of_round Prod.snd falls_nextLine aside_forward (round_forwardStep number) h
  · exact finishes_of_round Prod.snd falls_previousLine aside_backward (round_backwardStep number)
      trivial
  · exact finishes_of_round id falls_nextLine aside_forward round_findStep h
  · exact finishes_of_round id falls_previousLine aside_backward round_findBackStep trivial
  · exact finishes_of_round Prod.snd falls_nextLine aside_forward (round_typeStep numbered) h
  · exact finishes_of_round id falls_nextLine aside_forward (round_typeNewStep threshold) h
  · exact finishes_of_round Prod.snd falls_deleteCurrent aside_forward (round_deleteRangeStep last)
      h
  · exact finishes_of_round id falls_deleteCurrent aside_forward round_deleteRestStep h
  · exact finishes_of_round id falls_deleteCurrent aside_forward round_deleteFoundStep h
  · exact flushStep_falls.finishes trivial (Nat.lt_succ_self _)
  · exact (drainStep_falls e).finishes (SameReading.refl e) (Nat.lt_succ_self _)
  · exact falls_insertStep.finishes trivial (Nat.lt_succ_self _)
  · exact (falls_applying e.capacity).finishes trivial (Nat.lt_succ_self _)

def threeLines : Edit :=
  { width := 9, capacity := 9, queue := .empty 9 (by decide)
    sources := [{ rest := [65, 10, 66, 10, 67, 10] }] }

/-- A file of three lines: the move to its end makes more than two rounds, and ends. -/
theorem loops_end_three : ¬ Finishes endStep 2 threeLines ∧
    Finishes endStep (threeLines.toCome + 1) threeLines ∧
    threeLines.moveToEnd.atEnd = true := by
  have h : Chosen threeLines := Nat.zero_lt_one
  exact ⟨by decide, (loops_end h).1, by decide⟩

end AceShell.LineEditor
