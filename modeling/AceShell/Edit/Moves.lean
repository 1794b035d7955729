import AceShell.Edit.Commands

/-!
# What moving and showing can do

The commands touch the lines of the file only through `next_line` and `previous_line`; everything
else they change lies outside the store (`SameStore`). So what these two keep, and what the fields
outside the store do not matter to, every command line keeps (`executeLines_keeps`).
-/

namespace AceShell.LineEditor

open Edit Loop

/-- The lines and files of two states, and what becomes of arriving lines, are the same. -/
structure SameStore (e e' : Edit) : Prop where
  width : e'.width = e.width
  capacity : e'.capacity = e.capacity
  queue : e'.queue = e.queue
  ahead : e'.ahead = e.ahead
  current : e'.current = e.current
  sink : e'.sink = e.sink
  sources : e'.sources = e.sources
  source : e'.source = e.source
  globals : e'.globals = e.globals
  trailing : e'.trailing = e.trailing
  taken : e'.taken = e.taken

def Verification.typedLine : Verification → Option Line
  | .typed shown => some shown
  | _ => none

/-- The lines that `type_numbered` has shown. -/
def Edit.typed (e : Edit) : List Line := e.ver.filterMap Verification.typedLine

structure Aside (e e' : Edit) : Prop where
  store : SameStore e e'
  pointer : e'.pointer = e.pointer
  accesses : e'.accesses = e.accesses
  renumber : e'.renumber = e.renumber
  typed : ∀ line ∈ e'.typed, line ∈ e.typed ∨ e.current = some line

variable {e : Edit}

namespace SameStore

theorem refl (e : Edit) : SameStore e e := by
  constructor <;> rfl

theorem trans {e' e'' : Edit} (h : SameStore e e') (h' : SameStore e' e'') : SameStore e e'' where
  width := h'.width.trans h.width
  capacity := h'.capacity.trans h.capacity
  queue := h'.queue.trans h.queue
  ahead := h'.ahead.trans h.ahead
  current := h'.current.trans h.current
  sink := h'.sink.trans h.sink
  sources := h'.sources.trans h.sources
  source := h'.source.trans h.source
  globals := h'.globals.trans h.globals
  trailing := h'.trailing.trans h.trailing
  taken := h'.taken.trans h.taken

end SameStore

theorem Aside.refl (e : Edit) : Aside e e := ⟨SameStore.refl e, rfl, rfl, rfl, fun _ => .inl⟩

theorem Aside.trans {e' e'' : Edit} (h : Aside e e') (h' : Aside e' e'') : Aside e e'' where
  store := h.store.trans h'.store
  pointer := h'.pointer.trans h.pointer
  accesses := h'.accesses.trans h.accesses
  renumber := h'.renumber.trans h.renumber
  typed line hline := (h'.typed line hline).elim (h.typed line)
    fun hcur => .inr (h.store.current ▸ hcur)

theorem typed_of_ver {e' : Edit} {v : Verification} (hver : e'.ver = e.ver ++ [v])
    (hv : v.typedLine = none) : e'.typed = e.typed := by
  unfold Edit.typed
  rw [hver, List.filterMap_append, List.filterMap_cons_none hv, List.filterMap_nil, List.append_nil]

theorem Aside.of_ver {e' : Edit} {v : Verification} (hstore : SameStore e e')
    (hpointer : e'.pointer = e.pointer) (haccesses : e'.accesses = e.accesses)
    (hrenumber : e'.renumber = e.renumber) (hver : e'.ver = e.ver ++ [v])
    (hv : v.typedLine = none) : Aside e e' :=
  ⟨hstore, hpointer, haccesses, hrenumber, fun _ hline => .inl (typed_of_ver hver hv ▸ hline)⟩

section Showing

variable (e : Edit)

theorem aside_put {v : Verification} (hv : v.typedLine = none) : Aside e (e.put v) :=
  .of_ver (by constructor <;> rfl) rfl rfl rfl rfl hv

theorem aside_report (text : String) : Aside e (e.report text) :=
  .of_ver (by constructor <;> rfl) rfl rfl rfl rfl rfl

theorem aside_reportTooSmall (number : ℤ) : Aside e (e.reportTooSmall number) :=
  .of_ver (by constructor <;> rfl) rfl rfl rfl rfl rfl

theorem aside_verifyLine (line : Line) (numbered : Bool) :
    Aside e (e.verifyLine line numbered) := by
  unfold verifyLine
  split_ifs
  all_goals exact .of_ver (by constructor <;> rfl) rfl rfl rfl rfl rfl

theorem aside_typeNumbered {line : Line} (hcur : e.current = some line) :
    Aside e (e.typeNumbered line) := by
  refine ⟨by constructor <;> rfl, rfl, rfl, rfl, fun other hother => ?_⟩
  have htyped : (e.typeNumbered line).typed = e.typed ++ [line] := by
    exact List.filterMap_append
  rw [htyped] at hother
  refine (List.mem_append.mp hother).imp_right fun hnew => ?_
  rw [hcur, List.mem_singleton.mp hnew]

theorem aside_verifyHex : Aside e e.verifyHex := by
  unfold verifyHex
  split
  · exact .of_ver (by constructor <;> rfl) rfl rfl rfl rfl rfl
  · exact Aside.refl e

theorem aside_verifyPending : Aside e e.verifyPending := by
  unfold verifyPending
  split
  · exact Aside.refl e
  dsimp only
  split_ifs
  · exact Aside.refl e
  · exact Aside.refl e
  · exact aside_verifyLine e _ true

theorem aside_interrupted : Aside e e.interrupted.2 := by
  unfold interrupted
  split
  · exact Aside.refl e
  · exact ⟨by constructor <;> rfl, rfl, rfl, rfl, fun _ => .inl⟩

theorem sameStore_commandPointerString (after : Bool) (text : List UInt8) :
    SameStore e (e.commandPointerString after text) := by
  unfold commandPointerString
  split
  · exact (aside_report e _).store
  · split
    all_goals constructor <;> rfl

end Showing

/-! ## Rounds -/

/-- A round of a loop moves, or it is the last one: then nothing but what is shown has changed, or
nothing else since the move. -/
inductive Round (move : Edit → Bool × Edit) (e : Edit) (more : Bool) (e' : Edit) : Prop
  | stay (hlast : more = false) (h : Aside e e')
  | move (e₀ : Edit) (h : Aside e e₀) (heq : (more, e') = move e₀)
  | stop (hlast : more = false) (e₀ : Edit) (h : Aside e e₀) (h' : Aside (move e₀).2 e')

theorem round_endStep (e : Edit) : Round nextLine e e.endStep.1 e.endStep.2 := by
  unfold endStep
  split_ifs
  · exact .stay rfl (.refl e)
  · exact .move e (.refl e) rfl

theorem round_highestStep (e : Edit) : Round nextLine e e.highestStep.1 e.highestStep.2 := by
  unfold highestStep
  split_ifs
  · exact .stay rfl (.refl e)
  · exact .move e (.refl e) rfl

theorem round_lowestStep (e : Edit) : Round previousLine e e.lowestStep.1 e.lowestStep.2 := by
  unfold lowestStep
  split_ifs
  · exact .stay rfl (.refl e)
  · exact .move e (.refl e) rfl

theorem round_backwardStep (number : ℤ) (s : Bool × Edit) :
    Round previousLine s.2 (backwardStep number s).1 (backwardStep number s).2.2 := by
  unfold backwardStep
  split_ifs
  · exact .stay rfl (.refl s.2)
  · exact .stay rfl (aside_reportTooSmall s.2 number)
  · exact .move s.2 (.refl s.2) rfl

theorem round_forwardStep (number : ℤ) (s : Bool × Edit) :
    Round nextLine s.2 (forwardStep number s).1 (forwardStep number s).2.2 := by
  unfold forwardStep
  split_ifs
  · exact .stay rfl (.refl s.2)
  · exact .stay rfl (aside_reportTooSmall s.2 number)
  · exact .move s.2 (.refl s.2) rfl

theorem round_findBackStep (e : Edit) :
    Round previousLine e e.findBackStep.1 e.findBackStep.2 := by
  unfold findBackStep
  split_ifs
  · exact .stay rfl (.refl e)
  · exact .move e (.refl e) rfl

theorem round_findStep (e : Edit) : Round nextLine e e.findStep.1 e.findStep.2 := by
  unfold findStep
  split_ifs
  · exact .stay rfl (.refl e)
  cases hnext : e.nextLine with
  | mk moved e' =>
  have hmoved : e' = e.nextLine.2 := by rw [hnext]
  cases moved with
  | false => exact .move e (.refl e) hnext.symm
  | true =>
  dsimp only
  split_ifs
  · exact .stop rfl e (.refl e) (hmoved ▸ aside_report e' _)
  · exact .move e (.refl e) hnext.symm

theorem round_typeStep (numbered : Bool) (s : Option ℕ × Edit) :
    Round nextLine s.2 (typeStep numbered s).1 (typeStep numbered s).2.2 := by
  have hsignal := aside_interrupted s.2
  unfold typeStep
  generalize s.2.interrupted = outcome at hsignal ⊢
  obtain ⟨_ | _, e⟩ := outcome
  · dsimp only
    by_cases hzero : s.1 = some 0
    · rw [if_pos hzero]
      exact .stay rfl hsignal
    rw [if_neg hzero]
    cases hcur : e.current with
    | none => exact .stay rfl hsignal
    | some line =>
    have hshown : Aside s.2
        (if numbered then e.typeNumbered line else e.verifyLine line false) := by
      split_ifs
      · exact hsignal.trans (aside_typeNumbered e hcur)
      · exact hsignal.trans (aside_verifyLine e line false)
    dsimp only
    generalize (if numbered then e.typeNumbered line else e.verifyLine line false) = shown
      at hshown ⊢
    split_ifs
    · exact .stay rfl hshown
    · exact .move shown hshown rfl
  · exact .stay rfl (hsignal.trans (aside_report e _))

theorem round_typeNewStep (threshold : ℕ) (e : Edit) :
    Round nextLine e (e.typeNewStep threshold).1 (e.typeNewStep threshold).2 := by
  have hsignal := aside_interrupted e
  unfold typeNewStep
  cases e.queue.at? 0 with
  | none => exact .stay rfl (.refl e)
  | some oldest =>
  dsimp only
  split_ifs
  · exact .stay rfl (.refl e)
  generalize e.interrupted = outcome at hsignal ⊢
  obtain ⟨_ | _, e'⟩ := outcome
  · dsimp only
    cases e'.current with
    | none => exact .stay rfl hsignal
    | some line =>
    dsimp only
    split_ifs
    · exact .stay rfl hsignal
    · exact .move _ (hsignal.trans (aside_verifyLine e' line false)) rfl
  · exact .stay rfl (hsignal.trans (aside_report e' _))

/-! ## Properties that the moves keep -/

structure Closed (P : Edit → Prop) : Prop where
  same {e e' : Edit} : Aside e e' → P e → P e'
  next {e : Edit} : P e → P e.nextLine.2
  previous {e : Edit} : P e → P e.previousLine.2

namespace Closed

variable {P : Edit → Prop} (hP : Closed P) {e : Edit}

include hP

theorem round {move : Edit → Bool × Edit} (hmove : ∀ e, P e → P (move e).2) {more : Bool}
    {e' : Edit} (hround : Round move e more e') (h : P e) : P e' := by
  cases hround with
  | stay _ hsame => exact hP.same hsame h
  | move e₀ hsame heq =>
    have hafter := hmove e₀ (hP.same hsame h)
    rwa [← heq] at hafter
  | stop _ e₀ hsame hsame' => exact hP.same hsame' (hmove e₀ (hP.same hsame h))

theorem forwards {more : Bool} {e' : Edit} (hround : Round nextLine e more e') (h : P e) : P e' :=
  hP.round (fun _ => hP.next) hround h

theorem backwards {more : Bool} {e' : Edit} (hround : Round previousLine e more e') (h : P e) :
    P e' :=
  hP.round (fun _ => hP.previous) hround h

theorem moveToNumber (number : ℤ) (h : P e) : P (e.moveToNumber number).2 := by
  unfold Edit.moveToNumber
  split_ifs
  · exact hP.same (aside_report e _) h
  · exact run_keeps (P := fun s : Bool × Edit => P s.2)
      (fun s => hP.backwards (round_backwardStep number s)) _ h
  · exact run_keeps (P := fun s : Bool × Edit => P s.2)
      (fun s => hP.forwards (round_forwardStep number s)) _ h

theorem commandMove (target : Target) (h : P e) : P (e.commandMove target) := by
  cases target with
  | last => exact run_keeps (fun s => hP.forwards (round_endStep s)) _ h
  | highest => exact run_keeps (fun s => hP.forwards (round_highestStep s)) _ h
  | lowest => exact run_keeps (fun s => hP.backwards (round_lowestStep s)) _ h
  | number number => exact hP.moveToNumber number h

omit hP in
theorem repeated {move : Edit → Bool × Edit} (hmove : ∀ e, P e → P (move e).2) (count : ℕ)
    {e : Edit} (h : P e) : P (repeated move count e) := by
  induction count generalizing e with
  | zero => exact h
  | succ count ih =>
  have hnext := hmove e h
  unfold Edit.repeated
  generalize move e = outcome at hnext ⊢
  obtain ⟨_ | _, e'⟩ := outcome
  · exact hnext
  · exact ih hnext

theorem commandFind (backward : Bool) (qualifiers : Qualifiers) (text : Option (List UInt8))
    (h : P e) : P (e.commandFind backward qualifiers text) := by
  have hsearch : ∀ e : Edit, P e →
      P (if backward then run findBackStep (e.queue.count + 1) e
        else run findStep (e.toCome + 1) e) := by
    intro e h
    split_ifs
    · exact run_keeps (fun s => hP.backwards (round_findBackStep s)) _ h
    · exact run_keeps (fun s => hP.forwards (round_findStep s)) _ h
  unfold Edit.commandFind
  cases text with
  | some text =>
    refine hsearch _ (hP.same (e := e) ?_ h)
    exact ⟨by constructor <;> rfl, rfl, rfl, rfl, fun _ => .inl⟩
  | none =>
  by_cases hempty : e.search = []
  · dsimp only
    rw [if_pos hempty]
    exact hP.same (aside_report e _) h
  · dsimp only
    rw [if_neg hempty]
    exact hsearch e h

theorem commandType (numbered : Bool) (limit : Option ℕ) (h : P e) :
    P (e.commandType numbered limit) :=
  run_keeps (P := fun s : Option ℕ × Edit => P s.2)
    (fun s => hP.forwards (round_typeStep numbered s)) _ h

theorem commandTypeQueue (h : P e) : P e.commandTypeQueue := by
  unfold Edit.commandTypeQueue
  generalize e.queue.toList = lines
  induction lines generalizing e with
  | nil => exact h
  | cons line lines ih => exact ih (hP.same (aside_verifyLine e line false) h)

theorem commandTypeNew (h : P e) : P e.commandTypeNew :=
  run_keeps (fun s => hP.forwards (round_typeNewStep e.nextSerial s)) _ h

/-! ## Command lines -/

omit hP in
theorem groupLoop {body : Edit → Edit} (hbody : ∀ e, P e → P (body e)) (count : ℕ) {e : Edit}
    (h : P e) : P (LineEditor.groupLoop body count e) := by
  induction count generalizing e with
  | zero => exact h
  | succ count ih =>
  unfold LineEditor.groupLoop
  split_ifs
  · exact h
  · exact ih (hbody e h)

end Closed

structure StoreClosed (P : Edit → Prop) : Prop where
  same {e e' : Edit} : SameStore e e' → P e → P e'
  next {e : Edit} : P e → P e.nextLine.2
  previous {e : Edit} : P e → P e.previousLine.2

theorem StoreClosed.closed {P : Edit → Prop} (hP : StoreClosed P) : Closed P :=
  ⟨fun h => hP.same h.store, hP.next, hP.previous⟩

mutual

def Command.stays : Command → Bool
  | .from_ _ => false
  | .group _ body => allStay body
  | _ => true

/-- None of the commands is FROM. -/
def allStay : List Command → Bool
  | [] => true
  | command :: rest => command.stays && allStay rest

end

section Lines

variable {P : Edit → Prop} {files : Files} {switches : Prop}

mutual

theorem Command.execute_keeps (hP : StoreClosed P)
    (hfrom : switches → ∀ e name, P e → P (commandFrom files e name)) :
    ∀ (command : Command), switches ∨ command.stays = true → ∀ e, P e → P (command.execute files e)
  | .refused message, _, e, h => hP.same (aside_report e message).store h
  | .move target, _, _, h => hP.closed.commandMove target h
  | .next count, _, _, h => Closed.repeated (fun _ => hP.next) count h
  | .previous count, _, _, h => Closed.repeated (fun _ => hP.previous) count h
  | .find backward qualifiers text, _, _, h => hP.closed.commandFind backward qualifiers text h
  | .type numbered limit, _, _, h => hP.closed.commandType numbered limit h
  | .typeQueue, _, _, h => hP.closed.commandTypeQueue h
  | .typeNew, _, _, h => hP.closed.commandTypeNew h
  | .verify, _, e, h => by
    unfold Command.execute
    split
    · exact hP.same (aside_verifyLine e _ true).store h
    · exact h
  | .verifyHex, _, e, h => hP.same (aside_verifyHex e).store h
  | .right _, _, e, h => hP.same (e := e) (by constructor <;> rfl) h
  | .left _, _, e, h => hP.same (e := e) (by constructor <;> rfl) h
  | .pointerReset, _, e, h => hP.same (e := e) (by constructor <;> rfl) h
  | .pointerString after text, _, e, h => hP.same (sameStore_commandPointerString e after text) h
  | .verification _, _, e, h => hP.same (e := e) (by constructor <;> rfl) h
  | .halt _, _, e, h => hP.same (e := e) (by constructor <;> rfl) h
  | .from_ name, hstays, e, h => hfrom (hstays.resolve_right Bool.false_ne_true) e name h
  | .write, _, e, h => hP.same (e := e) (by constructor <;> rfl) h
  | .group count body, hstays, _, h =>
    Closed.groupLoop (executeCommands_keeps hP hfrom body hstays) count h

theorem executeCommands_keeps (hP : StoreClosed P)
    (hfrom : switches → ∀ e name, P e → P (commandFrom files e name)) :
    ∀ (commands : List Command), switches ∨ allStay commands = true → ∀ e, P e →
      P (executeCommands files commands e)
  | [], _, _, h => h
  | command :: rest, hstays, e, h => by
    have hfst : switches ∨ command.stays = true :=
      hstays.imp_right fun hall => (Bool.and_eq_true_iff.mp hall).1
    have hrest : switches ∨ allStay rest = true :=
      hstays.imp_right fun hall => (Bool.and_eq_true_iff.mp hall).2
    unfold executeCommands
    split_ifs
    · exact h
    · exact executeCommands_keeps hP hfrom rest hrest _
        (Command.execute_keeps hP hfrom command hfst e h)

end

theorem executeLine_keeps (hP : StoreClosed P)
    (hfrom : switches → ∀ e name, P e → P (commandFrom files e name)) {commands : List Command}
    (hstays : switches ∨ allStay commands = true) (h : P e) : P (executeLine files e commands) := by
  have hstart : P { e with entrySerial := e.currentSerial, modified := false, aborted := false
                           shownAny := false, shownPlain := false } :=
    hP.same (e := e) (by constructor <;> rfl) h
  have hdone := executeCommands_keeps hP hfrom commands hstays _ hstart
  unfold executeLine
  dsimp only
  split_ifs
  · exact hdone
  · exact hP.same (aside_verifyPending _).store hdone

theorem executeLines_keeps (files : Files) (switches : Prop) (hP : StoreClosed P)
    (hfrom : switches → ∀ e name, P e → P (commandFrom files e name)) {lines : List (List Command)}
    (hstays : switches ∨ ∀ line ∈ lines, allStay line = true) (h : P e)
    : P (executeLines files lines e) := by
  induction lines generalizing e with
  | nil => exact h
  | cons line lines ih =>
  have hfst : P (if e.finished || e.astray then e else executeLine files e line) := by
    split_ifs
    · exact h
    · exact executeLine_keeps hP hfrom (hstays.imp_right fun hall => hall line (by simp)) h
  exact ih (hstays.imp_right fun hall line hmem => hall line (List.mem_cons_of_mem _ hmem)) hfst

end Lines

end AceShell.LineEditor
