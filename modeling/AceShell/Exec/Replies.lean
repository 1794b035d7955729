import AceShell.Lib.Machine

/-!
# The replies to I/O requests

After `SendIO`, `io_worker`, `WaitIO` and `AbortIO` in `aros_exec_runtime.c`, for requests with one
reply port and its one owner. Each section under a lock is a step, and a request that is sent again
counts as another. One for which no worker can be started is not replied (`replied_once`).
-/

namespace AceShell.Exec

open Function List

/-- Where the worker of a request is: before it takes the lock of the request, before `PutMsg`, or
at its end. -/
inductive Worker
  | working
  | finished
  | ended
  deriving DecidableEq

/-- `struct ace_io_state`. -/
structure IoState where
  worker : Worker
  ioError : Int8
  aborted : Bool := false

/-- `waiting` has the request of a `WaitIO` and the messages put aside, from `deferred_last` on.
Added is what has been put on the port, and what `WaitIO` has taken from it for its caller. -/
structure Replies where
  ioStates : ℕ → Option IoState := fun _ => none
  msgList : List ℕ := []
  waiting : Option (ℕ × List ℕ) := none
  arrived : List ℕ := []
  waited : List ℕ := []

inductive IoStep
  | sendIo (request : ℕ) (created : Bool)
  | finish (request : ℕ) (error : Int8)
  | putMsg (request : ℕ)
  | abortIo (request : ℕ)
  | waitIo (request : ℕ)
  | getMsg
  | restore

namespace Replies

def setState (request : ℕ) (f : IoState → IoState) (s : Replies) : Replies :=
  { s with ioStates := update s.ioStates request ((s.ioStates request).map f) }

/-- `restore_reply_messages`. -/
def restoreReplyMessages (msgList last : List ℕ) : List ℕ := last.foldl (fun l m => m :: l) msgList

/-- One section under a lock. A request that no worker is started for ends at once with -1. -/
def act : IoStep → Replies → Replies
  | .sendIo request created, s =>
    let state := if created then ⟨.working, 0, false⟩ else ⟨.ended, -1, false⟩
    { s with ioStates := update s.ioStates request (some state) }
  | .finish request error, s =>
    s.setState request fun io =>
      { io with worker := .finished, ioError := if io.aborted then -2 else error }
  | .putMsg request, s =>
    { s.setState request fun io => { io with worker := .ended } with
      msgList := s.msgList ++ [request]
      arrived := s.arrived ++ [request] }
  | .abortIo request, s => s.setState request fun io => { io with aborted := true }
  | .waitIo request, s => { s with waiting := some (request, []) }
  | .getMsg, s =>
    match s.waiting, s.msgList with
    | some (request, deferred), message :: rest =>
      if message = request then { s with msgList := rest, waited := request :: s.waited }
      else { s with msgList := rest, waiting := some (request, message :: deferred) }
    | _, _ => s
  | .restore, s =>
    match s.waiting with
    | some (_, deferred) =>
      { s with msgList := restoreReplyMessages s.msgList deferred, waiting := none }
    | none => s

def worker (s : Replies) (request : ℕ) : Option Worker := (s.ioStates request).map IoState.worker

/-- What can happen while a worker can be started for each request. -/
def Possible : IoStep → Replies → Prop
  | .sendIo request created, s => s.worker request = none ∧ created = true
  | .finish request _, s => s.worker request = some .working
  | .putMsg request, s => s.worker request = some .finished
  | .abortIo _, _ => True
  | .waitIo request, s => s.waiting = none ∧ s.worker request ≠ none ∧ request ∉ s.waited
  | .getMsg, s => s.waiting.all (·.1 ∉ s.waited)
  | .restore, s => s.waiting.all (·.1 ∈ s.waited)

def machine : Machine Replies IoStep where
  init := {}
  possible := Possible
  step := act

/-- The messages of the port, with those put aside back in their place. -/
def replies (s : Replies) : List ℕ :=
  restoreReplyMessages s.msgList (s.waiting.elim [] Prod.snd)

/-- Each request is replied once, and the port has the replies in order. -/
structure Sound (s : Replies) : Prop where
  once : ∀ request, s.arrived.count request = if s.worker request = some .ended then 1 else 0
  order : s.replies = s.arrived.filter (· ∉ s.waited)
  waited : s.waited ⊆ s.arrived

variable {s : Replies}

theorem restoreReplyMessages_eq (msgList last : List ℕ) :
    restoreReplyMessages msgList last = last.reverse ++ msgList := by
  induction last generalizing msgList with
  | nil => rfl
  | cons m last ih =>
    rw [reverse_cons, append_assoc]
    exact ih (m :: msgList)

theorem Sound.nodup (h : s.Sound) : s.arrived.Nodup := by
  refine nodup_iff_count_le_one.mpr fun request => ?_
  rw [h.once]
  split_ifs <;> decide

theorem Sound.setStates (h : s.Sound) {ioStates : ℕ → Option IoState}
    (hsame : ∀ r, (ioStates r).map IoState.worker = some .ended ↔ s.worker r = some .ended) :
    Sound { s with ioStates } := by
  refine ⟨fun r => ?_, h.order, h.waited⟩
  rw [h.once]
  exact if_congr (hsame r).symm rfl rfl

theorem sound_putMsg {request : ℕ} (h : s.Sound) (hen : s.worker request = some .finished) :
    (s.act (.putMsg request)).Sound where
  once r := by
    have := h.once r
    by_cases hr : r = request
    · simp_all [act, setState, worker]
      grind
    · simp_all [act, setState, worker]
      grind
  order := by
    have hnew : request ∉ s.waited := by
      intro hmem
      have hcount := count_pos_iff.mpr (h.waited hmem)
      simp [h.once, hen] at hcount
    have horder := h.order
    rw [replies, restoreReplyMessages_eq] at horder
    show restoreReplyMessages (s.msgList ++ [request]) _ =
      (s.arrived ++ [request]).filter (· ∉ s.waited)
    rw [restoreReplyMessages_eq, ← append_assoc, filter_append,
      filter_cons_of_pos (by simpa using hnew), ← horder]
    rfl
  waited := fun r hr => mem_append_left _ (h.waited hr)

theorem sound_getMsg (h : s.Sound) : (s.act .getMsg).Sound := by
  rw [act]
  split
  · rename_i request deferred message rest hwait hlist
    have horder := h.order
    simp only [replies, hwait, hlist, Option.elim_some, restoreReplyMessages_eq] at horder
    have hnodup := h.nodup.filter (· ∉ s.waited)
    split_ifs with hmine
    · subst hmine
      have hmem : message ∈ s.arrived.filter (· ∉ s.waited) := by
        rw [← horder]
        simp
      have haside : message ∉ deferred.reverse := by
        rw [← horder, nodup_append] at hnodup
        intro hmem
        exact hnodup.2.2 _ hmem _ mem_cons_self rfl
      refine ⟨h.once, ?_, cons_subset.mpr ⟨mem_of_mem_filter hmem, h.waited⟩⟩
      have hrest : s.arrived.filter (· ∉ message :: s.waited) =
          (s.arrived.filter (· ∉ s.waited)).erase message := by
        rw [hnodup.erase_eq_filter, filter_filter]
        exact filter_congr fun r _ => by grind
      simp only [replies, hwait, Option.elim_some, restoreReplyMessages_eq]
      rw [hrest, ← horder, erase_append_right _ haside, erase_cons_head]
    · refine ⟨h.once, ?_, h.waited⟩
      rw [← horder]
      simp [replies, restoreReplyMessages_eq]
  · exact h

theorem sound_act {a : IoStep} (h : s.Sound) (ha : s.Possible a) : (s.act a).Sound := by
  cases a with
  | sendIo request created =>
    obtain ⟨hnew, rfl⟩ := ha
    refine h.setStates fun r => ?_
    by_cases hr : r = request
    · simp [hr, hnew]
    · simp [hr, worker]
  | finish request error =>
    refine h.setStates fun r => ?_
    by_cases hr : r = request
    · subst hr
      have hworking : s.worker r = some .working := ha
      simp [hworking]
    · simp [hr, worker]
  | putMsg request => exact sound_putMsg h ha
  | abortIo request =>
    refine h.setStates fun r => ?_
    by_cases hr : r = request
    · subst hr
      simp [worker]
    · simp [hr, worker]
  | waitIo request =>
    have horder := h.order
    rw [replies, ha.1] at horder
    exact ⟨h.once, horder, h.waited⟩
  | getMsg => exact sound_getMsg h
  | restore =>
    have horder := h.order
    rw [act]
    split
    · rename_i hwait
      rw [replies, hwait] at horder
      exact ⟨h.once, horder, h.waited⟩
    · exact h

/-- **Each request is replied once.** In every run in which a worker can be started for each request
that is sent, the request is put on the port once, at the end of its worker, and the replies on the
port, with those that a `WaitIO` has put aside, are those that have arrived and have not been waited
for, in the order in which they arrived. -/
theorem replied_once {n : ℕ} (hrun : machine.Run n s) :
    (∀ request, s.arrived.count request = if s.worker request = some .ended then 1 else 0) ∧
      s.replies = s.arrived.filter (· ∉ s.waited) := by
  have hinit : Sound {} := ⟨fun _ => rfl, rfl, nil_subset _⟩
  have hsound : s.Sound := hrun.invariant (P := fun _ s => s.Sound) hinit
    (fun _ _ _ _ _ ha h => sound_act h ha) (Nat.lt_succ_self n)
  exact ⟨hsound.once, hsound.order⟩

/-- The second request is answered first and put aside while the first is waited for. -/
theorem replied_once_shared : ∃ n s, machine.Run n s ∧ s.waited = [0] ∧ s.msgList = [1] ∧
    s.replies = s.arrived.filter (· ∉ s.waited) := by
  have hcan : machine.CanExec [.sendIo 0 true, .sendIo 1 true, .waitIo 0, .finish 1 0, .putMsg 1,
      .getMsg, .abortIo 0, .finish 0 0, .putMsg 0, .getMsg, .restore] {} :=
    ⟨⟨rfl, rfl⟩, ⟨rfl, rfl⟩, ⟨rfl, nofun, nofun⟩, rfl, rfl, rfl, trivial, rfl, rfl, rfl, rfl,
      trivial⟩
  have hrun := Machine.Run.start.exec hcan
  exact ⟨_, _, hrun, rfl, rfl, (replied_once hrun).2⟩

/-- No worker can be started: nothing more is done for the request, and it is not on the port. -/
theorem unstarted_not_replied :
    (act (.sendIo 0 false) {}).worker 0 = some .ended ∧ (act (.sendIo 0 false) {}).replies = [] :=
  ⟨rfl, rfl⟩

end Replies

end AceShell.Exec
