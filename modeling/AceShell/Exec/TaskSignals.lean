import AceShell.Exec.SignalBits

/-!
# Signals are taken once

After `merge_host_signals_locked`, `Wait` and the calls behind it in `aros_exec_runtime.c`. A signal
is pending with its task, one of the broker also in a word of the process, and one of the host in
another word until some task calls. Added is what each task has been sent and has not taken.
-/

namespace AceShell.Exec

open Function

/-- A task's calls that report its signals. -/
inductive TaskCall
  | wait (signals : Signals)
  | setSignal (setMask clearMask : Signals)
  | checkSignal (mask : Signals)

/-- What the call returns, and what it leaves pending with the task and the broker. A `Wait` that
has nothing to return goes on waiting. -/
def TaskCall.run (pending broker : Signals) : TaskCall → Signals × Signals × Signals
  | .wait signals =>
    let result := (pending ||| broker) &&& signals
    (result, pending &&& ~~~result, broker &&& ~~~result)
  | .setSignal setMask clearMask => (pending, (pending ||| setMask) &&& ~~~clearMask, broker)
  | .checkSignal mask => (pending &&& mask, pending, broker)

inductive SignalStep
  | raiseFromHost (signals : Signals)
  | signalLocalTasks (signals : Signals)
  | signalTask (caller task : ℕ) (signals : Signals)
  | own (caller : ℕ) (call : TaskCall)

/-- `pending` has the `pending_signals` of the tasks that have a state. -/
structure TaskSignals where
  pending : ℕ → Option Signals := fun _ => none
  brokerPending : Signals := 0
  hostPending : Signals := 0
  due : ℕ → Signals := fun _ => 0

namespace TaskSignals

def taskState (s : TaskSignals) (task : ℕ) : Signals := (s.pending task).getD 0

def mergeHostSignals (caller : ℕ) (s : TaskSignals) : TaskSignals :=
  if s.hostPending = 0 then s
  else
    { s with
      hostPending := 0
      pending := update s.pending caller (some (s.taskState caller ||| s.hostPending))
      due := update s.due caller (s.due caller ||| s.hostPending) }

def report (caller : ℕ) (call : TaskCall) (s : TaskSignals) : Signals :=
  let s := s.mergeHostSignals caller
  (call.run (s.taskState caller) s.brokerPending).1

/-- What the call is to return: signals of the broker are like all others. -/
def dueReport (caller : ℕ) (call : TaskCall) (s : TaskSignals) : Signals :=
  (call.run ((s.mergeHostSignals caller).due caller) 0).1

def act : SignalStep → TaskSignals → TaskSignals
  | .raiseFromHost signals, s => { s with hostPending := s.hostPending ||| signals }
  | .signalLocalTasks signals, s =>
    { s with
      brokerPending := s.brokerPending ||| signals
      pending := fun task => (s.pending task).map (· ||| signals)
      due := fun task => s.due task ||| signals }
  | .signalTask caller task signals, s =>
    if signals = 0 then s
    else
      let s := s.mergeHostSignals caller
      { s with
        pending := update s.pending task ((s.pending task).map (· ||| signals))
        due := update s.due task (s.due task ||| signals) }
  | .own caller call, s =>
    let s := s.mergeHostSignals caller
    let (_, pending, broker) := call.run (s.taskState caller) s.brokerPending
    { s with
      pending := update s.pending caller (some pending)
      brokerPending := broker
      due := update s.due caller (call.run (s.due caller) 0).2.1 }

/-- A task calls before anything is sent to it, is signalled by others when it has called, and
clears no bit that the word of the broker has. -/
def Careful : SignalStep → TaskSignals → Prop
  | .signalTask caller task _, s =>
    (s.pending caller = none → s.due caller = 0) ∧ s.pending task ≠ none
  | .own caller call, s => (s.pending caller = none → s.due caller = 0) ∧
    ∀ setMask clearMask, call = .setSignal setMask clearMask → s.brokerPending &&& clearMask = 0
  | _, _ => True

def machine : Machine TaskSignals SignalStep where
  init := {}
  possible := Careful
  step := act

structure Sound (s : TaskSignals) : Prop where
  own : ∀ task signals, s.pending task = some signals → signals = s.due task
  word : ∀ task i (_ : i < 32), s.brokerPending[i] = true → (s.due task)[i] = true

variable {s : TaskSignals} {caller task : ℕ} {call : TaskCall} {pending broker : Signals}

theorem run_eq (hword : ∀ i (_ : i < 32), broker[i] = true → pending[i] = true)
    (hclear : ∀ setMask clearMask, call = .setSignal setMask clearMask → broker &&& clearMask = 0) :
    (call.run pending broker).1 = (call.run pending 0).1 ∧
      (call.run pending broker).2.1 = (call.run pending 0).2.1 ∧
      ∀ i (_ : i < 32), (call.run pending broker).2.2[i] = true →
        broker[i] = true ∧ (call.run pending 0).2.1[i] = true := by
  cases call with
  | wait signals =>
    have hboth : pending ||| broker = pending := by
      ext i hi
      have := hword i hi
      grind
    simp [TaskCall.run, hboth]
    grind
  | setSignal setMask clearMask =>
    refine ⟨rfl, rfl, fun i hlt hi => ⟨hi, ?_⟩⟩
    have hkept : (broker &&& clearMask)[i] = false := by simp [hclear _ _ rfl]
    have := hword i hlt hi
    simp [TaskCall.run] at hi hkept this ⊢
    grind
  | checkSignal mask => exact ⟨rfl, rfl, fun i hlt hi => ⟨hi, hword i hlt hi⟩⟩

theorem Sound.update (h : s.Sound) (host : Signals)
    (hword : ∀ i (_ : i < 32), broker[i] = true → s.brokerPending[i] = true ∧ pending[i] = true) :
    Sound ⟨update s.pending task (some pending), broker, host, update s.due task pending⟩ where
  own other p hp := by
    have := h.own other p
    simp only [update_apply] at hp ⊢
    grind
  word other i hlt hi := by
    have := h.word other i hlt
    simp only [update_apply]
    grind

theorem Sound.send (h : s.Sound) (task : ℕ) (signals host : Signals) :
    Sound ⟨Function.update s.pending task (some (s.due task ||| signals)), s.brokerPending, host,
      Function.update s.due task (s.due task ||| signals)⟩ := by
  refine h.update host fun i hlt hi => ⟨hi, ?_⟩
  have := h.word task i hlt hi
  simp at this ⊢
  exact .inl this

theorem Sound.merge (h : s.Sound) (hknown : s.pending caller = none → s.due caller = 0) :
    (s.mergeHostSignals caller).Sound ∧
      (s.mergeHostSignals caller).taskState caller = (s.mergeHostSignals caller).due caller := by
  have hstate : s.taskState caller = s.due caller := by
    unfold taskState
    cases hp : s.pending caller with
    | none => exact (hknown hp).symm
    | some p => exact h.own caller p hp
  unfold mergeHostSignals
  split_ifs
  · exact ⟨h, hstate⟩
  · rw [hstate]
    exact ⟨h.send caller _ 0, by simp [taskState]⟩

theorem Sound.run (h : s.Sound) (hcareful : s.Careful (.own caller call)) :
    s.report caller call = s.dueReport caller call ∧ (s.act (.own caller call)).Sound := by
  obtain ⟨hmerged, hstate⟩ := h.merge hcareful.1
  have hbroker : (s.mergeHostSignals caller).brokerPending = s.brokerPending := by
    unfold mergeHostSignals
    split_ifs <;> rfl
  obtain ⟨hresult, hpending, hword⟩ := run_eq (hmerged.word caller) (hbroker ▸ hcareful.2)
  unfold report act
  dsimp only
  rw [hstate, hpending]
  exact ⟨hresult, hmerged.update _ hword⟩

theorem sound_act (h : s.Sound) {step : SignalStep} (hcareful : s.Careful step) :
    (s.act step).Sound := by
  cases step with
  | raiseFromHost signals => exact ⟨h.own, h.word⟩
  | signalLocalTasks signals =>
    refine ⟨fun task p hp => ?_, fun task i hlt hi => ?_⟩
    · have := h.own task
      simp [act] at hp ⊢
      grind
    · have := h.word task i hlt
      simp [act] at hi ⊢
      grind
  | signalTask caller task signals =>
    obtain ⟨hmerged, -⟩ := h.merge hcareful.1
    rw [act]
    split_ifs
    · exact h
    cases hp : (s.mergeHostSignals caller).pending task with
    | none =>
      unfold mergeHostSignals at hp
      split_ifs at hp
      · exact absurd hp hcareful.2
      · simp only [update_apply] at hp
        split_ifs at hp
        exact absurd hp hcareful.2
    | some p =>
      dsimp only
      rw [hp, hmerged.own task p hp]
      exact hmerged.send task signals _
  | own caller call => exact (h.run hcareful).2

/-- **A signal is reported until it is taken, and not again.** In every history in which each task
calls before anything is sent to it, is signalled by others only then, and clears no bit that is in
the broker's word, its calls report what it has been sent and has not taken or cleared. -/
theorem reports_due {n : ℕ} (hrun : machine.Run n s)
    (hcareful : s.Careful (.own caller call)) : s.report caller call = s.dueReport caller call := by
  have hinit : Sound {} := ⟨fun _ _ h => (nomatch h), fun _ _ _ hi => by simp at hi⟩
  have hsound : s.Sound := hrun.invariant (P := fun _ s => s.Sound) hinit
    (fun _ _ _ _ _ hcareful h => sound_act h hcareful) (Nat.lt_succ_self n)
  exact (hsound.run hcareful).1

/-- A break of the broker, taken with `Wait`, is not reported again. -/
theorem reports_due_once :
    ∃ n s, machine.Run n s ∧ s.report 0 (.wait 4096) = 0 ∧
      s.dueReport 0 (.wait 4096) = 0 := by
  have hcan : machine.CanExec
      [.own 0 (.checkSignal 0), .signalLocalTasks 4096, .own 0 (.wait 4096)] {} :=
    ⟨⟨fun _ => rfl, nofun⟩, trivial, ⟨nofun, nofun⟩, trivial⟩
  have hrun := Machine.Run.start.exec hcan
  have hdue := @reports_due _ 0 (.wait 4096) _ hrun ⟨nofun, nofun⟩
  exact ⟨_, _, hrun, by decide, hdue ▸ by decide⟩

/-- A break of the broker is cleared with `SetSignal`, which reports it, and `Wait` reports it
again. -/
theorem cleared_signal_reported :
    (machine.exec [.own 0 (.checkSignal 0), .signalLocalTasks 4096] {}).report 0
        (.setSignal 0 4096) = 4096 ∧
      (machine.exec [.own 0 (.checkSignal 0), .signalLocalTasks 4096,
        .own 0 (.setSignal 0 4096)] {}).report 0 (.wait 4096) = 4096 := by
  decide

end TaskSignals

end AceShell.Exec
