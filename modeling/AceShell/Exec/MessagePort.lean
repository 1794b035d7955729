import AceShell.Lib.Machine

/-!
# A message port and its owner

After `PutMsg`, `GetMsg` and `Wait` in `aros_exec_runtime.c`. The list of a port is guarded by a
lock of the port, the pending signals of its owner by `ports_lock`, and each section under a lock is
a step. Between the two sections of `GetMsg` a whole `PutMsg` can take place; its signal is then
cleared (`no_lost_wakeup`).
-/

namespace AceShell.Exec

/-- `ULONG` as a set of signals. -/
abbrev Signals := BitVec 32

def sigMask (sigBit : Fin 32) : Signals := 1#32 <<< sigBit.val

/-- How far a call of `PutMsg` is: it has appended its message, or has raised the signal too. -/
inductive Put
  | appended
  | returned
  deriving DecidableEq

/-- Where the owner is: before the first section of `GetMsg`, between the two after it has found no
message, or in `Wait`. -/
inductive Owner
  | getting
  | emptied
  | waiting
  deriving DecidableEq

/-- The port with its owner. A message is the number of the call that puts it. -/
structure PortState where
  msgList : List ℕ := []
  puts : ℕ → Option Put := fun _ => none
  /-- `owner->pending_signals` -/
  pendingSignals : Signals := 0
  brokerPendingSignals : Signals := 0
  owner : Owner := .getting

/-- The steps. Signals of other ports, of other tasks, of the host and of the broker come at any
time too. -/
inductive PortStep
  | append (call : ℕ)
  | raise (call : ℕ)
  | pop
  | clear
  | wake
  | signal (signals : Signals)
  | broker (signals : Signals)
  deriving DecidableEq

def PortState.setPut (s : PortState) (call : ℕ) (put : Put) : PortState :=
  { s with puts := fun i => if i = call then some put else s.puts i }

section Steps

variable (sigBit : Fin 32)

/-- What `Wait` waits for. -/
def PortState.awaited (s : PortState) : Signals :=
  (s.pendingSignals ||| s.brokerPendingSignals) &&& sigMask sigBit

/-- One step. -/
def PortState.act : PortStep → PortState → PortState
  | .append call, s => { s.setPut call .appended with msgList := s.msgList ++ [call] }
  | .raise call, s =>
    { s.setPut call .returned with pendingSignals := s.pendingSignals ||| sigMask sigBit }
  | .pop, s =>
    match s.msgList with
    | [] => { s with owner := .emptied }
    | _ :: rest => { s with msgList := rest }
  | .clear, s =>
    { s with owner := .waiting, pendingSignals := s.pendingSignals &&& ~~~(sigMask sigBit) }
  | .wake, s =>
    { s with
      owner := .getting
      pendingSignals := s.pendingSignals &&& ~~~(s.awaited sigBit)
      brokerPendingSignals := s.brokerPendingSignals &&& ~~~(s.awaited sigBit) }
  | .signal signals, s => { s with pendingSignals := s.pendingSignals ||| signals }
  | .broker signals, s =>
    { s with
      pendingSignals := s.pendingSignals ||| signals
      brokerPendingSignals := s.brokerPendingSignals ||| signals }

/-- When a step can be taken. -/
def PortState.Enabled : PortStep → PortState → Prop
  | .append call, s => s.puts call = none
  | .raise call, s => s.puts call = some .appended
  | .pop, s => s.owner = .getting
  | .clear, s => s.owner = .emptied
  | .wake, s => s.owner = .waiting ∧ s.awaited sigBit ≠ 0
  | .signal _, _ => True
  | .broker _, _ => True

/-- The senders and the owner. -/
def portMachine : Machine PortState PortStep where
  init := {}
  possible := PortState.Enabled sigBit
  step := PortState.act sigBit

def PortState.Delivered (s : PortState) : Prop := ∃ call ∈ s.msgList, s.puts call = some .returned

/-- The owner is blocked in `Wait` though there is a message for it. -/
def PortState.Lost (s : PortState) : Prop :=
  s.owner = .waiting ∧ s.awaited sigBit = 0 ∧ s.Delivered

/-- No `PutMsg` has completed since the owner found no message, or the broker wakes it anyway. -/
def PortState.Careful : PortStep → PortState → Prop
  | .clear, s => s.Delivered → s.brokerPendingSignals &&& sigMask sigBit ≠ 0
  | _, _ => True

def carefulMachine : Machine PortState PortStep where
  init := {}
  possible := fun a s => PortState.Enabled sigBit a s ∧ PortState.Careful sigBit a s
  step := PortState.act sigBit

end Steps

section Proofs

variable {sigBit : Fin 32} {s : PortState}

/-! ## The signal -/

theorem sigMask_ne_zero : ∀ sigBit : Fin 32, sigMask sigBit ≠ 0 := by decide

theorem or_mask_and_mask (p b m : Signals) : (p ||| m ||| b) &&& m = m := by
  ext i hi
  simp only [BitVec.getElem_and, BitVec.getElem_or]
  cases m[i] <;> simp

theorem and_not_mask_or_and_mask (p b m : Signals) : (p &&& ~~~m ||| b) &&& m = b &&& m := by
  ext i hi
  simp only [BitVec.getElem_and, BitVec.getElem_or, BitVec.getElem_not]
  cases m[i] <;> simp

theorem or_and_mask_eq_zero {p b m more : Signals} (h : (p ||| more ||| b) &&& m = 0) :
    (p ||| b) &&& m = 0 := by
  ext i hi
  have hbit := congrArg (·[i]) h
  simp only [BitVec.getElem_and, BitVec.getElem_or] at hbit ⊢
  cases hm : m[i] <;> simp_all

theorem awaited_raise (call : ℕ) : (s.act sigBit (.raise call)).awaited sigBit ≠ 0 := by
  show (s.pendingSignals ||| sigMask sigBit ||| s.brokerPendingSignals) &&& sigMask sigBit ≠ 0
  rw [or_mask_and_mask]
  exact sigMask_ne_zero sigBit

theorem awaited_clear :
    (s.act sigBit .clear).awaited sigBit = s.brokerPendingSignals &&& sigMask sigBit :=
  and_not_mask_or_and_mask _ _ _

theorem delivered_append {call : ℕ} (h : (s.act sigBit (.append call)).Delivered) :
    s.Delivered := by
  obtain ⟨other, hmem, hput⟩ := h
  have hne : other ≠ call := by
    rintro rfl
    have happended : (s.act sigBit (.append other)).puts other = some .appended := if_pos rfl
    exact nomatch happended.symm.trans hput
  have hold : (s.act sigBit (.append call)).puts other = s.puts other := if_neg hne
  refine ⟨other, ?_, hold ▸ hput⟩
  rcases List.mem_append.mp hmem with hmem | hmem
  · exact hmem
  · exact absurd (List.mem_singleton.mp hmem) hne

/-! ## Steps and runs -/

theorem lost_clear : (s.act sigBit .clear).Lost sigBit ↔ ¬ s.Careful sigBit .clear := by
  unfold PortState.Lost PortState.Careful
  rw [awaited_clear, Classical.not_imp, not_not, and_comm (a := s.Delivered)]
  exact and_iff_right rfl

theorem not_lost_act {a : PortStep} (h : ¬ s.Lost sigBit) (hen : s.Enabled sigBit a)
    (hcare : s.Careful sigBit a) : ¬ (s.act sigBit a).Lost sigBit := by
  cases a with
  | append call =>
    rintro ⟨howner, hawaited, hdelivered⟩
    exact h ⟨howner, hawaited, delivered_append hdelivered⟩
  | raise call =>
    rintro ⟨-, hawaited, -⟩
    exact awaited_raise call hawaited
  | pop =>
    rintro ⟨howner, -, -⟩
    have hgetting : s.owner = .getting := hen
    unfold PortState.act at howner
    dsimp only at howner
    split at howner
    · exact nomatch howner
    · exact nomatch hgetting.symm.trans howner
  | clear =>
    rw [lost_clear, not_not]
    exact hcare
  | wake =>
    rintro ⟨howner, -, -⟩
    exact nomatch howner
  | signal signals =>
    rintro ⟨howner, hawaited, hdelivered⟩
    exact h ⟨howner, or_and_mask_eq_zero hawaited, hdelivered⟩
  | broker signals =>
  rintro ⟨howner, hawaited, hdelivered⟩
  refine h ⟨howner, ?_, hdelivered⟩
  have hsame : (s.act sigBit (.broker signals)).awaited sigBit =
      (s.pendingSignals ||| signals ||| s.brokerPendingSignals) &&& sigMask sigBit := by
    show (s.pendingSignals ||| signals ||| (s.brokerPendingSignals ||| signals)) &&& _ = _
    ext i hi
    simp only [BitVec.getElem_and, BitVec.getElem_or]
    cases signals[i] <;> simp
  exact or_and_mask_eq_zero (hsame ▸ hawaited)

end Proofs

/-- **No wake-up is lost, if the owner clears the signal in time.** In every run in which no
`PutMsg` has completed between the look at the list that finds no message and the clearing of the
signal, or the broker has raised the signal as well, the owner is never blocked while there is a
message for it. In any run, each time it clears the signal otherwise, it is. -/
theorem no_lost_wakeup (sigBit : Fin 32) :
    (∀ n s, (carefulMachine sigBit).Run n s → ¬ s.Lost sigBit) ∧
      ∀ n s, (portMachine sigBit).Run n s → s.owner = .emptied →
        ((s.act sigBit .clear).Lost sigBit ↔ ¬ s.Careful sigBit .clear) := by
  refine ⟨fun n s hrun => ?_, fun _ s _ _ => lost_clear⟩
  have hinit : ¬ PortState.Lost sigBit {} := fun hlost => nomatch hlost.1
  refine hrun.invariant (P := fun _ s => ¬ s.Lost sigBit) hinit ?_ (Nat.lt_succ_self n)
  rintro _ s a - - ⟨henabled, hcareful⟩ h
  exact not_lost_act h henabled hcareful

/-- A message is put and taken, and the owner waits for the next. -/
theorem no_lost_wakeup_quiet :
    ∃ n s, (carefulMachine 0).Run n s ∧ s.owner = .waiting ∧ ¬ s.Lost 0 := by
  have hcan : (carefulMachine 0).CanExec [.append 0, .raise 0, .pop, .pop, .clear]
      (carefulMachine 0).init := by
    refine ⟨⟨rfl, trivial⟩, ⟨rfl, trivial⟩, ⟨rfl, trivial⟩, ⟨rfl, trivial⟩, ⟨rfl, ?_⟩, trivial⟩
    rintro ⟨call, hmem, -⟩
    exact nomatch hmem
  have hrun := Machine.Run.start.exec hcan
  exact ⟨_, _, hrun, rfl, (no_lost_wakeup 0).1 _ _ hrun⟩

/-- The owner finds no message; a whole `PutMsg` follows; the owner clears its signal. -/
def raceSteps : List PortStep := [.pop, .append 0, .raise 0, .clear]

/-- The message is there, its `PutMsg` has returned, and the owner is blocked. -/
theorem wakeup_lost : ∃ n s, (portMachine 0).Run n s ∧ s.Lost 0 := by
  have hcan : (portMachine 0).CanExec raceSteps (portMachine 0).init := by
    refine ⟨rfl, rfl, rfl, rfl, trivial⟩
  refine ⟨_, _, Machine.Run.start.exec hcan, rfl, rfl, 0, ?_, rfl⟩
  exact List.mem_singleton_self 0

end AceShell.Exec
