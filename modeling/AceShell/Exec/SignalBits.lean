import AceShell.Exec.MessagePort

/-!
# The signal bits of a task

After `CreateMsgPort`, `DeleteMsgPort`, `ace_aros_runtime_alloc_signal` and
`ace_aros_runtime_free_signal` in `aros_exec_runtime.c`. The bit of a port comes from a counter of
the process, the bit of a signal from a mask of the task, and neither regards the other or the break
signals of `host_signal_dispatch`.
-/

namespace AceShell.Exec

/-- The break signals. -/
def breakBits : List (Fin 32) := [12, 13, 14, 15]

/-- `ports` has the `mp_SigBit` of each live port. -/
structure SignalBits where
  nextSignalBit : UInt8 := 0
  ports : List (Fin 32) := []
  allocatedSignals : Signals := 0
  pendingSignals : Signals := 0

namespace SignalBits

/-- `next_signal_bit++ & 31`. -/
def portBit (s : SignalBits) : Fin 32 := Fin.ofNat 32 (s.nextSignalBit &&& 31).toNat

/-- `CreateMsgPort`. -/
def createMsgPort (s : SignalBits) : SignalBits :=
  { s with ports := s.ports ++ [s.portBit], nextSignalBit := s.nextSignalBit + 1 }

/-- `DeleteMsgPort`. -/
def deleteMsgPort (index : ℕ) (s : SignalBits) : SignalBits :=
  { s with ports := s.ports.eraseIdx index }

def allocated (s : SignalBits) (bit : Fin 32) : Bool := s.allocatedSignals[bit.val]

def allocate (bit : Fin 32) (s : SignalBits) : SignalBits :=
  { s with allocatedSignals := s.allocatedSignals ||| sigMask bit }

/-- `ace_aros_runtime_alloc_signal`. -/
def allocSignal (signalNumber : ℤ) (s : SignalBits) : ℤ × SignalBits :=
  if signalNumber < -1 ∨ 32 ≤ signalNumber then (-1, s)
  else if 0 ≤ signalNumber then
    let bit := Fin.ofNat 32 signalNumber.toNat
    if s.allocated bit then (-1, s) else (signalNumber, s.allocate bit)
  else
    match Fin.find? fun bit => !s.allocated bit with
    | none => (-1, s)
    | some bit => (bit, s.allocate bit)

/-- `ace_aros_runtime_free_signal`. -/
def freeSignal (signalNumber : ℤ) (s : SignalBits) : SignalBits :=
  if signalNumber < 0 ∨ 32 ≤ signalNumber then s
  else
    let mask := sigMask (Fin.ofNat 32 signalNumber.toNat)
    { s with
      allocatedSignals := s.allocatedSignals &&& ~~~mask
      pendingSignals := s.pendingSignals &&& ~~~mask }

def live (s : SignalBits) : ℕ := s.ports.length + (List.finRange 32).countP s.allocated

/-- No two live ports and signals share a bit. -/
structure Apart (s : SignalBits) : Prop where
  distinct : s.ports.Nodup
  unallocated : ∀ bit ∈ s.ports, s.allocated bit = false
  noBreak : ∀ bit, bit ∈ s.ports ∨ s.allocated bit = true → bit ∉ breakBits

/-! ## Histories -/

/-- Calls of the task, and `CreateMsgPort` called by another task of the process. -/
inductive Call
  | createMsgPort
  | createElsewhere
  | deleteMsgPort (index : ℕ)
  | allocSignal
  | freeSignal (signalNumber : ℤ)

def act : Call → SignalBits → SignalBits
  | .createMsgPort, s => s.createMsgPort
  | .createElsewhere, s => { s with nextSignalBit := s.nextSignalBit + 1 }
  | .deleteMsgPort index, s => s.deleteMsgPort index
  | .allocSignal, s => (s.allocSignal (-1)).2
  | .freeSignal signalNumber, s => s.freeSignal signalNumber

def machine : Machine SignalBits Call where
  init := {}
  possible := fun call s => (s.act call).live ≤ 16
  step := act

/-- The counter is at a bit, or the first clear bit of the mask is one, that is neither taken nor
that of a break. -/
def Careful : Call → SignalBits → Prop
  | .createMsgPort, s =>
    s.portBit ∉ s.ports ∧ s.allocated s.portBit = false ∧ s.portBit ∉ breakBits
  | .allocSignal, s => ∀ bit, s.allocated bit = false → (∀ lower < bit, s.allocated lower = true) →
    bit ∉ s.ports ∧ bit ∉ breakBits
  | _, _ => True

instance (call : Call) (s : SignalBits) : Decidable (s.Careful call) := by
  cases call <;> simp only [Careful] <;> infer_instance

instance (call : Call) (s : SignalBits) : Decidable (machine.possible call s) :=
  inferInstanceAs (Decidable (live _ ≤ 16))

def carefulMachine : Machine SignalBits Call :=
  { machine with possible := fun call s => machine.possible call s ∧ s.Careful call }

instance (call : Call) (s : SignalBits) : Decidable (carefulMachine.possible call s) :=
  inferInstanceAs (Decidable (_ ∧ _))

variable {s s' : SignalBits}

theorem getElem_sigMask : ∀ bit i : Fin 32, (sigMask bit)[i.val] = decide (i = bit) := by
  decide

theorem Apart.fewer (h : s.Apart) (hports : s'.ports.Sublist s.ports)
    (hsignals : ∀ bit, s'.allocated bit = true → s.allocated bit = true) : s'.Apart where
  distinct := h.distinct.sublist hports
  unallocated bit hbit := by
    have hclear := h.unallocated bit (hports.mem hbit)
    grind
  noBreak bit hbit := h.noBreak bit (hbit.imp hports.mem (hsignals bit))

theorem apart_createMsgPort (h : s.Apart) :
    s.createMsgPort.Apart ↔ s.Careful .createMsgPort := by
  have hports : s.createMsgPort.ports = s.ports ++ [s.portBit] := rfl
  have hsignals : ∀ bit, s.createMsgPort.allocated bit = s.allocated bit := fun _ => rfl
  obtain ⟨hdistinct, hunalloc, hbreak⟩ := h
  rw [Careful]
  constructor
  · rintro ⟨_, _, _⟩
    grind
  · intro _
    constructor <;> grind

theorem apart_allocSignal (h : s.Apart) :
    (s.allocSignal (-1)).2.Apart ↔ s.Careful .allocSignal := by
  cases hfind : Fin.find? fun bit => !s.allocated bit with
  | none =>
    have hsame : (s.allocSignal (-1)).2 = s := by simp [allocSignal, hfind]
    rw [hsame, Careful]
    grind
  | some bit =>
  have hstep : (s.allocSignal (-1)).2 = s.allocate bit := by simp [allocSignal, hfind]
  have hports : (s.allocSignal (-1)).2.ports = s.ports := by rw [hstep, allocate]
  have hsignals : ∀ i,
      (s.allocSignal (-1)).2.allocated i = (s.allocated i || decide (i = bit)) := by
    simp [hstep, allocate, allocated, getElem_sigMask]
  obtain ⟨hdistinct, hunalloc, hbreak⟩ := h
  obtain ⟨hclear, hlower⟩ := Fin.find?_eq_some_iff.mp hfind
  rw [Careful]
  constructor
  · rintro ⟨_, hapart, _⟩ other hother hbelow
    have hbit : other = bit := by
      rcases lt_trichotomy other bit with hlt | heq | hlt
      · grind
      · exact heq
      · grind
    grind
  · intro hcareful
    have := hcareful bit (by simpa using hclear) (by simpa using hlower)
    constructor <;> grind

theorem apart_act (h : s.Apart) (call : Call) : (s.act call).Apart ↔ s.Careful call := by
  cases call with
  | createMsgPort => exact apart_createMsgPort h
  | createElsewhere => exact iff_of_true (h.fewer (.refl _) fun _ hbit => hbit) trivial
  | deleteMsgPort index =>
    exact iff_of_true (h.fewer (List.eraseIdx_sublist _ index) fun _ hbit => hbit) trivial
  | allocSignal => exact apart_allocSignal h
  | freeSignal signalNumber =>
    show (s.freeSignal signalNumber).Apart ↔ True
    unfold freeSignal
    split
    · exact iff_of_true h trivial
    · refine iff_of_true (h.fewer (.refl _) fun bit hbit => ?_) trivial
      simp [allocated] at hbit
      exact hbit.1

/-- **Signal bits stay apart, if each is free when it is given away.** In every history in which the
counter, or the first clear bit of the mask, is at a free bit and not at that of a break whenever a
port is created or a signal allocated, the bits of the live ports and signals are distinct and none
is that of a break, and a message for a port, or finding it empty, leaves the pending breaks as they
are. In any history, each time this is not so, the bits collide. -/
theorem bits_apart (n : ℕ) (s : SignalBits) :
    (carefulMachine.Run n s → s.Apart ∧ ∀ bit ∈ s.ports, ∀ (p : PortState) (call : ℕ),
      ∀ b ∈ breakBits,
        (p.act bit (.raise call)).pendingSignals[b] = p.pendingSignals[b] ∧
        (p.act bit .clear).pendingSignals[b] = p.pendingSignals[b]) ∧
      ∀ call, machine.Run n s → s.Apart → machine.possible call s →
        ((machine.step call s).Apart ↔ s.Careful call) := by
  refine ⟨fun hrun => ?_, fun call _ h _ => apart_act h call⟩
  have hinit : Apart {} := by
    constructor <;> simp [allocated]
  have hapart : s.Apart := by
    refine hrun.invariant (P := fun _ s => s.Apart) hinit ?_ (Nat.lt_succ_self n)
    rintro _ s call - - ⟨-, hcareful⟩ h
    exact (apart_act h call).mpr hcareful
  refine ⟨hapart, fun bit hbit p call b hb => ?_⟩
  have hne : b ≠ bit := by
    rintro rfl
    exact hapart.noBreak b (.inl hbit) hb
  simp [PortState.act, PortState.setPut, getElem_sigMask, hne]

/-- A port, another, and a signal when the first port is gone. -/
theorem bits_apart_reused :
    ∃ n s, carefulMachine.Run n s ∧ s.ports = [1] ∧ s.allocated 0 = true ∧ s.Apart := by
  have hcan : carefulMachine.CanExec
      [.createMsgPort, .createMsgPort, .deleteMsgPort 0, .allocSignal] carefulMachine.init := by
    decide +kernel
  have hrun := Machine.Run.start.exec hcan
  exact ⟨_, _, hrun, by decide +kernel, by decide +kernel, ((bits_apart _ _).1 hrun).1⟩

/-- The first port and the first signal of a process have the same bit. -/
theorem first_bits_collide : ∃ n s, machine.Run n s ∧ s.ports = [0] ∧ s.allocated 0 = true := by
  have hcan : machine.CanExec [.createMsgPort, .allocSignal] machine.init := by decide +kernel
  exact ⟨_, _, Machine.Run.start.exec hcan, by decide +kernel, by decide +kernel⟩

end SignalBits

end AceShell.Exec
