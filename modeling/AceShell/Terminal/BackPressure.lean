import AceShell.Terminal.Vocabulary

/-!
# A byte never writes more than the sink was asked for

A byte makes the translator write 513 bytes at most, of the 1024 that the sink must have free. With
the bound the translator is an instance of `Sink.Session.run_spec`: a sink that fills up and is
drained at any time gets what a sink without a limit gets, and never a sequence in part.
-/

namespace AceShell.Terminal

open Text Emission

/-- How many bytes a step writes. -/
def cost (e : Translation) : ℕ := (e.output.flatMap Write.bytes).length

/-! ## Every state the translator can be in -/

/-- The states that any calls with any sinks lead to, refused writes included. -/
inductive Reachable : XtermToAmiga → Prop
  | init : Reachable init
  | feed {σ : Type} {state : XtermToAmiga} (h : Reachable state) (sink : Sink σ) (context : σ)
      (bytes : List UInt8) : Reachable (feed sink state context bytes).2.1
  | flush {σ : Type} {state : XtermToAmiga} (h : Reachable state) (sink : Sink σ) (context : σ) :
      Reachable (flush sink state context).2.1

section Bounded

variable {s t : XtermToAmiga}

theorem within_byte (h : Utf8Bounded s) (byte : UInt8) :
    (feedOutputByte s byte).Within Utf8Bounded
      (fun w => w.origin = .command → IsCommand (· ∈ consoleFinals) w.bytes) Write.bytes 513 := by
  have htext : ∀ bytes : List UInt8, (Write.mk .text bytes).origin = .command →
      IsCommand (· ∈ consoleFinals) bytes := nofun
  exact within_feedOutputByte (fun _ _ => htext _) (fun _ hcmd _ => hcmd)
    (fun _ => htext _) (fun _ _ _ => htext _) h fun _ _ => htext _

theorem utf8Bounded_flush {σ : Type} (h : Utf8Bounded s) (sink : Sink σ) (context : σ) :
    Utf8Bounded (flush sink s context).2.1 := by
  have hraw : Utf8Bounded
      (Sink.deliver sink Write.bytes (putRawUtf8 s).state (putRawUtf8 s).writes context).2.1 :=
    ((within_putRawUtf8 (p := fun _ => True) h fun _ _ => trivial).ends _
      (Sink.deliver_leaves sink Write.bytes (putRawUtf8 s) context)).1
  unfold flush
  split_ifs
  · generalize Sink.deliver sink Write.bytes _ _ _ = outcome at hraw ⊢
    obtain ⟨status, state, context⟩ := outcome
    dsimp only
    cases heldSequence state <;> exact hraw.congr rfl rfl
  · dsimp only
    cases heldSequence s <;> exact h.congr rfl rfl

theorem Reachable.utf8Bounded (h : Reachable s) : Utf8Bounded s := by
  induction h with
  | init => exact ⟨Nat.zero_le 3, Nat.le_refl 0⟩
  | feed _ sink context bytes ih =>
    exact Sink.feed_keeps (fun _ byte hs => (within_byte hs byte).ends) ih context bytes
  | flush _ sink context ih => exact utf8Bounded_flush ih sink context

end Bounded

/-! ## The result -/

/-- The translator fed through a sink that takes what it has room for, with anything else happening
to the sink in between. -/
def screenSession {σ : Type} (sink : Sink σ) (state : XtermToAmiga) (context : σ)
    (input : List UInt8) (moments : List (Sink.Moment σ)) : Sink.Session XtermToAmiga σ UInt8 :=
  Sink.Session.run sink Write.bytes feedOutputByte emitMax ⟨state, context, input⟩ moments

/-- **Back pressure is invisible.** From a state that calls lead to, a byte makes the translator
write `emitMax` bytes at most. So with a sink that reports its room truthfully, at every moment of a
session the sink has taken exactly what a sink without a limit takes of the bytes consumed, and the
state is the same. What is consumed grows whenever the sink has the room that is asked for, and
every write of a command holds whole sequences. -/
theorem backPressure_invisible {σ : Type} {sink : Sink σ} {written : σ → List UInt8} {room : σ → ℕ}
    (hsink : sink.Truthful written room) {state : XtermToAmiga} (hstate : Reachable state) :
    (∀ byte, cost (feedOutputByte state byte) ≤ emitMax ∧
      Speaks (· ∈ consoleFinals) (feedOutputByte state byte)) ∧
    (∀ (context : σ) (input : List UInt8) (moments : List (Sink.Moment σ)),
      (∀ moment ∈ moments, moment.Keeps written) →
      ∃ consumed output, input = consumed ++ (screenSession sink state context input moments).rest ∧
        feed (Sink.unlimited emitMax) state [] consumed =
          (consumed.length, (screenSession sink state context input moments).state, output) ∧
        written (screenSession sink state context input moments).sink = written context ++ output) ∧
    (∀ (context : σ) (input : List UInt8), input ≠ [] → emitMax ≤ (sink.space context).1 →
      0 < (feed sink state context input).1) := by
  have hbound : ∀ s byte, Utf8Bounded s →
      ((feedOutputByte s byte).output.flatMap Write.bytes).length ≤ emitMax := fun s byte hs =>
    le_trans (within_byte hs byte).length (by decide)
  have hkeep : ∀ s byte, Utf8Bounded s → (feedOutputByte s byte).Ends Utf8Bounded :=
    fun _ byte hs => (within_byte hs byte).ends
  refine ⟨fun byte => ⟨hbound state byte hstate.utf8Bounded, ?_⟩, ?_, ?_⟩
  · exact (within_byte hstate.utf8Bounded byte).writes
  · intro context input moments hmoments
    have hstart : Utf8Bounded (Sink.Session.mk state context input).state := hstate.utf8Bounded
    obtain ⟨consumed, hrest, hafter, hwritten, -⟩ :=
      Sink.Session.run_spec hsink hkeep hbound hstart hmoments
    refine ⟨consumed, _, hrest, ?_, hwritten⟩
    unfold feed screenSession
    rw [Sink.feed_unlimited (Nat.le_refl emitMax), hafter, List.nil_append]
  · intro context input hinput hspace
    obtain ⟨byte, rest, rfl⟩ := List.exists_cons_of_ne_nil hinput
    exact Sink.feed_pos hsink hbound hstate.utf8Bounded hspace byte rest

/-- A buffer of 1050 bytes that is full in the middle of an input, drained once. -/
theorem backPressure_invisible_bounded :
    ∃ consumed output,
      esc :: ascii "[40Xt" = consumed ++ (screenSession (Sink.bounded 1050) init ([], [])
        (esc :: ascii "[40Xt") [.offer 6, .elsewhere Sink.drain, .offer 6]).rest ∧
      feed (Sink.unlimited emitMax) init [] consumed = (consumed.length,
        (screenSession (Sink.bounded 1050) init ([], []) (esc :: ascii "[40Xt")
          [.offer 6, .elsewhere Sink.drain, .offer 6]).state, output) ∧
      Sink.taken (screenSession (Sink.bounded 1050) init ([], []) (esc :: ascii "[40Xt")
        [.offer 6, .elsewhere Sink.drain, .offer 6]).sink = output := by
  refine (backPressure_invisible (Sink.bounded_truthful 1050) Reachable.init).2.1 ([], [])
    (esc :: ascii "[40Xt") [.offer 6, .elsewhere Sink.drain, .offer 6] ?_
  intro moment hmoment
  simp only [List.mem_cons, List.not_mem_nil, or_false] at hmoment
  rcases hmoment with rfl | rfl | rfl
  · trivial
  · exact Sink.taken_drain
  · trivial

/-- There the first call stops in front of the last byte, and the second one takes it. -/
example : (screenSession (Sink.bounded 1050) init ([], []) (esc :: ascii "[40Xt") [.offer 6]).rest =
    ascii "t" := by decide

end AceShell.Terminal
