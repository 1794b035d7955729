import AceShell.Rexx.Wire

/-!
# The decoder stays inside of the payload

`deserialise` is given bytes that another process sent. Whatever they are, its cursor and what
remains add up to the end of the payload, so that no read goes beyond it.
-/

namespace AceShell.Rexx

open List

variable {order : ByteOrder} {memory : ℕ → UInt8} {payloadLength : ℕ}

/-- The cursor is in step with what remains, and all reads were inside of the payload. -/
structure Decoding.Inside (payloadLength : ℕ) (d : Decoding) : Prop where
  step : d.cursor + d.remaining = payloadLength
  reads : ∀ read ∈ d.reads, read.1 + read.2 ≤ payloadLength

variable {d : Decoding} {length : ℕ}

theorem Decoding.Inside.skip (h : d.Inside payloadLength) (hlen : length ≤ d.remaining)
    : (d.skip length).Inside payloadLength := by
  refine ⟨?_, h.reads⟩
  have hstep := h.step
  show d.cursor + length + (d.remaining - length) = payloadLength
  omega

theorem Decoding.Inside.noted (h : d.Inside payloadLength) (hlen : length ≤ d.remaining)
    : (d.noted length).Inside payloadLength := by
  refine ⟨h.step, fun read hread => ?_⟩
  obtain hread | hread := mem_append.mp hread
  · exact h.reads read hread
  obtain rfl := mem_singleton.mp hread
  have hstep := h.step
  omega

theorem decodeSlot_inside (memory : ℕ → UInt8) (withResults : Bool) (code : UInt32) (index : ℕ)
    (length : UInt32) (h : d.Inside payloadLength) :
    (decodeSlot memory withResults code index length d).2.Inside payloadLength := by
  unfold decodeSlot
  by_cases habsent : length = absent
  · rw [if_pos habsent]
    exact h
  rw [if_neg habsent]
  by_cases hlong : d.remaining < length.toNat
  · rw [if_pos hlong]
    exact h
  have hfits : length.toNat ≤ d.remaining := Nat.not_lt.mp hlong
  have hread : ((d.noted length.toNat).skip length.toNat).Inside payloadLength :=
    (h.noted hfits).skip hfits
  split_ifs
  · exact h.skip hfits
  · exact h
  · cases parseCount (fetch memory d.cursor length.toNat) with
    | none => exact h.noted hfits
    | some value => exact ⟨hread.step, hread.reads⟩
  · exact ⟨hread.step, hread.reads⟩

variable {withResults : Bool} {code : UInt32} {slots : List (ℕ × UInt32)}

theorem decodeSlots_inside (h : d.Inside payloadLength) :
    (decodeSlots memory withResults code slots d).2.Inside payloadLength := by
  induction slots generalizing d with
  | nil => exact h
  | cons slot slots ih =>
  have hnext := decodeSlot_inside memory withResults code slot.1 slot.2 h
  unfold decodeSlots
  generalize decodeSlot memory withResults code slot.1 slot.2 d = outcome at hnext ⊢
  obtain ⟨_ | _, next⟩ := outcome
  · exact hnext
  · exact ih hnext

theorem start_inside (message : RexxMsg) (hfits : wireSize ≤ payloadLength) :
    Decoding.Inside payloadLength
      ⟨message, wireSize, payloadLength - wireSize, [(0, wireSize)]⟩ := by
  refine ⟨Nat.add_sub_of_le hfits, fun read hread => ?_⟩
  obtain rfl := mem_singleton.mp hread
  omega

/-- **Bounds.** Every byte that `deserialise` reads is one of the payload. -/
theorem deserialise_inside (message : RexxMsg) (withResults : Bool) :
    ∀ read ∈ (deserialise order memory message payloadLength withResults).2.reads,
      read.1 + read.2 ≤ payloadLength := by
  unfold deserialise
  by_cases hshort : payloadLength < wireSize
  · rw [if_pos hshort]
    exact nofun
  have hfits : wireSize ≤ payloadLength := Nat.not_lt.mp hshort
  rw [if_neg hshort]
  by_cases hwrong : (Wire.decode order (fetch memory 0 wireSize)).magic ≠ wireMagic ∨
      (Wire.decode order (fetch memory 0 wireSize)).slots ≠ UInt32.ofNat slotCount
  · rw [if_pos hwrong]
    exact (start_inside message hfits).reads
  · rw [if_neg hwrong]
    exact (decodeSlots_inside (start_inside _ hfits)).reads

variable {memory' : ℕ → UInt8} (hagree : ∀ i < payloadLength, memory i = memory' i)
include hagree

theorem fetch_congr {offset count : ℕ} (h : offset + count ≤ payloadLength) :
    fetch memory offset count = fetch memory' offset count := by
  refine map_congr_left fun i hi => hagree (offset + i) ?_
  have hlt := mem_range.mp hi
  omega

theorem decodeSlot_congr (withResults : Bool)
    (code : UInt32) (index : ℕ) (length : UInt32) (h : d.Inside payloadLength) :
    decodeSlot memory withResults code index length d =
      decodeSlot memory' withResults code index length d := by
  unfold decodeSlot
  by_cases hlong : d.remaining < length.toNat
  · rw [if_pos hlong, if_pos hlong]
  · have hstep := h.step
    rw [fetch_congr hagree (show d.cursor + length.toNat ≤ payloadLength by omega)]

theorem decodeSlots_congr (h : d.Inside payloadLength) :
    decodeSlots memory withResults code slots d = decodeSlots memory' withResults code slots d := by
  induction slots generalizing d with
  | nil => rfl
  | cons slot slots ih =>
  have hnext := decodeSlot_inside memory withResults code slot.1 slot.2 h
  have hsame := decodeSlot_congr hagree withResults code slot.1 slot.2 h
  unfold decodeSlots
  rw [← hsame]
  generalize decodeSlot memory withResults code slot.1 slot.2 d = outcome at hnext ⊢
  obtain ⟨_ | _, next⟩ := outcome
  · rfl
  · exact ih hnext

theorem deserialise_congr (message : RexxMsg) (withResults : Bool) :
    deserialise order memory message payloadLength withResults =
      deserialise order memory' message payloadLength withResults := by
  unfold deserialise
  by_cases hshort : payloadLength < wireSize
  · rw [if_pos hshort, if_pos hshort]
  have hfits : wireSize ≤ payloadLength := Nat.not_lt.mp hshort
  have hhdr : fetch memory 0 wireSize = fetch memory' 0 wireSize := fetch_congr hagree (by omega)
  rw [if_neg hshort, if_neg hshort, hhdr]
  dsimp only
  rw [decodeSlots_congr hagree (start_inside _ hfits)]

end AceShell.Rexx
