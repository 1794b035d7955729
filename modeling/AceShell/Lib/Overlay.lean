import Mathlib

/-!
# Writing at an offset

Bytes are laid over a content at an offset. Behind the end of the content, zeros fill the gap.
-/

/-- The content with the bytes of `data` from `offset` on. -/
def overlay (content : List UInt8) (offset : ℕ) (data : List UInt8) : List UInt8 :=
  content.take offset ++ List.replicate (offset - content.length) 0 ++ data ++
    content.drop (offset + data.length)

theorem overlay_length (content data : List UInt8) :
    overlay content content.length data = content ++ data := by
  unfold overlay
  simp

theorem overlay_middle (front old behind : List UInt8) {data : List UInt8}
    (h : data.length = old.length) :
    overlay (front ++ old ++ behind) front.length data = front ++ data ++ behind := by
  have hdrop : (front ++ old ++ behind).drop (front.length + data.length) = behind := by
    rw [h, ← List.length_append, List.drop_left]
  have hgap : front.length - (front ++ old ++ behind).length = 0 := by
    rw [List.length_append, List.length_append]
    omega
  unfold overlay
  rw [hdrop, hgap, List.append_assoc front old, List.take_left, List.replicate_zero,
    List.append_nil]

theorem overlay_zero (content data : List UInt8) :
    overlay content 0 data = data ++ content.drop data.length := by
  unfold overlay
  rw [Nat.zero_sub, Nat.zero_add]
  rfl
