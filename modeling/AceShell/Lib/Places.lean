import Mathlib

/-!
# Every place of a list

What holds at every place of a list, of what is before it, at it and behind it, holds at the first
place and, with the first element in front, at every place of the rest.
-/

namespace Places

variable {α : Type*} {P : List α → α → List α → Prop} {x : α} {xs : List α}

theorem forall_nil : ∀ before y after, ([] : List α) = before ++ y :: after → P before y after := by
  intro before y after h
  simp at h

theorem forall_cons :
    (∀ before y after, x :: xs = before ++ y :: after → P before y after) ↔
      P [] x xs ∧ ∀ before y after, xs = before ++ y :: after → P (x :: before) y after := by
  constructor
  · intro h
    exact ⟨h [] x xs rfl, fun before y after hxs => h (x :: before) y after (hxs ▸ rfl)⟩
  rintro ⟨hfst, hrest⟩ before y after hsplit
  cases before with
  | nil =>
    obtain ⟨rfl, rfl⟩ := List.cons.inj hsplit
    exact hfst
  | cons z before =>
    obtain ⟨rfl, hxs⟩ := List.cons.inj hsplit
    exact hrest before y after hxs

end Places
