import Mathlib

/-!
# RingBuffer buffers

A fixed number of slots, of which a stretch from `head` on is in use; the stretch wraps around. The
layout is part of the structure, so that a ring is always the list of what it holds
(`RingBuffer.toList`), and the operations at both ends are those of lists.
-/

structure RingBuffer (α : Type*) where
  slots : List (Option α)
  head : ℕ
  count : ℕ
  head_lt : head < slots.length
  count_le : count ≤ slots.length
  filled : ∀ i < count, ∃ x, slots[(head + i) % slots.length]? = some (some x)

namespace RingBuffer

open List Option

variable {α : Type*} (r : RingBuffer α)

/-- How many elements fit. -/
def limit : ℕ := r.slots.length

def at? (i : ℕ) : Option α := (r.slots[(r.head + i) % r.slots.length]?).join

def toList : List α := (range r.count).filterMap r.at?

/-- A ring without elements. -/
def empty (limit : ℕ) (h : 0 < limit) : RingBuffer α where
  slots := replicate limit none
  head := 0
  count := 0
  head_lt := by rwa [length_replicate]
  count_le := Nat.zero_le _
  filled i hi := absurd hi (Nat.not_lt_zero i)

@[simp] theorem toList_empty (limit : ℕ) (h : 0 < limit) :
    (empty limit h : RingBuffer α).toList = [] := rfl

theorem slots_pos : 0 < r.slots.length := Nat.lt_of_le_of_lt (Nat.zero_le _) r.head_lt

variable {i : ℕ}

theorem offset_inj {head n j : ℕ} (hi : i < n) (hj : j < n) (h : (head + i) % n = (head + j) % n)
    : i = j := by
  have hmod : i % n = j % n := Nat.ModEq.add_left_cancel' head h
  rwa [Nat.mod_eq_of_lt hi, Nat.mod_eq_of_lt hj] at hmod

theorem at?_isSome (hi : i < r.count) : (r.at? i).isSome := by
  obtain ⟨x, hx⟩ := r.filled i hi
  unfold at?
  rw [hx]
  rfl

theorem length_toList : r.toList.length = r.count := by
  have hall : ∀ n ≤ r.count, ((range n).filterMap r.at?).length = n := by
    intro n
    induction n with
    | zero => intro _; rfl
    | succ n ih =>
    intro hn
    obtain ⟨x, hx⟩ := isSome_iff_exists.mp (r.at?_isSome (Nat.lt_of_succ_le hn))
    rw [range_succ, filterMap_append, length_append, ih (Nat.le_of_succ_le hn)]
    simp [hx]
  exact hall r.count (Nat.le_refl _)

/-! ## The new end -/

def pushBack (x : α) (h : r.count < r.limit) : RingBuffer α where
  slots := r.slots.set ((r.head + r.count) % r.slots.length) (some x)
  head := r.head
  count := r.count + 1
  head_lt := by rw [length_set]; exact r.head_lt
  count_le := by rw [length_set]; exact h
  filled i hi := by
    rw [length_set, getElem?_set]
    by_cases hslot : (r.head + r.count) % r.slots.length = (r.head + i) % r.slots.length
    · rw [if_pos hslot, if_pos (Nat.mod_lt _ r.slots_pos)]
      exact ⟨x, rfl⟩
    rw [if_neg hslot]
    refine r.filled i (Nat.lt_of_le_of_ne (Nat.le_of_lt_succ hi) ?_)
    rintro rfl
    exact hslot rfl

theorem at?_pushBack_of_lt {x : α} (h : r.count < r.limit) (hi : i < r.count) :
    (r.pushBack x h).at? i = r.at? i := by
  have hslot : (r.head + r.count) % r.slots.length ≠ (r.head + i) % r.slots.length := by
    intro heq
    have := offset_inj h (Nat.lt_trans hi h) heq
    omega
  unfold at? pushBack
  rw [length_set, getElem?_set, if_neg hslot]

theorem at?_pushBack_self {x : α} (h : r.count < r.limit) :
    (r.pushBack x h).at? r.count = some x := by
  unfold at? pushBack
  rw [length_set, getElem?_set, if_pos rfl, if_pos (Nat.mod_lt _ r.slots_pos)]
  rfl

@[simp] theorem toList_pushBack (x : α) (h : r.count < r.limit) :
    (r.pushBack x h).toList = r.toList ++ [x] := by
  have hold : (range r.count).filterMap (r.pushBack x h).at? = r.toList := by
    refine filterMap_congr ?_
    intro i hi
    exact r.at?_pushBack_of_lt h (mem_range.mp hi)
  show (range (r.count + 1)).filterMap (r.pushBack x h).at? = _
  rw [range_succ, filterMap_append, hold]
  simp [r.at?_pushBack_self h]

def dropBack : RingBuffer α where
  slots := r.slots.set ((r.head + (r.count - 1)) % r.slots.length) none
  head := r.head
  count := r.count - 1
  head_lt := by rw [length_set]; exact r.head_lt
  count_le := by rw [length_set]; exact le_trans (Nat.sub_le _ 1) r.count_le
  filled i hi := by
    have hlast : r.count - 1 < r.slots.length := by
      have := r.count_le
      omega
    rw [length_set, getElem?_set, if_neg]
    · exact r.filled i (by omega)
    intro heq
    have := offset_inj hlast (Nat.lt_trans hi hlast) heq
    omega

/-- Take the newest element. -/
def popBack : Option (α × RingBuffer α) :=
  if r.count = 0 then none else (r.at? (r.count - 1)).map fun x => (x, r.dropBack)

theorem toList_dropBack {x : α} (hpos : 0 < r.count) (h : r.at? (r.count - 1) = some x) :
    r.toList = r.dropBack.toList ++ [x] := by
  have hlast : r.count - 1 < r.slots.length := by
    have := r.count_le
    omega
  have hold : (range (r.count - 1)).filterMap r.dropBack.at? =
      (range (r.count - 1)).filterMap r.at? := by
    refine filterMap_congr ?_
    intro i hi
    have hlt := mem_range.mp hi
    unfold at? dropBack
    rw [length_set, getElem?_set, if_neg]
    intro heq
    have := offset_inj hlast (Nat.lt_trans hlt hlast) heq
    omega
  show (range r.count).filterMap r.at? = (range (r.count - 1)).filterMap r.dropBack.at? ++ _
  rw [hold]
  obtain ⟨n, hn⟩ := Nat.exists_eq_succ_of_ne_zero (Nat.ne_of_gt hpos)
  rw [hn] at h ⊢
  rw [range_succ]
  simp at h
  simp [h]

theorem popBack_eq_some {x : α} {r' : RingBuffer α} (h : r.popBack = some (x, r')) :
    r.toList = r'.toList ++ [x] ∧ r'.limit = r.limit ∧ r'.count + 1 = r.count := by
  unfold popBack at h
  split_ifs at h with hzero
  obtain ⟨y, hy, heq⟩ := map_eq_some_iff.mp h
  obtain ⟨rfl, rfl⟩ := Prod.mk.inj heq
  exact ⟨r.toList_dropBack (Nat.pos_of_ne_zero hzero) hy, length_set,
    Nat.sub_add_cancel (Nat.pos_of_ne_zero hzero)⟩

theorem popBack_of_toList {front : List α} {x : α} (h : r.toList = front ++ [x]) :
    ∃ r', r.popBack = some (x, r') ∧ r'.toList = front := by
  have hpos : 0 < r.count := by
    rw [← r.length_toList, h, length_append]
    exact Nat.succ_pos _
  obtain ⟨y, hy⟩ := isSome_iff_exists.mp (r.at?_isSome (Nat.sub_one_lt_of_lt hpos))
  obtain ⟨hfront, hlast⟩ := append_inj' (h.symm.trans (r.toList_dropBack hpos hy)) rfl
  cases hlast
  refine ⟨r.dropBack, ?_, hfront.symm⟩
  unfold popBack
  rw [if_neg (Nat.ne_of_gt hpos), hy]
  rfl

/-! ## The old end -/

def dropFront (h : 0 < r.count) : RingBuffer α where
  slots := r.slots.set r.head none
  head := (r.head + 1) % r.slots.length
  count := r.count - 1
  head_lt := by rw [length_set]; exact Nat.mod_lt _ r.slots_pos
  count_le := by rw [length_set]; exact le_trans (Nat.sub_le _ 1) r.count_le
  filled i hi := by
    rw [length_set, getElem?_set, Nat.mod_add_mod, Nat.add_assoc, if_neg]
    · exact r.filled (1 + i) (by omega)
    intro heq
    have hle := r.count_le
    have hzero : (r.head + 0) % r.slots.length = (r.head + (1 + i)) % r.slots.length := by
      rw [Nat.add_zero, Nat.mod_eq_of_lt r.head_lt]
      exact heq
    have := offset_inj r.slots_pos (by omega) hzero
    omega

/-- Take the oldest element. -/
def popFront : Option (α × RingBuffer α) :=
  if h : 0 < r.count then (r.at? 0).map fun x => (x, r.dropFront h) else none

theorem at?_dropFront (h : 0 < r.count) (hi : i < r.count - 1) :
    (r.dropFront h).at? i = r.at? (i + 1) := by
  have hle := r.count_le
  have hslot : r.head ≠ (r.head + (1 + i)) % r.slots.length := by
    intro heq
    have hzero : (r.head + 0) % r.slots.length = (r.head + (1 + i)) % r.slots.length := by
      rw [Nat.add_zero, Nat.mod_eq_of_lt r.head_lt]
      exact heq
    have := offset_inj r.slots_pos (by omega) hzero
    omega
  unfold at? dropFront
  rw [length_set, getElem?_set, Nat.mod_add_mod, Nat.add_assoc, if_neg hslot, Nat.add_comm 1 i]

theorem popFront_eq_some {x : α} {r' : RingBuffer α} (h : r.popFront = some (x, r')) :
    r.toList = x :: r'.toList ∧ r'.limit = r.limit ∧ r'.count + 1 = r.count := by
  unfold popFront at h
  split_ifs at h with hpos
  obtain ⟨y, hy, heq⟩ := map_eq_some_iff.mp h
  obtain ⟨rfl, rfl⟩ := Prod.mk.inj heq
  have hrest : (range (r.count - 1)).filterMap (r.dropFront hpos).at? =
      (range (r.count - 1)).filterMap fun i => r.at? (i + 1) := by
    refine filterMap_congr ?_
    intro i hi
    exact r.at?_dropFront hpos (mem_range.mp hi)
  refine ⟨?_, length_set, Nat.sub_add_cancel hpos⟩
  show (range r.count).filterMap r.at? = _ :: (range (r.count - 1)).filterMap (r.dropFront hpos).at?
  rw [hrest]
  obtain ⟨n, hn⟩ := Nat.exists_eq_succ_of_ne_zero (Nat.ne_of_gt hpos)
  rw [hn, range_succ_eq_map, filterMap_cons, hy, filterMap_map]
  rfl

theorem popFront_eq_none (h : r.popFront = none) : r.count = 0 := by
  unfold popFront at h
  split_ifs at h with hpos
  · have hsome := r.at?_isSome hpos
    rw [map_eq_none_iff] at h
    rw [h] at hsome
    exact nomatch hsome
  · omega

end RingBuffer
