import Mathlib

/-!
# Tables of slots

A fixed array whose slots are free or hold a record, as C programs keep their registries. What a
table means is the list of its live records: placing a record adds it to that list, clearing and
releasing slots take records out of it, and nothing else moves.
-/

namespace SlotTable

open List Option

variable {α : Type*} {t t' : List (Option α)} {x y : α} {i : ℕ}

def live (t : List (Option α)) : List α := t.reduceOption

def clearWhere (p : α → Bool) (t : List (Option α)) : List (Option α) :=
  t.map (Option.filter fun x => !p x)

/-- Free one slot. -/
def release (i : ℕ) (t : List (Option α)) : List (Option α) := t.set i none

def place (x : α) (t : List (Option α)) : Option (List (Option α)) :=
  (t.findIdx? (·.isNone)).map fun i => t.set i (some x)

def swapRemove (i : ℕ) (xs : List α) : List α :=
  match xs.getLast? with
  | none => xs
  | some last => (xs.set i last).dropLast

theorem mem_live : x ∈ live t ↔ some x ∈ t := reduceOption_mem_iff

@[simp] theorem live_replicate (n : ℕ) : live (replicate n (none : Option α)) = [] :=
  reduceOption_replicate_none

theorem live_append (t t' : List (Option α)) : live (t ++ t') = live t ++ live t' :=
  reduceOption_append t t'

@[simp] theorem live_clearWhere (p : α → Bool) (t : List (Option α)) :
    live (clearWhere p t) = (live t).filter fun x => !p x := by
  induction t with
  | nil => rfl
  | cons slot t ih =>
  unfold live clearWhere at ih ⊢
  cases slot with
  | none => simpa using ih
  | some x =>
    cases hp : p x with
    | false => simp [Option.filter, hp, ih]
    | true => simp [Option.filter, hp, ih]

theorem mem_live_clearWhere {p : α → Bool} :
    x ∈ live (clearWhere p t) ↔ x ∈ live t ∧ p x = false := by
  rw [live_clearWhere, mem_filter, Bool.not_eq_true']

theorem live_clearWhere_sublist (p : α → Bool) (t : List (Option α)) :
    (live (clearWhere p t)).Sublist (live t) := by
  rw [live_clearWhere]
  exact filter_sublist

theorem live_set (h : i < t.length) (slot : Option α) :
    live (t.set i slot) = live (t.take i) ++ slot.toList ++ live (t.drop (i + 1)) := by
  rw [set_eq_take_append_cons_drop, if_pos h, live_append]
  cases slot <;> simp [live]

theorem live_split (h : i < t.length) :
    live t = live (t.take i) ++ t[i].toList ++ live (t.drop (i + 1)) := by
  rw [← live_set h, set_getElem_self]

theorem live_release (h : t[i]? = some (some x)) : (live t).Perm (x :: live (release i t)) := by
  obtain ⟨hi, hx⟩ := List.getElem?_eq_some_iff.mp h
  rw [live_split hi, hx, release, live_set hi]
  simp only [toList_some, toList_none, append_nil, append_assoc, singleton_append]
  exact perm_middle

theorem live_release_sublist (i : ℕ) (t : List (Option α)) :
    (live (release i t)).Sublist (live t) := by
  by_cases hi : i < t.length
  · rw [live_split hi, release, live_set hi]
    exact (List.Sublist.append_left (nil_sublist _) _).append_right _
  · rw [release, set_eq_of_length_le (by omega)]

theorem live_release_free (h : t[i]? = some none) : live (release i t) = live t := by
  obtain ⟨hi, hnone⟩ := List.getElem?_eq_some_iff.mp h
  rw [live_split hi, hnone, release, live_set hi]

theorem live_place (h : place x t = some t') : (live t').Perm (x :: live t) := by
  obtain ⟨i, hfree, rfl⟩ := map_eq_some_iff.mp h
  obtain ⟨hi, hnone, -⟩ := findIdx?_eq_some_iff_getElem.mp hfree
  rw [live_split hi, isNone_iff_eq_none.mp hnone, live_set hi]
  simp only [toList_some, toList_none, append_nil, append_assoc, singleton_append]
  exact perm_middle

theorem mem_live_place (h : place x t = some t') : y ∈ live t' ↔ y = x ∨ y ∈ live t := by
  rw [(live_place h).mem_iff, mem_cons]

theorem forall_live_place {p : α → Prop} (h : place x t = some t') :
    (∀ y ∈ live t', p y) ↔ p x ∧ ∀ y ∈ live t, p y := by
  simp only [mem_live_place h, forall_eq_or_imp]

theorem mem_live_release (hy : y ∈ live t) (hne : t[i]? ≠ some (some y)) :
    y ∈ live (release i t) := by
  cases h : t[i]? with
  | none => rwa [release, set_eq_of_length_le (getElem?_eq_none_iff.mp h)]
  | some slot =>
  cases slot with
  | none => rwa [live_release_free h]
  | some x =>
    rcases mem_cons.mp ((live_release h).mem_iff.mp hy) with rfl | hy
    · exact absurd h hne
    · exact hy

theorem live_set_some (hi : i < t.length) (x : α) :
    (live (t.set i (some x))).Perm (x :: live (release i t)) := by
  rw [release, live_set hi, live_set hi]
  simp only [toList_some, toList_none, append_nil, append_assoc, singleton_append]
  exact perm_middle

theorem map_live_set {β : Type*} {key : α → β} (h : t[i]? = some (some x)) (hkey : key y = key x) :
    (live (t.set i (some y))).map key = (live t).map key := by
  obtain ⟨hi, hx⟩ := List.getElem?_eq_some_iff.mp h
  rw [live_set hi, live_split hi, hx]
  simp [hkey]

theorem key_ne_of_mem_release {β : Type*} {key : α → β} (hnodup : ((live t).map key).Nodup)
    (h : t[i]? = some (some x)) (hy : y ∈ live (release i t)) : key y ≠ key x := by
  rw [((live_release h).map key).nodup_iff, map_cons, nodup_cons] at hnodup
  intro heq
  exact hnodup.1 (heq ▸ mem_map_of_mem hy)

theorem nodup_map_place {β : Type*} {key : α → β} (hnodup : ((live t).map key).Nodup)
    (hplace : place x t = some t') (hnew : ∀ y ∈ live t, key y ≠ key x) :
    ((live t').map key).Nodup := by
  rw [((live_place hplace).map key).nodup_iff, map_cons, nodup_cons]
  refine ⟨fun hm => ?_, hnodup⟩
  obtain ⟨y, hy, heq⟩ := mem_map.mp hm
  exact hnew y hy heq

/-! ## Finding a record -/

theorem getElem?_of_findIdx? {p : α → Bool} (h : t.findIdx? (fun slot => slot.any p) = some i) :
    ∃ x, t[i]? = some (some x) ∧ p x = true := by
  obtain ⟨hi, hany, -⟩ := findIdx?_eq_some_iff_getElem.mp h
  obtain ⟨x, hx, hp⟩ := any_eq_true _ _ |>.mp hany
  exact ⟨x, List.getElem?_eq_some_iff.mpr ⟨hi, hx⟩, hp⟩

theorem not_of_findIdx?_eq_none {p : α → Bool}
    (h : t.findIdx? (fun slot => slot.any p) = none) (hx : x ∈ live t) : p x = false :=
  findIdx?_eq_none_iff.mp h (some x) (mem_live.mp hx)

theorem modify_eq_set (h : t[i]? = some (some x)) (f : Option α → Option α) :
    t.modify i f = t.set i (f (some x)) := by
  rw [modify_eq_set_getElem?, h]
  rfl

theorem getElem?_modify_slot {j : ℕ} {slot : Option α} (h : t[j]? = some slot)
    (f : Option α → Option α) : (t.modify i f)[j]? = some (if i = j then f slot else slot) := by
  rw [getElem?_modify, h]
  rfl

/-! ## Numbered records -/

/-- Records numbered by a counter that stands at `next` and never gives out 0. -/
structure Nonzero (key : α → ℕ) (t : List (Option α)) (next : ℕ) : Prop where
  next : 0 < next
  keys : ∀ x ∈ live t, 0 < key x

/-- Records whose numbers are distinct, the counter being past all of them. -/
structure Numbered (key : α → ℕ) (t : List (Option α)) (next : ℕ) : Prop where
  nodup : ((live t).map key).Nodup
  below : ∀ x ∈ live t, key x < next

section Numbered

variable {key : α → ℕ} {next next' : ℕ}

theorem Nonzero.sublist (h : Nonzero key t next) (hs : (live t').Sublist (live t)) :
    Nonzero key t' next :=
  ⟨h.next, fun x hx => h.keys x (hs.subset hx)⟩

theorem Nonzero.place (h : Nonzero key t next) (hkey : key x = next)
    (hplace : place x t = some t') (hnext : 0 < next') : Nonzero key t' next' :=
  ⟨hnext, (forall_live_place hplace).mpr ⟨hkey ▸ h.next, h.keys⟩⟩

theorem Numbered.replicate (key : α → ℕ) (n next : ℕ) : Numbered key (replicate n none) next := by
  constructor <;> simp

theorem Numbered.sublist (h : Numbered key t next) (hs : (live t').Sublist (live t)) :
    Numbered key t' next :=
  ⟨h.nodup.sublist (hs.map key), fun x hx => h.below x (hs.subset hx)⟩

theorem Numbered.succ (h : Numbered key t next) : Numbered key t (next + 1) :=
  ⟨h.nodup, fun x hx => Nat.lt_succ_of_lt (h.below x hx)⟩

theorem Numbered.place (h : Numbered key t next) (hkey : key x = next)
    (hplace : place x t = some t') : Numbered key t' (next + 1) := by
  refine ⟨nodup_map_place h.nodup hplace fun y hy => ?_, fun y hy => ?_⟩
  · rw [hkey]
    exact Nat.ne_of_lt (h.below y hy)
  · rcases (mem_live_place hplace).mp hy with rfl | hy
    · omega
    · exact h.succ.below y hy

end Numbered

/-! ## Lists without gaps -/

variable {xs : List α}

theorem perm_set (hi : i < xs.length) (y : α) :
    (y :: xs).Perm (xs[i] :: xs.set i y) := by
  have hsplit : xs = xs.take i ++ xs[i] :: xs.drop (i + 1) := by
    rw [getElem_cons_drop, take_append_drop]
  rw [set_eq_take_append_cons_drop, if_pos hi]
  calc
    List.Perm (y :: xs) (y :: (xs.take i ++ xs[i] :: xs.drop (i + 1))) := by rw [← hsplit]
    List.Perm _ (y :: xs[i] :: (xs.take i ++ xs.drop (i + 1))) := perm_middle.cons y
    List.Perm _ (xs[i] :: y :: (xs.take i ++ xs.drop (i + 1))) := List.Perm.swap _ _ _
    List.Perm _ (xs[i] :: (xs.take i ++ y :: xs.drop (i + 1))) := perm_middle.symm.cons _

theorem perm_swapRemove (hi : i < xs.length) :
    xs.Perm (xs[i] :: swapRemove i xs) := by
  obtain ⟨ys, last, rfl⟩ : ∃ ys last, xs = ys ++ [last] := by
    have hne : xs ≠ [] := ne_nil_of_length_pos (by omega)
    exact ⟨xs.dropLast, xs.getLast hne, (dropLast_append_getLast hne).symm⟩
  have hswap : swapRemove i (ys ++ [last]) = ((ys ++ [last]).set i last).dropLast := by
    unfold swapRemove
    rw [getLast?_append]
    rfl
  rw [hswap]
  by_cases hys : i < ys.length
  · rw [set_append_left _ _ hys, dropLast_concat, getElem_append_left hys]
    exact (perm_append_singleton last ys).trans (perm_set hys last)
  -- the last record itself goes
  obtain rfl : i = ys.length := by
    rw [length_append, length_singleton] at hi
    omega
  rw [set_append_right _ _ (Nat.le_refl _), Nat.sub_self, set_cons_zero,
    dropLast_concat, getElem_concat_length]
  · exact perm_append_singleton last ys
  · rfl

theorem mem_set_of_ne (h : xs[i]? = some x) (hy : y ∈ xs) (hne : y ≠ x) (z : α) :
    y ∈ xs.set i z := by
  obtain ⟨hi, rfl⟩ := List.getElem?_eq_some_iff.mp h
  have hmem := (perm_set hi z).mem_iff.mp (List.mem_cons_of_mem z hy)
  exact (mem_cons.mp hmem).resolve_left hne

theorem mem_swapRemove_of_ne (h : xs[i]? = some x) (hy : y ∈ xs) (hne : y ≠ x) :
    y ∈ swapRemove i xs := by
  obtain ⟨hi, rfl⟩ := List.getElem?_eq_some_iff.mp h
  exact (List.mem_cons.mp ((perm_swapRemove hi).mem_iff.mp hy)).resolve_left hne

end SlotTable
