import AceShell.Lib.SlotTable

/-!
# Tables of keyed slots

A slot table whose records carry a key, read as a finite map. While no key is held by two slots the
table behaves as a map does: what is written under a key is what is looked up under it, nothing else
changes, and the map has as many keys as the table has records.
-/

namespace SlotTable

open List Function

variable {α κ : Type*} {key : α → κ} {t t' : List (Option α)} {x y : α} {i : ℕ}

/-- No key is held by two slots. -/
def Keyed (key : α → κ) (t : List (Option α)) : Prop := ((live t).map key).Nodup

theorem keyed_replicate (key : α → κ) (n : ℕ) : Keyed key (replicate n none) := by
  simp [Keyed]

section Keyed

variable (h : Keyed key t)
include h

theorem Keyed.set (hx : t[i]? = some (some x)) (hkey : key y = key x) :
    Keyed key (t.set i (some y)) := by
  unfold Keyed
  rw [map_live_set hx hkey]
  exact h

theorem Keyed.set_new (hi : i < t.length)
    (hnew : ∀ y ∈ live (release i t), key y ≠ key x) : Keyed key (t.set i (some x)) := by
  unfold Keyed
  rw [((live_set_some hi x).map key).nodup_iff, map_cons, nodup_cons]
  refine ⟨fun hm => ?_, h.sublist ((live_release_sublist i t).map key)⟩
  obtain ⟨y, hy, heq⟩ := mem_map.mp hm
  exact hnew y hy heq

theorem Keyed.release (i : ℕ) : Keyed key (release i t) :=
  h.sublist ((live_release_sublist i t).map key)

theorem Keyed.slot_unique {j : ℕ} (hx : t[i]? = some (some x))
    (hy : t[j]? = some (some y)) (hkey : key y = key x) : i = j := by
  by_contra hne
  have hrest : y ∈ live (SlotTable.release i t) := by
    refine mem_live.mpr (mem_of_getElem? (?_ : (t.set i none)[j]? = _))
    rw [getElem?_set_ne hne, hy]
  exact key_ne_of_mem_release h hx hrest hkey

theorem Keyed.findIdx?_eq_some_iff {p : α → Bool} {k : κ} (hp : ∀ x, p x = true ↔ key x = k) :
    t.findIdx? (fun slot => slot.any p) = some i ↔ ∃ x, t[i]? = some (some x) ∧ key x = k := by
  constructor
  · intro hfind
    obtain ⟨x, hx, hpx⟩ := getElem?_of_findIdx? hfind
    exact ⟨x, hx, (hp x).mp hpx⟩
  rintro ⟨x, hx, hkey⟩
  cases hfind : t.findIdx? (fun slot => slot.any p) with
  | none =>
    have hno := not_of_findIdx?_eq_none hfind (mem_live.mpr (mem_of_getElem? hx))
    rw [(hp x).mpr hkey] at hno
    cases hno
  | some j =>
    obtain ⟨y, hy, hpy⟩ := getElem?_of_findIdx? hfind
    rw [h.slot_unique hx hy (((hp y).mp hpy).trans hkey.symm)]

end Keyed

/-! ## The map -/

variable [DecidableEq κ]

/-- The map a table stands for. -/
def lookup (key : α → κ) (t : List (Option α)) (k : κ) : Option α :=
  (live t).find? fun x => key x = k

theorem lookup_replicate (key : α → κ) (n : ℕ) (k : κ) :
    lookup key (replicate n none) k = none := by
  simp [lookup]

theorem key_of_lookup {k : κ} (h : lookup key t k = some x) : key x = k := by
  simpa using find?_some h

theorem mem_of_lookup {k : κ} (h : lookup key t k = some x) : x ∈ live t := mem_of_find?_eq_some h

theorem lookup_eq_none {k : κ} : lookup key t k = none ↔ ∀ x ∈ live t, key x ≠ k := by
  simp [lookup]

section Keyed

variable (h : Keyed key t)
include h

theorem Keyed.lookup_mem (hx : x ∈ live t) : lookup key t (key x) = some x := by
  cases hlook : lookup key t (key x) with
  | none => exact absurd rfl (lookup_eq_none.mp hlook x hx)
  | some y =>
    have hkey := key_of_lookup hlook
    exact congrArg some (inj_on_of_nodup_map h (mem_of_lookup hlook) hx hkey)

theorem Keyed.lookup_eq_iff {k : κ} : lookup key t k = some x ↔ x ∈ live t ∧ key x = k := by
  constructor
  · exact fun hlook => ⟨mem_of_lookup hlook, key_of_lookup hlook⟩
  · rintro ⟨hx, rfl⟩
    exact h.lookup_mem hx

theorem slot_of_lookup {p : α → Bool} {k : κ} (hp : ∀ x, p x = true ↔ key x = k) :
    match t.findIdx? (fun slot => slot.any p) with
    | some i => ∃ x, t[i]? = some (some x) ∧ lookup key t k = some x
    | none => lookup key t k = none := by
  split
  · next i hfind =>
    obtain ⟨x, hx, hpx⟩ := getElem?_of_findIdx? hfind
    exact ⟨x, hx, h.lookup_eq_iff.mpr ⟨mem_live.mpr (mem_of_getElem? hx), (hp x).mp hpx⟩⟩
  next hfind =>
  refine lookup_eq_none.mpr fun x hx hkey => ?_
  have := not_of_findIdx?_eq_none hfind hx
  rw [(hp x).mpr hkey] at this
  cases this

/-! ## Writing -/

theorem Keyed.lookup_set (hx : t[i]? = some (some x)) (hkey : key y = key x) :
    lookup key (t.set i (some y)) = update (lookup key t) (key x) (some y) := by
  have hi := (List.getElem?_eq_some_iff.mp hx).1
  have hset := h.set hx hkey
  have hmem : y ∈ live (t.set i (some y)) := mem_live.mpr (mem_set hi _)
  funext k
  by_cases hk : k = key x
  · subst hk
    rw [update_self, ← hkey]
    exact hset.lookup_mem hmem
  rw [update_of_ne hk]
  refine Option.ext fun w => ?_
  rw [hset.lookup_eq_iff, h.lookup_eq_iff, (live_set_some hi y).mem_iff, (live_release hx).mem_iff]
  refine and_congr_left fun hw => ?_
  have hwy : w ≠ y := fun heq => hk (by rw [← hw, heq, hkey])
  have hwx : w ≠ x := fun heq => hk (by rw [← hw, heq])
  simp [hwy, hwx]

theorem Keyed.place (hplace : place x t = some t')
    (hnew : lookup key t (key x) = none) : Keyed key t' :=
  nodup_map_place h hplace (lookup_eq_none.mp hnew)

theorem Keyed.lookup_place (hplace : SlotTable.place x t = some t')
    (hnew : lookup key t (key x) = none) :
    lookup key t' = update (lookup key t) (key x) (some x) := by
  have hkeyed := h.place hplace hnew
  funext k
  by_cases hk : k = key x
  · subst hk
    rw [update_self]
    exact hkeyed.lookup_mem ((mem_live_place hplace).mpr (.inl rfl))
  rw [update_of_ne hk]
  refine Option.ext fun w => ?_
  rw [hkeyed.lookup_eq_iff, h.lookup_eq_iff, mem_live_place hplace]
  refine and_congr_left fun hw => ?_
  have hwx : w ≠ x := fun heq => hk (by rw [← hw, heq])
  simp [hwx]

/-! ## Releasing -/

theorem Keyed.lookup_release (hx : t[i]? = some (some x)) :
    lookup key (SlotTable.release i t) = update (lookup key t) (key x) none := by
  have hkeyed := h.release i
  funext k
  by_cases hk : k = key x
  · subst hk
    rw [update_self]
    exact lookup_eq_none.mpr fun y hy => key_ne_of_mem_release h hx hy
  rw [update_of_ne hk]
  refine Option.ext fun w => ?_
  rw [hkeyed.lookup_eq_iff, h.lookup_eq_iff, (live_release hx).mem_iff]
  refine and_congr_left fun hw => ?_
  have hwx : w ≠ x := fun heq => hk (by rw [← hw, heq])
  simp [hwx]

/-! ## Counting -/

theorem Keyed.ncard_keys : {k | lookup key t k ≠ none}.ncard = (live t).length := by
  have hkeys : {k | lookup key t k ≠ none} = ((live t).map key).toFinset := by
    ext k
    simp only [Set.mem_ofPred_eq, coe_toFinset, mem_map, ne_eq, lookup_eq_none]
    push Not
    rfl
  rw [hkeys, Set.ncard_coe_finset, toFinset_card_of_nodup h, length_map]

end Keyed

theorem live_length_le (t : List (Option α)) : (live t).length ≤ t.length :=
  reduceOption_length_le t

theorem findIdx?_isNone_eq_none : t.findIdx? (·.isNone) = none ↔ (live t).length = t.length := by
  unfold live
  rw [reduceOption_length_eq_iff]
  simp [Option.isSome_iff_ne_none]

end SlotTable
