import AceShell.Paths.Assign
import AceShell.Paths.Links

/-!
# What a resolution does to its session

Resolving a path may bind a late assign and may give a session its lost `CLIPS:` back, and does
nothing else to it. `resolvePath_rule` is the induction over a resolution: a relation between
sessions that is reflexive and transitive and covers these two changes covers every resolution.
-/

namespace AceShell

open Text

variable {z : Zlib} {host : Host} {st st' : PathState} {session : Session} {n fuel : ℕ}

/-! ## The induction -/

variable {value : Name} {result : Except Errno Name}

section Rule

variable {R : Session → Session → Prop}

structure Tolerates (host : Host) (R : Session → Session → Prop) : Prop where
  refl : ∀ s, R s s
  trans : ∀ {s₁ s₂ s₃}, R s₁ s₂ → R s₂ s₃ → R s₁ s₃
  repair : ∀ s name, R s (Session.repairClips host s name)
  bind : ∀ (s : Session) index entry, s.entryAt index = some entry → entry.type = .late →
    R s (s.setSlot index (some { entry with type := .directory }))

/-- A resolver that keeps to `R`. -/
def Respects (R : Session → Session → Prop) (resolve : Resolver) : Prop :=
  ∀ {st text result st'}, resolve st text = some (result, st') → R st.session st'.session

/-- **Resolution rule.** -/
theorem resolvePath_rule (hR : Tolerates host R) (fuel n : ℕ) :
    Respects R (resolvePath z host n fuel) := by
  intro st text result st' h
  have hsteps := resolvePath_steps fuel n h
  clear h
  induction hsteps with
  | refl => exact hR.refl _
  | tail _ hstep ih =>
  refine hR.trans ih ?_
  cases hstep with
  | repair name => exact hR.repair _ name
  | bind hent hlate => exact hR.bind _ _ _ hent hlate
  | mount name => exact hR.refl _

theorem canonicalAssignTarget_respects (hR : Tolerates host R)
    (h : canonicalAssignTarget z host fuel st value n = some (result, st')) :
    R st.session st'.session := by
  obtain ⟨_, hres, -⟩ := canonicalAssignTarget_resolves h
  exact resolvePath_rule hR _ _ hres

end Rule

/-! ## Mended sessions -/

inductive SlotMended (host : Host) : Option Assign → Option Assign → Prop
  | same (slot : Option Assign) : SlotMended host slot slot
  | bound (entry : Assign) (hlate : entry.type = .late) :
    SlotMended host (some entry) (some { entry with type := .directory })
  /-- A store whose path is too long leaves the slot as it was allocated. -/
  | repaired {root : Name} {entry : Assign} (hroot : host.clipboardRoot = some root)
    (hentry : pathMax ≤ root.length ∧ entry = .fresh clipsName ∨
      entry = ⟨clipsName, root, [root], .directory, true⟩) :
    SlotMended host none (some entry)

/-- `s'` is `s` with late assigns bound and `CLIPS:` repaired. -/
structure Mended (host : Host) (s s' : Session) : Prop where
  cwd : s'.cwd = s.cwd
  length : s'.assigns.length = s.assigns.length
  slots : ∀ (index : ℕ) (slot : Option Assign), s.assigns[index]? = some slot →
    ∃ slot', s'.assigns[index]? = some slot' ∧ SlotMended host slot slot'

theorem SlotMended.trans {slot₁ slot₂ slot₃ : Option Assign} (h : SlotMended host slot₁ slot₂)
    (h' : SlotMended host slot₂ slot₃) : SlotMended host slot₁ slot₃ := by
  cases h with
  | same => exact h'
  | bound entry hlate =>
    cases h' with
    | same => exact .bound entry hlate
    | bound _ hlate' => cases hlate'
  | repaired hroot hent =>
    cases h' with
    | same => exact .repaired hroot hent
    | bound _ hlate' => rcases hent with ⟨-, rfl⟩ | rfl <;> cases hlate'

theorem Mended.refl (host : Host) (s : Session) : Mended host s s :=
  ⟨rfl, rfl, fun _ slot h => ⟨slot, h, .same slot⟩⟩

theorem Mended.trans {s₁ s₂ s₃ : Session} (h : Mended host s₁ s₂) (h' : Mended host s₂ s₃) :
    Mended host s₁ s₃ := by
  refine ⟨h'.cwd.trans h.cwd, h'.length.trans h.length, fun index slot hslot => ?_⟩
  obtain ⟨slot₂, hslot₂, hmended⟩ := h.slots index slot hslot
  obtain ⟨slot₃, hslot₃, hmended'⟩ := h'.slots index slot₂ hslot₂
  exact ⟨slot₃, hslot₃, hmended.trans hmended'⟩

theorem Mended.setSlot {index : ℕ} {slot slot' : Option Assign}
    (hslot : session.assigns[index]? = some slot) (h : SlotMended host slot slot') :
    Mended host session (session.setSlot index slot') := by
  refine ⟨rfl, List.length_set, fun other old hold => ?_⟩
  by_cases hsame : index = other
  · subst hsame
    obtain rfl := Option.some.inj (hslot.symm.trans hold)
    exact ⟨slot', List.getElem?_set_self (List.getElem?_eq_some_iff.mp hslot).1, h⟩
  · exact ⟨old, (List.getElem?_set_ne hsame).trans hold, .same old⟩

theorem mended_setDirectoryAssign {root : Name} (hroot : host.clipboardRoot = some root)
    (hfind : session.findAssign clipsName = none) :
    Mended host session (session.setDirectoryAssign host clipsName root) := by
  rcases setDirectoryAssign_eq host session clipsName root with
    heq | ⟨index, slot, entry, hslot, heq, hnone, hent⟩
  · rw [heq]
    exact .refl host session
  obtain rfl := hnone hfind
  rw [heq]
  refine .setSlot hslot (.repaired hroot ?_)
  rcases hent with ⟨-, hlong, hfresh⟩ | hmade
  · exact .inl ⟨hlong, hfresh⟩
  · exact .inr hmade

theorem mended_tolerates (host : Host) : Tolerates host (Mended host) where
  refl := .refl host
  trans := .trans
  repair s name := by
    unfold Session.repairClips
    by_cases hlost : s.findAssign name = none ∧ caseEq name clipsName = true
    · rw [if_pos hlost]
      cases hroot : host.clipboardRoot with
      | none => exact .refl host s
      | some root => exact mended_setDirectoryAssign hroot (findAssign_congr hlost.2 ▸ hlost.1)
    · rw [if_neg hlost]
      exact .refl host s
  bind s index entry hent hlate := .setSlot (getElem?_of_entryAt hent) (.bound entry hlate)

/-- **What a resolution changes.** -/
theorem resolvePath_mended {text : Name}
    (h : resolvePath z host n fuel st text = some (result, st')) :
    Mended host st.session st'.session :=
  resolvePath_rule (mended_tolerates host) _ _ h

theorem canonicalAssignTarget_mended
    (h : canonicalAssignTarget z host fuel st value n = some (result, st')) :
    Mended host st.session st'.session :=
  canonicalAssignTarget_respects (mended_tolerates host) h

end AceShell
