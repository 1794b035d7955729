import AceShell.Paths.Settled

/-!
# Paths that do not lead through an assign

When the entry of an assign is replaced by one of the same name, a path that does not lead to that
name is resolved as before, and has the same effects on the rest of the state.
-/

namespace AceShell

open Text Graph Relation Option

variable {z : Zlib} {host : Host} {index : ℕ} {old entry : Assign} {a : Name}

/-! ## Sessions -/

section Sessions

variable {session : Session}

theorem setSlot_comm {i j : ℕ} (hne : i ≠ j) (slot slot' : Option Assign) :
    (session.setSlot i slot).setSlot j slot' = (session.setSlot j slot').setSlot i slot := by
  unfold Session.setSlot
  rw [List.set_comm _ _ hne]

variable (hold : session.entryAt index = some old)
  (hname : entry.name.map toLower = old.name.map toLower)

include hold hname

theorem findAssign_setSlot (name : Name) :
    (session.setSlot index (some entry)).findAssign name = session.findAssign name := by
  refine findIdx?_set_of_eq (getElem?_of_entryAt hold) ?_
  rw [Bool.eq_iff_iff]
  change caseEq entry.name name = true ↔ caseEq old.name name = true
  rw [caseEq_iff, caseEq_iff, hname]

theorem allocateAssign_setSlot (name : Name) :
    (session.setSlot index (some entry)).allocateAssign name =
      (session.allocateAssign name).map (Prod.map id (·.setSlot index (some entry))) := by
  have hslot := getElem?_of_entryAt hold
  unfold Session.allocateAssign
  rw [findAssign_setSlot hold hname]
  cases session.findAssign name with
  | some found => rfl
  | none =>
  have hfree : (session.setSlot index (some entry)).assigns.findIdx? (·.isNone) =
      session.assigns.findIdx? (·.isNone) := findIdx?_set_of_eq hslot rfl
  rw [hfree]
  cases hfound : session.assigns.findIdx? (·.isNone) with
  | none => rfl
  | some free =>
  have hne : index ≠ free := by
    rintro rfl
    obtain ⟨hlt, hnone, -⟩ := List.findIdx?_eq_some_iff_getElem.mp hfound
    rw [(List.getElem?_eq_some_iff.mp hslot).2] at hnone
    exact Bool.false_ne_true hnone
  split_ifs
  · rfl
  · dsimp only [map_some, Prod.map, id_eq]
    rw [setSlot_comm hne]

theorem repairClips_setSlot (name : Name) :
    (session.setSlot index (some entry)).repairClips host name =
      (session.repairClips host name).setSlot index (some entry) := by
  unfold Session.repairClips
  rw [findAssign_setSlot hold hname]
  by_cases hlost : session.findAssign name = none ∧ caseEq name clipsName = true
  · rw [if_pos hlost, if_pos hlost]
    cases host.clipboardRoot with
    | none => rfl
    | some root =>
    have hclips : session.findAssign clipsName = none := findAssign_congr hlost.2 ▸ hlost.1
    dsimp only
    unfold Session.setDirectoryAssign
    rw [allocateAssign_setSlot hold hname]
    by_cases hdir : host.isDirectory root = true
    · rw [if_pos hdir, if_pos hdir]
      cases halloc : session.allocateAssign clipsName with
      | none => rfl
      | some found =>
      obtain ⟨free, session'⟩ := found
      have hne : index ≠ free := by
        rintro rfl
        rcases allocateAssign_eq halloc with ⟨hsome, -⟩ | ⟨-, hfree, -⟩
        · exact nomatch hclips.symm.trans hsome
        · exact nomatch hfree.symm.trans (getElem?_of_entryAt hold)
      dsimp only [map_some, Prod.map, id_eq]
      by_cases hlong : pathMax ≤ root.length
      · rw [if_pos hlong, if_pos hlong]
      · rw [if_neg hlong, if_neg hlong, entryAt_setSlot _ hne, setSlot_comm hne]
    · rw [if_neg hdir, if_neg hdir]
  · rw [if_neg hlost, if_neg hlost]

theorem settled_setSlot :
    (session.setSlot index (some entry)).settled host =
      (session.settled host).setSlot index (some entry.settled) := by
  have hbound : session.bindAll.entryAt index = some old.settled := by
    rw [entryAt_bindAll, hold]
    rfl
  have hname' : entry.settled.name.map toLower = old.settled.name.map toLower := hname
  unfold Session.settled
  rw [setSlot_bindAll]
  exact repairClips_setSlot hbound hname' clipsName

end Sessions

/-! ## Resolutions -/

def PathState.replaced (st : PathState) (index : ℕ) (entry : Assign) : PathState :=
  { st with session := st.session.setSlot index (some entry) }

def Avoids (session : Session) (a text : Name) : Prop :=
  ∀ b, nextName text = some b → ¬ ReflTransGen (Links session) b a

def HoldsName (st : PathState) (index : ℕ) (a : Name) : Prop :=
  ∃ old, st.session.entryAt index = some old ∧ old.name.map toLower = a

section Resolutions

variable {st st' : PathState}

theorem HoldsName.narrows (h : HoldsName st index a) (hst : Narrows st' st) :
    HoldsName st' index a := by
  obtain ⟨old, hold, hname⟩ := h
  obtain ⟨type, hent⟩ := hst.entries index old hold
  exact ⟨_, hent, hname⟩

/-- **A path that does not lead through an assign does not see it change.** -/
theorem simulation_replaced (z : Zlib) (host : Host) (index : ℕ) (entry : Assign) :
    Simulation z host
      (fun st st' => HoldsName st index (entry.name.map toLower) ∧ st' = st.replaced index entry)
      (fun st b => ¬ ReflTransGen (Links st.session) b (entry.name.map toLower))
      fun other => index ≠ other where
  narrows {st st₁ b} havoid hst hreach :=
    havoid (ReflTransGen.mono (fun x y hxy => hst.links x y hxy) _ _ hreach)
  links havoid hlink hreach := havoid (.head hlink hreach)
  repair {st st'} name h := by
    obtain ⟨⟨old, hent, hname⟩, rfl⟩ := h
    exact ⟨HoldsName.narrows ⟨old, hent, hname⟩ (narrows_repairClips name),
      congrArg (PathState.mk · st.cat) (repairClips_setSlot hent hname.symm name)⟩
  found {st st' name} h _ := by
    obtain ⟨⟨old, hent, hname⟩, rfl⟩ := h
    obtain ⟨found, hfound, hsame⟩ : HoldsName
        { st with session := st.session.repairClips host name } index (entry.name.map toLower) :=
      HoldsName.narrows ⟨old, hent, hname⟩ (narrows_repairClips name)
    unfold PathState.replaced
    rw [repairClips_setSlot hent hname.symm]
    exact (findAssign_setSlot hfound hsame.symm name).symm
  slot {st st' name other} h havoid hother := by
    obtain ⟨⟨old, hent, hname⟩, rfl⟩ := h
    have hne : index ≠ other := by
      rintro rfl
      obtain ⟨found, hfound, hsame⟩ : HoldsName
          { st with session := st.session.repairClips host name } index (entry.name.map toLower) :=
        HoldsName.narrows ⟨old, hent, hname⟩ (narrows_repairClips name)
      obtain ⟨target, htgt, hcase⟩ := entry_of_findAssign hother
      obtain rfl := some.inj (hfound.symm.trans htgt)
      rw [caseEq_iff, hsame] at hcase
      exact havoid (hcase ▸ .refl)
    refine ⟨hne, ?_⟩
    intro found found' hfound hfound'
    unfold PathState.replaced at hfound'
    rw [repairClips_setSlot hent hname.symm, entryAt_setSlot _ hne, hfound] at hfound'
    obtain rfl := some.inj hfound'
    exact ⟨rfl, rfl⟩
  bind {st st' other} hne h := by
    obtain ⟨hold, rfl⟩ := h
    have hent : (st.replaced index entry).session.entryAt other = st.session.entryAt other :=
      entryAt_setSlot _ hne
    unfold PathState.bound
    rw [hent]
    cases hother : st.session.entryAt other with
    | none => exact ⟨hold, rfl⟩
    | some found =>
    dsimp only
    by_cases hlate : found.type = .late
    · rw [if_pos hlate, if_pos hlate]
      have hstep : SideStep host st _ := .bind st hother hlate
      refine ⟨hold.narrows hstep.narrows, ?_⟩
      unfold PathState.replaced
      rw [setSlot_comm hne]
    · rw [if_neg hlate, if_neg hlate]
      exact ⟨hold, rfl⟩
  lookup name h := by rw [h.2]; rfl
  device {st st'} name input n h := by
    obtain ⟨hold, rfl⟩ := h
    unfold resolveDevice PathState.replaced
    rcases Catalog.root host st.cat name pathMax with ⟨- | base, cat⟩
    · exact .some ⟨rfl, hold, rfl⟩
    dsimp only
    cases normalizeMappedPathBeneath z host cat base (afterColon input) n with
    | ok result => exact .some ⟨rfl, hold, rfl⟩
    | error failure =>
      dsimp only
      split_ifs <;> exact .some ⟨rfl, hold, rfl⟩
  beneath base path n h := by rw [h.2]; rfl
  relative path n h := by rw [h.2]; rfl
  volume input n h := by rw [h.2]; rfl

end Resolutions

end AceShell
