import AceShell.Paths.Links

/-!
# Resolutions in two states

Two states resolve a path alike when they look the same from everywhere the path leads to, and the
side steps of the one can be made in the other. `Simulation` says what that takes of a relation
between states, name by name, and `Simulation.resolvePath` that it is enough.
-/

namespace AceShell

open Text Graph Relation

abbrev Outcome := Option (Except Errno Name × PathState)

/-- Both run out of fuel, or they give the same result in states that are related. -/
abbrev EndAlike (R : PathState → PathState → Prop) (a b : Outcome) : Prop :=
  Option.Rel (fun x y => x.1 = y.1 ∧ R x.2 y.2) a b

def Allows (A : PathState → Name → Prop) (st : PathState) (text : Name) : Prop :=
  ∀ b, nextName text = some b → A st b

def PathState.bound (st : PathState) (index : ℕ) : PathState :=
  { st with
    session := match st.session.entryAt index with
      | some entry =>
        if entry.type = .late then st.session.setSlot index (some { entry with type := .directory })
        else st.session
      | none => st.session }

/-- States related by `R` look the same from the names with `A`, which are found in slots with
`B`. -/
structure Simulation (z : Zlib) (host : Host) (R : PathState → PathState → Prop)
    (A : PathState → Name → Prop) (B : ℕ → Prop) : Prop where
  narrows : ∀ {st st' b}, A st b → Narrows st' st → A st' b
  links : ∀ {st a b}, A st a → Links st.session a b → A st b
  repair : ∀ {st st'} name, R st st' →
    R { st with session := st.session.repairClips host name }
      { st' with session := st'.session.repairClips host name }
  found : ∀ {st st' name}, R st st' → A st (name.map toLower) →
    (st.session.repairClips host name).findAssign name =
      (st'.session.repairClips host name).findAssign name
  slot : ∀ {st st' name index}, R st st' → A st (name.map toLower) →
    (st.session.repairClips host name).findAssign name = some index → B index ∧
      ∀ entry entry', (st.session.repairClips host name).entryAt index = some entry →
        (st'.session.repairClips host name).entryAt index = some entry' →
        entry'.hostBacked = entry.hostBacked ∧ entry'.texts = entry.texts
  bind : ∀ {st st' index}, B index → R st st' → R (st.bound index) (st'.bound index)
  lookup : ∀ {st st'} name, R st st' → st.cat.lookup name = st'.cat.lookup name
  device : ∀ {st st'} name input n, R st st' →
    EndAlike R (some (resolveDevice z host st name input n))
      (some (resolveDevice z host st' name input n))
  beneath : ∀ {st st'} base path n, R st st' →
    normalizeMappedPathBeneath z host st.cat base path n =
      normalizeMappedPathBeneath z host st'.cat base path n
  relative : ∀ {st st'} path n, R st st' →
    normalizeAmigaPath z host st.cat st.session.cwd path n =
      normalizeAmigaPath z host st'.cat st'.session.cwd path n
  volume : ∀ {st st'} input n, R st st' →
    resolveCurrentVolume z host st input n = resolveCurrentVolume z host st' input n

def Resolver.Follows (R : PathState → PathState → Prop) (A : PathState → Name → Prop)
    (resolve : Resolver) : Prop :=
  ∀ st st' text, R st st' → Allows A st text → EndAlike R (resolve st text) (resolve st' text)

namespace Simulation

variable {z : Zlib} {host : Host} {R : PathState → PathState → Prop}
  {A : PathState → Name → Prop} {B : ℕ → Prop} {st st' : PathState} {resolve : Resolver}
  (hsim : Simulation z host R A B)

include hsim

theorem tryTargets (hnarrow : NarrowingResolver resolve) (hres : resolve.Follows R A) {index : ℕ}
    (hidx : B index) (hostBacked : Bool) (n : ℕ) {targets : List Name} (h : R st st')
    (hallow : hostBacked = false → ∀ text ∈ targets, Allows A st text) :
    EndAlike R (tryTargets host resolve index hostBacked n targets st)
      (AceShell.tryTargets host resolve index hostBacked n targets st') := by
  induction targets generalizing st st' with
  | nil => exact .some ⟨rfl, h⟩
  | cons target rest ih =>
  unfold AceShell.tryTargets
  by_cases hlong : hostBacked = true ∧ pathMax ≤ target.length
  · rw [if_pos hlong, if_pos hlong]
    exact .some ⟨rfl, h⟩
  rw [if_neg hlong, if_neg hlong]
  have hattempt : EndAlike R (if hostBacked then some (.ok target, st) else resolve st target)
      (if hostBacked then some (.ok target, st') else resolve st' target) := by
    by_cases hbacked : hostBacked = true
    · rw [if_pos hbacked, if_pos hbacked]
      exact .some ⟨rfl, h⟩
    · rw [if_neg hbacked, if_neg hbacked]
      exact hres st st' target h
        (hallow (Bool.eq_false_iff.mpr hbacked) target List.mem_cons_self)
  have hafter : ∀ r st₁, (if hostBacked then some (.ok target, st) else resolve st target) =
      some (r, st₁) → Narrows st₁ st := by
    intro r st₁ hr
    by_cases hbacked : hostBacked = true
    · rw [if_pos hbacked, Option.some.injEq, Prod.mk.injEq] at hr
      rw [← hr.2]
      exact Narrows.refl st
    · rw [if_neg hbacked] at hr
      exact hnarrow hr
  -- what is left of the loop runs in a narrower state
  have hrest : ∀ {st₁ st₁'}, R st₁ st₁' → Narrows st₁ st → EndAlike R
      (AceShell.tryTargets host resolve index hostBacked n rest st₁)
      (AceShell.tryTargets host resolve index hostBacked n rest st₁') := by
    intro st₁ st₁' hst₁ hle
    refine ih hst₁ fun hbacked text hmem b hb => ?_
    exact hsim.narrows (hallow hbacked text (List.mem_cons_of_mem _ hmem) b hb) hle
  generalize (if hostBacked then some (Except.ok target, st) else resolve st target) = a at *
  generalize (if hostBacked then some (Except.ok target, st') else resolve st' target) = b at *
  cases hattempt with
  | none => exact .none
  | @some x y hboth =>
  obtain ⟨r, st₁⟩ := x
  obtain ⟨r', st₁'⟩ := y
  obtain ⟨rfl, hst₁⟩ := hboth
  have hle := hafter r st₁ rfl
  cases r with
  | error e => exact hrest hst₁ hle
  | ok candidate =>
  dsimp only
  by_cases hacc : host.access candidate = true
  · rw [if_pos hacc, if_pos hacc]
    by_cases hfit : n ≤ candidate.length
    · rw [if_pos hfit, if_pos hfit]
      exact .some ⟨rfl, hst₁⟩
    · rw [if_neg hfit, if_neg hfit]
      exact .some ⟨rfl, hsim.bind hidx hst₁⟩
  · rw [if_neg hacc, if_neg hacc]
    exact hrest hst₁ hle

theorem resolveNamed (hnarrow : NarrowingResolver resolve) (hres : resolve.Follows R A)
    {name : Name} (input : Name) (n : ℕ) (h : R st st') (hname : A st (name.map toLower)) :
    EndAlike R (resolveNamed z host resolve st name input n)
      (AceShell.resolveNamed z host resolve st' name input n) := by
  have hrepaired := hsim.repair name h
  unfold AceShell.resolveNamed
  dsimp only
  rw [← hsim.found h hname]
  cases hidx : (st.session.repairClips host name).findAssign name with
  | some index =>
    obtain ⟨hslot, hsame⟩ := hsim.slot h hname hidx
    obtain ⟨entry, hent, hcase⟩ := entry_of_findAssign hidx
    obtain ⟨entry', hent', -⟩ := entry_of_findAssign (hsim.found h hname ▸ hidx)
    obtain ⟨hbacked, htexts⟩ := hsame entry entry' hent hent'
    have hallow : entry.hostBacked = false → ∀ text ∈ entry.texts,
        Allows A { st with session := st.session.repairClips host name } text := by
      intro hplain text hmem b hb
      refine hsim.links (hsim.narrows hname (narrows_repairClips name)) ?_
      refine ⟨entry, mem_assigns_of_entryAt hent, caseEq_iff.mp hcase, ?_⟩
      unfold Assign.nextNames
      rw [hplain]
      exact List.mem_filterMap.mpr ⟨text, hmem, hb⟩
    have htry := hsim.tryTargets hnarrow hres hslot entry.hostBacked pathMax hrepaired hallow
    dsimp only
    rw [hent, hent']
    unfold resolveAssignTarget
    unfold Assign.texts at htexts htry
    dsimp only
    rw [hbacked, htexts]
    generalize AceShell.tryTargets host resolve index entry.hostBacked pathMax _
      { st with session := st.session.repairClips host name } = a at *
    generalize AceShell.tryTargets host resolve index entry.hostBacked pathMax _
      { st' with session := st'.session.repairClips host name } = b at *
    cases htry with
    | none => exact .none
    | @some x y hboth =>
    obtain ⟨r, st₁⟩ := x
    obtain ⟨r', st₁'⟩ := y
    obtain ⟨rfl, hst₁⟩ := hboth
    cases r with
    | error e => exact .some ⟨rfl, hst₁⟩
    | ok base => exact .some ⟨hsim.beneath base _ n hst₁, hst₁⟩
  | none =>
  rw [← hsim.lookup name h]
  cases st.cat.lookup name with
  | unique => exact hsim.device name input n hrepaired
  | ambiguous => exact .some ⟨rfl, hrepaired⟩
  | unknown =>
  by_cases hslash : slash ∈ name
  · rw [if_pos hslash, if_pos hslash]
    exact .some ⟨hsim.relative input n hrepaired, hrepaired⟩
  · rw [if_neg hslash, if_neg hslash]
    exact .some ⟨rfl, hrepaired⟩

/-- **Paths are resolved alike in related states.** -/
theorem resolvePath (n fuel : ℕ) : (resolvePath z host n fuel).Follows R A := by
  induction fuel generalizing n with
  | zero => exact fun _ _ _ _ _ => .none
  | succ fuel ih =>
  intro st st' text h hallow
  unfold AceShell.resolvePath
  by_cases hcolon : text.head? = some colon
  · rw [if_pos hcolon, if_pos hcolon]
    exact .some ⟨hsim.volume text n h, h⟩
  rw [if_neg hcolon, if_neg hcolon]
  by_cases hnamed : colon ∈ text ∧ (text.takeWhile (· != colon)).length < maxName
  · rw [if_pos hnamed, if_pos hnamed]
    refine hsim.resolveNamed (resolvePath_narrows fuel pathMax) (ih pathMax) text n h ?_
    refine hallow _ ?_
    unfold nextName
    rw [if_neg hcolon, if_pos hnamed]
  · rw [if_neg hnamed, if_neg hnamed]
    exact .some ⟨hsim.relative text n h, h⟩

end Simulation

end AceShell
