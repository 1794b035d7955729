import AceShell.Lib.Acyclic
import AceShell.Paths.Resolve

/-!
# Where the texts of assigns lead

`resolvePath` calls itself through the texts an assign holds, and a text leads to whatever assign
its first colon names. `Links` is that relation between names, in lower case. Resolving a path
never adds a link (`resolvePath_narrows`), and where no walk along the links is infinite every
resolution returns (`resolvePath_returns`).
-/

namespace AceShell

open Text Graph Relation List Option

variable {z : Zlib} {host : Host} {st st' st₀ : PathState} {session : Session} {n fuel : ℕ}

/-! ## Links -/

def Assign.texts (entry : Assign) : List Name :=
  if entry.targets = [] then [entry.root] else entry.targets

/-- The name, in lower case, that a text makes `resolve_path` look for among the assigns. -/
def nextName (text : Name) : Option Name :=
  if text.head? = some colon then none
  else if colon ∈ text ∧ (text.takeWhile (· != colon)).length < maxName then
    some ((text.takeWhile (· != colon)).map toLower)
  else none

def Assign.nextNames (entry : Assign) : List Name :=
  if entry.hostBacked then [] else entry.texts.filterMap nextName

def Links (session : Session) (a b : Name) : Prop :=
  ∃ entry, some entry ∈ session.assigns ∧ entry.name.map toLower = a ∧ b ∈ entry.nextNames

def Catalog.aliases (cat : Catalog) : List Name :=
  cat.devices.flatMap fun device => [device.label, device.kernelName, device.uuid]

/-- `st'` has no link and no device name that `st` does not have, and keeps the entries of `st`
but for their type. -/
structure Narrows (st' st : PathState) : Prop where
  links : ∀ a b, Links st'.session a b → Links st.session a b
  aliases : st'.cat.aliases ⊆ st.cat.aliases
  entries : ∀ index entry, st.session.entryAt index = some entry →
    ∃ type, st'.session.entryAt index = some { entry with type := type }

theorem Narrows.refl (st : PathState) : Narrows st st :=
  ⟨fun _ _ h => h, fun _ h => h, fun _ entry h => ⟨entry.type, h⟩⟩

theorem Narrows.trans {st₁ st₂ st₃ : PathState} (h : Narrows st₁ st₂) (h' : Narrows st₂ st₃) :
    Narrows st₁ st₃ := by
  refine ⟨fun a b hl => h'.links a b (h.links a b hl), fun _ hm => h'.aliases (h.aliases hm), ?_⟩
  intro index entry he
  obtain ⟨type₂, he₂⟩ := h'.entries index entry he
  obtain ⟨type₁, he₁⟩ := h.entries index _ he₂
  exact ⟨type₁, he₁⟩

theorem finite_links (session : Session) (a : Name) : {b | Links session a b}.Finite := by
  refine (finite_toSet (session.assigns.flatMap fun slot =>
    (slot.map Assign.nextNames).getD [])).subset ?_
  rintro b ⟨entry, hmem, -, hb⟩
  exact mem_flatMap.mpr ⟨some entry, hmem, hb⟩

/-! ## Changing a slot -/

variable {index : ℕ}

theorem entryAt_setSlot {other : ℕ} (slot : Option Assign) (hne : index ≠ other) :
    (session.setSlot index slot).entryAt other = session.entryAt other := by
  unfold Session.setSlot Session.entryAt
  rw [getElem?_set_ne hne]

variable {entry : Assign}

theorem getElem?_of_entryAt (h : session.entryAt index = some entry) :
    session.assigns[index]? = some (some entry) := join_eq_some_iff.mp h

theorem entryAt_setSlot_same {old : Option Assign} (slot : Option Assign)
    (h : session.assigns[index]? = some old) :
    (session.setSlot index slot).entryAt index = slot := by
  unfold Session.setSlot Session.entryAt
  rw [getElem?_set_self (List.getElem?_eq_some_iff.mp h).1]
  rfl

variable {a b : Name}

theorem links_setSlot {slot : Option Assign} (h : Links (session.setSlot index slot) a b) :
    (∃ entry, slot = some entry ∧ entry.name.map toLower = a ∧ b ∈ entry.nextNames) ∨
      Links session a b := by
  obtain ⟨entry, hmem, hname, hb⟩ := h
  rcases mem_or_eq_of_mem_set hmem with hold | hnew
  · exact Or.inr ⟨entry, hold, hname, hb⟩
  · exact Or.inl ⟨entry, hnew.symm, hname, hb⟩

theorem links_of_setSlot (hent : ∀ b ∈ entry.nextNames, Links session (entry.name.map toLower) b)
    (h : Links (session.setSlot index (some entry)) a b) : Links session a b := by
  rcases links_setSlot h with ⟨e, he, rfl, hb⟩ | hold
  · obtain rfl := some.inj he
    exact hent b hb
  · exact hold

theorem mem_assigns_of_entryAt (h : session.entryAt index = some entry)
    : some entry ∈ session.assigns := mem_of_getElem? (getElem?_of_entryAt h)

variable {name : Name}

theorem entry_of_findAssign (h : session.findAssign name = some index) :
    ∃ entry, session.entryAt index = some entry ∧ caseEq entry.name name = true := by
  obtain ⟨hlt, hslot, -⟩ := findIdx?_eq_some_iff_getElem.mp h
  unfold Session.entryAt
  rw [getElem?_eq_getElem hlt]
  cases hs : session.assigns[index] with
  | none => rw [hs] at hslot; simp [slotNamed] at hslot
  | some entry =>
    rw [hs] at hslot
    exact ⟨entry, rfl, hslot⟩

structure Takes (session session' : Session) (index : ℕ) (entry : Assign) : Prop where
  free : session.entryAt index = none
  taken : session'.entryAt index = some entry
  links : ∀ a b, Links session' a b → Links session a b
  others : ∀ other, index ≠ other → session'.entryAt other = session.entryAt other

theorem takes_setSlot (hfree : session.assigns[index]? = some none) (hent : entry.nextNames = []) :
    Takes session (session.setSlot index (some entry)) index entry where
  free := by
    unfold Session.entryAt
    rw [hfree]
    rfl
  taken := entryAt_setSlot_same _ hfree
  links := by
    intro a b h
    refine links_of_setSlot (fun b hb => ?_) h
    rw [hent] at hb
    simp at hb
  others := fun _ hne => entryAt_setSlot _ hne

variable {session' : Session}

theorem allocateAssign_eq (h : session.allocateAssign name = some (index, session')) :
    session.findAssign name = some index ∧ session' = session ∨
      session.findAssign name = none ∧ session.assigns[index]? = some none ∧
        session' = session.setSlot index (some (.fresh name)) := by
  unfold Session.allocateAssign at h
  cases hfind : session.findAssign name with
  | some found =>
    rw [hfind] at h
    simp only [some.injEq, Prod.mk.injEq] at h
    exact .inl ⟨congrArg some h.1, h.2.symm⟩
  | none =>
  rw [hfind] at h
  cases hfree : session.assigns.findIdx? (·.isNone) with
  | none => simp [hfree] at h
  | some free =>
  simp only [hfree] at h
  split_ifs at h
  cases h
  obtain ⟨hlt, hnone, -⟩ := findIdx?_eq_some_iff_getElem.mp hfree
  refine .inr ⟨rfl, ?_, rfl⟩
  rw [getElem?_eq_getElem hlt, isNone_iff_eq_none.mp hnone]

theorem setSlot_setSlot (session : Session) (index : ℕ) (slot slot' : Option Assign) :
    (session.setSlot index slot).setSlot index slot' = session.setSlot index slot' := by
  unfold Session.setSlot
  rw [set_set]

theorem setDirectoryAssign_eq (host : Host) (session : Session) (name path : Name) :
    session.setDirectoryAssign host name path = session ∨
      ∃ index slot entry, session.assigns[index]? = some slot ∧
        session.setDirectoryAssign host name path = session.setSlot index (some entry) ∧
        (session.findAssign name = none → slot = none) ∧
        (slot = none ∧ pathMax ≤ path.length ∧ entry = .fresh name ∨
          entry = ⟨(slot.map Assign.name).getD name, path, [path], .directory, true⟩) := by
  unfold Session.setDirectoryAssign
  by_cases hdir : host.isDirectory path = true
  · rw [if_pos hdir]
    cases hal : session.allocateAssign name with
    | none => exact .inl rfl
    | some slot =>
    obtain ⟨index, session'⟩ := slot
    simp only
    rcases allocateAssign_eq hal with ⟨hfind, rfl⟩ | ⟨hfind, hfree, rfl⟩
    · by_cases hlen : pathMax ≤ path.length
      · rw [if_pos hlen]
        exact .inl rfl
      rw [if_neg hlen]
      obtain ⟨entry, hent, -⟩ := entry_of_findAssign hfind
      refine .inr ⟨index, some entry, _, getElem?_of_entryAt hent, rfl, ?_, .inr ?_⟩
      · rw [hfind]
        exact nofun
      · rw [hent]
    right
    by_cases hlen : pathMax ≤ path.length
    · rw [if_pos hlen]
      exact ⟨index, none, _, hfree, rfl, fun _ => rfl, .inl ⟨rfl, hlen, rfl⟩⟩
    rw [if_neg hlen, setSlot_setSlot, entryAt_setSlot_same _ hfree]
    exact ⟨index, none, _, hfree, rfl, fun _ => rfl, .inr rfl⟩
  · rw [if_neg hdir]
    exact .inl rfl

theorem Takes.narrows (h : Takes st.session session' index entry)
    : Narrows { st with session := session' } st := by
  refine ⟨h.links, List.Subset.refl _, fun other e he => ⟨e.type, ?_⟩⟩
  have hne : index ≠ other := by
    rintro rfl
    rw [h.free] at he
    simp at he
  exact (h.others other hne).trans he

theorem findAssign_congr {name' : Name} (h : caseEq name name' = true) :
    session.findAssign name = session.findAssign name' := by
  unfold Session.findAssign
  congr 1
  funext slot
  cases slot with
  | none => rfl
  | some entry => exact caseEq_congr_right h

theorem narrows_repairClips (name : Name) :
    Narrows { st with session := st.session.repairClips host name } st := by
  unfold Session.repairClips
  by_cases hlost : st.session.findAssign name = none ∧ caseEq name clipsName = true
  · rw [if_pos hlost]
    cases host.clipboardRoot with
    | none => exact Narrows.refl st
    | some root =>
    rcases setDirectoryAssign_eq host st.session clipsName root with
      heq | ⟨index, slot, entry, hslot, heq, hnone, hent⟩
    · simp only [heq]
      exact Narrows.refl st
    obtain rfl := hnone (findAssign_congr hlost.2 ▸ hlost.1)
    have hleads : entry.nextNames = [] := by
      rcases hent with ⟨-, -, rfl⟩ | rfl <;> rfl
    simp only [heq]
    exact (takes_setSlot hslot hleads).narrows
  · rw [if_neg hlost]
    exact Narrows.refl st

/-! ## What a resolution does on its way -/

/-- It gives a session its `CLIPS:` back, binds a late assign, or mounts a device. -/
inductive SideStep (host : Host) : PathState → PathState → Prop
  | repair (st : PathState) (name : Name) :
    SideStep host st { st with session := st.session.repairClips host name }
  | bind (st : PathState) {index : ℕ} {entry : Assign}
    (hentry : st.session.entryAt index = some entry) (hlate : entry.type = .late) :
    SideStep host st
      { st with session := st.session.setSlot index (some { entry with type := .directory }) }
  | mount (st : PathState) (name : Name) :
    SideStep host st { st with cat := (Catalog.root host st.cat name pathMax).2 }

def Stepwise (host : Host) (resolve : Resolver) : Prop :=
  ∀ {st text result st'}, resolve st text = some (result, st') → ReflTransGen (SideStep host) st st'

variable {resolve : Resolver} {hostBacked : Bool} {result : Except Errno Name} {targets : List Name}

theorem tryTargets_steps (hres : Stepwise host resolve)
    (h : tryTargets host resolve index hostBacked n targets st = some (result, st')) :
    ReflTransGen (SideStep host) st st' := by
  induction targets generalizing st with
  | nil =>
    simp only [tryTargets, some.injEq, Prod.mk.injEq] at h
    exact h.2 ▸ .refl
  | cons target rest ih =>
  unfold tryTargets at h
  by_cases hlong : hostBacked = true ∧ pathMax ≤ target.length
  · rw [if_pos hlong, some.injEq, Prod.mk.injEq] at h
    exact h.2 ▸ .refl
  rw [if_neg hlong] at h
  cases hatt : (if hostBacked = true then some (Except.ok target, st) else resolve st target) with
  | none => simp [hatt] at h
  | some attempt =>
  obtain ⟨r, st₁⟩ := attempt
  have hst₁ : ReflTransGen (SideStep host) st st₁ := by
    by_cases hbacked : hostBacked = true
    · rw [if_pos hbacked, some.injEq, Prod.mk.injEq] at hatt
      exact hatt.2 ▸ .refl
    · rw [if_neg hbacked] at hatt
      exact hres hatt
  rw [hatt] at h
  cases r with
  | error e => exact hst₁.trans (ih h)
  | ok candidate =>
  simp only at h
  by_cases hacc : host.access candidate = true
  · rw [if_pos hacc] at h
    by_cases hfit : n ≤ candidate.length
    · rw [if_pos hfit, some.injEq, Prod.mk.injEq] at h
      exact h.2 ▸ hst₁
    rw [if_neg hfit, some.injEq, Prod.mk.injEq] at h
    rw [← h.2]
    cases hent : st₁.session.entryAt index with
    | none => exact hst₁
    | some entry =>
    simp only
    by_cases hlate : entry.type = .late
    · rw [if_pos hlate]
      exact hst₁.tail (.bind st₁ hent hlate)
    · rw [if_neg hlate]
      exact hst₁
  · rw [if_neg hacc] at h
    exact hst₁.trans (ih h)

theorem resolveDevice_snd (st : PathState) (name input : Name) (n : ℕ) :
    (resolveDevice z host st name input n).2 =
      { st with cat := (Catalog.root host st.cat name pathMax).2 } := by
  unfold resolveDevice
  rcases Catalog.root host st.cat name pathMax with ⟨_ | base, cat⟩
  · rfl
  simp only
  split
  · rfl
  · split <;> rfl

variable {input : Name}

theorem resolveNamed_steps (hres : Stepwise host resolve)
    (h : resolveNamed z host resolve st name input n = some (result, st')) :
    ReflTransGen (SideStep host) st st' := by
  refine .head (.repair st name) ?_
  unfold resolveNamed at h
  simp only at h
  split at h
  · split at h
    · cases h
      exact .refl
    split at h
    · simp at h
    all_goals
      next htry =>
        cases h
        exact tryTargets_steps hres htry
  · split at h
    · have hst : _ = st' := congrArg Prod.snd (some.inj h)
      rw [← hst, resolveDevice_snd]
      exact .single (.mount _ name)
    · cases h
      exact .refl
    · split_ifs at h <;>
      · cases h
        exact .refl

/-- **A resolution is a series of side steps.** -/
theorem resolvePath_steps : ∀ (fuel n : ℕ), Stepwise host (resolvePath z host n fuel) := by
  intro fuel
  induction fuel with
  | zero => intro n st text result st' h; simp [resolvePath] at h
  | succ fuel ih =>
  intro n st text result st' h
  unfold resolvePath at h
  split_ifs at h
  · cases h
    exact .refl
  · exact resolveNamed_steps (ih pathMax) h
  · cases h
    exact .refl

/-! ## Resolving adds no link -/

def NarrowingResolver (resolve : Resolver) : Prop :=
  ∀ {st text result st'}, resolve st text = some (result, st') → Narrows st' st

theorem ensureDeviceMount_eq {d device : Device} (h : ensureDeviceMount host d = .ok device) :
    ∃ path, device = { d with mountPath := path } ∧
      ensureDeviceMount host device = .ok device := by
  by_cases hmount : d.mountPath ≠ []
  · have hsame : ensureDeviceMount host d = .ok d := if_pos hmount
    obtain rfl := Except.ok.inj (hsame.symm.trans h)
    exact ⟨d.mountPath, rfl, h⟩
  obtain ⟨path, rfl⟩ : ∃ path, device = { d with mountPath := path } := by
    unfold ensureDeviceMount at h
    split_ifs at h
    split at h
    · exact ⟨_, (Except.ok.inj h).symm⟩
    split at h
    · exact ⟨_, (Except.ok.inj h).symm⟩
    · cases h
  refine ⟨path, rfl, ?_⟩
  by_cases hpath : path ≠ []
  · exact if_pos hpath
  -- An empty mount point is none.
  have hsame : ({ d with mountPath := path } : Device) = d := by
    rw [not_not.mp hpath, ← not_not.mp hmount]
  rw [hsame] at h ⊢
  exact h

theorem aliases_root (cat : Catalog) (name : Name) :
    (Catalog.root host cat name n).2.aliases ⊆ cat.aliases := by
  unfold Catalog.root
  by_cases hvalid : validAlias name = true
  · rw [if_pos hvalid]
    rcases hdevs : cat.devices.filter (·.aliasMatches name) with _ | ⟨device, _ | ⟨d, ds⟩⟩ <;>
      simp only [hdevs]
    · exact List.Subset.refl _
    · by_cases hview : cat.deviceView = true
      · rw [if_pos hview]
        cases selectedViewRoot host device <;> exact List.Subset.refl _
      rw [if_neg hview]
      cases hmount : ensureDeviceMount host device with
      | error e => exact List.Subset.refl _
      | ok mounted =>
      intro x hx
      obtain ⟨d', hd', hx⟩ := mem_flatMap.mp hx
      obtain ⟨d, hd, rfl⟩ := mem_map.mp hd'
      by_cases hm : d.aliasMatches name = true
      · -- the one device of that name is the one that was mounted
        have hdev : d = device := by
          have : d ∈ cat.devices.filter (·.aliasMatches name) := mem_filter.mpr ⟨hd, hm⟩
          rw [hdevs] at this
          exact mem_singleton.mp this
        obtain ⟨path, rfl, -⟩ := ensureDeviceMount_eq hmount
        rw [if_pos hm] at hx
        exact mem_flatMap.mpr ⟨device, hdev ▸ hd, hx⟩
      · rw [if_neg hm] at hx
        exact mem_flatMap.mpr ⟨d, hd, hx⟩
    · exact List.Subset.refl _
  · rw [if_neg hvalid]
    exact List.Subset.refl _

theorem SideStep.narrows (h : SideStep host st st') : Narrows st' st := by
  cases h with
  | repair name => exact narrows_repairClips name
  | @bind index entry hent hlate =>
    refine ⟨fun a b h => ?_, List.Subset.refl _, fun other e he => ?_⟩
    · refine links_of_setSlot (fun b hb => ?_) h
      exact ⟨entry, mem_assigns_of_entryAt hent, rfl, hb⟩
    by_cases hne : index = other
    · subst hne
      obtain rfl := some.inj (hent.symm.trans he)
      exact ⟨.directory, entryAt_setSlot_same _ (getElem?_of_entryAt hent)⟩
    · exact ⟨e.type, (entryAt_setSlot _ hne).trans he⟩
  | mount name =>
    exact ⟨fun _ _ h => h, aliases_root st.cat name, fun _ entry h => ⟨entry.type, h⟩⟩

/-- **A resolution leaves no link behind.** It may bind a late assign, repair `CLIPS:` and mount a
device; none of that gives an assign a new text to follow. -/
theorem resolvePath_narrows (fuel n : ℕ) : NarrowingResolver (resolvePath z host n fuel) := by
  intro st text result st' h
  have hsteps := resolvePath_steps fuel n h
  clear h
  induction hsteps with
  | refl => exact Narrows.refl st
  | tail _ hstep ih => exact hstep.narrows.trans ih

/-! ## Resolving returns -/

theorem tryTargets_isSome (hres : NarrowingResolver resolve)
    (h : hostBacked = false → ∀ text ∈ targets, ∀ st', Narrows st' st → (resolve st' text).isSome) :
    (tryTargets host resolve index hostBacked n targets st).isSome := by
  induction targets generalizing st with
  | nil => rfl
  | cons target rest ih =>
  -- what is left of the loop runs in a narrower state
  have hrest : ∀ st₁, Narrows st₁ st →
      (tryTargets host resolve index hostBacked n rest st₁).isSome := by
    intro st₁ hst₁
    refine ih fun hb text hm st₂ hst₂ => ?_
    exact h hb text (mem_cons_of_mem _ hm) st₂ (hst₂.trans hst₁)
  have hatt : ∃ r st₁, (if hostBacked = true then some (Except.ok target, st)
      else resolve st target) = some (r, st₁) ∧ Narrows st₁ st := by
    by_cases hb : hostBacked = true
    · exact ⟨_, _, if_pos hb, Narrows.refl st⟩
    have hsome := h (Bool.eq_false_iff.mpr hb) target mem_cons_self st (Narrows.refl st)
    obtain ⟨⟨r, st₁⟩, hr⟩ := isSome_iff_exists.mp hsome
    exact ⟨r, st₁, (if_neg hb).trans hr, hres hr⟩
  obtain ⟨r, st₁, hr, hst₁⟩ := hatt
  unfold tryTargets
  by_cases hlong : hostBacked = true ∧ pathMax ≤ target.length
  · rw [if_pos hlong]
    rfl
  rw [if_neg hlong]
  simp only [hr]
  cases r with
  | error e => exact hrest st₁ hst₁
  | ok candidate =>
  simp only
  by_cases hacc : host.access candidate = true
  · rw [if_pos hacc]
    by_cases hfit : n ≤ candidate.length
    · rw [if_pos hfit]
      rfl
    · rw [if_neg hfit]
      rfl
  · rw [if_neg hacc]
    exact hrest st₁ hst₁

theorem resolveNamed_isSome (hres : NarrowingResolver resolve)
    (hplain : ∀ text st', nextName text = none → (resolve st' text).isSome)
    (hnext : ∀ b, Links st.session (name.map toLower) b → ∀ text st', nextName text = some b →
      Narrows st' st → (resolve st' text).isSome) :
    (resolveNamed z host resolve st name input n).isSome := by
  have hrepair := @narrows_repairClips host st name
  unfold resolveNamed
  simp only
  cases hfind : (st.session.repairClips host name).findAssign name with
  | none =>
    simp only
    split
    · rfl
    · rfl
    · split_ifs <;> rfl
  | some index =>
  obtain ⟨entry, hent, hname⟩ := entry_of_findAssign hfind
  simp only [hent]
  have htgts : (resolveAssignTarget host resolve index entry pathMax
      { st with session := st.session.repairClips host name }).isSome := by
    refine tryTargets_isSome hres fun hb text hm st' hst' => ?_
    cases hb' : nextName text with
    | none => exact hplain text st' hb'
    | some b =>
    refine hnext b (hrepair.links _ b ?_) text st' hb' (hst'.trans hrepair)
    refine ⟨entry, mem_assigns_of_entryAt hent, caseEq_iff.mp hname, ?_⟩
    unfold Assign.nextNames
    rw [hb]
    exact mem_filterMap.mpr ⟨text, hm, hb'⟩
  obtain ⟨⟨r, st₁⟩, hr⟩ := isSome_iff_exists.mp htgts
  rw [hr]
  cases r <;> rfl

theorem resolvePath_of_nextName_none {text : Name} (h : nextName text = none) :
    (resolvePath z host n (fuel + 1) st text).isSome := by
  unfold nextName at h
  unfold resolvePath
  split_ifs at h ⊢ <;> rfl

theorem resolvePath_of_nextName {text a : Name} (h : nextName text = some a) :
    (text.takeWhile (· != colon)).map toLower = a ∧
      resolvePath z host n (fuel + 1) st text =
        resolveNamed z host (resolvePath z host pathMax fuel) st (text.takeWhile (· != colon)) text
          n := by
  unfold nextName at h
  split_ifs at h with h1 h2
  refine ⟨some.inj h, ?_⟩
  rw [resolvePath, if_neg h1, if_pos h2]

open Filter in
/-- Well-founded induction on the links: a name needs one call more than the names it leads to,
and there are finitely many of those. -/
theorem resolvePath_eventually (hac : Acyclic (Links st₀.session)) (a : Name) :
    ∀ᶠ fuel in atTop, ∀ st, Narrows st st₀ → ∀ n text, nextName text = some a →
      (resolvePath z host n fuel st text).isSome := by
  induction a using hac.induction with
  | _ a ih =>
  have hnext := (eventually_all_finite (finite_links st₀.session a)).mpr ih
  obtain ⟨bound, hbound⟩ := eventually_atTop.mp hnext
  refine eventually_atTop.mpr ⟨bound + 2, fun fuel hfuel st hst n text htext => ?_⟩
  obtain ⟨calls, rfl⟩ : ∃ calls, fuel = calls + 1 + 1 := ⟨fuel - 2, by omega⟩
  obtain ⟨hname, heq⟩ := @resolvePath_of_nextName z host st n (calls + 1) text a htext
  rw [heq]
  refine resolveNamed_isSome (resolvePath_narrows _ _)
    (fun _ _ hnone => resolvePath_of_nextName_none hnone) fun b hb text' st' ht' hst' => ?_
  rw [hname] at hb
  exact hbound (calls + 1) (by omega) b (hst.links a b hb) st' (hst'.trans hst) pathMax text' ht'

/-- **Resolution returns.** Without a cycle among the links of a state there is, for every path, a
number of calls that is enough for it in every narrower state. -/
theorem resolvePath_returns (hac : Acyclic (Links st₀.session)) (text : Name) :
    ∃ bound, ∀ fuel ≥ bound, ∀ st, Narrows st st₀ → ∀ n,
      (resolvePath z host n fuel st text).isSome := by
  cases hnext : nextName text with
  | none =>
    refine ⟨1, fun fuel hfuel st _ n => ?_⟩
    obtain ⟨calls, rfl⟩ : ∃ calls, fuel = calls + 1 := ⟨fuel - 1, by omega⟩
    exact resolvePath_of_nextName_none hnext
  | some a =>
    obtain ⟨bound, hbound⟩ := Filter.eventually_atTop.mp (resolvePath_eventually hac a)
    exact ⟨bound, fun fuel hfuel st hst n => hbound fuel hfuel st hst n text hnext⟩

end AceShell
