import AceShell.Paths.Elsewhere
import AceShell.Paths.Listing

/-!
# Growing an assign

ADD and PREPEND put a target into the list of an assign. What the assign had before is kept as
text, and the flag that says whether the texts are host paths or AmigaDOS paths is cleared.
-/

namespace AceShell

open Text Graph Relation List Option

section Model

variable (z : Zlib) (host : Host)

/-- The entry `find_assign` finds. -/
def Session.assignNamed (session : Session) (name : Name) : Option Assign :=
  (session.findAssign name).bind session.entryAt

/-- The host directory that an AmigaDOS path names, within `m` nested resolutions. -/
def directoryOf (m : ℕ) (st : PathState) (text : Name) : Option Name :=
  match resolvePath z host pathMax m st text with
  | some (.ok path, _) => some path
  | _ => none

def Assign.directoryFor (m : ℕ) (st : PathState) (entry : Assign) (target : Name) : Option Name :=
  if entry.hostBacked then (if target.length < pathMax then some target else none)
  else directoryOf z host m st target

def Assign.searchedDirectories (m : ℕ) (st : PathState) (entry : Assign) : List (Option Name) :=
  entry.searched.map (entry.directoryFor z host m st)

/-- The list of directories searched for the assign has grown by `path`, and is otherwise what it
was. -/
def Grows (m : ℕ) (st st' : PathState) (name : Name) (atFront : Bool) (path : Name) : Prop :=
  ∃ entry entry', st.session.assignNamed name = some entry ∧
    st'.session.assignNamed name = some entry' ∧
    entry'.searchedDirectories z host m st' =
      if atFront then some path :: entry.searchedDirectories z host m st
      else entry.searchedDirectories z host m st ++ [some path]

/-- No text of the entry, nor `target`, leads back to the assign. -/
def Assign.Apart (session : Session) (entry : Assign) (target : Name) : Prop :=
  ∀ text ∈ target :: entry.targets, Avoids session (entry.name.map toLower) text

/-- In the session as it is, the texts of the entry stand for the same directories when they are
read as AmigaDOS paths, and `target` stands for `path`. The texts of a late assign are not in its
list. -/
structure Assign.KeepsMeaning (m : ℕ) (st : PathState) (entry : Assign) (target path : Name) :
    Prop where
  listed : entry.targets ≠ []
  texts : entry.hostBacked = true → ∀ text ∈ entry.targets,
    directoryOf z host m st text = entry.directoryFor z host m st text
  added : directoryOf z host m st target = some path

end Model

variable {z : Zlib} {host : Host} {m n fuel index : ℕ} {st st' : PathState} {entry : Assign}

/-! ## What is searched -/

theorem directoryOf_eq {R : PathState → PathState → Prop} {text : Name}
    (h : EndAlike R (resolvePath z host pathMax m st text)
      (resolvePath z host pathMax m st' text)) :
    directoryOf z host m st text = directoryOf z host m st' text := by
  unfold directoryOf
  generalize resolvePath z host pathMax m st text = a at *
  generalize resolvePath z host pathMax m st' text = b at *
  cases h with
  | none => rfl
  | @some x y hboth =>
  obtain ⟨r, s⟩ := x
  obtain ⟨r', s'⟩ := y
  obtain rfl : r = r' := hboth.1
  cases r <;> rfl

theorem directoryOf_of_resolves {text path : Name}
    (h : (resolvePath z host pathMax m st text).map Prod.fst = some (.ok path)) :
    directoryOf z host m st text = some path := by
  obtain ⟨⟨result, st₁⟩, hresult, rfl⟩ := map_eq_some_iff.mp h
  unfold directoryOf
  rw [hresult]

theorem directoryOf_settled (h : st.settled host = st'.settled host) (text : Name) :
    directoryOf z host m st text = directoryOf z host m st' text :=
  directoryOf_eq ((simulation_settled z host _).resolvePath pathMax m st st' text ⟨h, rfl⟩
    fun _ _ => trivial)

/-! ## What the request does -/

theorem nameFromHost_settled (h : st.settled host = st'.settled host) (path : Name) (n : ℕ) :
    nameFromHostWithMappings z host st.cat path n =
      nameFromHostWithMappings z host st'.cat path n := by
  refine eq_of_remount h (f := fun cat => nameFromHostWithMappings z host cat path n) ?_
  intro g cat hg
  unfold nameFromHostWithMappings
  simp only [nameFromPath_remount hg, volumeRootForPath_remount hg]

theorem settled_of_resolvePath {text : Name} {result : Except Errno Name}
    (h : resolvePath z host n fuel st text = some (result, st')) :
    st'.settled host = st.settled host := by
  have halike := (simulation_settled z host _).resolvePath n fuel st st text ⟨rfl, rfl⟩
    fun _ _ => trivial
  rw [h] at halike
  cases halike with
  | some hboth => exact hboth.2.1

variable {name : Name}

theorem findAssign_of_settled {found : Assign} (h : st'.settled host = st.settled host)
    (hfind : st.session.findAssign name = some index)
    (hfound : st'.session.entryAt index = some found) (hcase : caseEq found.name name = true) :
    st'.session.findAssign name = some index := by
  have hhere (session : Session) (hsome : session.findAssign name ≠ none) :
      (session.settled host).findAssign name = session.findAssign name := by
    rw [findAssign_settled]
    unfold Session.repairClips
    rw [if_neg fun hno => hsome hno.1]
  have hsess : st'.session.settled host = st.session.settled host := congrArg PathState.session h
  rw [← hhere _ (findAssign_ne_none _ (getElem?_of_entryAt hfound) hcase), hsess,
    hhere _ (by rw [hfind]; exact some_ne_none index), hfind]

theorem settled_replaced {old old' new : Assign} (h : st'.settled host = st.settled host)
    (hold' : st'.session.entryAt index = some old') (hold : st.session.entryAt index = some old)
    (hname' : new.name.map toLower = old'.name.map toLower)
    (hname : new.name.map toLower = old.name.map toLower) :
    (st'.replaced index new).settled host = (st.replaced index new).settled host := by
  unfold PathState.settled PathState.replaced
  have hsess : st'.session.settled host = st.session.settled host := congrArg PathState.session h
  have hcat : st'.cat.settled host = st.cat.settled host := congrArg PathState.cat h
  rw [settled_setSlot hold' hname', settled_setSlot hold hname, hsess, hcat]

/-- ADD and PREPEND find the directory of the new target and its name, and change one entry. What
else has changed is only what any resolution would do. -/
theorem handleAddItem_spec {errno : Option Errno} {request : AssignRequest}
    (h : handleAddItem z host fuel errno request name st = some (none, st')) :
    ∃ index entry path target, st.session.findAssign name = some index ∧
      st.session.entryAt index = some entry ∧
      (resolvePath z host pathMax fuel st request.value).map Prod.fst = some (.ok path) ∧
      nameFromHostWithMappings z host st.cat path pathMax = .ok target ∧
      st'.session.assignNamed name = some (entry.addTarget (request.has assignPrepend) target) ∧
      st'.settled host =
        (st.replaced index (entry.addTarget (request.has assignPrepend) target)).settled host := by
  unfold handleAddItem at h
  cases hfind : st.session.findAssign name with
  | none =>
    rw [hfind] at h
    cases h
  | some index =>
  rw [hfind] at h
  dsimp only at h
  split_ifs at h
  · cases h
  obtain ⟨entry, hent, hcase⟩ := entry_of_findAssign hfind
  unfold withTarget at h
  rcases hcanon : canonicalAssignTarget z host fuel st request.value pathMax with
    - | ⟨e | target, st₁⟩ <;> rw [hcanon] at h
  · exact nomatch h
  · cases h
  simp only [some.injEq, Prod.mk.injEq, true_and] at h
  obtain ⟨_, hres, hnamed⟩ := canonicalAssignTarget_resolves hcanon
  obtain ⟨path, rfl, hname⟩ := hnamed target rfl
  have hkept := settled_of_resolvePath hres
  obtain ⟨type, hentry₁⟩ := (resolvePath_narrows fuel pathMax hres).entries index entry hent
  have hupdate : PathState.mk (st₁.session.updateEntry index
        (some ∘ Assign.addTarget (request.has assignPrepend) target)) st₁.cat =
      st₁.replaced index (entry.addTarget (request.has assignPrepend) target) := by
    unfold Session.updateEntry
    rw [hentry₁]
    rfl
  refine ⟨index, entry, path, target, rfl, hent, ?_, ?_, ?_, ?_⟩
  · rw [hres]
    rfl
  · rw [← hname]
    exact (nameFromHost_settled hkept path pathMax).symm
  · rw [← h, hupdate]
    have hsame : (st₁.replaced index
          (entry.addTarget (request.has assignPrepend) target)).session.findAssign name =
        st₁.session.findAssign name := by
      refine findAssign_setSlot hentry₁ ?_ name
      rfl
    unfold Session.assignNamed
    rw [hsame, findAssign_of_settled hkept hfind hentry₁ hcase]
    exact entryAt_setSlot_same _ (getElem?_of_entryAt hentry₁)
  · rw [← h, hupdate]
    exact settled_replaced hkept hentry₁ hent rfl rfl

/-! ## What becomes of the list -/

theorem searched_addTarget (entry : Assign) (atFront : Bool) (target : Name) :
    (entry.addTarget atFront target).searched =
      if atFront then target :: entry.targets else entry.targets ++ [target] := by
  cases atFront with
  | true => exact if_neg (cons_ne_nil _ _)
  | false => exact if_neg (append_ne_nil_of_right_ne_nil _ (cons_ne_nil _ _))

/-- The texts of the assign are read as in the session before, for none leads through it. -/
theorem searchedDirectories_addTarget {target : Name} (atFront : Bool)
    (hent : st.session.entryAt index = some entry)
    (hst : st'.settled host = (st.replaced index (entry.addTarget atFront target)).settled host)
    (hapart : entry.Apart st.session target) :
    (entry.addTarget atFront target).searchedDirectories z host m st' =
      if atFront then directoryOf z host m st target :: entry.targets.map (directoryOf z host m st)
      else entry.targets.map (directoryOf z host m st) ++ [directoryOf z host m st target] := by
  have hall : ∀ text ∈ (entry.addTarget atFront target).searched,
      (entry.addTarget atFront target).directoryFor z host m st' text =
        directoryOf z host m st text := by
    intro text htext
    have hmem : text ∈ target :: entry.targets := by
      rw [searched_addTarget] at htext
      cases atFront with
      | true => exact htext
      | false => exact mem_cons.mpr ((mem_append.mp htext).symm.imp_left mem_singleton.mp)
    have hsame := (simulation_replaced z host index (entry.addTarget atFront target)).resolvePath
      pathMax m st _ text ⟨⟨entry, hent, rfl⟩, rfl⟩ (hapart text hmem)
    exact (directoryOf_settled hst text).trans (directoryOf_eq hsame).symm
  unfold Assign.searchedDirectories
  rw [map_congr_left hall, searched_addTarget]
  cases atFront with
  | true => rfl
  | false => exact map_append

theorem keepsMeaning_iff {target path : Name} (hlisted : entry.targets ≠ []) :
    entry.KeepsMeaning z host m st target path ↔
      entry.targets.map (directoryOf z host m st) =
        entry.targets.map (entry.directoryFor z host m st) ∧
      directoryOf z host m st target = some path := by
  have htexts : (entry.hostBacked = true → ∀ text ∈ entry.targets,
        directoryOf z host m st text = entry.directoryFor z host m st text) ↔
      entry.targets.map (directoryOf z host m st) =
        entry.targets.map (entry.directoryFor z host m st) := by
    rw [map_inj_left]
    cases hbacked : entry.hostBacked with
    | true => exact ⟨fun h => h rfl, fun h _ => h⟩
    | false =>
      refine iff_of_true nofun fun text _ => ?_
      unfold Assign.directoryFor
      rw [hbacked]
      rfl
  rw [← htexts]
  exact ⟨fun h => ⟨h.texts, h.added⟩, fun h => ⟨hlisted, h.1, h.2⟩⟩

theorem grows_iff {target path : Name} (atFront : Bool)
    (hent : st.session.entryAt index = some entry)
    (hst : st'.settled host = (st.replaced index (entry.addTarget atFront target)).settled host)
    (hapart : entry.Apart st.session target) :
    ((entry.addTarget atFront target).searchedDirectories z host m st' =
      if atFront then some path :: entry.searchedDirectories z host m st
      else entry.searchedDirectories z host m st ++ [some path]) ↔
    entry.KeepsMeaning z host m st target path := by
  rw [searchedDirectories_addTarget atFront hent hst hapart]
  by_cases hlisted : entry.targets = []
  · -- The text of a late assign is not in the list, and is lost.
    refine iff_of_false ?_ fun hno => hno.listed hlisted
    intro heq
    have hlength := congrArg length heq
    unfold Assign.searchedDirectories Assign.searched at hlength
    rw [hlisted] at hlength
    cases atFront <;> simp at hlength
  have hbefore : entry.searchedDirectories z host m st =
      entry.targets.map (entry.directoryFor z host m st) := by
    unfold Assign.searchedDirectories Assign.searched
    rw [if_neg hlisted]
  rw [keepsMeaning_iff hlisted, hbefore]
  cases atFront with
  | true =>
    rw [if_pos rfl, if_pos rfl, cons.injEq]
    exact and_comm
  | false =>
  constructor
  · intro heq
    obtain ⟨hold, hnew⟩ := append_inj heq (by rw [length_map, length_map])
    exact ⟨hold, (cons.inj hnew).1⟩
  · rintro ⟨hold, hnew⟩
    rw [hold, hnew]

/-- A text leads nowhere if what it names is no assign. -/
theorem avoids_of_unnamed {session : Session} {a text : Name}
    (h : ∀ b, nextName text = some b →
      b ≠ a ∧ ∀ entry, some entry ∈ session.assigns → entry.name.map toLower ≠ b) :
    Avoids session a text := by
  intro b hnext hreach
  obtain ⟨hne, hunnamed⟩ := h b hnext
  rcases hreach.cases_head with heq | ⟨c, ⟨entry, hmem, hname, -⟩, -⟩
  · exact hne heq
  · exact hunnamed entry hmem hname

/-- `ASSIGN C: sda2:b ADD`. -/
def addToBoot : AssignRequest := ⟨ascii "C:", ascii "sda2:b", assignAdd⟩

def oneDiskHome : PathState :=
  ⟨(Session.cleared (ascii "/home/u")).seedBootAssigns oneDisk (ascii "/sys") (ascii "/run"),
    discoverMounts oneDisk oneDiskBlocks⟩

end AceShell
