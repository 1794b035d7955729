import AceShell.Lib.SlotTable
import AceShell.Paths.Mending
import AceShell.Paths.Termination

/-!
# LISTASSIGNS against the search of an assign

An assign is kept twice: `LISTASSIGNS` prints its root and the targets after the first, and
`resolve_assign_target` searches the targets, or the root if there are none. The two agree while
the root is the first target (`Assign.Agrees`). Every change to an entry keeps it so, except that
REMOVE_ITEM leaves the root alone when it takes out the first of several targets
(`listing_shows_removed`).
-/

namespace AceShell

open Text SlotTable List Option

variable {z : Zlib} {host : Host} {st st' : PathState} {session : Session}

/-! ## LISTASSIGNS -/

def AssignType.code : AssignType → ℕ
  | .unset => 0
  | .directory => 1
  | .late => 3
  | .nonbinding => 4

def assignLine (name : Name) (type : AssignType) (directory : Name) : Name :=
  name ++ 9 :: UInt8.ofNat (48 + type.code) :: 9 :: directory ++ [10]

/-- The root as it is printed: a host path is given its AmigaDOS name, if it has one. -/
def Assign.serializedRoot (z : Zlib) (host : Host) (cat : Catalog) (entry : Assign) : Option Name :=
  if entry.hostBacked then (nameFromHostWithMappings z host cat entry.root pathMax).toOption
  else some entry.root

def appendListing (result line : Name) : Option Name :=
  if maxListResult ≤ result.length + line.length then none else some (result ++ line)

def listTargets (name : Name) : List Name → Option Errno × Name → Option Errno × Name
  | [], reply => reply
  | target :: rest, (status, result) =>
    match appendListing result (assignLine name .directory target) with
    | none => (some .enospc, result)
    | some result => listTargets name rest (status, result)

/-- The outer loop of `AMIGA_BROKER_LISTASSIGNS`. A root that does not fit ends it; a target ends
the inner loop only. -/
def listAssigns (z : Zlib) (host : Host) (cat : Catalog) :
    List (Option Assign) → Option Errno × Name → Option Errno × Name
  | [], reply => reply
  | none :: slots, reply => listAssigns z host cat slots reply
  | some entry :: slots, (status, result) =>
    match entry.serializedRoot z host cat with
    | none => listAssigns z host cat slots (status, result)
    | some root =>
      match appendListing result (assignLine entry.name entry.type root) with
      | none => (some .enospc, result)
      | some result =>
        listAssigns z host cat slots
          (listTargets entry.name (entry.targets.drop 1) (status, result))

/-- The directories printed for an entry, or `none` when it is passed over. -/
def Assign.directories (z : Zlib) (host : Host) (cat : Catalog) (entry : Assign) :
    Option (List Name) :=
  (entry.serializedRoot z host cat).map (· :: entry.targets.drop 1)

/-- The lines printed for an entry. -/
def Assign.lines (z : Zlib) (host : Host) (cat : Catalog) (entry : Assign) : List Name :=
  match entry.directories z host cat with
  | some (root :: rest) =>
    assignLine entry.name entry.type root :: rest.map (assignLine entry.name .directory)
  | _ => []

theorem appendListing_eq_some {result line result' : Name}
    (h : appendListing result line = some result') : result' = result ++ line := by
  unfold appendListing at h
  split_ifs at h
  exact (some.inj h).symm

variable {name : Name} {reply : Option Errno × Name}

theorem listTargets_ok {targets : List Name} (h : (listTargets name targets reply).1 = none) :
    reply.1 = none ∧ (listTargets name targets reply).2 =
      reply.2 ++ (targets.map (assignLine name .directory)).flatten := by
  induction targets generalizing reply with
  | nil => exact ⟨h, by simp [listTargets]⟩
  | cons target rest ih =>
  obtain ⟨status, result⟩ := reply
  unfold listTargets at h ⊢
  cases happ : appendListing result (assignLine name .directory target) with
  | none => simp [happ] at h
  | some result' =>
  simp only [happ] at h ⊢
  obtain ⟨hstat, htext⟩ := ih h
  refine ⟨hstat, ?_⟩
  rw [htext, appendListing_eq_some happ]
  simp

theorem listAssigns_ok {cat : Catalog} {slots : List (Option Assign)}
    (h : (listAssigns z host cat slots reply).1 = none) :
    reply.1 = none ∧ (listAssigns z host cat slots reply).2 =
      reply.2 ++ ((live slots).flatMap (Assign.lines z host cat)).flatten := by
  induction slots generalizing reply with
  | nil => exact ⟨h, by simp [listAssigns, live]⟩
  | cons slot slots ih =>
  obtain ⟨status, result⟩ := reply
  cases slot with
  | none => exact ih h
  | some entry =>
  have hlive : live (some entry :: slots) = entry :: live slots := reduceOption_cons_of_some _ _
  unfold listAssigns at h ⊢
  cases hroot : entry.serializedRoot z host cat with
  | none =>
    simp only [hroot] at h ⊢
    obtain ⟨hstat, htext⟩ := ih h
    refine ⟨hstat, ?_⟩
    rw [htext, hlive]
    simp [Assign.lines, Assign.directories, hroot]
  | some root =>
  simp only [hroot] at h ⊢
  cases happ : appendListing result (assignLine entry.name entry.type root) with
  | none => simp [happ] at h
  | some result' =>
  simp only [happ] at h ⊢
  obtain ⟨hstat, htext⟩ := ih h
  obtain ⟨hstat, htgts⟩ := listTargets_ok hstat
  refine ⟨hstat, ?_⟩
  rw [htext, htgts, appendListing_eq_some happ, hlive]
  simp [Assign.lines, Assign.directories, hroot]

/-! ## What is searched -/

def Assign.searched (entry : Assign) : List Name :=
  if entry.targets = [] then [entry.root] else entry.targets

/-- The two copies of an assign agree. An entry that holds a host path has just that target. -/
structure Assign.Agrees (entry : Assign) : Prop where
  first : ∀ target rest, entry.targets = target :: rest → entry.root = target
  hostBacked : entry.hostBacked = true → entry.targets = [entry.root]

variable {entry : Assign}

theorem Assign.Agrees.head_searched (h : entry.Agrees) :
    entry.searched.head? = some entry.root := by
  unfold searched
  cases htgts : entry.targets with
  | nil => rfl
  | cons target rest =>
    rw [if_neg (cons_ne_nil _ _), h.first target rest htgts, head?_cons]

theorem Assign.Agrees.root_cons (h : entry.Agrees) :
    entry.root :: entry.targets.drop 1 = entry.searched := by
  unfold searched
  cases htgts : entry.targets with
  | nil => rfl
  | cons target rest => rw [if_neg (cons_ne_nil _ _), h.first target rest htgts]; rfl

/-! ## Changes to an entry -/

theorem agrees_fresh (name : Name) : (Assign.fresh name).Agrees := ⟨nofun, nofun⟩

theorem agrees_hostPath (name path : Name) : Assign.Agrees ⟨name, path, [path], .directory, true⟩ :=
  ⟨fun _ _ h => (cons.inj h).1, fun _ => rfl⟩

theorem Assign.Agrees.withType (h : entry.Agrees) (type : AssignType) :
    Assign.Agrees { entry with type := type } := ⟨h.first, h.hostBacked⟩

theorem agrees_storeText (type : AssignType) (value : Name) (entry : Assign) :
    (entry.storeText type value).Agrees :=
  ⟨nofun, nofun⟩

theorem agrees_storeDirectory (logical : Name) (entry : Assign) :
    (entry.storeDirectory logical).Agrees :=
  ⟨fun _ _ h => (cons.inj h).1, nofun⟩

theorem agrees_addTarget (atFront : Bool) (target : Name) (entry : Assign) :
    (entry.addTarget atFront target).Agrees := by
  refine ⟨fun first rest h => ?_, nofun⟩
  unfold Assign.addTarget at h ⊢
  simp only at h ⊢
  rw [h]
  rfl

variable {entry' : Assign}

theorem Assign.Agrees.removeTarget (h : entry.Agrees) {target : Name}
    (hkeep : ∀ first second rest, entry.targets = first :: second :: rest →
      caseEq first target = false) (hrem : entry.removeTarget target = some entry')
    : entry'.Agrees := by
  unfold Assign.removeTarget at hrem
  simp only at hrem
  split_ifs at hrem with hempty
  obtain rfl := some.inj hrem
  cases htgts : entry.targets with
  | nil => simp [htgts] at hempty
  | cons first rest =>
  have hfst : caseEq first target = false := by
    cases rest with
    | nil =>
      by_contra hsame
      simp [htgts, Bool.not_eq_false _ ▸ hsame] at hempty
    | cons second rest => exact hkeep first second rest htgts
  have herase : (first :: rest).eraseP (caseEq · target) =
      first :: rest.eraseP (caseEq · target) :=
    eraseP_cons_of_neg (by simp [hfst])
  refine ⟨fun t ts hts => ?_, fun hbacked => ?_⟩
  · rw [← (cons.inj (herase.symm.trans hts)).1]
    exact h.first first rest htgts
  have hone := h.hostBacked hbacked
  rw [htgts] at hone
  obtain ⟨hroot, rfl⟩ := cons.inj hone
  exact herase.trans (congrArg (· :: []) hroot)

/-! ## Changes to a session -/

def Session.Agrees (session : Session) : Prop := ∀ entry ∈ live session.assigns, entry.Agrees

section Kept

variable (h : session.Agrees)
include h

theorem Session.Agrees.setSlot (index : ℕ) {slot : Option Assign}
    (hslot : ∀ entry, slot = some entry → entry.Agrees) : (session.setSlot index slot).Agrees := by
  intro entry hent
  rcases mem_or_eq_of_mem_set (mem_live.mp hent) with hold | hnew
  · exact h entry (mem_live.mpr hold)
  · exact hslot entry hnew.symm

variable {index : ℕ}

theorem Session.Agrees.entryAt (hent : session.entryAt index = some entry) : entry.Agrees :=
  h entry (mem_live.mpr (mem_assigns_of_entryAt hent))

variable {session' : Session}

theorem Session.Agrees.mended (hmended : Mended host session session') : session'.Agrees := by
  intro entry' hent'
  obtain ⟨index, hlt, hslot'⟩ := mem_iff_getElem.mp (mem_live.mp hent')
  have hlt₀ : index < session.assigns.length := hmended.length ▸ hlt
  obtain ⟨slot', hget, hslot⟩ := hmended.slots index _ (getElem?_eq_getElem hlt₀)
  obtain rfl : slot' = some entry' := by
    rw [getElem?_eq_getElem hlt, hslot'] at hget
    exact (some.inj hget).symm
  generalize hold : session.assigns[index] = slot at hslot
  have hmem : slot ∈ session.assigns := hold ▸ getElem_mem hlt₀
  cases hslot with
  | same => exact h entry' (mem_live.mpr hmem)
  | bound entry hlate => exact (h entry (mem_live.mpr hmem)).withType _
  | repaired _ hent =>
    rcases hent with ⟨-, rfl⟩ | rfl
    · exact agrees_fresh _
    · exact agrees_hostPath _ _

theorem Session.Agrees.allocateAssign (hal : session.allocateAssign name = some (index, session')) :
    session'.Agrees := by
  rcases allocateAssign_eq hal with ⟨-, rfl⟩ | ⟨-, -, rfl⟩
  · exact h
  · exact h.setSlot index fun entry heq => some.inj heq ▸ agrees_fresh name

theorem Session.Agrees.setDirectoryAssign (name path : Name) :
    (session.setDirectoryAssign host name path).Agrees := by
  rcases setDirectoryAssign_eq host session name path with
    heq | ⟨index, slot, entry, -, heq, -, hent⟩
  · rwa [heq]
  rw [heq]
  refine h.setSlot index fun e he => some.inj he ▸ ?_
  rcases hent with ⟨-, -, rfl⟩ | rfl
  · exact agrees_fresh name
  · exact agrees_hostPath _ path

theorem Session.Agrees.updateEntry (index : ℕ) {f : Assign → Option Assign}
    (hf : ∀ entry, session.entryAt index = some entry → ∀ entry', f entry = some entry' →
      entry'.Agrees) : (session.updateEntry index f).Agrees := by
  unfold Session.updateEntry
  cases hent : session.entryAt index with
  | none => exact h
  | some entry => exact h.setSlot index (hf entry hent)

end Kept

theorem agrees_boot (cwd systemRoot volatilePath : Name) :
    ((Session.cleared cwd).seedBootAssigns host systemRoot volatilePath).Agrees := by
  refine seedBootAssigns_rule (fun session name path h => h.setDirectoryAssign name path)
    systemRoot volatilePath ?_
  intro entry hent
  have := eq_of_mem_replicate (mem_live.mp hent)
  simp at this

/-! ## Requests -/

def AssignRequest.KeepsFirst (z : Zlib) (host : Host) (request : AssignRequest) (st : PathState) :
    Prop :=
  request.has assignRemoveItem = true → ∀ name, request.assignName = some name →
    ∀ fuel target st', canonicalAssignTarget z host fuel st request.value pathMax =
      some (.ok target, st') →
    ∀ first second rest, st.session.targetsOf name = first :: second :: rest →
      caseEq first target = false

theorem Mended.targets (h : Mended host session session')
    (hent : session.entryAt index = some entry) (hent' : session'.entryAt index = some entry')
    : entry'.targets = entry.targets := by
  obtain ⟨slot', hget, hslot⟩ := h.slots index _ (getElem?_of_entryAt hent)
  obtain rfl := some.inj (hget.symm.trans (getElem?_of_entryAt hent'))
  cases hslot <;> rfl

variable {request : AssignRequest}

theorem Targets.agrees {n : ℕ} {st₀ : PathState} {change : Name → Assign → Option Assign}
    (h : Targets request st name index st₀ n change) (hagrees : st.session.Agrees)
    : st₀.session.Agrees := by
  cases h with
  | removeItem => exact hagrees
  | add => exact hagrees
  | set _ _ hal => exact hagrees.allocateAssign hal

variable {fuel : ℕ}

/-- **ASSIGN keeps the copies in step**, unless it takes out the first of several targets. -/
theorem handleAssign_agrees {errno status : Option Errno} (h : st.session.Agrees)
    (hkeep : request.KeepsFirst z host st)
    (hstep : handleAssign z host fuel errno request st = some (status, st')) :
    st'.session.Agrees := by
  cases handleAssign_step hstep with
  | unchanged => exact h
  | @removed _ index _ _ => exact h.setSlot index nofun
  | tooLong hname hcreates hal => exact h.allocateAssign hal
  | @stored _ index _ type hname hcreates htext hal =>
    refine (h.allocateAssign hal).updateEntry index fun entry _ entry' hstore => ?_
    exact some.inj hstore ▸ agrees_storeText _ _ entry
  | refused hname htgts hcanon =>
    exact (htgts.agrees h).mended (canonicalAssignTarget_mended hcanon)
  | @changed name target index _ _ _ _ hname htgts hcanon =>
  have hmended := canonicalAssignTarget_mended hcanon
  have hagrees := (htgts.agrees h).mended hmended
  refine hagrees.updateEntry index fun entry hent entry' hchange => ?_
  cases htgts with
  | removeItem hitem hfind =>
    obtain ⟨old, hold, -⟩ := entry_of_findAssign hfind
    refine (hagrees.entryAt hent).removeTarget (fun first second rest heq => ?_) hchange
    refine hkeep hitem name hname fuel target _ hcanon first second rest ?_
    rw [← heq, hmended.targets hold hent]
    unfold Session.targetsOf
    rw [hfind, bind_some, hold]
    rfl
  | add => exact some.inj hchange ▸ agrees_addTarget _ target entry
  | set => exact some.inj hchange ▸ agrees_storeDirectory target entry

/-! ## Runs -/

/-- The states a session reaches by successful ASSIGN requests that meet `ok`; the file system, the
current directory and the devices may change in between. -/
inductive Assigned (z : Zlib) (ok : Host → AssignRequest → PathState → Prop) : PathState → Prop
  | start (host : Host) (cwd systemRoot volatilePath : Name) (cat : Catalog) :
      Assigned z ok ⟨(Session.cleared cwd).seedBootAssigns host systemRoot volatilePath, cat⟩
  | assign {st st' : PathState} (host : Host) {fuel : ℕ} {errno : Option Errno}
      {request : AssignRequest} (hst : Assigned z ok st) (hok : ok host request st)
      (hstep : handleAssign z host fuel errno request st = some (none, st')) : Assigned z ok st'
  | move {st : PathState} (cwd : Name) (cat : Catalog) (hst : Assigned z ok st) :
      Assigned z ok ⟨{ st.session with cwd := cwd }, cat⟩

theorem agrees_of_assigned (h : Assigned z (fun host request => request.KeepsFirst z host) st) :
    st.session.Agrees := by
  induction h with
  | start host cwd systemRoot volatilePath cat => exact agrees_boot cwd systemRoot volatilePath
  | assign host hst hok hstep ih => exact handleAssign_agrees ih hok hstep
  | move cwd cat hst ih => exact ih

/-- A searched target as LISTASSIGNS spells it: a host path is given its AmigaDOS name, if it has
one. -/
def Assign.spelling (z : Zlib) (host : Host) (cat : Catalog) (entry : Assign) (target : Name) :
    Option Name :=
  if entry.hostBacked then (nameFromHostWithMappings z host cat target pathMax).toOption
  else some target

theorem Assign.Agrees.directories_eq (h : entry.Agrees) (cat : Catalog) :
    entry.directories z host cat = entry.searched.mapM (entry.spelling z host cat) := by
  have hcons := h.root_cons
  unfold directories serializedRoot
  by_cases hbacked : entry.hostBacked = true
  · have htargets := h.hostBacked hbacked
    have hsearched : entry.searched = [entry.root] := by
      rw [← hcons, htargets]
      rfl
    rw [hsearched, htargets]
    cases hname : (nameFromHostWithMappings z host cat entry.root pathMax).toOption <;>
      simp [spelling, hbacked, hname]
  have hspell : entry.spelling z host cat = some := by
    funext target
    exact if_neg hbacked
  have hall : (entry.root :: entry.targets.drop 1).mapM some =
      some (entry.root :: entry.targets.drop 1) :=
    (mapM_pure (f := id)).trans (congrArg some (map_id _))
  rw [if_neg hbacked, hspell, ← hcons, hall]
  rfl

/-- **LISTASSIGNS prints what is searched.** In every state reached by successful ASSIGN requests
none of which takes out the first of several targets, the root of each assign is the first target
searched, the directories printed for it are those searched, in order, and a listing that succeeds
consists of the lines of all assigns. -/
theorem listing_matches_search (z : Zlib) {st : PathState}
    (hst : Assigned z (fun host request => request.KeepsFirst z host) st) (host : Host) :
    (∀ entry ∈ live st.session.assigns,
      entry.searched.head? = some entry.root ∧
        entry.directories z host st.cat = entry.searched.mapM (entry.spelling z host st.cat)) ∧
      ((listAssigns z host st.cat st.session.assigns (none, [])).1 = none →
        (listAssigns z host st.cat st.session.assigns (none, [])).2 =
          ((live st.session.assigns).flatMap (Assign.lines z host st.cat)).flatten) := by
  refine ⟨fun entry hentry => ?_, fun hok => ?_⟩
  · have hagrees := agrees_of_assigned hst entry hentry
    exact ⟨hagrees.head_searched, hagrees.directories_eq st.cat⟩
  · rw [(listAssigns_ok hok).2, nil_append]

def assignAll (z : Zlib) (host : Host) (fuel : ℕ) :
    List AssignRequest → PathState → Option PathState
  | [], st => some st
  | request :: requests, st =>
    match handleAssign z host fuel none request st with
    | some (none, st) => assignAll z host fuel requests st
    | _ => none

theorem assigned_of_assignAll {ok : Host → AssignRequest → PathState → Prop}
    {requests : List AssignRequest} (hok : ∀ request ∈ requests, ∀ st, ok host request st)
    (hst : Assigned z ok st) (h : assignAll z host fuel requests st = some st') :
    Assigned z ok st' := by
  induction requests generalizing st with
  | nil => exact some.inj h ▸ hst
  | cons request requests ih =>
  unfold assignAll at h
  split at h
  · next st₁ hstep =>
    refine ih (fun r hr => hok r (mem_cons_of_mem _ hr)) ?_ h
    exact .assign host hst (hok request mem_cons_self st) hstep
  · simp at h

def oneDiskBoot : PathState :=
  ⟨(Session.cleared rootPath).seedBootAssigns oneDisk (ascii "/sys") (ascii "/run"),
    discoverMounts oneDisk oneDiskBlocks⟩

def assignTwo : List AssignRequest :=
  [⟨ascii "Work:", ascii "sda2:a", 0⟩, ⟨ascii "Work:", ascii "sda2:b", assignAdd⟩]

/-- An assign to two directories lists both. -/
theorem listing_matches_search_two :
    ∃ st, assignAll storedZlib oneDisk 5 assignTwo oneDiskBoot = some st ∧
      ∃ entry ∈ live st.session.assigns, entry.searched = [ascii "sda2:a", ascii "sda2:b"] ∧
        entry.directories storedZlib oneDisk st.cat =
          entry.searched.mapM (entry.spelling storedZlib oneDisk st.cat) := by
  have hentry : (assignAll storedZlib oneDisk 5 assignTwo oneDiskBoot).map
      (fun st => st.session.entryAt 10) =
        some (some ⟨ascii "Work", ascii "sda2:a", [ascii "sda2:a", ascii "sda2:b"], .directory,
          false⟩) := by
    decide +kernel
  obtain ⟨st, hrun, hentry⟩ := map_eq_some_iff.mp hentry
  have hlive := mem_live.mpr (mem_assigns_of_entryAt hentry)
  have hkeeps : ∀ request ∈ assignTwo, ∀ st, request.KeepsFirst storedZlib oneDisk st := by
    intro request hrequest st hitem
    have hno : ∀ request ∈ assignTwo, request.has assignRemoveItem = false := by decide +kernel
    rw [hno request hrequest] at hitem
    simp at hitem
  have hst : Assigned storedZlib (fun host request => request.KeepsFirst storedZlib host) st :=
    assigned_of_assignAll hkeeps (.start oneDisk _ _ _ _) hrun
  exact ⟨st, hrun, _, hlive, rfl, ((listing_matches_search storedZlib hst oneDisk).1 _ hlive).2⟩

/-- Taking `sda2:a` out again leaves it listed, though only `sda2:b` is searched. -/
theorem listing_shows_removed :
    ∃ st, Assigned storedZlib (fun _ _ _ => True) st ∧
      ∃ entry ∈ live st.session.assigns, entry.type = .directory ∧ entry.root = ascii "sda2:a" ∧
        entry.searched = [ascii "sda2:b"] ∧
        entry.directories storedZlib oneDisk st.cat = some [ascii "sda2:a"] := by
  have hentry : (assignAll storedZlib oneDisk 5
      (assignTwo ++ [⟨ascii "Work:", ascii "sda2:a", assignRemoveItem⟩]) oneDiskBoot).map
      (fun st => st.session.entryAt 10) =
        some (some ⟨ascii "Work", ascii "sda2:a", [ascii "sda2:b"], .directory, false⟩) := by
    decide +kernel
  obtain ⟨st, hrun, hentry⟩ := map_eq_some_iff.mp hentry
  have hlive := mem_live.mpr (mem_assigns_of_entryAt hentry)
  have hst : Assigned storedZlib (fun _ _ _ => True) st :=
    assigned_of_assignAll (fun _ _ _ => trivial) (.start oneDisk _ _ _ _) hrun
  exact ⟨st, hst, _, hlive, rfl, rfl, rfl, rfl⟩

end AceShell
