import AceShell.Paths.Volume

/-!
# ASSIGN requests

How a session gets its first assigns and how the ASSIGN request of `handle_client` changes them.
Apart from the boot assigns, which hold host paths, an assign holds AmigaDOS texts: the canonical
name of a directory, or with PATH and DEFER whatever text the client sent.
-/

namespace AceShell

open Text Option

variable (z : Zlib) (host : Host)

/-! ## Boot assigns -/

def Session.cleared (cwd : Name) : Session := ⟨cwd, List.replicate maxAssigns none⟩

/-- `add_boot_assign`. -/
def Session.addBootAssign (systemRoot : Name) (session : Session) (name drawer : Name) : Session :=
  let path := systemRoot ++ slash :: drawer
  if path.length < pathMax ∧ host.isDirectory path = true then
    session.setDirectoryAssign host name path
  else session.setDirectoryAssign host name systemRoot

/-- A boot assign whose drawer is made when it is not there; `host` is the system after that. -/
def Session.addMadeAssign (root : Name) (session : Session) (name drawer : Name) : Session :=
  let path := root ++ slash :: drawer
  if path.length < pathMax then session.setDirectoryAssign host name path else session

/-- `seed_boot_assigns`. -/
def Session.seedBootAssigns (systemRoot volatilePath : Name) (session : Session) : Session :=
  let session := session.setDirectoryAssign host (ascii "SYS") systemRoot
  let session := session.addBootAssign host systemRoot (ascii "C") (ascii "C")
  let session := session.addBootAssign host systemRoot (ascii "LIBS") (ascii "Libs")
  let session := session.addBootAssign host systemRoot (ascii "DEVS") (ascii "Devs")
  let session := session.addBootAssign host systemRoot (ascii "L") (ascii "L")
  let session := session.addBootAssign host systemRoot (ascii "S") (ascii "S")
  let session := session.addBootAssign host systemRoot (ascii "FONTS") (ascii "Fonts")
  let session := session.addMadeAssign host systemRoot (ascii "ENVARC") (ascii "Prefs/Env-Archive")
  let session := session.addMadeAssign host volatilePath (ascii "ENV") (ascii "env")
  let session := session.addMadeAssign host volatilePath (ascii "T") (ascii "t")
  match host.clipboardRoot with
  | none => session
  | some clipsPath => session.setDirectoryAssign host clipsName clipsPath

/-! ## Requests -/

/-- `AMIGA_BROKER_ASSIGN_REMOVE`. -/
def assignRemove : UInt32 := 0x0001

/-- `AMIGA_BROKER_ASSIGN_ADD`. -/
def assignAdd : UInt32 := 0x0002

/-- `AMIGA_BROKER_ASSIGN_PREPEND`. -/
def assignPrepend : UInt32 := 0x0004

/-- `AMIGA_BROKER_ASSIGN_PATH`. -/
def assignPath : UInt32 := 0x0008

/-- `AMIGA_BROKER_ASSIGN_DEFER`. -/
def assignDefer : UInt32 := 0x0010

def assignRemoveItem : UInt32 := 0x0020

/-- `AMIGA_BROKER_PATH_HOST`. -/
def pathHost : UInt32 := 0x80000000

/-- `MAX_LIST_RESULT`. -/
def maxListResult : ℕ := 16384

structure AssignRequest where
  path : Name
  value : Name
  flags : UInt32
  deriving DecidableEq

/-- Some flag of the mask is set. -/
def AssignRequest.has (request : AssignRequest) (mask : UInt32) : Bool :=
  request.flags &&& mask != 0

def AssignRequest.assignName (request : AssignRequest) : Option Name :=
  let name := if request.path.getLast? = some colon then request.path.dropLast else request.path
  if name = [] ∨ maxName ≤ name.length then none else some name

/-- `canonical_assign_target`. -/
def canonicalAssignTarget (fuel : ℕ) (st : PathState) (value : Name) (hostSize : ℕ) :
    Option (Except Errno Name × PathState) :=
  match resolvePath z host hostSize fuel st value with
  | none => none
  | some (.error e, st) => some (.error e, st)
  | some (.ok path, st) =>
    match host.stat path with
    | .error e => some (.error e, st)
    | .ok information =>
      if information.kind = .directory then
        some (nameFromHostWithMappings z host st.cat path pathMax, st)
      else some (.error .enotdir, st)

theorem canonicalAssignTarget_resolves {z : Zlib} {host : Host} {fuel n : ℕ} {st st' : PathState}
    {value : Name} {r : Except Errno Name}
    (h : canonicalAssignTarget z host fuel st value n = some (r, st')) :
    ∃ result, resolvePath z host n fuel st value = some (result, st') ∧
      ∀ target, r = .ok target → ∃ path, result = .ok path ∧
        nameFromHostWithMappings z host st'.cat path pathMax = .ok target := by
  unfold canonicalAssignTarget at h
  split at h
  · simp at h
  · next hres =>
    cases h
    exact ⟨_, hres, nofun⟩
  rename_i path st₁ hres
  split at h
  · cases h
    exact ⟨_, hres, nofun⟩
  split_ifs at h
  · cases h
    exact ⟨_, hres, fun target hok => ⟨path, rfl, hok⟩⟩
  · cases h
    exact ⟨_, hres, nofun⟩

/-! ## Changes to an entry -/

def Session.updateEntry (session : Session) (index : ℕ) (f : Assign → Option Assign) : Session :=
  match session.entryAt index with
  | none => session
  | some entry => session.setSlot index (f entry)

/-- REMOVE_ITEM: take out the first target of that name. An entry with no target left, or that
never had one, is freed. -/
def Assign.removeTarget (target : Name) (entry : Assign) : Option Assign :=
  let targets := entry.targets.eraseP (caseEq · target)
  if targets = [] then none else some { entry with targets := targets }

/-- ADD and PREPEND. -/
def Assign.addTarget (atFront : Bool) (target : Name) (entry : Assign) : Assign :=
  let targets := if atFront then target :: entry.targets else entry.targets ++ [target]
  { entry with
    targets := targets, root := targets.headD [], type := .directory, hostBacked := false }

/-- PATH and DEFER. -/
def Assign.storeText (type : AssignType) (value : Name) (entry : Assign) : Assign :=
  { entry with targets := [], root := value, type := type, hostBacked := false }

/-- A plain assign to a directory. -/
def Assign.storeDirectory (logical : Name) (entry : Assign) : Assign :=
  { entry with targets := [logical], root := logical, type := .directory, hostBacked := false }

/-! ## The handler -/

abbrev AssignReply := Option Errno × PathState

def withTarget (fuel : ℕ) (st : PathState) (value : Name) (hostSize index : ℕ)
    (change : Name → Assign → Option Assign) : Option AssignReply :=
  match canonicalAssignTarget z host fuel st value hostSize with
  | none => none
  | some (.error e, st) => some (some e, st)
  | some (.ok target, st) =>
    some (none, { st with session := st.session.updateEntry index (change target) })

/-- The REMOVE_ITEM branch. Without an entry the status is what `errno` happens to hold. -/
def handleRemoveItem (fuel : ℕ) (errno : Option Errno) (request : AssignRequest) (name : Name)
    (st : PathState) : Option AssignReply :=
  match st.session.findAssign name with
  | none => some (some (errno.getD .enoent), st)
  | some index => withTarget z host fuel st request.value pathMax index Assign.removeTarget

/-- The ADD and PREPEND branch. -/
def handleAddItem (fuel : ℕ) (errno : Option Errno) (request : AssignRequest) (name : Name)
    (st : PathState) : Option AssignReply :=
  match st.session.findAssign name with
  | none => some (some (errno.getD .enospc), st)
  | some index =>
    if maxAssignTargets ≤ ((st.session.entryAt index).map (·.targets.length)).getD 0 then
      some (some (errno.getD .enospc), st)
    else
      withTarget z host fuel st request.value pathMax index fun target =>
        some ∘ Assign.addTarget (request.has assignPrepend) target

/-- The branch that makes or replaces an assign. A new entry is in its slot before its target is
looked at. -/
def handleSet (fuel : ℕ) (request : AssignRequest) (name : Name) (st : PathState) :
    Option AssignReply :=
  match st.session.allocateAssign name with
  | none => some (some .enospc, st)
  | some (index, session) =>
    let st := { st with session := session }
    if request.has (assignPath ||| assignDefer) then
      if pathMax ≤ request.value.length then some (some .enametoolong, st)
      else
        let type := if request.has assignPath then AssignType.nonbinding else .late
        let session := session.updateEntry index (some ∘ Assign.storeText type request.value)
        some (none, { st with session := session })
    else
      withTarget z host fuel st request.value maxListResult index fun logical =>
        some ∘ Assign.storeDirectory logical

/-- The ASSIGN request of `handle_client`; `errno` is what an earlier call left there. -/
def handleAssign (fuel : ℕ) (errno : Option Errno) (request : AssignRequest) (st : PathState) :
    Option AssignReply :=
  if request.has pathHost then some (some .einval, st)
  else
    match request.assignName with
    | none => some (some .einval, st)
    | some name =>
      if request.has assignRemove then
        match st.session.findAssign name with
        | none => some (none, st)
        | some index => some (none, { st with session := st.session.setSlot index none })
      else if request.has assignRemoveItem then handleRemoveItem z host fuel errno request name st
      else if request.has (assignAdd ||| assignPrepend) then
        handleAddItem z host fuel errno request name st
      else handleSet z host fuel request name st

/-! ## What an answered request has done -/

def AssignRequest.Creates (request : AssignRequest) : Prop :=
  request.has pathHost = false ∧ request.has assignRemove = false ∧
    request.has assignRemoveItem = false ∧ request.has (assignAdd ||| assignPrepend) = false

section Step

variable (z : Zlib) (host : Host) (fuel : ℕ) (request : AssignRequest) (st : PathState)

/-- The request looks for its target in the state `st₀` and then makes a change to the entry in a
slot. -/
inductive Targets (name : Name) :
    ℕ → PathState → ℕ → (Name → Assign → Option Assign) → Prop
  | removeItem {index : ℕ} (hitem : request.has assignRemoveItem = true)
    (hfind : st.session.findAssign name = some index) :
    Targets name index st pathMax Assign.removeTarget
  | add {index : ℕ} (hremove : request.has assignRemove = false)
    (hitem : request.has assignRemoveItem = false)
    (hadd : request.has (assignAdd ||| assignPrepend) = true)
    (hfind : st.session.findAssign name = some index) :
    Targets name index st pathMax fun target =>
      some ∘ Assign.addTarget (request.has assignPrepend) target
  | set {index : ℕ} {session : Session} (hcreates : request.Creates)
    (hplain : request.has (assignPath ||| assignDefer) = false)
    (hal : st.session.allocateAssign name = some (index, session)) :
    Targets name index { st with session := session } maxListResult fun logical =>
      some ∘ Assign.storeDirectory logical

inductive AssignStep : Option Errno → PathState → Prop
  | unchanged {status : Option Errno}
    (hfull : request.Creates → ∀ name, request.assignName = some name →
      st.session.allocateAssign name = none) : AssignStep status st
  | removed {name : Name} {index : ℕ} (hname : request.assignName = some name)
    (hfind : st.session.findAssign name = some index) :
    AssignStep none { st with session := st.session.setSlot index none }
  | tooLong {name : Name} {index : ℕ} {session : Session}
    (hname : request.assignName = some name) (hcreates : request.Creates)
    (hal : st.session.allocateAssign name = some (index, session)) :
    AssignStep (some .enametoolong) { st with session := session }
  | stored {name : Name} {index : ℕ} {session : Session} (type : AssignType)
    (hname : request.assignName = some name) (hcreates : request.Creates)
    (htext : request.has (assignPath ||| assignDefer) = true)
    (hal : st.session.allocateAssign name = some (index, session)) :
    AssignStep none { st with
      session := session.updateEntry index (some ∘ Assign.storeText type request.value) }
  | refused {name : Name} {index n : ℕ} {st₀ st₁ : PathState} {e : Errno}
    {change : Name → Assign → Option Assign} (hname : request.assignName = some name)
    (htargets : Targets request st name index st₀ n change)
    (hcanon : canonicalAssignTarget z host fuel st₀ request.value n = some (.error e, st₁)) :
    AssignStep (some e) st₁
  | changed {name target : Name} {index n : ℕ} {st₀ st₁ : PathState}
    {change : Name → Assign → Option Assign} (hname : request.assignName = some name)
    (htargets : Targets request st name index st₀ n change)
    (hcanon : canonicalAssignTarget z host fuel st₀ request.value n = some (.ok target, st₁)) :
    AssignStep none { st₁ with session := st₁.session.updateEntry index (change target) }

end Step

variable {name : Name}

section Inversion

variable {z : Zlib} {host : Host} {fuel : ℕ} {request : AssignRequest} {st st' : PathState}
  {errno status : Option Errno}

theorem withTarget_step {index n : ℕ} {st₀ : PathState} {change : Name → Assign → Option Assign}
    (hname : request.assignName = some name) (htgts : Targets request st name index st₀ n change)
    (h : withTarget z host fuel st₀ request.value n index change = some (status, st')) :
    AssignStep z host fuel request st status st' := by
  unfold withTarget at h
  rcases hcanon : canonicalAssignTarget z host fuel st₀ request.value n with
    - | ⟨e | target, st₁⟩ <;> rw [hcanon] at h
  · exact nomatch h
  · cases h
    exact .refused hname htgts hcanon
  · cases h
    exact .changed hname htgts hcanon

theorem handleSet_step (hname : request.assignName = some name) (hcreates : request.Creates)
    (h : handleSet z host fuel request name st = some (status, st')) :
    AssignStep z host fuel request st status st' := by
  unfold handleSet at h
  cases hal : st.session.allocateAssign name with
  | none =>
    rw [hal] at h
    cases h
    refine .unchanged fun _ other hother => ?_
    rwa [← some.inj (hname.symm.trans hother)]
  | some slot =>
  rw [hal] at h
  dsimp only at h
  by_cases htext : request.has (assignPath ||| assignDefer) = true
  · rw [if_pos htext] at h
    by_cases hlong : pathMax ≤ request.value.length
    · rw [if_pos hlong] at h
      cases h
      exact .tooLong hname hcreates hal
    · rw [if_neg hlong] at h
      cases h
      exact .stored _ hname hcreates htext hal
  · rw [if_neg htext] at h
    exact withTarget_step hname (.set hcreates (Bool.eq_false_iff.mpr htext) hal) h

/-- **An answered ASSIGN request has done one of these things.** -/
theorem handleAssign_step (h : handleAssign z host fuel errno request st = some (status, st')) :
    AssignStep z host fuel request st status st' := by
  have hsame {e : Option Errno} (hno : ¬ request.Creates)
      (heq : some (e, st) = some (status, st')) :
      AssignStep z host fuel request st status st' := by
    cases heq
    exact .unchanged fun hcreates => absurd hcreates hno
  unfold handleAssign at h
  by_cases hhost : request.has pathHost = true
  · rw [if_pos hhost] at h
    exact hsame (fun hcreates => Bool.false_ne_true (hcreates.1.symm.trans hhost)) h
  rw [if_neg hhost] at h
  cases hname : request.assignName with
  | none =>
    rw [hname] at h
    cases h
    exact .unchanged fun _ _ hsome => nomatch hname.symm.trans hsome
  | some name =>
  rw [hname] at h
  dsimp only at h
  by_cases hrem : request.has assignRemove = true
  · have hno : ¬ request.Creates := fun hcreates =>
      Bool.false_ne_true (hcreates.2.1.symm.trans hrem)
    rw [if_pos hrem] at h
    cases hfind : st.session.findAssign name with
    | none =>
      rw [hfind] at h
      exact hsame hno h
    | some index =>
      rw [hfind] at h
      cases h
      exact .removed hname hfind
  rw [if_neg hrem] at h
  by_cases hitem : request.has assignRemoveItem = true
  · rw [if_pos hitem] at h
    unfold handleRemoveItem at h
    cases hfind : st.session.findAssign name with
    | none =>
      rw [hfind] at h
      exact hsame (fun hcreates => Bool.false_ne_true (hcreates.2.2.1.symm.trans hitem)) h
    | some index =>
      rw [hfind] at h
      exact withTarget_step hname (.removeItem hitem hfind) h
  rw [if_neg hitem] at h
  by_cases hadd : request.has (assignAdd ||| assignPrepend) = true
  · have hno : ¬ request.Creates := fun hcreates =>
      Bool.false_ne_true (hcreates.2.2.2.symm.trans hadd)
    rw [if_pos hadd] at h
    unfold handleAddItem at h
    cases hfind : st.session.findAssign name with
    | none =>
      rw [hfind] at h
      exact hsame hno h
    | some index =>
    rw [hfind] at h
    dsimp only at h
    split_ifs at h
    · exact hsame hno h
    · exact withTarget_step hname (.add (Bool.eq_false_iff.mpr hrem)
        (Bool.eq_false_iff.mpr hitem) hadd hfind) h
  · rw [if_neg hadd] at h
    exact handleSet_step hname ⟨Bool.eq_false_iff.mpr hhost, Bool.eq_false_iff.mpr hrem,
      Bool.eq_false_iff.mpr hitem, Bool.eq_false_iff.mpr hadd⟩ h

end Inversion

end AceShell
