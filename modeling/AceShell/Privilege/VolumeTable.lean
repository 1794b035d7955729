import AceShell.Lib.KeyedTable
import AceShell.Lib.Machine
import AceShell.Privilege.VolumePayload

/-!
# Mounts and the volume table

`VolumeChange` says what one request can do to the table and to the log of calls; from it every
property of a run is derived by one step lemma (`volumeStep_sound`). `do_mount` and `do_bind` mount
first and look for a slot afterwards, and do not look at the result of the `umount2` that takes the
mount back: where it fails, a live mount is in no entry (`mount_left_unrecorded`).
-/

namespace AceShell

open Text SlotTable List

/-! ## Logs of calls -/

def mountsAfter (mounts : List Name) : VolumeCall × Bool → List Name
  | (.bindMount _ target, true) | (.deviceMount _ target _ _, true) => target :: mounts
  | (.unmount target, true) => mounts.erase target
  | _ => mounts

def liveMounts (log : List (VolumeCall × Bool)) : List Name := log.foldl mountsAfter []

@[simp] theorem mountsAfter_failed (mounts : List Name) (call : VolumeCall) :
    mountsAfter mounts (call, false) = mounts := by
  cases call <;> rfl

@[simp] theorem liveMounts_nil : liveMounts [] = [] := rfl

theorem liveMounts_concat (log : List (VolumeCall × Bool)) (call : VolumeCall × Bool) :
    liveMounts (log ++ [call]) = mountsAfter (liveMounts log) call := by
  simp [liveMounts]

def DirectlyBeneath (root target : Name) : Prop :=
  ∃ component, target = root ++ [slash] ++ component ∧ component ≠ [] ∧ slash ∉ component ∧
    component ≠ dotName ∧ component ≠ dotDotName

/-- Mounts of anything at a single component beneath the view root, and of devices with names of
letters, digits, `-` and `_`. -/
def VolumeCall.Allowed (root : Name) : VolumeCall → Prop
  | .makePrivate => False
  | .bindMount _ target => DirectlyBeneath root target
  | .deviceMount source target _ _ => DirectlyBeneath root target ∧
    ∃ name, source = ascii "/dev/" ++ name ∧ name ≠ [] ∧ ∀ c ∈ name, isKernelNameByte c
  | .unmount target => DirectlyBeneath root target

/-- `umount2` is only called on the target of a mount that is live at that time. -/
def UnmountsLive (log : List (VolumeCall × Bool)) : Prop :=
  ∀ i target ok, log[i]? = some (.unmount target, ok) → target ∈ liveMounts (log.take i)

theorem unmountsLive_nil : UnmountsLive [] := by
  intro i target ok h
  simp at h

theorem UnmountsLive.concat {log : List (VolumeCall × Bool)} {call : VolumeCall × Bool}
    (h : UnmountsLive log) (hcall : ∀ target, call.1 = .unmount target → target ∈ liveMounts log) :
    UnmountsLive (log ++ [call]) := by
  intro i target ok hi
  obtain hlt | heq | hgt := Nat.lt_trichotomy i log.length
  · rw [getElem?_append_left hlt] at hi
    rw [take_append_of_le_length hlt.le]
    exact h i target ok hi
  · subst heq
    rw [getElem?_concat_length, Option.some_inj] at hi
    rw [take_left]
    exact hcall target (by rw [hi])
  · rw [getElem?_eq_none (by simp; omega)] at hi
    cases hi

/-- Different live mounts may be taken down one after the other. -/
theorem UnmountsLive.unmountAll (outcome : Name → Bool) {targets : List Name}
    (hnodup : targets.Nodup) {log : List (VolumeCall × Bool)} (h : UnmountsLive log)
    (hlive : ∀ target ∈ targets, target ∈ liveMounts log) :
    UnmountsLive (log ++ targets.map fun target => (.unmount target, outcome target)) := by
  induction targets generalizing log with
  | nil => simpa using h
  | cons target targets ih =>
    obtain ⟨hnotMem, hnodup⟩ := nodup_cons.mp hnodup
    rw [map_cons, append_cons]
    refine ih hnodup (h.concat ?_) fun other hother => ?_
    · rintro _ ⟨⟩
      exact hlive target mem_cons_self
    · have hmem := hlive other (mem_cons_of_mem target hother)
      rw [liveMounts_concat]
      cases outcome target
      · exact hmem
      · exact (mem_erase_of_ne (ne_of_mem_of_not_mem hother hnotMem)).mpr hmem

/-! ## Runs -/

structure VolumeState where
  worker : VolumeWorker
  log : List (VolumeCall × Bool)

structure VolumeArrival where
  request : PrivilegeRequest
  payload : List UInt8
  host : VolumeHost

section Runs

variable (configured : Name) (servedUid : ℕ)

def volumeStep (arrival : VolumeArrival) (s : VolumeState) : VolumeState :=
  let result := volumeDispatch configured servedUid arrival.host arrival.request arrival.payload
    s.worker
  ⟨result.worker, s.log ++ result.calls⟩

/-- The worker, forked after the supervisor's one attempt at a namespace, with the requests that are
`allowed` to come. -/
def volumeMachine (start : VolumeHost) (allowed : VolumeArrival → VolumeState → Prop) :
    Machine VolumeState VolumeArrival where
  init := ⟨.forked (startNamespace start), []⟩
  possible := allowed
  step := volumeStep configured servedUid

end Runs

structure VolumeState.Sound (s : VolumeState) : Prop where
  allowed : ∀ call ∈ s.log, call.1.Allowed s.worker.viewRoot
  unmounts : UnmountsLive s.log
  single : (liveMounts s.log).Nodup
  recorded : ((live s.worker.volumes).map (·.viewPath)).Perm (liveMounts s.log)

def Recoverable (arrival : VolumeArrival) (s : VolumeState) : Prop :=
  arrival.request.opcode = some .mount ∨ arrival.request.opcode = some .bind →
    freeEntry s.worker.volumes = none → arrival.host.umount = none

/-! ## Names -/

variable {name : Name}

theorem directlyBeneath_of_bytes {root : Name} (hne : name ≠ [])
    (hbytes : ∀ c ∈ name, isKernelNameByte c) : DirectlyBeneath root (root ++ [slash] ++ name) := by
  have hdot : (46 : UInt8) ∉ name := fun h => absurd (hbytes _ h) (by decide)
  refine ⟨name, rfl, hne, fun h => ?_, ?_, ?_⟩
  · exact absurd (hbytes _ h) (by decide)
  · rintro rfl
    exact hdot (by decide)
  · rintro rfl
    exact hdot (by decide)

theorem validKernelName_iff : validKernelName name = true ↔
    name ≠ [] ∧ name.length < volumeNameMax ∧ ∀ c ∈ name, isKernelNameByte c := by
  simp [validKernelName, and_assoc]

theorem unsignedText_bytes (n : ℕ) : ∀ c ∈ unsignedText n, isKernelNameByte c := by
  unfold unsignedText
  split_ifs with hzero
  · exact all_eq_true.mp (by decide)
  intro c hc
  simp only [decimal, mem_map, mem_reverse] at hc
  obtain ⟨d, hd, rfl⟩ := hc
  have hlt := Nat.digits_lt_base (by decide : 1 < 10) hd
  interval_cases d <;> decide

theorem bindKey_bytes (major minor : ℕ) : ∀ c ∈ bindKey major minor, isKernelNameByte c := by
  intro c hc
  simp only [bindKey, mem_append] at hc
  obtain ((hc | hc) | hc) | hc := hc
  · exact all_eq_true.mp (by decide) c hc
  · exact unsignedText_bytes major c hc
  · exact all_eq_true.mp (by decide) c hc
  · exact unsignedText_bytes minor c hc

theorem bindKey_ne_nil (major minor : ℕ) : bindKey major minor ≠ [] := by
  simp [bindKey, ascii]

/-! ## What one request can do -/

structure Prepared (worker worker' : VolumeWorker) : Prop where
  volumes : worker'.volumes = worker.volumes
  namespaceState : worker'.namespaceState = worker.namespaceState
  viewRoot : worker.viewRoot ≠ [] → worker'.viewRoot = worker.viewRoot

theorem Prepared.refl (worker : VolumeWorker) : Prepared worker worker := ⟨rfl, rfl, fun _ => rfl⟩

structure MountsKey (root key : Name) (call : VolumeCall) : Prop where
  root_ne_nil : root ≠ []
  key_ne_nil : key ≠ []
  bytes : ∀ c ∈ key, isKernelNameByte c
  call : (∃ source, call = .bindMount source (root ++ [slash] ++ key)) ∨
    ∃ type options, call = .deviceMount (ascii "/dev/" ++ key) (root ++ [slash] ++ key) type options

namespace MountsKey

variable {root key : Name} {call : VolumeCall}

section

variable (h : MountsKey root key call)
include h

theorem beneath : DirectlyBeneath root (root ++ [slash] ++ key) :=
  directlyBeneath_of_bytes h.key_ne_nil h.bytes

theorem allowed : call.Allowed root := by
  obtain ⟨source, rfl⟩ | ⟨type, options, rfl⟩ := h.call
  · exact h.beneath
  · exact ⟨h.beneath, key, rfl, h.key_ne_nil, h.bytes⟩

theorem ne_unmount (target : Name) : call ≠ .unmount target := by
  obtain ⟨source, rfl⟩ | ⟨type, options, rfl⟩ := h.call <;> simp

theorem mountsAfter_eq (mounts : List Name) :
    mountsAfter mounts (call, true) = (root ++ [slash] ++ key) :: mounts := by
  obtain ⟨source, rfl⟩ | ⟨type, options, rfl⟩ := h.call <;> rfl

end

end MountsKey

/-- What a request can do: nothing; try a mount; make one and enter it; make one, find no slot and
try to take it back; or try an unmount. Only a request that is `attaching` takes a mount back. -/
inductive VolumeChange (host : VolumeHost) (attaching : Prop) (worker : VolumeWorker) :
    List (VolumeCall × Bool) → VolumeWorker → Prop
  | quiet : VolumeChange host attaching worker [] worker
  | refused {key : Name} {call : VolumeCall} (hcall : MountsKey worker.viewRoot key call) :
    VolumeChange host attaching worker [(call, false)] worker
  | mounted {key : Name} {call : VolumeCall} {volumes : List (Option VolumeEntry)}
    (hcall : MountsKey worker.viewRoot key call)
    (hnew : lookup (·.kernelName) worker.volumes key = none)
    (hplace : place ⟨key, worker.viewRoot ++ [slash] ++ key⟩ worker.volumes = some volumes) :
    VolumeChange host attaching worker [(call, true)] { worker with volumes := volumes }
  | takenBack {key : Name} {call : VolumeCall} (hattaching : attaching)
    (hcall : MountsKey worker.viewRoot key call) (hfull : freeEntry worker.volumes = none) :
    VolumeChange host attaching worker
      [(call, true), (.unmount (worker.viewRoot ++ [slash] ++ key), host.umount.isNone)] worker
  | unmountFailed {index : ℕ} {entry : VolumeEntry}
    (hentry : worker.volumes[index]? = some (some entry)) :
    VolumeChange host attaching worker [(.unmount entry.viewPath, false)] worker
  | unmounted {index : ℕ} {entry : VolumeEntry}
    (hentry : worker.volumes[index]? = some (some entry)) :
    VolumeChange host attaching worker [(.unmount entry.viewPath, true)]
      { worker with volumes := release index worker.volumes }

variable {call : VolumeCall} {volumes : List (Option VolumeEntry)} {key path : Name} {index : ℕ}
  {calls : List (VolumeCall × Bool)}

section Change

variable {configured : Name} {servedUid : ℕ} {host : VolumeHost} {request : PrivilegeRequest}
  {payload : List UInt8} {worker worker' : VolumeWorker} {attaching : Prop}

/-- Every entry has a view. -/
def Viewed (worker : VolumeWorker) : Prop := ∀ entry ∈ live worker.volumes, entry.viewPath ≠ []

theorem Viewed.prepared (h : Viewed worker) (hprepared : Prepared worker worker') :
    Viewed worker' := by
  unfold Viewed
  rw [hprepared.volumes]
  exact h

theorem lookup_of_entryFor_eq_none (h : entryFor volumes key = none)
    : lookup (·.kernelName) volumes key = none := by
  refine lookup_eq_none.mpr fun entry hent hkey => ?_
  have := not_of_findIdx?_eq_none h hent
  simp [hkey] at this

theorem entryFor_of_viewOf_eq_none (hviewed : Viewed worker) (h : worker.viewOf key = none)
    : entryFor worker.volumes key = none := by
  cases hfind : entryFor worker.volumes key with
  | none => rfl
  | some index =>
    obtain ⟨entry, hent, -⟩ := getElem?_of_findIdx? hfind
    have hpath := hviewed entry (mem_live.mpr (mem_of_getElem? hent))
    simp [VolumeWorker.viewOf, hfind, hent, hpath] at h

theorem viewOf_eq_some (hfind : entryFor worker.volumes key = some index)
    (h : worker.viewOf key = some path) :
    ∃ entry, worker.volumes[index]? = some (some entry) ∧ entry.viewPath = path := by
  obtain ⟨entry, hent, -⟩ := getElem?_of_findIdx? hfind
  refine ⟨entry, hent, ?_⟩
  simp only [VolumeWorker.viewOf, hfind, Option.bind_some, hent] at h
  split_ifs at h
  exact Option.some.inj h

theorem replyPath_calls :
    (replyPath worker path calls).calls = calls ∧
      (replyPath worker path calls).worker = worker := by
  unfold replyPath
  split_ifs <;> exact ⟨rfl, rfl⟩

theorem ensureViewRoot_rooted {e : Option Errno}
    (h : ensureViewRoot configured servedUid host worker = (e, worker')) :
    Prepared worker worker' ∧ (e = none → worker'.viewRoot ≠ []) := by
  unfold ensureViewRoot at h
  split at h
  next hroot =>
    cases h
    exact ⟨.refl _, fun _ => hroot⟩
  rename_i hroot
  split at h
  · cases h
    exact ⟨.refl _, by simp⟩
  split at h
  · cases h
    exact ⟨.refl _, by simp⟩
  cases h
  refine ⟨⟨rfl, rfl, fun hne => absurd hne hroot⟩, fun _ => ?_⟩
  unfold viewRootPath
  split_ifs <;> simp [ascii]

theorem attach_change (hattaching : attaching) (hviewed : Viewed worker)
    (hcall : MountsKey worker.viewRoot key call) (hnone : worker.viewOf key = none) :
    VolumeChange host attaching worker
      (attach host worker key (worker.viewRoot ++ [slash] ++ key) call).calls
      (attach host worker key (worker.viewRoot ++ [slash] ++ key) call).worker := by
  have hentry := entryFor_of_viewOf_eq_none hviewed hnone
  unfold attach
  split
  · exact .quiet
  split
  · exact .quiet
  split
  · exact .refused hcall
  rw [hentry, Option.none_or]
  split
  next hfull => exact .takenBack hattaching hcall hfull
  rename_i index hfree
  rw [replyPath_calls.1, replyPath_calls.2]
  refine .mounted hcall (lookup_of_entryFor_eq_none hentry) ?_
  unfold freeEntry at hfree
  simp [place, hfree]

/-- What a request does once the view root is there. -/
def Changes (host : VolumeHost) (attaching : Prop) (worker : VolumeWorker)
    (result : VolumeResult) : Prop :=
  ∃ worker', Prepared worker worker' ∧
    VolumeChange host attaching worker' result.calls result.worker

theorem changes_nothing {status : PrivilegeStatus} {e : Option Errno} {reply : List UInt8} :
    Changes host attaching worker ⟨status, e, reply, [], worker⟩ :=
  ⟨worker, .refl _, .quiet⟩

theorem doMount_change (hattaching : attaching) (hviewed : Viewed worker) :
    Changes host attaching worker (doMount configured servedUid host request payload worker) := by
  unfold doMount
  split
  · exact changes_nothing
  rename_i kernelName filesystemType _
  split
  · exact changes_nothing
  rename_i hvalid
  obtain ⟨hname, -⟩ : validKernelName kernelName = true ∧ _ := by simpa using hvalid
  obtain ⟨hne, -, hbytes⟩ := validKernelName_iff.mp hname
  split
  · exact changes_nothing
  split
  · exact changes_nothing
  dsimp only
  split
  · exact changes_nothing
  split
  · exact changes_nothing
  split
  · exact changes_nothing
  split
  next hroot => exact ⟨_, (ensureViewRoot_rooted hroot).1, .quiet⟩
  rename_i worker' hroot
  obtain ⟨hprepared, hroot⟩ := ensureViewRoot_rooted hroot
  refine ⟨worker', hprepared, ?_⟩
  split
  · exact .quiet
  split
  · rw [replyPath_calls.1, replyPath_calls.2]
    exact .quiet
  rename_i hnone
  refine attach_change hattaching (hviewed.prepared hprepared) ⟨hroot rfl, hne, hbytes, ?_⟩ hnone
  split
  · exact .inl ⟨_, rfl⟩
  · exact .inr ⟨_, _, rfl⟩

theorem doBind_change (hattaching : attaching) (hviewed : Viewed worker) :
    Changes host attaching worker (doBind configured servedUid host request payload worker) := by
  unfold doBind
  split
  · exact changes_nothing
  rename_i major minor _
  split
  · exact changes_nothing
  split
  next hroot => exact ⟨_, (ensureViewRoot_rooted hroot).1, .quiet⟩
  rename_i worker' hroot
  obtain ⟨hprepared, hroot⟩ := ensureViewRoot_rooted hroot
  refine ⟨worker', hprepared, ?_⟩
  dsimp only
  split
  · exact .quiet
  split
  · rw [replyPath_calls.1, replyPath_calls.2]
    exact .quiet
  rename_i hnone
  split
  · exact .quiet
  rename_i source _
  split
  · exact .quiet
  split
  · exact .quiet
  exact attach_change hattaching (hviewed.prepared hprepared)
    ⟨hroot rfl, bindKey_ne_nil major minor, bindKey_bytes major minor, .inl ⟨source, rfl⟩⟩ hnone

theorem doUnmount_change :
    VolumeChange host attaching worker (doUnmount host request payload worker).calls
      (doUnmount host request payload worker).worker := by
  unfold doUnmount
  split
  · exact .quiet
  dsimp only
  split
  · exact .quiet
  split
  next index path hfind hview =>
    obtain ⟨entry, hent, rfl⟩ := viewOf_eq_some hfind hview
    split
    · exact .unmountFailed hent
    · exact .unmounted hent
  next => exact .quiet

theorem initNamespace_settled (host : VolumeHost) (hsettled : worker.namespaceState ≠ .untried) :
    ∃ e, initNamespace host worker = (e, [], worker) := by
  unfold initNamespace
  split
  · exact ⟨_, rfl⟩
  · exact ⟨_, rfl⟩
  next huntried => exact absurd huntried hsettled

theorem volumeDispatch_change (hviewed : Viewed worker)
    (hsettled : worker.namespaceState ≠ .untried) :
    Changes host (request.opcode = some .mount ∨ request.opcode = some .bind) worker
      (volumeDispatch configured servedUid host request payload worker) := by
  obtain ⟨e, hinit⟩ := initNamespace_settled host hsettled
  unfold volumeDispatch
  rw [hinit]
  split
  · cases e <;> exact changes_nothing
  · cases e with
    | some e => exact changes_nothing
    | none =>
      dsimp only
      split
      next hroot => exact ⟨_, (ensureViewRoot_rooted hroot).1, .quiet⟩
      rename_i hroot
      unfold Changes
      rw [replyPath_calls.1, replyPath_calls.2]
      exact ⟨_, (ensureViewRoot_rooted hroot).1, .quiet⟩
  next hop => exact doMount_change (.inl hop) hviewed
  next hop => exact doBind_change (.inr hop) hviewed
  · exact ⟨worker, .refl _, doUnmount_change⟩
  · unfold doList
    dsimp only
    split <;> exact changes_nothing
  · exact changes_nothing

end Change

/-! ## The invariant -/

structure VolumeState.Kept (s : VolumeState) : Prop extends s.Sound where
  settled : s.worker.namespaceState ≠ .untried
  rooted : s.worker.viewRoot = [] → s.log = []
  keyed : Keyed (·.kernelName) s.worker.volumes
  paths : ∀ entry ∈ live s.worker.volumes,
    entry.viewPath = s.worker.viewRoot ++ [slash] ++ entry.kernelName ∧
      DirectlyBeneath s.worker.viewRoot entry.viewPath

variable {entry : VolumeEntry}

namespace VolumeState.Kept

variable {worker worker' : VolumeWorker} {log : List (VolumeCall × Bool)} {host : VolumeHost}
  {attaching : Prop}

theorem init (start : VolumeHost) : VolumeState.Kept ⟨.forked (startNamespace start), []⟩ where
  allowed := by simp
  unmounts := unmountsLive_nil
  single := nodup_nil
  recorded := by simp [VolumeWorker.forked]
  settled := by
    change startNamespace start ≠ .untried
    unfold startNamespace
    split <;> simp
  rooted := fun _ => rfl
  keyed := keyed_replicate _ _
  paths := by simp [VolumeWorker.forked]

variable (h : VolumeState.Kept ⟨worker, log⟩)
include h

theorem viewed : Viewed worker := by
  intro entry hent
  rw [(h.paths entry hent).1]
  simp

theorem toPrepared (hprepared : Prepared worker worker') : VolumeState.Kept ⟨worker', log⟩ := by
  obtain ⟨volumes, viewRoot, namespaceState⟩ := worker
  obtain ⟨volumes', viewRoot', namespaceState'⟩ := worker'
  obtain ⟨hvolumes, hnamespace, hroot⟩ := hprepared
  dsimp only at hvolumes hnamespace hroot
  subst hvolumes hnamespace
  by_cases hempty : viewRoot = []
  · have hlog : log = [] := h.rooted hempty
    subst hlog
    have hnone : live volumes' = [] := by
      simpa using h.recorded.length_eq
    exact
      { h with
        allowed := by simp
        rooted := fun _ => rfl
        paths := by simp [hnone] }
  · rw [hroot hempty]
    exact h

theorem viewRoot_ne_nil (hent : entry ∈ live worker.volumes) : worker.viewRoot ≠ [] := by
  intro hempty
  have hlog : log = [] := h.rooted hempty
  subst hlog
  have hnone : live worker.volumes = [] := by simpa using h.recorded.length_eq
  simp [hnone] at hent

theorem mem_liveMounts (hent : entry ∈ live worker.volumes) : entry.viewPath ∈ liveMounts log :=
  h.recorded.mem_iff.mp (mem_map_of_mem hent)

theorem notMem_liveMounts (hnew : lookup (·.kernelName) worker.volumes key = none) :
    worker.viewRoot ++ [slash] ++ key ∉ liveMounts log := by
  intro hmem
  obtain ⟨entry, hent, hpath⟩ := mem_map.mp (h.recorded.mem_iff.mpr hmem)
  rw [(h.paths entry hent).1, append_cancel_left_eq] at hpath
  exact lookup_eq_none.mp hnew entry hent hpath

theorem allowed_concat {call : VolumeCall × Bool} (hcall : call.1.Allowed worker.viewRoot) :
    ∀ call' ∈ log ++ [call], call'.1.Allowed worker.viewRoot := by
  exact forall_mem_append.mpr ⟨h.allowed, forall_mem_singleton.mpr hcall⟩

theorem extend {log' : List (VolumeCall × Bool)} (hroot : worker.viewRoot ≠ [])
    (hallowed : ∀ call ∈ log', call.1.Allowed worker.viewRoot) (hunmounts : UnmountsLive log')
    (hlive : liveMounts log' = liveMounts log) : VolumeState.Kept ⟨worker, log'⟩ :=
  { h with
    allowed := hallowed
    unmounts := hunmounts
    single := hlive ▸ h.single
    recorded := hlive ▸ h.recorded
    rooted := fun hempty => absurd hempty hroot }

theorem failed (hroot : worker.viewRoot ≠ []) (hcall : call.Allowed worker.viewRoot)
    (hunmount : ∀ target, call = .unmount target → target ∈ liveMounts log) :
    VolumeState.Kept ⟨worker, log ++ [(call, false)]⟩ := by
  refine h.extend hroot (h.allowed_concat hcall) (h.unmounts.concat hunmount) ?_
  rw [liveMounts_concat, mountsAfter_failed]

theorem mounted (hcall : MountsKey worker.viewRoot key call)
    (hnew : lookup (·.kernelName) worker.volumes key = none)
    (hplace : place ⟨key, worker.viewRoot ++ [slash] ++ key⟩ worker.volumes = some volumes) :
    VolumeState.Kept ⟨{ worker with volumes := volumes }, log ++ [(call, true)]⟩ := by
  have hlive : liveMounts (log ++ [(call, true)]) =
      (worker.viewRoot ++ [slash] ++ key) :: liveMounts log := by
    rw [liveMounts_concat, hcall.mountsAfter_eq]
  exact
    { allowed := h.allowed_concat hcall.allowed
      unmounts := h.unmounts.concat fun target htgt => absurd htgt (hcall.ne_unmount target)
      single := by
        rw [hlive]
        exact nodup_cons.mpr ⟨h.notMem_liveMounts hnew, h.single⟩
      recorded := by
        rw [hlive]
        exact ((live_place hplace).map _).trans (h.recorded.cons _)
      settled := h.settled
      rooted := fun hempty => absurd hempty hcall.root_ne_nil
      keyed := h.keyed.place hplace hnew
      paths := (forall_live_place hplace).mpr ⟨⟨rfl, hcall.beneath⟩, h.paths⟩ }

theorem takenBack (hcall : MountsKey worker.viewRoot key call) : VolumeState.Kept ⟨worker, log ++
      [(call, true), (.unmount (worker.viewRoot ++ [slash] ++ key), true)]⟩ := by
  have hmounted : liveMounts (log ++ [(call, true)]) =
      (worker.viewRoot ++ [slash] ++ key) :: liveMounts log := by
    rw [liveMounts_concat, hcall.mountsAfter_eq]
  have hlive : liveMounts (log ++ [(call, true)] ++
      [(.unmount (worker.viewRoot ++ [slash] ++ key), true)]) = liveMounts log := by
    rw [liveMounts_concat, hmounted]
    exact erase_cons_head ..
  rw [append_cons]
  refine h.extend hcall.root_ne_nil ?_ ?_ hlive
  · exact forall_mem_append.mpr
      ⟨h.allowed_concat hcall.allowed, forall_mem_singleton.mpr hcall.beneath⟩
  refine UnmountsLive.concat (h.unmounts.concat fun target htgt =>
    absurd htgt (hcall.ne_unmount target)) fun target htgt => ?_
  cases htgt
  rw [hmounted]
  exact mem_cons_self

theorem unmounted (hent : worker.volumes[index]? = some (some entry)) :
    VolumeState.Kept ⟨{ worker with volumes := release index worker.volumes },
      log ++ [(.unmount entry.viewPath, true)]⟩ := by
  have hmem : entry ∈ live worker.volumes := mem_live.mpr (mem_of_getElem? hent)
  have hlive : liveMounts (log ++ [(.unmount entry.viewPath, true)]) =
      (liveMounts log).erase entry.viewPath := liveMounts_concat _ _
  exact
    { allowed := h.allowed_concat (h.paths entry hmem).2
      unmounts := by
        refine h.unmounts.concat fun target htgt => ?_
        cases htgt
        exact h.mem_liveMounts hmem
      single := by
        rw [hlive]
        exact h.single.erase _
      recorded := by
        rw [hlive]
        have hperm := (((live_release hent).map (·.viewPath)).symm.trans h.recorded).erase
          entry.viewPath
        rwa [map_cons, erase_cons_head] at hperm
      settled := h.settled
      rooted := fun hempty => absurd hempty (h.viewRoot_ne_nil hmem)
      keyed := h.keyed.release index
      paths := fun entry' hent' =>
        h.paths entry' ((live_release_sublist index worker.volumes).subset hent') }

theorem change (hchange : VolumeChange host attaching worker calls worker')
    (hback : attaching → freeEntry worker.volumes = none → host.umount = none) :
    VolumeState.Kept ⟨worker', log ++ calls⟩ := by
  cases hchange with
  | quiet => rwa [append_nil]
  | refused hcall =>
    exact h.failed hcall.root_ne_nil hcall.allowed
      fun target htgt => absurd htgt (hcall.ne_unmount target)
  | mounted hcall hnew hplace => exact h.mounted hcall hnew hplace
  | takenBack hattaching hcall hfull =>
    rw [hback hattaching hfull]
    exact h.takenBack hcall
  | unmountFailed hent =>
    have hmem := mem_live.mpr (mem_of_getElem? hent)
    refine h.failed (h.viewRoot_ne_nil hmem) (h.paths _ hmem).2 fun target htgt => ?_
    cases htgt
    exact h.mem_liveMounts hmem
  | unmounted hent => exact h.unmounted hent

end VolumeState.Kept

/-! ## Whole runs -/

variable {s : VolumeState}

section Whole

variable {configured : Name} {servedUid : ℕ}

theorem volumeStep_kept {arrival : VolumeArrival} (h : s.Kept)
    (hrecoverable : Recoverable arrival s) : (volumeStep configured servedUid arrival s).Kept := by
  obtain ⟨worker', hprepared, hchange⟩ := volumeDispatch_change h.viewed h.settled
  refine (h.toPrepared hprepared).change hchange fun hattaching hfull => ?_
  rw [hprepared.volumes] at hfull
  exact hrecoverable hattaching hfull

theorem volumeRun_kept {start : VolumeHost} {n : ℕ}
    (hrun : (volumeMachine configured servedUid start Recoverable).Run n s) : s.Kept := by
  refine hrun.invariant (P := fun _ s => s.Kept) (.init start) ?_ (Nat.lt_succ_self n)
  intro n s arrival _ _ hposs hs
  exact volumeStep_kept hs hposs

/-- **Only where and what it may.** In every run in which a mount that finds no slot can be taken
back, every mount is at a single component beneath the view root, of a device with a plain name or
of a mounted directory; `umount2` is called on live mounts of the worker only; no target holds two
of them; and they are the entries of the table, one for one. -/
theorem volumeMachine_sound (start : VolumeHost) {n : ℕ} {s : VolumeState}
    (hrun : (volumeMachine configured servedUid start Recoverable).Run n s) : s.Sound := by
  exact (volumeRun_kept hrun).toSound

/-- After such a run the teardown, too, takes down live mounts only. -/
theorem volumeShutdown_unmounts (start : VolumeHost) (outcome : Name → Bool) {n : ℕ}
    {s : VolumeState} (hrun : (volumeMachine configured servedUid start Recoverable).Run n s) :
    UnmountsLive (s.log ++ volumeShutdown outcome s.worker) := by
  have hkept := volumeRun_kept hrun
  refine hkept.unmounts.unmountAll outcome ?_ fun target htarget => ?_
  · rw [nodup_reverse]
    exact (hkept.recorded.nodup_iff.mpr hkept.single).filter _
  · rw [mem_reverse] at htarget
    exact hkept.recorded.mem_iff.mp (mem_of_mem_filter htarget)

end Whole

/-! ## A full table -/

/-- A request to mount an ext4 device; all calls succeed but perhaps `umount2`. -/
def mountArrival (umount : Option Errno) (name : Name) : VolumeArrival where
  request :=
    { goodMagic := true
      operation := Opcode.mount.code
      flags := 0
      mode := 0
      firstPathLength := 0
      payloadLength := name.length + (ascii "ext4").length + 2
      modificationTime := 0 }
  payload := name ++ 0 :: (ascii "ext4" ++ [0])
  host := { umount := umount }

def volumeArrival (opcode : Opcode) (payload : List UInt8) (host : VolumeHost) : VolumeArrival where
  request := { (mountArrival none []).request with
    operation := opcode.code, payloadLength := payload.length }
  payload := payload
  host := host

/-- Two volumes come, the first one is unmounted, and a third one takes its place in the table. -/
def reusedEntry : List VolumeArrival :=
  [mountArrival none (ascii "sda1"),
    volumeArrival .bind (ascii "8:2" ++ [0])
      { existingDeviceRoot := fun _ => some (ascii "/mnt"), sourceDevice := .ok (8, 2) },
    volumeArrival .unmount (ascii "sda1" ++ [0]) {},
    mountArrival none (ascii "sda3")]

theorem volumeMachine_sound_reused :
    let s := (volumeMachine [] 1000 {} Recoverable).exec reusedEntry
      (volumeMachine [] 1000 {} Recoverable).init
    s.Sound ∧ s.log.map Prod.snd = [true, true, true, true] ∧
      liveMounts s.log = [ascii "/run/ace-1000/device-roots/sda3",
        ascii "/run/ace-1000/device-roots/fs-8-2"] ∧
      (s.worker.volumes.take 3).map (Option.map (·.kernelName)) =
        [some (ascii "sda3"), some (ascii "fs-8-2"), none] := by
  have hcan : (volumeMachine [] 1000 {} Recoverable).CanExec reusedEntry
      (volumeMachine [] 1000 {} Recoverable).init :=
    ⟨fun _ _ => rfl, fun _ _ => rfl, fun _ _ => rfl, fun _ _ => rfl, trivial⟩
  exact ⟨volumeMachine_sound {} (Machine.Run.start.exec hcan), by decide +kernel,
    by decide +kernel, by decide +kernel⟩

def letterName (i : ℕ) : Name := [UInt8.ofNat (97 + i / 16), UInt8.ofNat (97 + i % 16)]

/-- The requests for one device more than the table has slots, in a system that refuses every
`umount2`, leave a live mount that is in no entry. -/
theorem mount_left_unrecorded :
    ¬ ((volumeMachine [] 1000 {} fun _ _ => True).exec
        (((range 128).map letterName ++ [letterName 128]).map (mountArrival (some .eother)))
        (volumeMachine [] 1000 {} fun _ _ => True).init).Sound := by
  intro hsound
  have hcount := hsound.recorded.length_eq
  exact absurd hcount (by decide +kernel)

end AceShell
