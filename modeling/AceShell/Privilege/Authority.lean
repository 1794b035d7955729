import AceShell.Privilege.Supervisor

/-!
# Authority of the root processes

1. A volume operation needs `CAP_VOLUME` and an access operation `CAP_ACCESS` (`performed_granted`).
   But forking an access worker is a control request, which is checked for nothing;
   `access_without_capability` is a run in which one is asked for without `CAP_ACCESS`.
2. Giving the privilege up takes the volume worker along, but an access worker lives as long as the
   broker holds its channel (`giveUp_final_iff`).
-/

namespace AceShell

open Text List

variable {capabilities : UInt32} {action : FmmAction}

section Steps

variable {σ : Type} {host : FmmHost σ} {env : RequestHost} {request : PrivilegeRequest}
  {payload : List UInt8} {fmm fmm' : Fmm σ}

/-! ## What one datagram to the supervisor can do -/

/-- The supervisor keeps the capabilities, forks at most one worker and that for SPAWN_ACCESS, and
has at most one operation performed, a volume request within the capabilities. -/
structure Supervises (request : PrivilegeRequest) (fmm fmm' : Fmm σ) : Prop where
  capabilities : fmm'.capabilities = fmm.capabilities
  access : fmm'.access = fmm.access ∨
    request.opcode = some .spawnAccess ∧ ∃ worker, fmm'.access = fmm.access ++ [worker]
  performed : fmm'.performed = fmm.performed ∨
    fmm.capabilities &&& capVolume ≠ 0 ∧ fmm'.performed = fmm.performed ++ [.volume request]

theorem Supervises.refl (request : PrivilegeRequest) (fmm : Fmm σ) : Supervises request fmm fmm :=
  ⟨rfl, .inl rfl, .inl rfl⟩

theorem supervises_leave (request : PrivilegeRequest) (fmm : Fmm σ) :
    Supervises request fmm fmm.leave :=
  ⟨rfl, .inl rfl, .inl rfl⟩

theorem supervises_spawnCrm (hop : request.opcode = some .spawnAccess) :
    Supervises request fmm (spawnCrm host env fmm).2 := by
  unfold spawnCrm
  split
  · exact .refl request fmm
  · split_ifs <;> exact ⟨rfl, .inr ⟨hop, _, rfl⟩, .inl rfl⟩

theorem supervises_forwardToVolume (hcapability : fmm.capabilities &&& capVolume ≠ 0) :
    Supervises request fmm (forwardToVolume host env request payload fmm).2 := by
  unfold forwardToVolume
  split
  · exact .refl request fmm
  split
  · exact ⟨rfl, .inl rfl, .inl rfl⟩
  · exact ⟨rfl, .inl rfl, .inr ⟨hcapability, rfl⟩⟩
  · split_ifs <;> exact ⟨rfl, .inl rfl, .inr ⟨hcapability, rfl⟩⟩

theorem supervises_dispatch : Supervises request fmm (dispatch host env request payload fmm).2 := by
  unfold dispatch
  split_ifs with hhdr hvolume hacc
  · exact supervises_leave request fmm
  · exact .refl request fmm
  · exact .refl request fmm
  split
  · exact .refl request fmm
  · exact .refl request fmm
  · exact .refl request fmm
  · exact supervises_leave request fmm
  · exact supervises_leave request fmm
  next hop => exact supervises_spawnCrm hop
  split
  next hclass =>
    exact supervises_forwardToVolume fun hnone => hvolume ⟨hclass, hnone⟩
  · exact .refl request fmm
  · exact .refl request fmm

/-! ## Capabilities -/

def PrivilegedOperation.Granted (capabilities : UInt32) : PrivilegedOperation → Prop
  | .volume _ => capabilities &&& capVolume ≠ 0
  | .access _ _ => capabilities &&& capAccess ≠ 0

def SpawnGranted (action : FmmAction) (fmm : Fmm σ) : Prop :=
  match action with
  | .request (.record request _) _ =>
    request.opcode = some .spawnAccess → fmm.capabilities &&& capAccess ≠ 0
  | _ => True

structure Fmm.Bounded (capabilities : UInt32) (fmm : Fmm σ) : Prop where
  held : fmm.capabilities = capabilities
  access : fmm.access ≠ [] → capabilities &&& capAccess ≠ 0
  performed : ∀ operation ∈ fmm.performed, operation.Granted capabilities

theorem Fmm.Bounded.supervises (h : fmm.Bounded capabilities)
    (hsupervises : Supervises request fmm fmm')
    (hspawn : request.opcode = some .spawnAccess → fmm.capabilities &&& capAccess ≠ 0) :
    fmm'.Bounded capabilities where
  held := hsupervises.capabilities.trans h.held
  access := by
    intro hne
    obtain hsame | ⟨hop, -⟩ := hsupervises.access
    · exact h.access (hsame ▸ hne)
    · exact h.held ▸ hspawn hop
  performed := by
    intro operation hmem
    obtain hsame | ⟨hcapability, hnew⟩ := hsupervises.performed
    · exact h.performed operation (hsame ▸ hmem)
    rw [hnew, mem_append, mem_singleton] at hmem
    obtain hmem | rfl := hmem
    · exact h.performed operation hmem
    · exact h.held ▸ hcapability

theorem Fmm.Bounded.leave (h : fmm.Bounded capabilities) : fmm.leave.Bounded capabilities :=
  { h with }

theorem Fmm.Bounded.serveAccess (h : fmm.Bounded capabilities) (index : ℕ) (datagram : Datagram)
    (sent : Bool) : (serveAccess host index datagram sent fmm).Bounded capabilities := by
  unfold AceShell.serveAccess
  split
  · exact h
  rename_i worker hworker
  have hcapability : capabilities &&& capAccess ≠ 0 :=
    h.access (ne_nil_of_mem (mem_of_getElem? hworker))
  split_ifs
  · refine ⟨h.held, fun _ => hcapability, ?_⟩
    intro operation hmem
    rw [mem_append] at hmem
    obtain hmem | hmem := hmem
    · exact h.performed operation hmem
    split at hmem
    · rw [mem_singleton.mp hmem]
      exact hcapability
    · simp at hmem
  · exact h

theorem Fmm.Bounded.ended {capabilities : UInt32} (h : fmm.Bounded capabilities) :
    (if fmm.serving = true then fmm.leave else fmm).Bounded capabilities := by
  split_ifs
  · exact h.leave
  · exact h

theorem fmmStep_bounded (h : fmm.Bounded capabilities) (hspawn : SpawnGranted action fmm)
    : (fmmStep host action fmm).Bounded capabilities := by
  cases action with
  | request datagram env =>
    unfold fmmStep
    split_ifs
    · cases datagram with
      | short => exact h.leave
      | record request carried =>
        unfold serveDatagram
        dsimp only
        split_ifs
        · exact h.leave
        · exact h.supervises supervises_dispatch hspawn
    · exact h
  | access index datagram sent => exact h.serveAccess index datagram sent
  | lapse => exact h.ended
  | hangUp => exact h.ended
  | hangUpAccess index =>
    refine ⟨h.held, fun hne => h.access fun hnil => hne ?_, h.performed⟩
    simp [fmmStep, hnil]

theorem granted_requested {expectedNonce : List UInt8} {servedUid : ℕ} {hello : Hello}
    {peer : Option PeerCredentials} {sent : Bool}
    (hhandshake : performHandshake expectedNonce servedUid hello peer sent = some capabilities)
    {operation : PrivilegedOperation} (h : operation.Granted capabilities) :
    operation.Granted hello.requestedCapabilities := by
  unfold performHandshake at hhandshake
  split_ifs at hhandshake
  obtain rfl := Option.some.inj hhandshake
  cases operation with
  | volume request =>
    unfold PrivilegedOperation.Granted at h ⊢
    rwa [UInt32.and_assoc] at h
  | access request action =>
    unfold PrivilegedOperation.Granted at h ⊢
    dsimp only at h ⊢
    rwa [UInt32.and_assoc] at h

/-- **Capabilities bound what is done.** After any handshake, in every run in which SPAWN_ACCESS is
only sent where `CAP_ACCESS` was granted, whatever else is sent to the supervisor and to the access
workers: every volume operation is covered by `CAP_VOLUME` and every access operation by
`CAP_ACCESS`, in what was granted and so in what was requested. -/
theorem performed_granted (host : FmmHost σ) {expectedNonce : List UInt8} {hello : Hello}
    {peer : Option PeerCredentials} {sent : Bool} {capabilities : UInt32}
    (hhandshake : performHandshake expectedNonce host.servedUid hello peer sent = some capabilities)
    (namespaceHost : VolumeHost) (stack : List UInt8) (files : σ) {n : ℕ} {fmm : Fmm σ}
    (hrun : (fmmMachine host (.start namespaceHost capabilities stack files)
      SpawnGranted).Run n fmm) :
    ∀ operation ∈ fmm.performed, operation.Granted capabilities ∧
      operation.Granted hello.requestedCapabilities := by
  have hbounded : fmm.Bounded capabilities := by
    refine hrun.invariant (P := fun _ fmm => fmm.Bounded capabilities) ?_ ?_ (Nat.lt_succ_self n)
    · exact ⟨rfl, fun hne => absurd rfl hne, by simp [fmmMachine, Fmm.start]⟩
    · intro n fmm action _ _ hspawn hfmm
      exact fmmStep_bounded hfmm hspawn
  intro operation hmem
  have hgranted := hbounded.performed operation hmem
  exact ⟨hgranted, granted_requested hhandshake hgranted⟩

/-! ## Giving the privilege up -/

/-- A well-formed DROP_PRIVILEGE or SHUTDOWN, or the passing of the deadline. -/
def FmmAction.GivesUp : FmmAction → Prop
  | .lapse => True
  | .request (.record request carried) _ =>
    request.goodMagic = true ∧ request.payloadLength ≤ privilegeMaxPayload ∧
      request.payloadLength ≤ carried.length ∧
      (request.opcode = some .dropPrivilege ∨ request.opcode = some .shutdown)
  | _ => False

theorem serveDatagram_giveUp {carried : List UInt8}
    (hgives : (FmmAction.request (.record request carried) env).GivesUp) :
    serveDatagram host env (.record request carried) fmm = (some .ok, fmm.leave) := by
  obtain ⟨hmagic, hmax, hcarried, hopcode⟩ := hgives
  have hclass : classOf request.operation = .control := by
    obtain hopcode | hopcode := hopcode <;>
      rw [PrivilegeRequest.classOf_operation hopcode] <;> decide
  unfold serveDatagram dispatch
  dsimp only
  rw [if_neg (by omega), if_neg (by simp [hmagic]; omega), if_neg (by simp [hclass]),
    if_neg (by simp [hclass])]
  obtain hopcode | hopcode := hopcode <;> rw [hopcode]

theorem fmmStep_giveUp (hgives : action.GivesUp) (hserving : fmm.serving = true)
    : fmmStep host action fmm = fmm.leave := by
  cases action with
  | request datagram env =>
    cases datagram with
    | short => exact False.elim hgives
    | record request carried =>
      unfold fmmStep
      dsimp only
      rw [if_pos hserving, serveDatagram_giveUp hgives]
  | lapse => exact if_pos hserving
  | access index datagram sent => exact False.elim hgives
  | hangUp => exact False.elim hgives
  | hangUpAccess index => exact False.elim hgives

structure Fmm.Over (fmm : Fmm σ) : Prop where
  supervisor : fmm.serving = false
  access : ∀ worker ∈ fmm.access, worker.serving = false

theorem fmmStep_over (host : FmmHost σ) (h : fmm.Over) (action : FmmAction) :
    (fmmStep host action fmm).Over ∧ (fmmStep host action fmm).performed = fmm.performed := by
  -- what concerns the supervisor is lost
  have hlost (fmm' : Fmm σ) : (if fmm.serving = true then fmm' else fmm).Over ∧
      (if fmm.serving = true then fmm' else fmm).performed = fmm.performed := by
    rw [if_neg (by simp [h.supervisor])]
    exact ⟨h, rfl⟩
  cases action with
  | request datagram env => exact hlost _
  | access index datagram sent =>
    unfold fmmStep serveAccess
    dsimp only
    split
    · exact ⟨h, rfl⟩
    rename_i worker hworker
    rw [if_neg (by simp [h.access worker (mem_of_getElem? hworker)])]
    exact ⟨h, rfl⟩
  | lapse => exact hlost _
  | hangUp => exact hlost _
  | hangUpAccess index =>
  refine ⟨⟨h.supervisor, fun worker hworker => ?_⟩, rfl⟩
  change worker ∈ fmm.access.modify index _ at hworker
  obtain ⟨i, hi⟩ := getElem?_of_mem hworker
  rw [getElem?_modify] at hi
  obtain ⟨before, hbefore, rfl⟩ := Option.map_eq_some_iff.mp hi
  have hserving := h.access before (mem_of_getElem? hbefore)
  split_ifs
  · rfl
  · exact hserving

theorem exec_over (start : Fmm σ) (actions : List FmmAction) (h : fmm.Over) :
    ((fmmMachine host start fun _ _ => True).exec actions fmm).performed = fmm.performed := by
  induction actions generalizing fmm with
  | nil => rfl
  | cons action actions ih =>
    obtain ⟨hover, hperformed⟩ := fmmStep_over host h action
    exact (ih hover).trans hperformed

theorem serveAccess_performed (host : FmmHost σ) {index : ℕ} {worker : AccessWorker}
    (hworker : fmm.access[index]? = some worker) (hserving : worker.serving = true) :
    (serveAccess host index (pathDatagram .openRead (ascii "x")) true fmm).performed =
      fmm.performed ++ [.access (pathRequest .openRead (ascii "x")) (.open .read (ascii "x"))] := by
  have hdecide : crmDecide (pathDatagram .openRead (ascii "x")) worker.buffer =
      .act (pathRequest .openRead (ascii "x")) (.open .read (ascii "x")) := by
    rw [crmDecide_eq fun hoverlong => by
      simp [pathDatagram, pathRequest, Datagram.Overlong] at hoverlong]
    decide
  unfold serveAccess
  rw [hworker]
  dsimp only
  rw [if_pos hserving, crmTurn_decision, hdecide]

/-- **Giving up is final** exactly if no access worker is left when the supervisor goes: then, and
only then, is nothing performed any more, whatever is sent on any channel. -/
theorem giveUp_final_iff (host : FmmHost σ) (start fmm : Fmm σ) {action : FmmAction}
    (hgives : action.GivesUp) (hserving : fmm.serving = true) :
    (∀ actions, ((fmmMachine host start fun _ _ => True).exec actions
        (fmmStep host action fmm)).performed = (fmmStep host action fmm).performed) ↔
      ∀ worker ∈ fmm.access, worker.serving = false := by
  rw [fmmStep_giveUp hgives hserving]
  constructor
  · intro hfinal worker hmem
    by_contra hworker
    obtain ⟨index, hindex⟩ := getElem?_of_mem hmem
    have hnone := hfinal [.access index (pathDatagram .openRead (ascii "x")) true]
    have hleft : fmm.leave.access[index]? = some worker := hindex
    change (serveAccess host index _ true fmm.leave).performed = _ at hnone
    rw [serveAccess_performed host hleft (Bool.eq_true_of_not_eq_false hworker)] at hnone
    simp at hnone
  · intro hworkers actions
    exact exec_over start actions ⟨rfl, hworkers⟩

end Steps

/-! ## A worker that outlives its authority -/

def diskHost : FmmHost Disk where
  kernel := Disk.kernel
  openRoot path _ := if path = [slash] then some 1 else none
  configured := []
  servedUid := 1000

def helloFor (requested : UInt32) : Hello where
  goodMagic := true
  goodVersion := true
  nonce := []
  brokerPid := 7
  requestedCapabilities := requested

/-- A request without a payload. -/
def controlDatagram (opcode : Opcode) : Datagram :=
  .record { pathRequest opcode [] with payloadLength := 0 } []

def deleteRequest (path : Name) : PrivilegeRequest :=
  { pathRequest .unlink path with flags := flagHostPath }

def spawnAndDelete : List FmmAction :=
  [.request (controlDatagram .spawnAccess) {},
    .access 0 (.record (deleteRequest (ascii "abc")) (ascii "abc" ++ [0])) true]

/-- With `CAP_ACCESS` this is covered. -/
theorem performed_granted_delete :
    ∃ n fmm, (fmmMachine diskHost (.start {} capAccess [] twoFiles) SpawnGranted).Run n fmm ∧
      ∀ operation ∈ fmm.performed, operation.Granted capAccess ∧
        operation.Granted (helloFor capAccess).requestedCapabilities := by
  have hhandshake : performHandshake [] 1000 (helloFor capAccess) (some ⟨1000, 7⟩) true =
      some capAccess := by decide
  have hcan : (fmmMachine diskHost (.start {} capAccess [] twoFiles) SpawnGranted).CanExec
      spawnAndDelete (.start {} capAccess [] twoFiles) :=
    ⟨fun _ => by decide, trivial, trivial⟩
  have hrun := Machine.Run.start.exec hcan
  exact ⟨_, _, hrun, performed_granted diskHost hhandshake {} [] twoFiles hrun⟩

/-- A broker that was granted nothing has a file deleted. -/
theorem access_without_capability :
    performHandshake [] 1000 (helloFor 0) (some ⟨1000, 7⟩) true = some 0 ∧
    ((fmmMachine diskHost (.start {} 0 [] twoFiles) fun _ _ => True).exec
      spawnAndDelete (.start {} 0 [] twoFiles)).performed =
        [.access (deleteRequest (ascii "abc")) (.named .unlink (ascii "abc"))] ∧
    ((fmmMachine diskHost (.start {} 0 [] twoFiles) fun _ _ => True).exec
      spawnAndDelete (.start {} 0 [] twoFiles)).files.entries = [((1, ascii "xyz"), 3)] ∧
    ¬ (PrivilegedOperation.access (deleteRequest (ascii "abc"))
      (.named .unlink (ascii "abc"))).Granted 0 := by
  refine ⟨by decide, by decide, by decide, ?_⟩
  exact fun hgranted => hgranted (by decide)

/-- A worker was forked, has deleted a file and was left by the broker. -/
def workerGone : Fmm Disk :=
  (fmmMachine diskHost (.start {} capAccess [] twoFiles) fun _ _ => True).exec
    (spawnAndDelete ++ [.hangUpAccess 0]) (.start {} capAccess [] twoFiles)

/-- Once the worker is gone, the passing of the deadline is final: the one file that it deleted is
all that is ever done. -/
theorem giveUp_final_iff_lapse :
    workerGone.access.map (·.serving) = [false] ∧
    ∀ actions, ((fmmMachine diskHost (.start {} capAccess [] twoFiles) fun _ _ => True).exec
      actions (fmmStep diskHost .lapse workerGone)).performed =
        [.access (deleteRequest (ascii "abc")) (.named .unlink (ascii "abc"))] := by
  have hdone : (fmmStep diskHost .lapse workerGone).performed =
      [.access (deleteRequest (ascii "abc")) (.named .unlink (ascii "abc"))] := by decide
  have hgone : ∀ worker ∈ workerGone.access, worker.serving = false := by decide
  have hgives : FmmAction.GivesUp .lapse := trivial
  refine ⟨by decide, fun actions => ?_⟩
  rw [← hdone]
  exact (giveUp_final_iff diskHost _ workerGone hgives (by decide)).mpr hgone actions

/-- A worker is forked, the privilege is dropped, which is answered with OK, and the worker deletes
a file. -/
theorem performed_after_drop :
    (serveDatagram diskHost {} (controlDatagram .dropPrivilege)
      (fmmStep diskHost (.request (controlDatagram .spawnAccess) {})
        (.start {} capAccess [] twoFiles))).1 = some .ok ∧
    ((fmmMachine diskHost (.start {} capAccess [] twoFiles) fun _ _ => True).exec
      [.request (controlDatagram .spawnAccess) {}, .request (controlDatagram .dropPrivilege) {}]
      (.start {} capAccess [] twoFiles)).performed = [] ∧
    ((fmmMachine diskHost (.start {} capAccess [] twoFiles) fun _ _ => True).exec
      [.request (controlDatagram .spawnAccess) {}, .request (controlDatagram .dropPrivilege) {},
        .access 0 (.record (deleteRequest (ascii "abc")) (ascii "abc" ++ [0])) true]
      (.start {} capAccess [] twoFiles)).performed =
        [.access (deleteRequest (ascii "abc")) (.named .unlink (ascii "abc"))] := by
  refine ⟨by decide, by decide, by decide⟩

end AceShell
