import AceShell.Lib.Machine
import AceShell.Clipboard.Device

/-!
# Write sessions

The history of a unit records the sessions that were begun and the writes that were accepted, each
with the identifier the client was given or named, and `assembled` lays the writes of one session
over each other. An update should commit just that, but a post or a refresh moves `write_id` while a
session is open, and the unit cannot tell whose bytes its pending clip holds. The steps are the
locked parts of the requests, so that threads interleave in any way.
-/

namespace AceShell.Clipboard

open Option

/-! ## Histories -/

inductive Event
  | begun (id : ℤ)
  | wrote (id : ℤ) (offset : ℕ) (bytes : List UInt8)

/-- The bytes written under the identifier since its session began, later ones over earlier ones and
zeros in the gaps. -/
def assembled (id : ℤ) (history : List Event) : List UInt8 :=
  history.foldl
    (fun clip event =>
      match event with
      | .begun i => if i = id then [] else clip
      | .wrote i offset bytes => if i = id then overlay clip offset bytes else clip)
    []

def lastBegun (history : List Event) : Option ℤ :=
  history.foldl
    (fun last event =>
      match event with
      | .begun i => some i
      | .wrote _ _ _ => last)
    none

section Histories

variable (id : ℤ) (history : List Event) (offset : ℕ) (bytes : List UInt8)

@[simp] theorem assembled_begun : assembled id (history ++ [.begun id]) = [] := by
  simp [assembled]

@[simp] theorem assembled_wrote :
    assembled id (history ++ [.wrote id offset bytes]) =
      overlay (assembled id history) offset bytes := by
  simp [assembled]

@[simp] theorem lastBegun_begun : lastBegun (history ++ [.begun id]) = some id := by
  simp [lastBegun]

@[simp] theorem lastBegun_wrote :
    lastBegun (history ++ [.wrote id offset bytes]) = lastBegun history := by
  simp [lastBegun]

end Histories

/-! ## Steps -/

structure Sessions where
  unit : ClipUnit := {}
  history : List Event := []

inductive Action
  | write (grows : Bool) (request : IOClipReq)
  | update (commits : Bool) (request : IOClipReq)
  | post (request : IOClipReq)
  | refresh (loaded : Option (List UInt8))
  | read (cancelled : Bool) (request : IOClipReq)

def accepted (request : IOClipReq) (reply : Reply ClipUnit) : List Event :=
  if reply.outcome = .done then [.wrote reply.request.clipId request.offset request.bytes] else []

def writeEvents (grows : Bool) (unit : ClipUnit) (request : IOClipReq) : List Event :=
  let reply := writeClip grows unit request
  (if unit.Begins request ∧ reply.outcome ≠ .error .badAddress then [.begun reply.request.clipId]
    else []) ++ accepted request reply

def update (commits : Bool) (unit : ClipUnit) (request : IOClipReq) : Reply (ClipUnit × Unit) :=
  updateClip (fun _ _ => if commits then some () else none) unit () request

/-- One step of one client. -/
def act : Action → Sessions → Sessions
  | .write grows request, s =>
    ⟨(writeClip grows s.unit request).state, s.history ++ writeEvents grows s.unit request⟩
  | .update commits request, s => { s with unit := (update commits s.unit request).state.1 }
  | .post request, s => { s with unit := (post s.unit request).state }
  | .refresh loaded, s => { s with unit := lockedRefresh loaded s.unit }
  | .read cancelled request, s => { s with unit := (lockedRead cancelled s.unit request).state }

/-- A request that the unit takes to continue the open session names the session begun last. -/
def Orderly : Action → Sessions → Prop
  | .write _ request, s =>
    ¬ s.unit.Begins request → s.unit.Continues request → lastBegun s.history = some request.clipId
  | .update _ request, s =>
    s.unit.Continues request → lastBegun s.history = some request.clipId
  | _, _ => True

def clients : Machine Sessions Action where
  init := {}
  possible _ _ := True
  step := act

def orderlyClients : Machine Sessions Action where
  init := {}
  possible := Orderly
  step := act

/-! ## What the pending clip holds -/

def Faithful (s : Sessions) : Prop :=
  s.unit.writeActive → ∃ id, lastBegun s.history = some id ∧ s.unit.pending = assembled id s.history

variable {s : Sessions} {unit : ClipUnit}

theorem Faithful.frame (h : Faithful s) (hactive : unit.writeActive = s.unit.writeActive)
    (hpend : unit.pending = s.unit.pending) : Faithful { s with unit := unit } := by
  unfold Faithful at h ⊢
  rw [← hactive, ← hpend] at h
  exact h

variable {history : List Event}

theorem Faithful.begun (hpend : unit.pending = []) :
    Faithful ⟨unit, history ++ [.begun unit.writeId]⟩ :=
  fun _ => ⟨unit.writeId, lastBegun_begun _ _, by simp [hpend]⟩

theorem Faithful.wrote (h : Faithful ⟨unit, history⟩) (hactive : unit.writeActive) {id : ℤ}
    (hid : lastBegun history = some id) (offset : ℕ) (bytes : List UInt8) :
    Faithful ⟨{ unit with pending := overlay unit.pending offset bytes },
      history ++ [.wrote id offset bytes]⟩ := by
  intro _
  obtain ⟨last, hlast, hpend⟩ := h hactive
  obtain rfl : last = id := some.inj (hlast.symm.trans hid)
  refine ⟨last, ?_, ?_⟩
  · rw [lastBegun_wrote]
    exact hid
  · rw [assembled_wrote]
    exact congrArg (overlay · offset bytes) hpend

variable {request : IOClipReq}

theorem Faithful.fillPending (h : Faithful ⟨unit, history⟩) (hactive : unit.writeActive)
    (hid : lastBegun history = some request.clipId) (grows : Bool) :
    Faithful ⟨(fillPending grows unit request).state,
      history ++ accepted request (fillPending grows unit request)⟩ := by
  cases grows with
  | false =>
    show Faithful ⟨unit, history ++ []⟩
    rw [List.append_nil]
    exact h
  | true => exact h.wrote hactive hid request.offset request.bytes

def startedWrite (grows : Bool) (unit : ClipUnit) (request : IOClipReq) : Reply ClipUnit :=
  fillPending grows (beginWrite unit request)
    { request with clipId := (beginWrite unit request).writeId }

/-- What a write does to the unit and to the history: nothing, or it begins a session and goes on,
or it goes on in the open one. -/
theorem write_cases (grows : Bool) (unit : ClipUnit) (request : IOClipReq) :
    ((writeClip grows unit request).state = unit ∧ writeEvents grows unit request = []) ∨
    (writeClip grows unit request = startedWrite grows unit request ∧
      writeEvents grows unit request = [.begun (beginWrite unit request).writeId] ++
        accepted request (startedWrite grows unit request)) ∨
    ((¬ unit.Begins request ∧ unit.Continues request) ∧
      writeClip grows unit request = fillPending grows unit request ∧
      writeEvents grows unit request = accepted request (fillPending grows unit request)) := by
  unfold writeEvents
  by_cases haddress : request.length ≠ 0 ∧ request.data = none
  · have hreply : writeClip grows unit request = ⟨.error .badAddress, unit, request⟩ := by
      unfold writeClip
      rw [if_pos haddress]
    rw [hreply]
    simp [accepted]
  by_cases hbegins : unit.Begins request
  · have hreply : writeClip grows unit request = startedWrite grows unit request := by
      unfold writeClip
      rw [if_neg haddress, if_pos hbegins]
      rfl
    rw [hreply]
    refine .inr (.inl ⟨rfl, ?_⟩)
    cases grows <;> simp [startedWrite, fillPending, hbegins]
  by_cases hcont : unit.Continues request
  · have hreply : writeClip grows unit request = fillPending grows unit request := by
      unfold writeClip
      rw [if_neg haddress, if_neg hbegins, if_neg (not_not_intro hcont)]
    rw [hreply]
    simp [hbegins, hcont]
  · have hreply : writeClip grows unit request = ⟨.error .aborted, unit, request⟩ := by
      unfold writeClip
      rw [if_neg haddress, if_neg hbegins, if_pos hcont]
    rw [hreply]
    simp [hbegins, accepted]

theorem Faithful.write (h : Faithful s) {grows : Bool} (horderly : Orderly (.write grows request) s)
    : Faithful (act (.write grows request) s) := by
  show Faithful ⟨(writeClip grows s.unit request).state,
    s.history ++ writeEvents grows s.unit request⟩
  obtain ⟨hunit, hevents⟩ | ⟨hreply, hevents⟩ | ⟨⟨hfresh, hcont⟩, hreply, hevents⟩ :=
    write_cases grows s.unit request
  · rw [hunit, hevents, List.append_nil]
    exact h
  · have hbegun : Faithful ⟨beginWrite s.unit request,
        s.history ++ [.begun (beginWrite s.unit request).writeId]⟩ := Faithful.begun rfl
    rw [hreply, hevents, ← List.append_assoc]
    exact hbegun.fillPending rfl (lastBegun_begun _ _) grows
  · rw [hreply, hevents]
    exact Faithful.fillPending h hcont.1 (horderly hfresh hcont) grows

theorem update_cases (commits : Bool) (unit : ClipUnit) (request : IOClipReq) :
    ((update commits unit request).outcome ≠ .done ∧ (update commits unit request).state.1 = unit) ∨
    (unit.Continues request ∧ (update commits unit request).state.1 = closeWrite unit) := by
  obtain ⟨hfailed, hsame⟩ | ⟨hcont, _, -, hreply⟩ :=
    updateClip_cases (fun _ _ => if commits then some () else none) unit () request
  · exact .inl ⟨hfailed, congrArg Prod.fst hsame⟩
  · exact .inr ⟨hcont, congrArg (fun reply => reply.state.1) hreply⟩

theorem Faithful.act (h : Faithful s) {action : Action} (horderly : Orderly action s)
    : Faithful (act action s) := by
  cases action with
  | write grows request => exact h.write horderly
  | update commits request =>
    show Faithful { s with unit := (update commits s.unit request).state.1 }
    obtain ⟨-, hsame⟩ | ⟨-, hclosed⟩ := update_cases commits s.unit request
    · rw [hsame]
      exact h
    · rw [hclosed]
      exact nofun
  | post request => exact h.frame rfl rfl
  | refresh loaded =>
    show Faithful { s with unit := lockedRefresh loaded s.unit }
    unfold lockedRefresh
    split_ifs
    · exact h
    · exact h.frame rfl rfl
  | read cancelled request =>
  show Faithful { s with unit := (lockedRead cancelled s.unit request).state }
  unfold lockedRead
  split_ifs
  all_goals exact h.frame rfl rfl

/-- **Isolation.** In every run in which the requests that continue a session name the one begun
last, an update that succeeds commits exactly what was written under its identifier since that
session began. -/
theorem updates_commit_session {n : ℕ} {s : Sessions} (hrun : orderlyClients.Run n s)
    {commits : Bool} {request : IOClipReq} (horderly : Orderly (.update commits request) s)
    (hdone : (update commits s.unit request).outcome = .done) :
    (update commits s.unit request).state.1.committed =
      some (assembled request.clipId s.history) := by
  have hfaithful : Faithful s :=
    hrun.invariant (P := fun _ => Faithful) (fun hopen => absurd hopen Bool.false_ne_true)
      (fun _ _ _ _ _ horderly h => h.act horderly) (Nat.lt_succ_self n)
  obtain ⟨hfailed, -⟩ | ⟨hcontinues, hclosed⟩ := update_cases commits s.unit request
  · exact absurd hdone hfailed
  obtain ⟨id, hid, hpending⟩ := hfaithful hcontinues.1
  obtain rfl : id = request.clipId := some.inj (hid.symm.trans (horderly hcontinues))
  rw [hclosed, ← hpending]
  rfl

/-- Two writes of one session, with a gap between them, and its update. -/
theorem updates_commit_session_gap : let writes : List Action :=
      [.write true { length := 2, data := some [65, 66] },
        .write true { clipId := 1, offset := 4, length := 1, data := some [67] }]
    (update true (orderlyClients.exec writes {}).unit { clipId := 1 }).state.1.committed =
      some [65, 66, 0, 0, 67] := by
  intro writes
  have hcan : orderlyClients.CanExec writes {} :=
    ⟨fun hfresh => absurd (.inl rfl) hfresh, fun _ _ => rfl, trivial⟩
  have hrun := Machine.Run.exec .start hcan
  exact updates_commit_session hrun (fun _ => rfl) (by decide)

/-- A client writes a byte, another one posts a clip and updates it without having written: the
update commits the byte. -/
theorem posted_update_commits_other_session :
    ¬ ∀ (n : ℕ) (s : Sessions), clients.Run n s → ∀ (commits : Bool) (request : IOClipReq),
      (update commits s.unit request).outcome = .done →
        (update commits s.unit request).state.1.committed =
          some (assembled request.clipId s.history) := by
  intro h
  have hcan : clients.CanExec [.write true { length := 1, data := some [65] }, .post {}] {} :=
    ⟨trivial, trivial, trivial⟩
  have hcommitted := h _ _ (Machine.Run.exec .start hcan) true { clipId := 2 } (by decide)
  exact absurd hcommitted (by decide)

/-! ## Requests as steps -/

theorem update_eq {σ : Type} (commit : List UInt8 → σ → Option σ) (unit : ClipUnit) (store : σ)
    (request : IOClipReq) :
    let reply := update (commit unit.pending store).isSome unit request
    (updateClip commit unit store request).outcome = reply.outcome ∧
      (updateClip commit unit store request).state.1 = reply.state.1 := by
  unfold update updateClip
  by_cases hcont : unit.Continues request
  · simp only [if_neg (not_not_intro hcont)]
    cases commit unit.pending store <;> exact ⟨rfl, rfl⟩
  · simp only [if_pos hcont]
    trivial

section Requests

variable {η : Type} (program : HostProgram η) (number : ℕ) (luck : Luck)

theorem refreshUnitFromStore_unit {luck : Luck} {s s' : System η}
    (h : refreshUnitFromStore luck s = some s') :
    ∃ loaded, s'.unit = lockedRefresh loaded s.unit := by
  unfold refreshUnitFromStore at h
  split at h
  · exact ⟨_, congrArg System.unit (some.inj h).symm⟩
  · exact ⟨_, congrArg System.unit (some.inj h).symm⟩
  · exact nomatch h

/-- **Requests are steps.** What any request does to its unit is what some steps do. -/
theorem deviceIo_steps (command : Command) (s : System η) (request : IOClipReq)
    (history : List Event) :
    ∃ actions, (clients.exec actions ⟨s.unit, history⟩).unit =
      (deviceIo program number luck command s request).state.unit := by
  have hcur : ∃ actions, (clients.exec actions ⟨s.unit, history⟩).unit =
      (refreshed program number luck s).unit := by
    unfold refreshed
    dsimp only
    cases hrefresh : refreshUnitFromStore luck (refreshFromHost program number luck s) with
    | none => exact ⟨[], (refreshFromHost_unit program number luck s).symm⟩
    | some s' =>
      obtain ⟨loaded, hunit⟩ := refreshUnitFromStore_unit hrefresh
      rw [refreshFromHost_unit] at hunit
      exact ⟨[.refresh loaded], hunit.symm⟩
  cases command with
  | read =>
    unfold deviceIo readClip
    dsimp only
    by_cases hfst : request.clipId = 0
    · rw [if_pos hfst]
      cases hrefresh : refreshUnitFromStore luck (refreshFromHost program number luck s) with
      | none => exact ⟨[], (refreshFromHost_unit program number luck s).symm⟩
      | some s' =>
      obtain ⟨loaded, hunit⟩ := refreshUnitFromStore_unit hrefresh
      rw [refreshFromHost_unit] at hunit
      refine ⟨[.refresh loaded, .read luck.cancelled { request with actual := 0 }], ?_⟩
      dsimp only
      rw [hunit]
      rfl
    · rw [if_neg hfst]
      exact ⟨[.read luck.cancelled { request with actual := 0 }], rfl⟩
  | write => exact ⟨[.write luck.grows { request with actual := 0 }], rfl⟩
  | update => exact ⟨[.update _ { request with actual := 0 }], (update_eq _ _ _ _).2.symm⟩
  | post => exact ⟨[.post { request with actual := 0 }], rfl⟩
  | currentReadId => exact hcur
  | currentWriteId => exact hcur

end Requests

end AceShell.Clipboard
