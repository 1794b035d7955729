import AceShell.Paths.Mending
import AceShell.Shell.Session

/-!
# Requests that fail

A request that the broker answers with an error should leave the session as it was, but for what
the resolution of a path may mend. Two handlers write before they know that they will succeed: a
new assign is in its slot before its target is looked at, and PATH RESET empties the command paths
before the path is. `failed_request_iff` says that these are the only ones.
-/

namespace AceShell

open Text Option

variable {z : Zlib} {sys : System} {fuel index : ℕ} {errno : Option Errno} {e : Errno}

/-! ## What a failed request may leave behind -/

/-- The request makes an assign of a name that has none, and there is room for it. -/
def AssignRequest.LeavesEntry (request : AssignRequest) (session : Session) : Prop :=
  request.Creates ∧ ∃ name, request.assignName = some name ∧ session.findAssign name = none ∧
    none ∈ session.assigns

def ShellRequest.LeavesTrace (session : ShellSession) : ShellRequest → Prop
  | .assign request => request.LeavesEntry session.paths
  | .path _ flags => hasFlag flags pathReset = true ∧ session.commandPaths ≠ []
  | _ => False

structure ShellState.Kept (host : Host) (s s' : ShellState) : Prop where
  paths : Mended host s.session.paths s'.session.paths
  rest : s'.session = { s.session with paths := s'.session.paths }
  globalVars : s'.globalVars = s.globalVars

theorem ShellState.Kept.refl (host : Host) (s : ShellState) : s.Kept host s :=
  ⟨.refl host _, rfl, rfl⟩

variable {host : Host} {s : ShellState} {st : PathState}

theorem ShellState.Kept.of_mended (h : Mended host s.session.paths st.session)
    : s.Kept host (s.withPaths st) :=
  ⟨h, rfl, rfl⟩

/-! ## The current directory -/

variable {path : Name} {flags : UInt32} {s' : ShellState} {reply : Reply}

theorem setCwd_failed (h : setCwd z sys fuel errno path flags s = some (reply, s'))
    (hfail : reply.status = some e) : s.Kept sys.host s' := by
  unfold setCwd at h
  simp only at h
  generalize hres : (if hasFlag flags pathHost = true then
    some (normalizePath s.session.paths.cwd path maxListResult, s.pathState)
    else resolvePath z sys.host maxListResult fuel s.pathState path) = resolved at h
  have hmended : ∀ result st, resolved = some (result, st) →
      Mended sys.host s.session.paths st.session := by
    rintro result st rfl
    split_ifs at hres
    · cases hres
      exact .refl _ _
    · exact resolvePath_mended hres
  split at h
  · simp at h
  · cases h
    exact .of_mended (hmended _ _ rfl)
  split at h
  · cases h
    exact .of_mended (hmended _ _ rfl)
  split_ifs at h
  · cases h
    simp [Reply.ok] at hfail
  · cases h
    exact .of_mended (hmended _ _ rfl)

/-! ## Assigns -/

variable {session session' : Session} {name : Name}

theorem not_mended_of_fresh (hfree : session.assigns[index]? = some none)
    (h : Mended sys.host (session.setSlot index (some (.fresh name))) session') :
    ¬ Mended sys.host session session' := by
  intro hkept
  have hfresh : (session.setSlot index (some (.fresh name))).assigns[index]? =
      some (some (.fresh name)) :=
    List.getElem?_set_self (List.getElem?_eq_some_iff.mp hfree).1
  obtain ⟨slot, hslot, hmended⟩ := h.slots index _ hfresh
  obtain ⟨slot', hslot', hmended'⟩ := hkept.slots index _ hfree
  obtain rfl := some.inj (hslot.symm.trans hslot')
  cases hmended with
  | bound _ hlate => cases hlate
  | same =>
  cases hmended' with
  | repaired hroot hent =>
    rcases hent with ⟨hlong, -⟩ | hmade
    · exact absurd (sys.clipboard_fits _ hroot) (Nat.not_lt.mpr hlong)
    · cases hmade

theorem not_free_of_allocateAssign (hlen : name.length < maxName)
    (h : session.allocateAssign name = none) :
    ¬ (session.findAssign name = none ∧ none ∈ session.assigns) := by
  rintro ⟨hfind, hfree⟩
  unfold Session.allocateAssign at h
  rw [hfind] at h
  cases hslot : session.assigns.findIdx? (·.isNone) with
  | none => simpa using List.findIdx?_eq_none_iff.mp hslot none hfree
  | some index => simp [hslot, Nat.not_le.mpr hlen] at h

theorem mended_of_allocateAssign {session'' : Session}
    (hal : session.allocateAssign name = some (index, session'))
    (h : Mended sys.host session' session'') :
    Mended sys.host session session'' ↔
      ¬ (session.findAssign name = none ∧ none ∈ session.assigns) := by
  rcases allocateAssign_eq hal with ⟨hfind, rfl⟩ | ⟨hfind, hfree, rfl⟩
  · exact iff_of_true h (by rw [hfind]; simp)
  · refine iff_of_false (not_mended_of_fresh hfree h) (not_not_intro ⟨hfind, ?_⟩)
    exact List.mem_of_getElem? hfree

variable {request : AssignRequest}

theorem assignName_length (h : request.assignName = some name) : name.length < maxName := by
  unfold AssignRequest.assignName at h
  generalize (if request.path.getLast? = some colon then request.path.dropLast
    else request.path) = stripped at h
  simp only at h
  split_ifs at h with hbad
  obtain rfl := some.inj h
  exact Nat.not_le.mp (not_or.mp hbad).2

variable {st' : PathState}

theorem handleAssign_failed
    (h : handleAssign z sys.host fuel errno request st = some (some e, st')) :
    Mended sys.host st.session st'.session ↔ ¬ request.LeavesEntry st.session := by
  have hleaves {name : Name} (hname : request.assignName = some name) (hcreates : request.Creates) :
      request.LeavesEntry st.session ↔
        st.session.findAssign name = none ∧ none ∈ st.session.assigns := by
    constructor
    · rintro ⟨-, name', hsome, hfree⟩
      rwa [some.inj (hname.symm.trans hsome)]
    · exact fun hfree => ⟨hcreates, name, hname, hfree⟩
  cases handleAssign_step h with
  | unchanged hfull =>
    refine iff_of_true (.refl _ _) fun ⟨hcreates, name, hname, hfree⟩ => ?_
    exact not_free_of_allocateAssign (assignName_length hname) (hfull hcreates name hname) hfree
  | tooLong hname hcreates hal =>
    rw [hleaves hname hcreates]
    exact mended_of_allocateAssign hal (.refl _ _)
  | refused hname htgts hcanon =>
  have hmended := canonicalAssignTarget_mended hcanon
  cases htgts with
  | removeItem hitem hfind =>
    exact iff_of_true hmended fun hno =>
      Bool.false_ne_true (hno.1.2.2.1.symm.trans hitem)
  | add hrem hitem hadd hfind =>
    exact iff_of_true hmended fun hno =>
      Bool.false_ne_true (hno.1.2.2.2.symm.trans hadd)
  | set hcreates hplain hal =>
    rw [hleaves hname hcreates]
    exact mended_of_allocateAssign hal hmended

theorem changeAssign_failed (h : changeAssign z sys fuel errno request s = some (reply, s'))
    (hfail : reply.status = some e) :
    s.Kept sys.host s' ↔ ¬ request.LeavesEntry s.session.paths := by
  obtain ⟨⟨status, st⟩, hstep, heq⟩ := map_eq_some_iff.mp h
  cases heq
  obtain rfl : status = some e := hfail
  refine Iff.trans ?_ (handleAssign_failed hstep)
  exact ⟨fun hkept => hkept.paths, fun hmended => .of_mended hmended⟩

/-! ## Command paths -/

theorem canonicalCommandPath_mended {input : Name} {result : Except Errno Name}
    (h : canonicalCommandPath z sys fuel st input = some (result, st')) :
    Mended sys.host st.session st'.session := by
  unfold canonicalCommandPath at h
  split at h
  · simp at h
  · next hres =>
    cases h
    exact resolvePath_mended hres
  rename_i hres
  have hmended := resolvePath_mended hres
  split at h
  · cases h
    exact hmended
  simp only at h
  split_ifs at h <;>
  · cases h
    exact hmended

theorem changePath_failed (h : changePath z sys fuel path flags s = some (reply, s'))
    (hfail : reply.status = some e) :
    s.Kept sys.host s' ↔ ¬ (hasFlag flags pathReset = true ∧ s.session.commandPaths ≠ []) := by
  unfold changePath at h
  simp only at h
  generalize hreset : (if hasFlag flags pathReset = true then s.withCommandPaths [] else s) = s₀
    at h
  have hkept : s₀.Kept sys.host s' := by
    split_ifs at h
    · cases h
      simp [Reply.ok] at hfail
    split at h
    · simp at h
    · next hcanon =>
      cases h
      exact .of_mended (canonicalCommandPath_mended hcanon)
    rename_i hcanon
    split at h
    · cases h
      exact .of_mended (canonicalCommandPath_mended hcanon)
    · cases h
      simp [Reply.ok] at hfail
  by_cases hflag : hasFlag flags pathReset = true
  · rw [if_pos hflag] at hreset
    subst hreset
    have hpaths : s'.session.commandPaths = [] := by
      rw [hkept.rest]
      rfl
    simp only [hflag, true_and, not_not]
    constructor
    · intro h
      rw [← hpaths, h.rest]
    · intro hnil
      refine ⟨hkept.paths, hkept.rest.trans ?_, hkept.globalVars⟩
      simp [ShellState.withCommandPaths, ← hnil]
  · rw [if_neg hflag] at hreset
    exact iff_of_true (hreset ▸ hkept) fun hand => hflag hand.1

/-! ## Variables and the rest -/

theorem serveVariable_failed {request : VarRequest} {vars vars' : Vars}
    (h : serveVariable vars request = (reply, vars')) (hfail : reply.status = some e) :
    vars' = vars := by
  cases request with
  | getVar path flags => exact (Prod.mk.inj h).2.symm
  | listVars flags => exact (Prod.mk.inj h).2.symm
  | setVar path value flags =>
    simp only [serveVariable, setVar] at h
    split at h
    · exact (Prod.mk.inj h).2.symm
    split at h
    · exact (Prod.mk.inj h).2.symm
    · simp [← (Prod.mk.inj h).1, Reply.ok] at hfail
  | delVar path flags =>
  simp only [serveVariable, delVar] at h
  split_ifs at h
  · exact (Prod.mk.inj h).2.symm
  split at h
  · exact (Prod.mk.inj h).2.symm
  · simp [← (Prod.mk.inj h).1, Reply.ok] at hfail

theorem setFailLevel_failed (hfail : (setFailLevel path s).1.status = some e)
    : (setFailLevel path s).2 = s := by
  unfold setFailLevel at hfail ⊢
  split
  · rfl
  · next hnum => simp [hnum, Reply.ok] at hfail

theorem setPrompt_failed (hfail : (setPrompt path s).1.status = some e)
    : (setPrompt path s).2 = s := by
  unfold setPrompt at hfail ⊢
  split_ifs at hfail ⊢
  · rfl
  · simp [Reply.ok] at hfail

theorem setResult_failed {value : Name} (hfail : (setResult path value s).1.status = some e)
    : (setResult path value s).2 = s := by
  unfold setResult at hfail ⊢
  split
  · next hcode hres => simp [hcode, hres, Reply.ok] at hfail
  · rfl

/-! ## All requests -/

namespace Shells

/-- Nothing has changed in any session but what a resolution mends in the one in slot `index`. -/
structure Kept (host : Host) (index : ℕ) (s s' : Shells) : Prop where
  own : (s.view index).Kept host (s'.view index)
  others : ∀ other ≠ index, s'.sessionAt other = s.sessionAt other

theorem view_update {s : Shells} (hslot : index < s.data.length) (state : ShellState) :
    (s.update index state).view index = state := by
  simp [view, update, sessionAt, hslot]

theorem sessionAt_update (s : Shells) (state : ShellState) {other : ℕ} (hother : other ≠ index) :
    (s.update index state).sessionAt other = s.sessionAt other := by
  simp [update, sessionAt, List.getElem?_set_ne hother.symm]

theorem kept_update {s : Shells} (hslot : index < s.data.length) (state : ShellState) :
    s.Kept host index (s.update index state) ↔ (s.view index).Kept host state := by
  constructor
  · intro h
    have hown := h.own
    rwa [view_update hslot] at hown
  · intro h
    refine ⟨?_, fun other hother => sessionAt_update s state hother⟩
    rwa [view_update hslot]

theorem kept_of_same {s : Shells} (hslot : index < s.data.length) {state : ShellState}
    (hsame : state = s.view index) (host : Host) : s.Kept host index (s.update index state) :=
  (kept_update hslot state).mpr (hsame ▸ .refl host _)

theorem cloneSession_failed {s : Shells} (hfail : (s.cloneSession sys index path).1.status = some e)
    (host : Host) : s.Kept host index (s.cloneSession sys index path).2 := by
  unfold cloneSession at hfail ⊢
  split_ifs at hfail ⊢
  · exact ⟨.refl _ _, fun _ _ => rfl⟩
  · exact ⟨.refl _ _, fun _ _ => rfl⟩
  split
  · exact ⟨.refl _ _, fun _ _ => rfl⟩
  rename_i hfind
  split
  · exact ⟨.refl _ _, fun _ _ => rfl⟩
  · next hget => simp [hfind, hget, Reply.ok] at hfail

/-- **Failed requests.** A request answered with an error leaves every session, its own and the
others, as it was, but for what path resolution mends, exactly when it is neither an ASSIGN that
was to make a new entry with a slot free for it nor a PATH RESET of a list that is not empty. -/
theorem failed_request_iff (z : Zlib) (sys : System) {fuel : ℕ} {errno : Option Errno} {index : ℕ}
    {request : ShellRequest} {s s' : Shells} {reply : Reply} {e : Errno}
    (hslot : index < s.data.length)
    (hserve : s.serve z sys fuel errno index request = some (reply, s'))
    (hfail : reply.status = some e) :
    s.Kept sys.host index s' ↔ ¬ request.LeavesTrace (s.sessionAt index) := by
  have hhandled : ∀ (replied : Option (Reply × ShellState)),
      replied.map (fun reply => (reply.1, s.update index reply.2)) = some (reply, s') →
        ∃ state, replied = some (reply, state) ∧ s' = s.update index state := by
    intro replied heq
    obtain ⟨⟨reply', state⟩, hreplied, hpair⟩ := map_eq_some_iff.mp heq
    obtain ⟨rfl, rfl⟩ := Prod.mk.inj hpair
    exact ⟨state, hreplied, rfl⟩
  cases request with
  | setCwd path flags =>
    obtain ⟨state, hreplied, rfl⟩ := hhandled _ hserve
    exact iff_of_true ((kept_update hslot state).mpr (setCwd_failed hreplied hfail)) not_false
  | assign request =>
    obtain ⟨state, hreplied, rfl⟩ := hhandled _ hserve
    exact (kept_update hslot state).trans (changeAssign_failed hreplied hfail)
  | path path flags =>
    obtain ⟨state, hreplied, rfl⟩ := hhandled _ hserve
    exact (kept_update hslot state).trans (changePath_failed hreplied hfail)
  | vars request =>
    obtain ⟨hreply, rfl⟩ := Prod.mk.inj (some.inj hserve)
    have hvars : (serveVariable (s.view index).vars request).2 = (s.view index).vars :=
      serveVariable_failed (Prod.ext hreply rfl) hfail
    exact iff_of_true (kept_of_same hslot (congrArg (s.view index).withVars hvars) _) not_false
  | setFailLevel path =>
    cases hserve
    exact iff_of_true (kept_of_same hslot (setFailLevel_failed hfail) _) not_false
  | setPrompt path =>
    cases hserve
    exact iff_of_true (kept_of_same hslot (setPrompt_failed hfail) _) not_false
  | setResult path value =>
    cases hserve
    exact iff_of_true (kept_of_same hslot (setResult_failed hfail) _) not_false
  | cloneSession path =>
    obtain ⟨hreply, rfl⟩ := Prod.mk.inj (some.inj hserve)
    rw [← hreply] at hfail
    exact iff_of_true (cloneSession_failed hfail sys.host) not_false

end Shells

def pathShell : Shells where
  broker := { Broker.start with sessions := [some ⟨ascii "sh", 1, 0⟩], sessionClock := 1 }
  data := [{ ShellSession.initial flatSystem with commandPaths := [ascii "/sys/C"] }]
  globalVars := .cleared
  cat := emptyCatalog

/-- `CD NOSUCH:` fails and leaves the session as it was. -/
theorem failed_request_iff_setCwd :
    ∃ s', pathShell.serve storedZlib flatSystem 5 none 0 (.setCwd (ascii "NOSUCH:") 0) =
        some (.fail .enodev, s') ∧ pathShell.Kept flatHost 0 s' := by
  have hreply : (pathShell.serve storedZlib flatSystem 5 none 0
      (.setCwd (ascii "NOSUCH:") 0)).map Prod.fst = some (.fail .enodev) := by
    decide +kernel
  obtain ⟨⟨reply, s'⟩, hserve, rfl⟩ := map_eq_some_iff.mp hreply
  exact ⟨s', hserve,
    (Shells.failed_request_iff storedZlib flatSystem (by decide) hserve rfl).mpr not_false⟩

/-- `ASSIGN Foo: NOSUCH:` fails and leaves an assign `Foo:` behind; `PATH NOSUCH: RESET` fails and
leaves no command path. -/
theorem failed_requests_leave_traces :
    (∃ s', pathShell.serve storedZlib flatSystem 5 none 0
        (.assign ⟨ascii "Foo:", ascii "NOSUCH:", 0⟩) = some (.fail .enodev, s') ∧
      (pathShell.sessionAt 0).paths.entryAt 10 = none ∧
      (s'.sessionAt 0).paths.entryAt 10 = some (.fresh (ascii "Foo")) ∧
      ¬ pathShell.Kept flatHost 0 s') ∧
    ∃ s', pathShell.serve storedZlib flatSystem 5 none 0 (.path (ascii "NOSUCH:") pathReset) =
        some (.fail .enodev, s') ∧
      (pathShell.sessionAt 0).commandPaths = [ascii "/sys/C"] ∧
      (s'.sessionAt 0).commandPaths = [] ∧ ¬ pathShell.Kept flatHost 0 s' := by
  constructor
  · have hreply : (pathShell.serve storedZlib flatSystem 5 none 0
        (.assign ⟨ascii "Foo:", ascii "NOSUCH:", 0⟩)).map
          (fun reply => (reply.1, (reply.2.sessionAt 0).paths.entryAt 10)) =
        some (.fail .enodev, some (.fresh (ascii "Foo"))) := by
      decide +kernel
    obtain ⟨⟨reply, s'⟩, hserve, heq⟩ := map_eq_some_iff.mp hreply
    obtain ⟨rfl, hentry⟩ := Prod.mk.inj heq
    have hslot : (pathShell.sessionAt 0).paths.assigns[10]? = some none := by decide +kernel
    refine ⟨s', hserve, by decide +kernel, hentry, fun hkept => ?_⟩
    obtain ⟨slot, hslot', hmended⟩ := hkept.own.paths.slots 10 none hslot
    obtain rfl := some.inj (hslot'.symm.trans (getElem?_of_entryAt hentry))
    cases hmended with
    | repaired hroot _ => cases hroot
  · have hreply : (pathShell.serve storedZlib flatSystem 5 none 0
        (.path (ascii "NOSUCH:") pathReset)).map
          (fun reply => (reply.1, (reply.2.sessionAt 0).commandPaths)) =
        some (.fail .enodev, []) := by
      decide +kernel
    obtain ⟨⟨reply, s'⟩, hserve, heq⟩ := map_eq_some_iff.mp hreply
    obtain ⟨rfl, hpaths⟩ := Prod.mk.inj heq
    refine ⟨s', hserve, rfl, hpaths, fun hkept => ?_⟩
    have hsame := congrArg ShellSession.commandPaths hkept.own.rest
    have hempty : (pathShell.sessionAt 0).commandPaths = [] := hsame.symm.trans hpaths
    cases hempty

end AceShell
