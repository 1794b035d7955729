import AceShell.Clipboard.Sessions

/-!
# Read sessions

A reader under one identifier, among other clients of its unit. The unit knows a read session by its
identifier only, which neither an update nor a refresh changes, while both replace the committed
clip: a session goes on in the new clip where it was in the old one (`session_mixes_clips`).
-/

namespace AceShell.Clipboard

open List

/-- A unit and one reader with its last request. `clip` is the clip that was committed when its
session began, `start` the offset it began at and `got` what it has got since, with `none` for the
bytes it passed over without a buffer. -/
structure Reader where
  unit : ClipUnit := {}
  request : IOClipReq := {}
  isOver : Bool := true
  clip : List UInt8 := []
  start : ℕ := 0
  got : List (Option UInt8) := []

inductive ReaderStep
  | others (action : Action)
  | begin (cancelled : Bool) (offset length : ℕ) (data : Option (List UInt8))
  | goOn (length : ℕ) (data : Option (List UInt8))

def passed (request : IOClipReq) : List (Option UInt8) :=
  match request.data with
  | some buffer => (buffer.take request.actual).map some
  | none => replicate request.actual none

namespace Reader

/-- The locked part of `read_clip`. The reader is told that its session is over by an error, or by
the identifier -1. -/
def serve (cancelled : Bool) (request : IOClipReq) (s : Reader) : Reader :=
  let reply := lockedRead cancelled s.unit { request with actual := 0 }
  { s with
    unit := reply.state
    request := reply.request
    isOver := decide (reply.outcome ≠ .done ∨ reply.request.clipId = -1)
    got := s.got ++ passed reply.request }

def act : ReaderStep → Reader → Reader
  | .others action, s => { s with unit := (Clipboard.act action ⟨s.unit, []⟩).unit }
  | .begin cancelled offset length data, s =>
    serve cancelled { offset, length, data }
      { s with clip := s.unit.committed.getD [], start := offset, got := [] }
  | .goOn length data, s => s.serve false { s.request with length, data }

/-- The reader goes on while it has not been told that its session is over. The store neither takes
nor gives a clip above its limit. -/
def machine : Machine Reader ReaderStep where
  init := {}
  possible := fun step s => match step with
    | .goOn _ _ => s.isOver = false
    | .others (.update commits _) => commits = true → s.unit.pending.length ≤ maxSize
    | .others (.refresh loaded) => (loaded.getD []).length ≤ maxSize
    | _ => True
  step := act

/-- What the reader gets is what was committed when its session began. -/
def Steady : ReaderStep → Reader → Prop
  | .goOn _ _, s => s.request.clipId = 0 ∨ s.request.clipId = s.unit.readId →
    s.unit.committed.getD [] = s.clip
  | _, _ => True

def steadyMachine : Machine Reader ReaderStep :=
  { machine with possible := fun step s => machine.possible step s ∧ s.Steady step }

/-- Every byte the reader has got is that of the clip at its offset. -/
def SeesOne (s : Reader) : Prop :=
  ∀ i byte, s.got[i]? = some (some byte) → s.clip[s.start + i]? = some byte

structure Sound (s : Reader) : Prop where
  sees : s.SeesOne
  offset : s.isOver = false → s.request.offset = s.start + s.got.length
  stored : (s.unit.committed.getD []).length ≤ maxSize

end Reader

variable {unit : ClipUnit} {request : IOClipReq}

theorem passed_nil (h : request.actual = 0) : passed request = [] := by
  unfold passed
  rw [h]
  split <;> simp

/-- What is copied out is the clip from the offset on, and the offset moves behind it. -/
theorem copyOut_spec (request : IOClipReq)
    (hshort : (unit.committed.getD []).length < 2 ^ 32) :
    (∀ i byte, (passed (copyOut unit request))[i]? = some (some byte) →
      (unit.committed.getD [])[request.offset + i]? = some byte) ∧
    ((copyOut unit request).clipId ≠ -1 →
      (copyOut unit request).offset = request.offset + (passed (copyOut unit request)).length) := by
  unfold copyOut
  dsimp only
  split_ifs with hend
  · rw [passed_nil rfl]
    simp
  have hfits : (request.offset + min request.length
      ((unit.committed.getD []).length - request.offset)) % 2 ^ 32 = _ :=
    Nat.mod_eq_of_lt (by omega)
  rw [hfits]
  unfold passed
  cases request.data with
  | none => simp [getElem?_replicate]
  | some buffer =>
    dsimp only [Option.map_some]
    rw [overlay_zero, take_left' (by rw [length_take, length_drop]; omega)]
    refine ⟨fun i byte h => ?_, fun _ => ?_⟩
    · rw [getElem?_map, getElem?_take] at h
      split_ifs at h
      · simpa using h
      · simp at h
    · rw [length_map, length_take, length_drop]
      omega

theorem lockedRead_cases (cancelled : Bool) (unit : ClipUnit) (request : IOClipReq)
    (hactual : request.actual = 0) :
    let reply := lockedRead cancelled unit request
    passed reply.request = [] ∧ (reply.outcome ≠ .done ∨ reply.request.clipId = -1) ∨
      (request.clipId = 0 ∨ request.clipId = unit.readId) ∧
        ∃ id, reply.request = copyOut unit { request with clipId := id } := by
  unfold lockedRead
  split_ifs with hzero hposted _ hnone hid
  · exact .inl ⟨passed_nil hactual, .inl nofun⟩
  · exact .inl ⟨passed_nil hactual, .inl nofun⟩
  · exact .inl ⟨passed_nil rfl, .inr rfl⟩
  · exact .inr ⟨.inl hzero, _, rfl⟩
  · exact .inl ⟨passed_nil hactual, .inl nofun⟩
  · exact .inr ⟨.inr (not_not.mp hid), request.clipId, rfl⟩

theorem committed_lockedRead (cancelled : Bool) (unit : ClipUnit) (request : IOClipReq) :
    (lockedRead cancelled unit request).state.committed = unit.committed := by
  unfold lockedRead
  split_ifs
  all_goals rfl

theorem committed_writeClip (grows : Bool) (unit : ClipUnit) (request : IOClipReq) :
    (writeClip grows unit request).state.committed = unit.committed := by
  unfold writeClip fillPending
  split_ifs
  all_goals rfl

theorem committed_update (commits : Bool) (unit : ClipUnit) (request : IOClipReq) :
    (update commits unit request).state.1.committed = unit.committed ∨
      commits = true ∧ (update commits unit request).state.1.committed = some unit.pending := by
  cases commits with
  | false =>
    refine .inl (congrArg ClipUnit.committed ?_)
    unfold update updateClip
    by_cases hcontinues : unit.Continues request
    · rw [if_neg (not_not_intro hcontinues)]
      rfl
    · rw [if_pos hcontinues]
  | true =>
    obtain ⟨-, hsame⟩ | ⟨-, hclosed⟩ := update_cases true unit request
    · exact .inl (congrArg ClipUnit.committed hsame)
    · exact .inr ⟨rfl, congrArg ClipUnit.committed hclosed⟩

namespace Reader

variable {s : Reader}

theorem stored_others {action : Action} (hpossible : machine.possible (.others action) s)
    (h : (s.unit.committed.getD []).length ≤ maxSize) :
    ((s.act (.others action)).unit.committed.getD []).length ≤ maxSize := by
  cases action with
  | write grows request =>
    show ((writeClip grows s.unit request).state.committed.getD []).length ≤ _
    rw [committed_writeClip]
    exact h
  | update commits request =>
    show ((update commits s.unit request).state.1.committed.getD []).length ≤ _
    obtain hsame | ⟨hcommits, hpending⟩ := committed_update commits s.unit request
    · rw [hsame]
      exact h
    · rw [hpending]
      exact hpossible hcommits
  | post request => exact h
  | refresh loaded =>
    show ((lockedRefresh loaded s.unit).committed.getD []).length ≤ _
    rw [lockedRefresh_committed]
    exact hpossible
  | read cancelled request =>
    show ((lockedRead cancelled s.unit request).state.committed.getD []).length ≤ _
    rw [committed_lockedRead]
    exact h

theorem serve_sound (request : IOClipReq) (h : s.SeesOne)
    (hoffset : request.offset = s.start + s.got.length)
    (hstored : (s.unit.committed.getD []).length ≤ maxSize)
    (hclip : request.clipId = 0 ∨ request.clipId = s.unit.readId →
      s.unit.committed.getD [] = s.clip) (cancelled : Bool) :
    (s.serve cancelled request).Sound := by
  have hkept : ((s.serve cancelled request).unit.committed.getD []).length ≤ maxSize := by
    show ((lockedRead cancelled s.unit _).state.committed.getD []).length ≤ _
    rw [committed_lockedRead]
    exact hstored
  rcases lockedRead_cases cancelled s.unit { request with actual := 0 } rfl with
    ⟨hnil, hover⟩ | ⟨hid, id, hrequest⟩
  · refine ⟨?_, fun hopen => ?_, hkept⟩
    · show ∀ i byte, (s.got ++ passed _)[i]? = _ → _
      rw [hnil, append_nil]
      exact h
    · exact absurd hover (of_decide_eq_false hopen)
  have hsame := hclip hid
  obtain ⟨hbytes, hmoved⟩ := @copyOut_spec s.unit
    { request with actual := 0, clipId := id } (hstored.trans_lt (by decide))
  rw [← hrequest] at hbytes hmoved
  refine ⟨fun i byte hi => ?_, fun hopen => ?_, hkept⟩
  · change (s.got ++ passed _)[i]? = _ at hi
    change s.clip[s.start + i]? = _
    by_cases hold : i < s.got.length
    · rw [getElem?_append_left hold] at hi
      exact h i byte hi
    · rw [getElem?_append_right (Nat.not_lt.mp hold)] at hi
      have hgot := hbytes _ byte hi
      rw [hsame, hoffset] at hgot
      rwa [show s.start + i = s.start + s.got.length + (i - s.got.length) by omega]
  · have hopen' := not_or.mp (of_decide_eq_false hopen)
    have hafter := hmoved hopen'.2
    change (lockedRead _ _ _).request.offset = s.start + (s.got ++ passed _).length
    rw [hafter, length_append, ← Nat.add_assoc]
    exact congrArg (· + _) hoffset

theorem Sound.act (h : s.Sound) {step : ReaderStep} (hpossible : machine.possible step s)
    (hsteady : s.Steady step) : (s.act step).Sound := by
  cases step with
  | others action => exact { h with stored := stored_others hpossible h.stored }
  | begin cancelled offset length data =>
    let begun : Reader := { s with clip := s.unit.committed.getD [], start := offset, got := [] }
    have hnone : begun.SeesOne := nofun
    exact serve_sound { offset, length, data } hnone rfl h.stored (fun _ => rfl) cancelled
  | goOn length data =>
    exact serve_sound { s.request with length, data } h.sees (h.offset hpossible) h.stored hsteady
      false

/-- **A read session sees one clip, while that is the unit's.** In every run in which, whenever the
reader goes on and its identifier is still the unit's, the committed clip is the one its session
began with, all it gets is from that clip, at consecutive offsets. -/
theorem session_sees_one {n : ℕ} (hrun : steadyMachine.Run n s) : s.SeesOne := by
  have hinit : Sound {} := ⟨nofun, nofun, Nat.zero_le _⟩
  refine (hrun.invariant (P := fun _ => Sound) hinit ?_ (Nat.lt_succ_self n)).sees
  rintro _ s step - - ⟨hpossible, hsteady⟩ h
  exact h.act hpossible hsteady

/-- Another client commits a clip under the given identifier. -/
def commits (id : ℤ) (clip : List UInt8) : List ReaderStep :=
  [.others (.write true { length := clip.length, data := some clip }),
    .others (.update true { clipId := id })]

/-- The reader takes two bytes one by one, while another client writes. -/
theorem session_sees_one_twice :
    ∃ n s, steadyMachine.Run n s ∧ s.got = [some 65, some 66] ∧ s.SeesOne := by
  have hcan : steadyMachine.CanExec (commits 1 [65, 66] ++ [.begin false 0 1 (some [0]),
      .others (.write true {}), .goOn 1 (some [0])]) {} := by
    refine ⟨⟨trivial, trivial⟩, ⟨fun _ => ?_, trivial⟩, ⟨trivial, trivial⟩, ⟨trivial, trivial⟩,
      ⟨rfl, fun _ => ?_⟩, trivial⟩
    all_goals decide
  have hrun := Machine.Run.start.exec hcan
  exact ⟨_, _, hrun, by decide, session_sees_one hrun⟩

def mixing : List ReaderStep := commits 1 [65, 65] ++ .begin false 0 1 (some [0]) ::
  (commits 2 [66, 66] ++ [.goOn 1 (some [0])])

/-- Between two reads another client commits a clip: the reader gets a byte of each, and is not told
anything. -/
theorem session_mixes_clips :
    machine.CanExec mixing {} ∧ (machine.exec mixing {}).got = [some 65, some 66] ∧
      (machine.exec mixing {}).isOver = false ∧ ∀ k < 7,
        (machine.exec (mixing.take k) {}).unit.committed ∈
          [none, some [65, 65], some [66, 66]] := by
  refine ⟨⟨trivial, fun _ => ?_, trivial, trivial, fun _ => ?_, rfl, trivial⟩, ?_, ?_, ?_⟩
  all_goals decide

end Reader

end AceShell.Clipboard
