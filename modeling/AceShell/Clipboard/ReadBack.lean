import AceShell.Clipboard.Sessions

/-!
# Reading back what was committed

Whether a read session returns the committed clip is decided by the refresh at its start. For the
primary unit that imports the text of the host clipboard, unless this is also the text of the clip:
a host that was not changed, or could not be, is taken for one that another program has changed.
-/

namespace AceShell.Clipboard

open List Option

variable {unit : ClipUnit} {clip buffer : List UInt8} {request : IOClipReq} {luck : Luck}

section ReadBack

variable {η : Type} (program : HostProgram η) (number : ℕ)

/-! ## Read sessions -/

def IOClipReq.received (request : IOClipReq) : List UInt8 :=
  (request.data.getD []).take request.actual

/-- Reads of the given lengths with one request, up to the end of the clip. No result if a read
fails, or waits. -/
def readOn (luck : Luck) : List ℕ → System η → IOClipReq → Option (List UInt8)
  | [], _, _ => some []
  | length :: lengths, s, request =>
    if request.clipId = -1 then some []
    else
      let reply := deviceIo program number luck .read s
        { request with length := length, data := some (replicate length 0) }
      if reply.outcome = .done then
        (readOn luck lengths reply.state reply.request).map (reply.request.received ++ ·)
      else none

/-- A read session. -/
def readSession (luck : Luck) (lengths : List ℕ) (s : System η) : Option (List UInt8) :=
  readOn program number luck lengths s {}

theorem copyOut_end (hclip : unit.committed = some clip) (hend : clip.length ≤ request.offset) :
    (copyOut unit request).clipId = -1 ∧ (copyOut unit request).received = [] := by
  have hcopy : copyOut unit request = { request with actual := 0, clipId := -1 } := by
    unfold copyOut
    rw [hclip]
    exact if_pos hend
  rw [hcopy]
  exact ⟨rfl, take_zero⟩

theorem copyOut_inside (hclip : unit.committed = some clip) (hsize : clip.length < 2 ^ 32)
    (hin : request.offset < clip.length) (hbuf : request.data = some buffer) :
    (copyOut unit request).clipId = request.clipId ∧
      (copyOut unit request).offset = min (request.offset + request.length) clip.length ∧
      (copyOut unit request).received = (clip.drop request.offset).take request.length := by
  have hcopy : copyOut unit request =
      let actual := min request.length (clip.length - request.offset)
      { request with
        data := request.data.map fun buffer =>
          overlay buffer 0 ((clip.drop request.offset).take actual)
        actual := actual
        offset := (request.offset + actual) % 2 ^ 32 } := by
    unfold copyOut
    rw [hclip]
    exact if_neg (Nat.not_le.mpr hin)
  have hactual : ((clip.drop request.offset).take
      (min request.length (clip.length - request.offset))).length =
        min request.length (clip.length - request.offset) := by
    rw [length_take, length_drop]
    omega
  rw [hcopy]
  refine ⟨rfl, ?_, ?_⟩
  · dsimp only
    omega
  unfold IOClipReq.received
  dsimp only
  rw [hbuf, map_some, getD_some, overlay_zero, take_left' hactual,
    ← length_drop, ← take_eq_take_min]

theorem readOn_over (luck : Luck) (lengths : List ℕ) (s : System η) (h : request.clipId = -1)
    : readOn program number luck lengths s request = some [] := by
  cases lengths with
  | nil => rfl
  | cons length lengths =>
    exact if_pos h

theorem take_pieces (bytes : List UInt8) (offset length rest : ℕ) :
    (bytes.drop offset).take length ++ (bytes.drop (min (offset + length) bytes.length)).take rest =
      (bytes.drop offset).take (length + rest) := by
  rw [take_add, drop_drop]
  obtain hle | hlt := Nat.le_total (offset + length) bytes.length
  · rw [Nat.min_eq_left hle]
  · rw [Nat.min_eq_right hlt, drop_length, drop_eq_nil_of_le hlt]

variable {s : System η}

theorem readOn_copied {lengths : List ℕ} (hclip : s.unit.committed = some clip)
    (hsize : clip.length < 2 ^ 32) (hbuf : request.data = some buffer)
    (hrest : ∀ next : IOClipReq, next.clipId = request.clipId → next.offset ≤ clip.length →
      readOn program number luck lengths s next = some ((clip.drop next.offset).take lengths.sum)) :
    (readOn program number luck lengths s (copyOut s.unit request)).map
        ((copyOut s.unit request).received ++ ·) =
      some ((clip.drop request.offset).take (request.length + lengths.sum)) := by
  by_cases hend : clip.length ≤ request.offset
  · obtain ⟨hover, hnone⟩ := copyOut_end hclip hend
    rw [readOn_over program number luck lengths s hover, hnone, drop_eq_nil_of_le hend]
    simp
  · obtain ⟨hid, hnext, hbytes⟩ := copyOut_inside hclip hsize (Nat.not_le.mp hend) hbuf
    rw [hrest _ hid (by rw [hnext]; exact Nat.min_le_right _ _), hbytes, hnext, map_some,
      take_pieces]

theorem readOn_eq (hclip : s.unit.committed = some clip) (hsize : clip.length < 2 ^ 32)
    (hid : 0 < s.unit.readId) (lengths : List ℕ) (request : IOClipReq)
    (hsess : request.clipId = s.unit.readId) (hoff : request.offset ≤ clip.length) :
    readOn program number luck lengths s request =
      some ((clip.drop request.offset).take lengths.sum) := by
  induction lengths generalizing request with
  | nil => rfl
  | cons length lengths ih =>
  have hnot : request.clipId ≠ -1 := by omega
  have hread (buffer : List UInt8) : deviceIo program number luck .read s
      { request with length := length, data := some buffer } =
        ⟨.done, s, copyOut s.unit
          { request with length := length, data := some buffer, actual := 0 }⟩ := by
    unfold deviceIo readClip lockedRead
    simp only [hsess, if_neg (show s.unit.readId ≠ 0 by omega)]
    simp
  unfold readOn
  rw [if_neg hnot]
  rw [hread]
  exact readOn_copied program number hclip hsize rfl
    (fun next hnext hle => ih next (hnext.trans hsess) hle)

theorem nextId_pos {id : ℤ} (h : 0 ≤ id) : 0 < nextId id := by
  unfold nextId
  split_ifs <;> omega

theorem refreshUnitFromStore_eq (hloads : luck.loads = true)
    (hstore : s.store = some clip) (hsize : clip.length ≤ maxSize) :
    refreshUnitFromStore luck s = some { s with unit := lockedRefresh (some clip) s.unit } := by
  unfold refreshUnitFromStore storeLoad
  rw [if_pos hloads, hstore]
  dsimp only
  rw [if_neg (Nat.not_lt.mpr hsize)]

def beginRead (unit : ClipUnit) : ClipUnit := { unit with readId := nextId unit.readId }

theorem lockedRead_first (hclip : unit.committed = some clip) (hposted : ¬ unit.Posted)
    (cancelled : Bool) (hfst : request.clipId = 0) :
    lockedRead cancelled unit request =
      ⟨.done, beginRead unit,
        copyOut (beginRead unit) { request with clipId := nextId unit.readId }⟩ := by
  have hvalid : unit.committed ≠ none := hclip ▸ some_ne_none clip
  unfold lockedRead
  rw [if_pos hfst, if_neg hposted, if_neg hvalid]
  rfl

/-- **A read session** returns the clip in the store, if this can be read and nothing is posted. -/
theorem readSession_eq (hid : 0 ≤ s.unit.readId) (hloads : luck.loads = true)
    (hstore : (refreshFromHost program number luck s).store = some clip)
    (hsize : clip.length ≤ maxSize) (hposted : ¬ (lockedRefresh (some clip) s.unit).Posted)
    (lengths : List ℕ) :
    readSession program number luck lengths s = some (clip.take lengths.sum) := by
  cases lengths with
  | nil => rfl
  | cons length lengths =>
  have hfits : clip.length < 2 ^ 32 := Nat.lt_of_le_of_lt hsize (by decide)
  have hclip : (beginRead (lockedRefresh (some clip) s.unit)).committed = some clip :=
    lockedRefresh_committed _ _
  have hpos : 0 < (beginRead (lockedRefresh (some clip) s.unit)).readId :=
    nextId_pos (by rw [lockedRefresh_readId]; exact hid)
  have hread (buffer : List UInt8) :
      deviceIo program number luck .read s { length := length, data := some buffer } =
        ⟨.done,
          { refreshFromHost program number luck s with
            unit := beginRead (lockedRefresh (some clip) s.unit) },
          copyOut (beginRead (lockedRefresh (some clip) s.unit))
            { clipId := nextId (lockedRefresh (some clip) s.unit).readId
              length := length
              data := some buffer }⟩ := by
    unfold deviceIo readClip
    dsimp only
    rw [if_pos rfl, refreshUnitFromStore_eq hloads hstore hsize, refreshFromHost_unit]
    dsimp only
    rw [lockedRead_first (lockedRefresh_committed _ _) hposted _ rfl]
  unfold readSession readOn
  rw [hread]
  exact readOn_copied program number hclip hfits rfl
    (fun next hnext hle => readOn_eq program number hclip hfits hpos lengths next hnext hle)

/-! ## The refresh from the host -/

/-- The host has nothing to import over the clip: it gives no text or that of the clip, or a clip of
its text would be too large or cannot be stored. -/
def Settled (luck : Luck) (host : Host η) (clip : List UInt8) : Prop :=
  host.disabled = true ∨ ∀ text, hostRead program host = .text text →
    extractText clip = some text ∨ maxSize - 20 - text.length % 2 < text.length ∨
      luck.writes = false

theorem makeTextClip_fits {text : List UInt8} (h : ¬ maxSize - 20 - text.length % 2 < text.length) :
    ∃ clip, makeTextClip text = some clip ∧ clip.length ≤ maxSize := by
  have hmax : maxSize = 67108864 := rfl
  refine ⟨_, if_neg h, ?_⟩
  simp [Text.ascii]
  omega

theorem storedText_eq (hsize : clip.length ≤ maxSize) :
    (storeLoad true (some clip)).toOption.bind extractText = extractText clip := by
  have hload : storeLoad true (some clip) = .ok clip := if_neg (Nat.not_lt.mpr hsize)
  rw [hload]
  rfl

theorem hostRefresh_settled {host : Host η} (hloads : luck.loads = true)
    (hsize : clip.length ≤ maxSize) (h : Settled program luck host clip) :
    hostRefresh program luck.loads luck.writes host (some clip) = some clip := by
  unfold hostRefresh
  obtain hdisabled | hsettled := h
  · rw [if_pos hdisabled]
  split_ifs with hdisabled
  · rfl
  split
  · rfl
  · rfl
  rename_i text hread
  rw [hloads, storedText_eq hsize]
  obtain hsame | hlong | hfails := hsettled text hread
  · exact if_pos hsame
  · have hnone : makeTextClip text = none := if_pos hlong
    rw [hnone, ite_self]
  rw [hfails]
  split_ifs
  · rfl
  cases makeTextClip text with
  | none => rfl
  | some other => simp [storeCommitRaw]

theorem hostRefresh_unsettled {host : Host η} (hloads : luck.loads = true)
    (hsize : clip.length ≤ maxSize) (h : ¬ Settled program luck host clip) :
    ∃ other, hostRefresh program luck.loads luck.writes host (some clip) = some other ∧
      other ≠ clip ∧ other.length ≤ maxSize := by
  unfold Settled at h
  push Not at h
  obtain ⟨hdisabled, text, hread, hdiffers, hfits, hwrites⟩ := h
  obtain ⟨other, hother, hotherSize⟩ := makeTextClip_fits (Nat.not_lt.mpr hfits)
  refine ⟨other, ?_, ?_, hotherSize⟩
  · unfold hostRefresh storeCommitRaw
    rw [if_neg hdisabled, hread, hloads]
    dsimp only
    rw [storedText_eq hsize, if_neg hdiffers, hother]
    dsimp only
    rw [if_neg (Nat.not_lt.mpr hotherSize), (Bool.not_eq_false _).mp hwrites]
    rfl
  · rintro rfl
    exact hdiffers (extractText_makeTextClip hother)

/-! ## From the update to the read -/

/-- A request of some client. -/
structure Call where
  command : Command
  request : IOClipReq
  luck : Luck

/-- The reply to a request. -/
def Call.reply (call : Call) (s : System η) : Reply (System η) :=
  deviceIo program number call.luck call.command s call.request

def Call.Refreshes (call : Call) : Prop :=
  (call.command = .read ∧ call.request.clipId = 0) ∨ call.command = .currentReadId ∨
    call.command = .currentWriteId

/-- The store can be read, and the host has nothing to import over the clip if that concerns the
unit. -/
def RefreshKeeps (luck : Luck) (s : System η) (clip : List UInt8) : Prop :=
  luck.loads = true ∧ (number = 0 → Settled program luck s.host clip)

/-- Requests that commit no other clip, and whose refreshes keep the clip. -/
def Harmless (clip : List UInt8) : List Call → System η → Prop
  | [], _ => True
  | call :: calls, s =>
    ((call.command = .update → (call.reply program number s).outcome ≠ .done) ∧
      (call.Refreshes → RefreshKeeps program number call.luck s clip)) ∧
    Harmless clip calls (call.reply program number s).state

def afterCalls (calls : List Call) (s : System η) : System η :=
  calls.foldl (fun s call => (call.reply program number s).state) s

structure Holds (clip : List UInt8) (s : System η) : Prop where
  committed : s.unit.committed = some clip
  stored : s.store = some clip
  fits : clip.length ≤ maxSize
  readId : 0 ≤ s.unit.readId

theorem refreshFromHost_keeps (h : Holds clip s)
    (hkeeps : RefreshKeeps program number luck s clip) :
    refreshFromHost program number luck s = s := by
  unfold refreshFromHost
  split_ifs with hprim
  · have hstore := hostRefresh_settled program hkeeps.1 h.fits (hkeeps.2 hprim)
    rw [h.stored, hstore, ← h.stored]
  · rfl

theorem refreshUnitFromStore_keeps (h : Holds clip s) (hloads : luck.loads = true)
    : refreshUnitFromStore luck s = some s := by
  have hsame : lockedRefresh (some clip) s.unit = s.unit := if_pos h.committed.symm
  rw [refreshUnitFromStore_eq hloads h.stored h.fits, hsame]


theorem refreshed_keeps (h : Holds clip s)
    (hkeeps : RefreshKeeps program number luck s clip) : refreshed program number luck s = s := by
  unfold refreshed
  dsimp only
  rw [refreshFromHost_keeps program number h hkeeps, refreshUnitFromStore_keeps h hkeeps.1]
  rfl

theorem lockedRead_committed (cancelled : Bool) (unit : ClipUnit) (request : IOClipReq) :
    (lockedRead cancelled unit request).state.committed = unit.committed := by
  unfold lockedRead
  split_ifs <;> rfl

theorem writeClip_frame (grows : Bool) (unit : ClipUnit) (request : IOClipReq) :
    (writeClip grows unit request).state.committed = unit.committed ∧
      (writeClip grows unit request).state.readId = unit.readId := by
  have hfill (unit : ClipUnit) (request : IOClipReq) :
      (fillPending grows unit request).state.committed = unit.committed ∧
        (fillPending grows unit request).state.readId = unit.readId := by
    cases grows <;> exact ⟨rfl, rfl⟩
  obtain ⟨hsame, -⟩ | ⟨hreply, -⟩ | ⟨-, hreply, -⟩ := write_cases grows unit request
  · rw [hsame]
    exact ⟨rfl, rfl⟩
  · rw [hreply]
    exact hfill _ _
  · rw [hreply]
    exact hfill _ _

theorem act_readId {s : Sessions} (h : 0 ≤ s.unit.readId) (action : Action) :
    0 ≤ (act action s).unit.readId := by
  cases action with
  | write grows request => exact (writeClip_frame grows s.unit request).2 ▸ h
  | update commits request =>
    show 0 ≤ (update commits s.unit request).state.1.readId
    obtain ⟨-, hsame⟩ | ⟨-, hclosed⟩ := update_cases commits s.unit request
    · rw [hsame]
      exact h
    · rw [hclosed]
      exact h
  | post request => exact h
  | refresh loaded => exact (lockedRefresh_readId loaded s.unit).symm ▸ h
  | read cancelled request =>
  show 0 ≤ (lockedRead cancelled s.unit request).state.readId
  have hnext : 0 ≤ nextId s.unit.readId := Int.le_of_lt (nextId_pos h)
  unfold lockedRead
  split_ifs <;> assumption

theorem Call.reply_readId (h : 0 ≤ s.unit.readId) (call : Call) :
    0 ≤ (call.reply program number s).state.unit.readId := by
  obtain ⟨actions, hactions⟩ :=
    deviceIo_steps program number call.luck call.command s call.request []
  have hsteps (actions : List Action) (s : Sessions) (h : 0 ≤ s.unit.readId) :
      0 ≤ (clients.exec actions s).unit.readId := by
    induction actions generalizing s with
    | nil => exact h
    | cons action actions ih => exact ih _ (act_readId h action)
  have hend := hsteps actions ⟨s.unit, []⟩ h
  rw [hactions] at hend
  exact hend

theorem Holds.call (h : Holds clip s) {call : Call}
    (hcommits : call.command = .update → (call.reply program number s).outcome ≠ .done)
    (hkeeps : call.Refreshes → RefreshKeeps program number call.luck s clip) :
    Holds clip (call.reply program number s).state := by
  have hid := call.reply_readId program number h.readId
  obtain ⟨command, request, luck⟩ := call
  unfold Call.reply at hid hcommits ⊢
  cases command with
  | read =>
    have hstate : ∃ unit : ClipUnit, unit.committed = s.unit.committed ∧
        (deviceIo program number luck .read s request).state = { s with unit := unit } := by
      refine ⟨_, lockedRead_committed luck.cancelled s.unit { request with actual := 0 }, ?_⟩
      unfold deviceIo readClip
      dsimp only
      split_ifs with hfst
      · have hkept := hkeeps (.inl ⟨rfl, hfst⟩)
        rw [refreshFromHost_keeps program number h hkept, refreshUnitFromStore_keeps h hkept.1]
      · rfl
    obtain ⟨unit, hcommitted, hstate⟩ := hstate
    rw [hstate] at hid ⊢
    exact ⟨hcommitted.trans h.committed, h.stored, h.fits, hid⟩
  | write => exact ⟨(writeClip_frame _ _ _).1.trans h.committed, h.stored, h.fits, hid⟩
  | update =>
    obtain ⟨-, hsame⟩ | ⟨-, _, -, hreply⟩ := updateClip_cases (commit program number luck) s.unit
      (s.store, s.host) { request with actual := 0 }
    · refine ⟨?_, ?_, h.fits, hid⟩
      · exact (congrArg (fun state => state.1.committed) hsame).trans h.committed
      · exact (congrArg (fun state => state.2.1) hsame).trans h.stored
    · exact absurd (congrArg Reply.outcome hreply) (hcommits rfl)
  | post => exact ⟨h.committed, h.stored, h.fits, hid⟩
  | currentReadId =>
    show Holds clip (refreshed program number luck s)
    rw [refreshed_keeps program number h (hkeeps (.inr (.inl rfl)))]
    exact h
  | currentWriteId =>
    show Holds clip (refreshed program number luck s)
    rw [refreshed_keeps program number h (hkeeps (.inr (.inr rfl)))]
    exact h

theorem Holds.calls {calls : List Call} (h : Holds clip s)
    (hcalls : Harmless program number clip calls s) :
    Holds clip (afterCalls program number calls s) := by
  induction calls generalizing s with
  | nil => exact h
  | cons call calls ih =>
    obtain ⟨⟨hcommits, hkeeps⟩, hrest⟩ := hcalls
    exact ih (h.call program number hcommits hkeeps) hrest

theorem commit_eq {data : List UInt8} {state stored : Option (List UInt8) × Host η}
    (h : commit program number luck data state = some stored) :
    stored.1 = some data ∧ data.length ≤ maxSize := by
  obtain ⟨⟨clip, host⟩, hcommit, rfl⟩ := map_eq_some_iff.mp h
  have hraw : storeCommitRaw luck.writes data = some clip := by
    unfold storeCommit at hcommit
    grind
  unfold storeCommitRaw at hraw
  by_cases hlarge : maxSize < data.length
  · rw [if_pos hlarge] at hraw
    exact nomatch hraw
  · split_ifs at hraw
    exact ⟨hraw.symm, Nat.not_lt.mp hlarge⟩

theorem Holds.of_update (hid : 0 ≤ s.unit.readId)
    (h : (deviceIo program number luck .update s request).outcome = .done) :
    Holds s.unit.pending (deviceIo program number luck .update s request).state := by
  obtain ⟨hfailed, -⟩ | ⟨-, stored, hstored, hreply⟩ := updateClip_cases
    (commit program number luck) s.unit (s.store, s.host) { request with actual := 0 }
  · exact absurd h hfailed
  have hstate : (deviceIo program number luck .update s request).state =
      ⟨closeWrite s.unit, stored.1, stored.2⟩ := by
    unfold deviceIo
    dsimp only
    rw [hreply]
  rw [hstate]
  obtain ⟨hclip, hfits⟩ := commit_eq program number hstored
  exact ⟨rfl, hclip, hfits, hid⟩

/-! ## Runs -/

inductive Step (η : Type)
  | call (call : Call)
  | outside (store : Option (List UInt8)) (host : Host η)

def process (host : Host η) : Machine (System η) (Step η) where
  init := { host := host }
  possible _ _ := True
  step
    | .call call, s => (call.reply program number s).state
    | .outside store host, s => { s with store := store, host := host }

theorem process_readId {host : Host η} {n : ℕ}
    (hrun : (process program number host).Run n s) : 0 ≤ s.unit.readId := by
  refine hrun.invariant (P := fun _ s => 0 ≤ s.unit.readId) (Int.le_refl 0) ?_ (Nat.lt_succ_self n)
  intro _ s step _ _ _ h
  cases step with
  | call call => exact call.reply_readId program number h
  | outside store host => exact h

theorem readSession_none
    (h : (deviceIo program number luck .read s { data := some [] }).outcome ≠ .done) :
    readSession program number luck [0] s = none := by
  exact if_neg h

theorem readSession_unreadable (hloads : luck.loads = false) (s : System η) :
    readSession program number luck [0] s = none := by
  apply readSession_none
  have hfails (s : System η) : refreshUnitFromStore luck s = none := by
    unfold refreshUnitFromStore
    rw [hloads]
    rfl
  unfold deviceIo readClip
  dsimp only
  rw [hfails]
  exact nofun

theorem readSession_posted (h : Holds clip s) (hkeeps : RefreshKeeps program number luck s clip)
    (hposted : s.unit.Posted) : readSession program number luck [0] s = none := by
  apply readSession_none
  have hlocked (cancelled : Bool) (request : IOClipReq) (hfst : request.clipId = 0) :
      (lockedRead cancelled s.unit request).outcome ≠ .done := by
    unfold lockedRead
    split_ifs <;> exact nofun
  unfold deviceIo readClip
  dsimp only
  rw [refreshFromHost_keeps program number h hkeeps, refreshUnitFromStore_keeps h hkeeps.1]
  exact hlocked _ _ rfl

theorem readSession_replaced (h : Holds clip s) (hloads : luck.loads = true)
    (hprim : number = 0) (hunsettled : ¬ Settled program luck s.host clip) :
    ∃ other, other ≠ clip ∧
      ∀ lengths, readSession program number luck lengths s = some (other.take lengths.sum) := by
  obtain ⟨other, hother, hdiffers, hfits⟩ := hostRefresh_unsettled program hloads h.fits hunsettled
  have hstore : (refreshFromHost program number luck s).store = some other := by
    unfold refreshFromHost
    rw [if_pos hprim, h.stored]
    exact hother
  have hposted : ¬ (lockedRefresh (some other) s.unit).Posted := by
    have hchanged : some other ≠ s.unit.committed :=
      fun hsame => hdiffers (some.inj (hsame.trans h.committed))
    unfold lockedRefresh
    rw [if_neg hchanged]
    exact fun hposted => hposted.1 rfl
  exact ⟨other, hdiffers, readSession_eq program number h.readId hloads hstore hfits hposted⟩

/-- **Reading back.** An update commits a clip, and requests follow that commit no other one. Then a
read session returns the clip, whatever the lengths of the reads, exactly if the refresh at its
start keeps the clip and no clip is posted. -/
theorem read_back_iff {host : Host η} {n : ℕ} {s : System η}
    (hrun : (process program number host).Run n s) (luck : Luck) (request : IOClipReq)
    (hupdate : (deviceIo program number luck .update s request).outcome = .done) (calls : List Call)
    (hcalls : Harmless program number s.unit.pending calls
      (deviceIo program number luck .update s request).state) {s' : System η}
    (hs' : s' = afterCalls program number calls
      (deviceIo program number luck .update s request).state) (luck' : Luck) :
    (∀ lengths, readSession program number luck' lengths s' =
      some (s.unit.pending.take lengths.sum)) ↔
      RefreshKeeps program number luck' s' s.unit.pending ∧ ¬ s'.unit.Posted := by
  have hholds : Holds s.unit.pending s' := by
    rw [hs']
    exact (Holds.of_update program number (process_readId program number hrun) hupdate).calls
      program number hcalls
  constructor
  · intro hreads
    -- A session of one read of no bytes shows whether it can begin.
    have hloads : luck'.loads = true := by
      by_contra hfails
      have hnone := readSession_unreadable program number ((Bool.not_eq_true _).mp hfails) s'
      exact nomatch (hreads [0]).symm.trans hnone
    have hkeeps : RefreshKeeps program number luck' s' s.unit.pending := by
      refine ⟨hloads, fun hprimary => ?_⟩
      by_contra hunsettled
      obtain ⟨other, hdiffers, hother⟩ :=
        readSession_replaced program number hholds hloads hprimary hunsettled
      have hsame := some.inj
        ((hother [other.length + s.unit.pending.length]).symm.trans (hreads _))
      rw [sum_singleton, take_of_length_le (by omega), take_of_length_le (by omega)] at hsame
      exact hdiffers hsame
    refine ⟨hkeeps, fun hposted => ?_⟩
    have hnone := readSession_posted program number hholds hkeeps hposted
    exact nomatch (hreads [0]).symm.trans hnone
  · rintro ⟨hkeeps, hposted⟩
    have hsame : lockedRefresh (some s.unit.pending) s'.unit = s'.unit :=
      if_pos hholds.committed.symm
    have hstore : (refreshFromHost program number luck' s').store = some s.unit.pending := by
      rw [refreshFromHost_keeps program number hholds hkeeps]
      exact hholds.stored
    exact readSession_eq program number hholds.readId hkeeps.1 hstore hholds.fits
      (by rw [hsame]; exact hposted)

end ReadBack

def headless : HostProgram Unit where
  get _ := none
  put _ _ := ()

def greetingHost : Host Unit where
  file := some { content := some (Text.ascii "hi") }
  desktop := ()

def written (clip : List UInt8) : System Unit :=
  (process headless 0 greetingHost).exec
    [.call ⟨.write, { length := clip.length, data := some clip }, {}⟩] { host := greetingHost }

theorem written_run (clip : List UInt8) : (process headless 0 greetingHost).Run 1 (written clip) :=
  Machine.Run.step _ .start trivial

/-- The text A as a clip. -/
def letterClip : List UInt8 := Text.ascii "FORM\x00\x00\x00\x0eFTXTCHRS\x00\x00\x00\x01A\x00"

/-- A text is committed, reaches the host, and is read back in two pieces. -/
theorem read_back_iff_letter :
    readSession headless 0 {} [10, 20]
      (deviceIo headless 0 {} .update (written letterClip) { clipId := 1 }).state =
        some letterClip := by
  have hpending : (written letterClip).unit.pending = letterClip := by decide +kernel
  have hread : hostRead headless
      (deviceIo headless 0 {} .update (written letterClip) { clipId := 1 }).state.host =
        .text [65] := by decide +kernel
  have hback := read_back_iff headless 0 (written_run letterClip) {} { clipId := 1 }
    (by decide +kernel) [] trivial rfl {}
  refine hback.mpr ⟨⟨rfl, fun _ => .inr fun text htexts => .inl ?_⟩, by decide +kernel⟩ [10, 20]
  exact congrArg some (HostRead.text.inj (hread.symm.trans htexts))

/-- A clip that is no text is committed while the host's file holds a text. The next session returns
a clip of that text. -/
theorem opaque_clip_replaced :
    ¬ ∀ (n : ℕ) (s : System Unit), (process headless 0 greetingHost).Run n s →
      ∀ (luck : Luck) (request : IOClipReq),
        (deviceIo headless 0 luck .update s request).outcome = .done →
        ∀ lengths, readSession headless 0 {} lengths
            (deviceIo headless 0 luck .update s request).state =
          some (s.unit.pending.take lengths.sum) := by
  intro h
  have hread := h _ _ (written_run [1, 2, 3]) {} { clipId := 1 } (by decide +kernel) [100]
  exact absurd hread (by decide +kernel)

end AceShell.Clipboard
