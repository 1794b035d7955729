import AceShell.Linux.Supervise

/-!
# What is typed reaches the program

As long as the console stays open and the program runs, what is due was written, is in the buffer,
or is held by the translator, provided that there is room when bytes are fed and that the console's
answers come when they are looked for (`relay_loses_nothing`). The supervisor does not see to it: an
answer that comes late is taken for keys (`late_reply_is_typed`).
-/

namespace AceShell.Linux

open Text Terminal Keyboard Emission List

/-! ## The buffer -/

variable {bytes : List UInt8}

namespace RelayBuffer

variable (buffer : RelayBuffer)

@[simp] theorem pending_compact : buffer.compact.pending = buffer.pending := by
  unfold compact
  split_ifs
  · rfl
  · rfl

@[simp] theorem compact_compact : buffer.compact.compact = buffer.compact := by
  by_cases h : buffer.offset ≠ 0 ∧ buffer.bytes.length = relayBufferSize
  · have hzero : buffer.compact.offset = 0 := by
      unfold compact
      rw [if_pos h]
    generalize buffer.compact = moved at hzero ⊢
    unfold compact
    rw [if_neg (fun hmoved => hmoved.1 hzero)]
  · have hsame : buffer.compact = buffer := if_neg h
    rw [hsame, hsame]

@[simp] theorem space_compact : buffer.compact.space = buffer.space := by
  unfold space
  rw [compact_compact]

theorem length_compact_le : buffer.compact.bytes.length ≤ buffer.bytes.length := by
  unfold compact
  split_ifs
  · show buffer.pending.length ≤ _
    unfold pending
    rw [length_drop]
    exact Nat.sub_le _ _
  · exact Nat.le_refl _

variable {buffer}

theorem append_eq (h : bytes.length ≤ buffer.space) :
    (buffer.append bytes).1 = true ∧
      (buffer.append bytes).2.bytes = buffer.compact.bytes ++ bytes ∧
      (buffer.append bytes).2.pending = buffer.pending ++ bytes := by
  unfold append
  rw [dif_pos h]
  refine ⟨rfl, rfl, ?_⟩
  show (buffer.compact.bytes ++ bytes).drop buffer.compact.offset = _
  rw [drop_append_of_le_length buffer.compact.offset_le]
  exact congrArg (· ++ bytes) buffer.pending_compact

theorem pending_consume (amount : ℕ) :
    (buffer.consume (min amount buffer.pending.length)).pending = buffer.pending.drop amount := by
  have hlen : buffer.pending.length = buffer.bytes.length - buffer.offset := length_drop
  unfold consume
  split_ifs with h
  · have hmin : min amount buffer.pending.length = amount := by omega
    show buffer.bytes.drop (buffer.offset + min amount buffer.pending.length) = _
    rw [hmin]
    exact drop_drop.symm
  · have hall : buffer.pending.length ≤ amount := by omega
    rw [drop_eq_nil_of_le hall]
    rfl

end RelayBuffer

theorem relaySink_truthful : relaySink.Truthful RelayBuffer.pending RelayBuffer.space where
  space_le buffer := buffer.space_compact.ge
  space_written buffer := buffer.pending_compact
  write_ok _ _ h := (RelayBuffer.append_eq h).1
  write_written _ _ h := (RelayBuffer.append_eq h).2.2
  write_room buffer bytes h := by
    have hbytes := (RelayBuffer.append_eq h).2.1
    have hle := (buffer.append bytes).2.length_compact_le
    rw [hbytes, length_append] at hle
    show buffer.space ≤ (buffer.append bytes).2.space + bytes.length
    unfold RelayBuffer.space at h ⊢
    omega

/-! ## What is due -/

theorem due_append (log events : List KeyEvent) :
    due (log ++ events) =
      due log ++ (emitted KeyEvent.typing (heldAfter log) events).flatMap id := by
  unfold due heldAfter
  rw [emitted_append, flatMap_append]

theorem heldAfter_append (log events : List KeyEvent) :
    heldAfter (log ++ events) = behind KeyEvent.typing (heldAfter log) events :=
  behind_append _ _ _ _

theorem roomy_heldAfter (log : List KeyEvent) : (heldAfter log).Roomy := by
  have hstep : ∀ (parser : AmigaToXterm) (events : List KeyEvent), parser.Roomy →
      (behind KeyEvent.typing parser events).Roomy := by
    intro parser events
    induction events generalizing parser with
    | nil => exact id
    | cons event events ih =>
    refine fun h => ih _ ?_
    cases event with
    | key byte => exact roomy_feedKey h byte
    | control byte => exact h
    | mode keys => exact ⟨h.short, h.sound⟩
    | asked => exact ⟨h.short, h.sound⟩
  exact hstep {} log ⟨by decide, rfl⟩

theorem typing_keys (parser : AmigaToXterm) (bytes : List UInt8) :
    emitted KeyEvent.typing parser (bytes.map .key) = emitted feedKey parser bytes ∧
      behind KeyEvent.typing parser (bytes.map .key) = behind feedKey parser bytes := by
  induction bytes generalizing parser with
  | nil => exact ⟨rfl, rfl⟩
  | cons byte bytes ih =>
    obtain ⟨hemit, hbehind⟩ := ih (feedKey parser byte).state
    exact ⟨congrArg ((feedKey parser byte).output ++ ·) hemit, hbehind⟩

/-! ## What the console sends -/

theorem raw_keys (keys : List UInt8) : raw (keys.map Sent.key) = keys := by
  unfold raw
  rw [map_map]
  exact map_id keys

theorem typed_keys (keys : List UInt8) : typed (keys.map Sent.key) = keys := by
  have hall : (keys.map Sent.key).filter (fun sent => !sent.reply) = keys.map Sent.key := by
    rw [filter_eq_self]
    intro sent hsent
    obtain ⟨byte, -, rfl⟩ := mem_map.mp hsent
    rfl
  unfold typed
  rw [hall, raw_keys]

theorem typed_answer (text : List UInt8) : typed (text.map Sent.answer) = [] := by
  have hnone : (text.map Sent.answer).filter (fun sent => !sent.reply) = [] := by
    rw [filter_eq_nil_iff]
    intro sent hsent
    obtain ⟨byte, -, rfl⟩ := mem_map.mp hsent
    exact Bool.false_ne_true
  unfold typed
  rw [hnone]
  rfl

theorem raw_append (received more : List Sent) :
    raw (received ++ more) = raw received ++ raw more := map_append

theorem typed_append (received more : List Sent) :
    typed (received ++ more) = typed received ++ typed more := by
  unfold typed
  rw [filter_append, raw_append]

variable {received : List Sent}

theorem typed_of_no_reply (h : ∀ sent ∈ received, sent.reply = false) :
    typed received = raw received := by
  unfold typed
  rw [filter_eq_self.mpr fun sent hsent => by rw [h sent hsent]; rfl]

theorem length_typed_le (received : List Sent) : (typed received).length ≤ received.length := by
  unfold typed raw
  rw [length_map]
  exact length_filter_le _ _

/-! ## The query -/

theorem receiveReply_finds (h : findBoundsReply (raw received) = none)
    (hlim : received.length ≤ readLimit) (attempts : List (List Sent)) :
    (receiveReply received attempts).2 = findBoundsReply (raw (receiveReply received attempts).1) ∧
      (receiveReply received attempts).1.length ≤ readLimit := by
  induction attempts generalizing received with
  | nil => exact ⟨h.symm, hlim⟩
  | cons waiting later ih =>
  unfold receiveReply
  split_ifs
  · exact ⟨h.symm, hlim⟩
  dsimp only
  have hmore : (received ++ waiting.take (readLimit - received.length)).length ≤ readLimit := by
    rw [length_append, length_take]
    omega
  generalize received ++ waiting.take (readLimit - received.length) = longer at hmore ⊢
  cases hfound : findBoundsReply (raw longer) with
  | some found => exact ⟨hfound.symm, hmore⟩
  | none => exact ih hfound hmore

theorem outcome_finds (query : Query) :
    query.outcome.2 = findBoundsReply (raw query.outcome.1) ∧
      query.outcome.1.length ≤ readLimit := by
  unfold Query.outcome
  split_ifs
  · exact receiveReply_finds rfl (Nat.zero_le _) _
  · exact ⟨rfl, Nat.zero_le _⟩

theorem pending_append_empty (h : bytes.length ≤ readLimit) :
    (RelayBuffer.empty.append bytes).2.pending = bytes ∧
      readLimit ≤ (RelayBuffer.empty.append bytes).2.space := by
  have hspace : RelayBuffer.empty.space = relayBufferSize := rfl
  have hfits : bytes.length ≤ RelayBuffer.empty.space := h.trans (by rw [hspace]; decide)
  have hroom := relaySink_truthful.write_room RelayBuffer.empty bytes hfits
  have hlarge : readLimit + readLimit ≤ relayBufferSize := by decide
  refine ⟨(RelayBuffer.append_eq hfits).2.2, ?_⟩
  change RelayBuffer.empty.space ≤ (RelayBuffer.empty.append bytes).2.space + bytes.length at hroom
  omega

variable {query : Query}

theorem queryConsoleGeometry_typed (h : Answered query.outcome.1) :
    (queryConsoleGeometry RelayBuffer.empty query).1.pending = typed query.outcome.1 := by
  obtain ⟨hfound, hlim⟩ := outcome_finds query
  unfold queryConsoleGeometry
  generalize query.outcome = outcome at h hfound hlim ⊢
  obtain ⟨received, found⟩ := outcome
  dsimp only at h hfound hlim ⊢
  rcases h with ⟨keys, rfl, hnone⟩ | ⟨before, size, rest, hvalid, hnone, rfl⟩
  · rw [raw_keys, hnone] at hfound
    rw [hfound, typed_keys]
    dsimp only
    rw [raw_keys]
    rw [length_map] at hlim
    exact (pending_append_empty hlim).1
  have hraw : raw (before.map Sent.key ++
      ((replyText size).map Sent.answer ++ rest.map Sent.key)) =
        before ++ (replyText size ++ rest) := by
    rw [raw_append, raw_append, raw_keys, raw_keys]
    unfold raw
    rw [map_map]
    exact congrArg (fun text => before ++ (text ++ rest)) (map_id (replyText size))
  rw [hraw, findBoundsReply_reply hvalid hnone] at hfound
  rw [hfound, typed_append, typed_append, typed_keys, typed_keys, typed_answer, nil_append]
  simp only [length_append, length_map] at hlim
  have hbefore : before.length ≤ readLimit := by omega
  have hrest : rest.length ≤ readLimit := by omega
  obtain ⟨hfst, hroom⟩ := pending_append_empty hbefore
  rw [(RelayBuffer.append_eq (hrest.trans hroom)).2.2, hfst]

/-! ## What each action keeps -/

/-- Nothing was lost so far, and nothing is in the way of going on. -/
structure Sound (s : Relay) : Prop where
  whole : s.written ++ s.input.pending = due s.log
  held : s.parser = heldAfter s.log
  listening : s.inputOpen = true
  writing : s.masterWriteOpen = true
  running : s.childReaped = false
  wanted : s.shutdownRequested = false

theorem Sound.losesNothing {s : Relay} (h : Sound s) : s.LosesNothing :=
  ⟨⟨s.input.pending, h.whole⟩, h.whole, h.held, h.held ▸ roomy_heldAfter s.log, h.listening⟩

section Actions

variable {s : Relay}

theorem feed_eq (hroom : bytes ≠ [] → s.parser.sequence.length + 5 * bytes.length ≤ s.input.space) :
    ∃ input, s.feed bytes = (true, { s with parser := behind feedKey s.parser bytes, input }) ∧
      input.pending = s.input.pending ++ (emitted feedKey s.parser bytes).flatMap id := by
  by_cases hnone : bytes = []
  · rw [hnone]
    exact ⟨s.input, rfl, (append_nil _).symm⟩
  obtain ⟨input, hpush, hwritten⟩ := Sink.push_of_room relaySink_truthful
    ((length_emitted_le s.parser bytes).trans (hroom hnone))
  refine ⟨input, ?_, hwritten⟩
  unfold Relay.feed Keyboard.feed
  rw [hpush]

theorem Relay.RoomFor.typed {received : List Sent} (hroom : s.RoomFor received)
    (hsome : typed received ≠ []) :
    s.parser.sequence.length + 5 * (Linux.typed received).length ≤ s.input.space :=
  hroom fun hnone => hsome (by rw [hnone]; rfl)

section Kept

variable (h : Sound s)
include h

theorem Sound.keys (bytes : List UInt8) {input : RelayBuffer}
    (hinput : input.pending = s.input.pending ++ (emitted feedKey s.parser bytes).flatMap id) :
    s.written ++ input.pending = due (s.log ++ bytes.map .key) ∧
      behind feedKey s.parser bytes = heldAfter (s.log ++ bytes.map .key) := by
  obtain ⟨hemit, hbehind⟩ := typing_keys (heldAfter s.log) bytes
  rw [hinput, due_append, heldAfter_append, hemit, hbehind, ← h.held, ← h.whole, append_assoc]
  exact ⟨rfl, rfl⟩

theorem sound_compact : Sound { s with input := s.input.compact } :=
  { h with whole := by rw [RelayBuffer.pending_compact]; exact h.whole }

theorem sound_note {event : KeyEvent} {parser : AmigaToXterm}
    (hevent : event.typing s.parser = Emission.done parser) :
    Sound ({ s with parser }.note [event]) := by
  refine { h with whole := ?_, held := ?_ }
  · show s.written ++ s.input.pending = due (s.log ++ [event])
    rw [due_append, ← h.held, emitted_cons, hevent, h.whole]
    exact (append_nil _).symm
  · show parser = heldAfter (s.log ++ [event])
    rw [heldAfter_append, ← h.held, behind_cons, hevent]
    rfl

theorem sound_setKeys (keys : CursorKeys) : Sound (s.setKeys keys) := sound_note h rfl

theorem sound_resize (hcare : s.parser.resizePending = true →
      Answered query.outcome.1 ∧ s.RoomFor query.outcome.1) : Sound (s.resize query) := by
  unfold Relay.resize
  by_cases hpend : s.parser.resizePending = true
  · obtain ⟨hanswered, hroom⟩ := hcare hpend
    have hasked : Sound ({ s with parser := { s.parser with resizePending := false } }.note
        [.asked]) := sound_note h rfl
    obtain ⟨input, hfeed, hinput⟩ :=
      feed_eq (s := { s with parser := { s.parser with resizePending := false } }) hroom.typed
    obtain ⟨hwhole, hheld⟩ := hasked.keys (typed query.outcome.1) hinput
    have htypeahead := queryConsoleGeometry_typed hanswered
    rw [if_pos hpend]
    dsimp only
    rw [htypeahead, hfeed]
    have hlog : s.log ++ (KeyEvent.asked :: (typed query.outcome.1).map .key) =
        s.log ++ [.asked] ++ (typed query.outcome.1).map .key :=
      (append_cons _ _ _)
    refine { h with whole := ?_, held := ?_ }
    · show s.written ++ input.pending = due (s.log ++ _)
      rw [hlog]
      exact hwhole
    · show _ = heldAfter (s.log ++ _)
      rw [hlog]
      exact hheld
  · rw [if_neg hpend]
    exact h

theorem sound_watch : Sound s.watch := by
  have hcompact := sound_compact h
  unfold Relay.watch
  rw [h.listening]
  exact { hcompact with listening := rfl }

theorem sound_relayReadInput {receipt : Receipt} (hopen : receipt ≠ .hangup)
    (hcare : ∀ waiting, receipt = .bytes waiting →
      (∀ sent ∈ waiting.take s.readSize, sent.reply = false) ∧
        s.RoomFor (waiting.take s.readSize)) : Sound (s.relayReadInput receipt) := by
  have hcompact := sound_compact h
  unfold Relay.relayReadInput
  by_cases hfull : s.readSize = 0
  · rw [if_pos hfull]
    exact hcompact
  rw [if_neg hfull]
  cases receipt with
  | again => exact hcompact
  | hangup => exact absurd rfl hopen
  | bytes waiting =>
  obtain ⟨hkeys, hroom⟩ := hcare waiting rfl
  dsimp only
  rw [← typed_of_no_reply hkeys]
  generalize waiting.take s.readSize = received at hroom ⊢
  have hfits := hroom.typed
  rw [← RelayBuffer.space_compact] at hfits
  obtain ⟨input, hfeed, hinput⟩ := feed_eq (s := { s with input := s.input.compact }) hfits
  obtain ⟨hwhole, hheld⟩ := hcompact.keys (typed received) hinput
  rw [hfeed]
  refine { h with whole := hwhole, held := hheld, listening := ?_ }
  rw [h.listening]
  rfl

theorem sound_relayReadSignalEvents {events : List SignalEvent}
    (hgo : ∀ event ∈ events, event.control ≠ none) : Sound (s.relayReadSignalEvents events) := by
  induction events generalizing s with
  | nil => exact sound_compact h
  | cons event events ih =>
  unfold Relay.relayReadSignalEvents
  by_cases hspace : 0 < s.input.space
  · rw [if_pos hspace]
    cases hctrl : event.control with
    | none => exact absurd hctrl (hgo event mem_cons_self)
    | some byte =>
    refine ih ?_ fun other hother => hgo other (mem_cons_of_mem _ hother)
    have hone : [byte].length ≤ s.input.space := hspace
    have hpending := (RelayBuffer.append_eq hone).2.2
    refine { h with whole := ?_, held := ?_ }
    · show s.written ++ (s.input.append [byte]).2.pending = due (s.log ++ [.control byte])
      rw [hpending, due_append, ← h.whole, append_assoc]
      rfl
    · show s.parser = heldAfter (s.log ++ [.control byte])
      rw [heldAfter_append, h.held]
      rfl
  · rw [if_neg hspace]
    exact sound_compact h

theorem sound_writeMaster {result : Option WriteResult}
    (hgo : result ≠ some .failed) : Sound (s.writeMaster result) := by
  have hwrite : ∀ result : WriteResult, result ≠ .failed → Sound (s.relayWriteMaster result) := by
    intro result hres
    cases result with
    | again => exact h
    | failed => exact absurd rfl hres
    | took amount =>
    refine { h with whole := ?_ }
    show s.written ++ s.input.pending.take amount ++
      (s.input.consume (min amount s.input.pending.length)).pending = due s.log
    rw [RelayBuffer.pending_consume, append_assoc, take_append_drop]
    exact h.whole
  have hoffer : Sound (s.offer result) := by
    cases result with
    | none => exact h
    | some result =>
    unfold Relay.offer
    split_ifs
    · exact hwrite result fun hfailed => hgo (congrArg some hfailed)
    · exact h
  unfold Relay.writeMaster
  dsimp only
  rw [hoffer.writing]
  exact hoffer

/-- **Each action keeps what is due.** -/
theorem sound_act {a : Act} (hquiet : a.Undisturbed) (hcare : a.Careful s) : Sound (s.act a) := by
  unfold Relay.act
  by_cases hstopped : s.stopped = true
  · rw [if_pos hstopped]
    exact h
  rw [if_neg hstopped]
  cases a with
  | reap exited =>
    obtain rfl : exited = false := hquiet
    dsimp only [Relay.reap]
    rw [h.running]
    exact { h with running := rfl }
  | shutdown requested =>
    obtain rfl : requested = false := hquiet
    dsimp only [Relay.shutdown]
    rw [h.wanted]
    exact { h with wanted := rfl }
  | flush =>
    dsimp only [Relay.flush]
    rw [h.listening]
    exact h
  | resize query => exact sound_resize h hcare
  | setKeys keys => exact sound_setKeys h keys
  | watch => exact sound_watch h
  | readInput receipt =>
    cases receipt with
    | none => exact h
    | some receipt =>
    dsimp only
    split_ifs with hwatches
    · refine sound_relayReadInput h (fun heq => hquiet (congrArg some heq)) ?_
      rintro waiting rfl
      exact hcare hwatches
    · exact h
  | readSignals events =>
    cases events with
    | none => exact h
    | some events =>
    dsimp only
    split_ifs
    · exact sound_relayReadSignalEvents h hquiet
    · exact h
  | writeMaster result => exact sound_writeMaster h hquiet

end Kept

theorem sound_start (hquery : Answered query.outcome.1) (h : Relay.start query = some s)
    : Sound s := by
  have hlimit := (outcome_finds query).2
  have htyped := length_typed_le query.outcome.1
  have htypeahead := queryConsoleGeometry_typed hquery
  unfold Relay.start at h
  generalize queryConsoleGeometry RelayBuffer.empty query = outcome at htypeahead h
  obtain ⟨typeahead, geometry⟩ := outcome
  dsimp only at htypeahead h
  have hfits : typed query.outcome.1 ≠ [] →
      ({ geometry } : Relay).parser.sequence.length + 5 * (typed query.outcome.1).length ≤
        ({ geometry } : Relay).input.space := by
    intro _
    show 0 + 5 * (typed query.outcome.1).length ≤ relayBufferSize
    have hlarge : 5 * readLimit ≤ relayBufferSize := by decide
    omega
  obtain ⟨input, hfeed, hinput⟩ := feed_eq (s := { geometry }) hfits
  have hempty : Sound { geometry } := ⟨rfl, rfl, rfl, rfl, rfl, rfl⟩
  obtain ⟨hwhole, hheld⟩ := hempty.keys (typed query.outcome.1) hinput
  rw [htypeahead, hfeed] at h
  obtain rfl := Option.some.inj h
  exact ⟨hwhole, hheld, rfl, rfl, rfl, rfl⟩

end Actions

/-- **The keyboard's relay loses nothing.** The console stays open and the program runs, there is
room whenever bytes are fed, and the console's answers come when they are looked for. Then in every
state that the loop goes through, nothing of what was typed is lost. -/
theorem relay_loses_nothing {query : Query} {s : Relay} (hquery : Answered query.outcome.1)
    (hstart : Relay.start query = some s) {rounds : List Round}
    (hcan : (careful s).CanExec (rounds.flatMap Round.acts) s) (n : ℕ) :
    ((careful s).exec ((rounds.flatMap Round.acts).take n) s).LosesNothing := by
  have hstep : ∀ a t, (careful s).possible a t → Sound t → Sound ((careful s).step a t) :=
    fun a t hpossible ht => sound_act ht hpossible.1 hpossible.2
  exact (hcan.invariant hstep (sound_start hquery hstart) n).losesNothing

def arrowRounds : List Round :=
  [{ receipt := some (.bytes [Sent.key amigaCsi, Sent.key (ch 'A')]), result := some (.took 2) }]

theorem start_default : Relay.start {} = some {} := rfl

theorem relay_loses_nothing_arrow :
    (careful {}).CanExec (arrowRounds.flatMap Round.acts) {} ∧
      ((careful {}).exec ((arrowRounds.flatMap Round.acts).take 9) {}).LosesNothing ∧
      ((careful {}).exec ((arrowRounds.flatMap Round.acts).take 9) {}).written = [esc, ch '['] := by
  have hquery : Answered ({} : Query).outcome.1 := Or.inl ⟨[], rfl, rfl⟩
  have hcan : (careful {}).CanExec (arrowRounds.flatMap Round.acts) {} := by
    refine ⟨⟨rfl, trivial⟩, ⟨rfl, trivial⟩, ⟨trivial, trivial⟩, ⟨trivial, fun hpending => ?_⟩,
      ⟨trivial, trivial⟩, ⟨trivial, trivial⟩, ⟨?_, fun _ => ⟨?_, fun _ => ?_⟩⟩,
      ⟨forall_mem_nil _, trivial⟩, ⟨?_, trivial⟩, trivial⟩
    · exact nomatch hpending
    · exact nofun
    · decide +kernel
    · decide +kernel
    · exact nofun
  exact ⟨hcan, relay_loses_nothing hquery start_default hcan 9, by decide +kernel⟩

def lateRounds : List Round :=
  [{ receipt := some (.bytes ((replyText ⟨24, 80⟩).map Sent.answer)), result := some (.took 64) }]

/-- **An answer that comes late goes to the program.** Nothing is due, and the program gets the
answer of the console as if it had been typed. -/
theorem late_reply_is_typed :
    Relay.start {} = some {} ∧ (∀ a ∈ lateRounds.flatMap Round.acts, a.Undisturbed) ∧
      due ((careful {}).exec (lateRounds.flatMap Round.acts) {}).log = [] ∧
      ((careful {}).exec (lateRounds.flatMap Round.acts) {}).written = replyText ⟨24, 80⟩ ∧
      ¬ ((careful {}).exec (lateRounds.flatMap Round.acts) {}).LosesNothing := by
  have hdue : due ((careful {}).exec (lateRounds.flatMap Round.acts) {}).log = [] := by
    decide +kernel
  have hwritten : ((careful {}).exec (lateRounds.flatMap Round.acts) {}).written =
      replyText ⟨24, 80⟩ := by
    decide +kernel
  refine ⟨start_default, ?_, hdue, hwritten, fun hnothing => ?_⟩
  · unfold lateRounds Round.acts
    simp only [flatMap_singleton, forall_mem_cons]
    refine ⟨rfl, rfl, trivial, trivial, trivial, trivial, ?_, forall_mem_nil _, ?_,
      forall_mem_nil _⟩
    · exact nofun
    · exact nofun
  · have hbegins := hnothing.begins
    exact nomatch hbegins

end AceShell.Linux
