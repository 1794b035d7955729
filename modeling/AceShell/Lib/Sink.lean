import Mathlib

/-!
# Translators that write to a sink

What the handling of one item of input does is an `Emission`: the write calls it makes, each with
the state the translator is left in when that call fails. `Sink.feed` offers items for as long as
the sink has `need` bytes of room. If no item ever writes more than that, a sink whose reports of
room are truthful refuses nothing, however the input is cut and whatever drains the sink in between
(`Sink.Session.run_spec`).
-/

/-! ## Emissions -/

/-- The writes of one step in order, each with the state left behind if it fails, and the state
once all of them have gone through. -/
structure Emission (S ω : Type*) where
  writes : List (ω × S)
  state : S

namespace Emission

open List

variable {S ω : Type*}

/-- Nothing is written. -/
def done (s : S) : Emission S ω := ⟨[], s⟩

def emit (w : ω) (s : S) : Emission S ω := ⟨[(w, s)], s⟩

def andThen (e : Emission S ω) (next : S → Emission S ω) : Emission S ω :=
  ⟨e.writes ++ (next e.state).writes, (next e.state).state⟩

def afterwards (e : Emission S ω) (change : S → S) : Emission S ω :=
  ⟨e.writes.map fun w => (w.1, change w.2), change e.state⟩

/-- The writes themselves. -/
def output (e : Emission S ω) : List ω := e.writes.map Prod.fst

def Leaves (e : Emission S ω) (s : S) : Prop := s = e.state ∨ ∃ w, (w, s) ∈ e.writes

@[simp] theorem state_done (s : S) : (done s : Emission S ω).state = s := rfl

@[simp] theorem state_andThen (e : Emission S ω) (next : S → Emission S ω) :
    (e.andThen next).state = (next e.state).state := rfl

@[simp] theorem output_done (s : S) : (done s : Emission S ω).output = [] := rfl

@[simp] theorem output_emit (w : ω) (s : S) : (emit w s).output = [w] := rfl

@[simp] theorem output_andThen (e : Emission S ω) (next : S → Emission S ω) :
    (e.andThen next).output = e.output ++ (next e.state).output := map_append

@[simp] theorem output_afterwards (e : Emission S ω) (change : S → S) :
    (e.afterwards change).output = e.output := by
  unfold output afterwards
  rw [map_map]
  rfl

def Ends (P : S → Prop) (e : Emission S ω) : Prop := ∀ s, e.Leaves s → P s

variable {s : S} {change : S → S}

section Ends

variable {P Q : S → Prop}

theorem Ends.state {e : Emission S ω} (h : e.Ends P) : P e.state := h e.state (Or.inl rfl)

theorem ends_done (h : P s) : (done s : Emission S ω).Ends P := by
  rintro t (rfl | ⟨w, hw⟩)
  · exact h
  · exact nomatch hw

theorem ends_emit (w : ω) (h : P s) : (emit w s).Ends P := by
  rintro t (rfl | ⟨w, hw⟩)
  · exact h
  · obtain ⟨rfl, rfl⟩ := Prod.mk.inj (mem_singleton.mp hw)
    exact h

theorem Ends.andThen {e : Emission S ω} {next : S → Emission S ω} (h : e.Ends P)
    (hnext : (next e.state).Ends P) : (e.andThen next).Ends P := by
  rintro t (rfl | ⟨w, hw⟩)
  · exact hnext.state
  rcases mem_append.mp hw with hw | hw
  · exact h t (Or.inr ⟨w, hw⟩)
  · exact hnext t (Or.inr ⟨w, hw⟩)

theorem Ends.afterwards {e : Emission S ω} (h : e.Ends P) (hchange : ∀ s, P s → Q (change s))
    : (e.afterwards change).Ends Q := by
  rintro t (rfl | ⟨w, hw⟩)
  · exact hchange e.state h.state
  obtain ⟨⟨w', s⟩, hs, heq⟩ := mem_map.mp hw
  obtain ⟨rfl, rfl⟩ := Prod.mk.inj heq
  exact hchange s (h s (Or.inr ⟨w', hs⟩))

end Ends

def Writes (p : ω → Prop) (e : Emission S ω) : Prop := ∀ w ∈ e.output, p w

section Writes

variable {p : ω → Prop}

theorem writes_done : (done s : Emission S ω).Writes p := fun _ hw =>
  nomatch hw

theorem writes_emit {w : ω} (h : p w) : (emit w s).Writes p := by
  intro w' hw'
  rwa [mem_singleton.mp hw']

theorem Writes.andThen {e : Emission S ω} {next : S → Emission S ω} (h : e.Writes p)
    (hnext : (next e.state).Writes p) : (e.andThen next).Writes p := by
  intro w hw
  rw [output_andThen] at hw
  rcases mem_append.mp hw with hw | hw
  · exact h w hw
  · exact hnext w hw

theorem Writes.afterwards {e : Emission S ω} (h : e.Writes p) : (e.afterwards change).Writes p := by
  intro w hw
  rw [output_afterwards] at hw
  exact h w hw

end Writes

/-! ### All that a step may do -/

/-- The step leaves states with `P` only, makes writes with `p` only, and these come to `n` at
most. -/
structure Within {β : Type*} (P : S → Prop) (p : ω → Prop) (render : ω → List β) (n : ℕ)
    (e : Emission S ω) : Prop where
  ends : e.Ends P
  writes : e.Writes p
  length : (e.output.flatMap render).length ≤ n

section Within

variable {β : Type*} {P Q : S → Prop} {p q : ω → Prop} {render : ω → List β} {n m : ℕ}
  {e : Emission S ω} {next : S → Emission S ω}

theorem Within.mono (h : e.Within P p render n) (hle : n ≤ m) : e.Within P p render m :=
  ⟨h.ends, h.writes, Nat.le_trans h.length hle⟩

theorem Within.imp (h : e.Within P p render n) (hp : ∀ w, p w → q w) : e.Within P q render n :=
  ⟨h.ends, fun w hw => hp w (h.writes w hw), h.length⟩

theorem within_done (h : P s) : (done s : Emission S ω).Within P p render n :=
  ⟨ends_done h, writes_done, Nat.zero_le n⟩

theorem within_emit {w : ω} (h : P s) (hw : p w) (hlen : (render w).length ≤ n) :
    (emit w s).Within P p render n := by
  refine ⟨ends_emit w h, writes_emit hw, ?_⟩
  rw [output_emit, flatMap_singleton]
  exact hlen

theorem Within.seq (h : e.Within P p render n) (hkeep : ∀ s, P s → Q s)
    (hnext : ∀ s, P s → (next s).Within Q p render m) :
    (e.andThen next).Within Q p render (n + m) := by
  have hends : e.Ends Q := fun s hs => hkeep s (h.ends s hs)
  have hthen := hnext e.state h.ends.state
  refine ⟨hends.andThen hthen.ends, h.writes.andThen hthen.writes, ?_⟩
  rw [output_andThen, flatMap_append, length_append]
  exact Nat.add_le_add h.length hthen.length

theorem Within.andThen (h : e.Within P p render n)
    (hnext : ∀ s, P s → (next s).Within P p render m) :
    (e.andThen next).Within P p render (n + m) := h.seq (fun _ hs => hs) hnext

theorem Within.afterwards (h : e.Within P p render n) (hchange : ∀ s, P s → Q (change s)) :
    (e.afterwards change).Within Q p render n := by
  refine ⟨h.ends.afterwards hchange, h.writes.afterwards, ?_⟩
  rw [output_afterwards]
  exact h.length

theorem within_ite {c : Prop} [Decidable c] {a b : Emission S ω} (ha : c → a.Within P p render n)
    (hb : ¬ c → b.Within P p render n) : (if c then a else b).Within P p render n := by
  by_cases h : c
  · rw [if_pos h]
    exact ha h
  · rw [if_neg h]
    exact hb h

end Within

/-! ### A sequence of steps -/

variable {ι : Type*} (process : S → ι → Emission S ω)

def behind (s : S) (input : List ι) : S := input.foldl (fun s i => (process s i).state) s

/-- The writes of a whole input. -/
def emitted : S → List ι → List ω
  | _, [] => []
  | s, i :: rest => (process s i).output ++ emitted (process s i).state rest

@[simp] theorem behind_nil (s : S) : behind process s [] = s := rfl

@[simp] theorem behind_cons (s : S) (i : ι) (rest : List ι) :
    behind process s (i :: rest) = behind process (process s i).state rest := rfl

@[simp] theorem emitted_nil (s : S) : emitted process s [] = [] := rfl

@[simp] theorem emitted_cons (s : S) (i : ι) (rest : List ι) :
    emitted process s (i :: rest) =
      (process s i).output ++ emitted process (process s i).state rest := rfl

theorem behind_append (s : S) (input more : List ι) :
    behind process s (input ++ more) = behind process (behind process s input) more :=
  foldl_append

theorem emitted_append (s : S) (input more : List ι) :
    emitted process s (input ++ more) =
      emitted process s input ++ emitted process (behind process s input) more := by
  induction input generalizing s with
  | nil => rfl
  | cons i input ih => rw [cons_append, emitted_cons, ih, behind_cons, emitted_cons, append_assoc]

end Emission

/-! ## Sinks -/

/-- Where the bytes go: a write reports whether it succeeded, and the sink how much room is left.
Each call may change the sink. -/
structure Sink (σ : Type*) where
  write : σ → List UInt8 → Bool × σ
  space : σ → ℕ × σ

namespace Sink

open List

variable {σ S ω ι : Type*}

/-- `written` is all the sink ever took, and `room` what it can still take: never less than
reported, and a write that fits is taken whole and uses up no more than its length. -/
structure Truthful (sink : Sink σ) (written : σ → List UInt8) (room : σ → ℕ) : Prop where
  space_le : ∀ c, (sink.space c).1 ≤ room (sink.space c).2
  space_written : ∀ c, written (sink.space c).2 = written c
  write_ok : ∀ c bytes, bytes.length ≤ room c → (sink.write c bytes).1 = true
  write_written : ∀ c bytes, bytes.length ≤ room c →
    written (sink.write c bytes).2 = written c ++ bytes
  write_room : ∀ c bytes, bytes.length ≤ room c →
    room c ≤ room (sink.write c bytes).2 + bytes.length

/-- A sink without a limit, which always reports `report` bytes of room. -/
def unlimited (report : ℕ) : Sink (List UInt8) where
  write bytes more := (true, bytes ++ more)
  space bytes := (report, bytes)

/-- A sink with a buffer of `limit` bytes, which takes a write whole or not at all: what was
drained, and what it holds. -/
def bounded (limit : ℕ) : Sink (List UInt8 × List UInt8) where
  write c bytes :=
    if bytes.length ≤ limit - c.2.length then (true, c.1, c.2 ++ bytes) else (false, c)
  space c := (limit - c.2.length, c)

variable (c : List UInt8 × List UInt8)

/-- The buffer is emptied. -/
def drain : List UInt8 × List UInt8 := (c.1 ++ c.2, [])

/-- All a buffered sink ever took. -/
def taken : List UInt8 := c.1 ++ c.2

theorem taken_drain : taken (drain c) = taken c :=
  append_nil (c.1 ++ c.2)

theorem bounded_truthful (limit : ℕ) :
    (bounded limit).Truthful taken fun c => limit - c.2.length where
  space_le _ := Nat.le_refl _
  space_written _ := rfl
  write_ok c bytes h := by
    unfold bounded
    dsimp only
    rw [if_pos h]
  write_written c bytes h := by
    unfold bounded taken
    dsimp only
    rw [if_pos h, append_assoc]
  write_room c bytes h := by
    unfold bounded
    dsimp only
    rw [if_pos h, length_append]
    omega

section Feeding

variable (sink : Sink σ) (render : ω → List UInt8)

/-- Make the writes one after the other, up to the first that fails. -/
def deliver (last : S) : List (ω × S) → σ → Bool × S × σ
  | [], c => (true, last, c)
  | (w, failed) :: rest, c =>
    match sink.write c (render w) with
    | (false, c) => (false, failed, c)
    | (true, c) => deliver last rest c

variable (process : S → ι → Emission S ω) (need : ℕ)

/-- Feed the items while the sink has room: how many were taken, and the states behind them. -/
def feed (s : S) (c : σ) : List ι → ℕ × S × σ
  | [] => (0, s, c)
  | i :: rest =>
    let (room, c) := sink.space c
    if room < need then (0, s, c)
    else
      match deliver sink render (process s i).state (process s i).writes c with
      | (false, s, c) => (0, s, c)
      | (true, s, c) =>
        let (taken, s, c) := feed s c rest
        (taken + 1, s, c)

/-- Handle the items whatever room there is. A write that fails ends it. -/
def push (s : S) (c : σ) : List ι → Bool × S × σ
  | [] => (true, s, c)
  | i :: rest =>
    match deliver sink render (process s i).state (process s i).writes c with
    | (false, s, c) => (false, s, c)
    | (true, s, c) => push s c rest

/-- A piece of the input that is left is offered, or something else happens to the sink. -/
inductive Moment (σ : Type*)
  | offer (amount : ℕ)
  | elsewhere (change : σ → σ)

structure Session (S σ ι : Type*) where
  state : S
  sink : σ
  rest : List ι

/-- One moment of a session. What a feed does not take is offered again. -/
def Session.step (t : Session S σ ι) : Moment σ → Session S σ ι
  | .offer amount =>
    let (taken, s, c) := feed sink render process need t.state t.sink (t.rest.take amount)
    ⟨s, c, t.rest.drop taken⟩
  | .elsewhere change => { t with sink := change t.sink }

/-- A whole session. -/
def Session.run (t : Session S σ ι) (moments : List (Moment σ)) : Session S σ ι :=
  moments.foldl (Session.step sink render process need) t

def Moment.Keeps (written : σ → List UInt8) : Moment σ → Prop
  | .offer _ => True
  | .elsewhere change => ∀ c, written (change c) = written c

end Feeding

/-! ## Back pressure -/

variable {s : S}

section Bounded

variable {sink : Sink σ} {written : σ → List UInt8} {room : σ → ℕ} {render : ω → List UInt8}
  {process : S → ι → Emission S ω} {need : ℕ}

theorem deliver_of_room (hsink : sink.Truthful written room) (last : S) {writes : List (ω × S)}
    {c : σ} (h : ((writes.map Prod.fst).flatMap render).length ≤ room c) :
    ∃ c', deliver sink render last writes c = (true, last, c') ∧
      written c' = written c ++ (writes.map Prod.fst).flatMap render ∧
      room c ≤ room c' + ((writes.map Prod.fst).flatMap render).length := by
  induction writes generalizing c with
  | nil => exact ⟨c, rfl, (append_nil _).symm, Nat.le_refl _⟩
  | cons w rest ih =>
  obtain ⟨w, failed⟩ := w
  rw [map_cons, flatMap_cons, length_append] at h
  dsimp only at h
  have hfits : (render w).length ≤ room c := by omega
  have hok := hsink.write_ok c (render w) hfits
  have hwritten := hsink.write_written c (render w) hfits
  have hroom := hsink.write_room c (render w) hfits
  unfold deliver
  generalize sink.write c (render w) = outcome at hok hwritten hroom ⊢
  obtain ⟨ok, c1⟩ := outcome
  obtain rfl : ok = true := hok
  dsimp only at hwritten hroom ⊢
  obtain ⟨c', hc', htaken, hleft⟩ := @ih c1 (by omega)
  refine ⟨c', hc', ?_, ?_⟩
  · rw [htaken, hwritten, append_assoc, map_cons, flatMap_cons]
  rw [map_cons, flatMap_cons, length_append]
  dsimp only
  omega

theorem push_of_room (hsink : sink.Truthful written room) {c : σ} {input : List ι}
    (h : ((Emission.emitted process s input).flatMap render).length ≤ room c) :
    ∃ c', push sink render process s c input = (true, Emission.behind process s input, c') ∧
      written c' = written c ++ (Emission.emitted process s input).flatMap render := by
  induction input generalizing s c with
  | nil => exact ⟨c, rfl, (append_nil _).symm⟩
  | cons i rest ih =>
  rw [Emission.emitted_cons, flatMap_append, length_append] at h
  have hfits : ((process s i).output.flatMap render).length ≤ room c := by omega
  obtain ⟨c1, hdeliver, hwritten, hroom⟩ := deliver_of_room hsink (process s i).state hfits
  change room c ≤ room c1 + ((process s i).output.flatMap render).length at hroom
  obtain ⟨c', hpush, hrest⟩ := @ih (process s i).state c1 (by omega)
  refine ⟨c', ?_, ?_⟩
  · unfold push
    rw [hdeliver]
    exact hpush
  · rw [hrest, hwritten, Emission.emitted_cons, flatMap_append, ← append_assoc]
    rfl

variable {Inv : S → Prop}

theorem deliver_leaves (sink : Sink σ) (render : ω → List UInt8) (e : Emission S ω) (c : σ) :
    e.Leaves (deliver sink render e.state e.writes c).2.1 := by
  have key : ∀ (last : S) (writes : List (ω × S)) (c : σ),
      (deliver sink render last writes c).2.1 = last ∨
        ∃ w, (w, (deliver sink render last writes c).2.1) ∈ writes := by
    intro last writes
    induction writes with
    | nil => intro c; exact Or.inl rfl
    | cons w rest ih =>
    intro c
    obtain ⟨w, failed⟩ := w
    unfold deliver
    generalize sink.write c (render w) = outcome
    obtain ⟨_ | _, c⟩ := outcome
    · exact Or.inr ⟨w, mem_cons_self⟩
    rcases ih c with h | ⟨w', h⟩
    · exact Or.inl h
    · exact Or.inr ⟨w', mem_cons_of_mem _ h⟩
  exact key e.state e.writes c

theorem feed_keeps (hkeep : ∀ s i, Inv s → (process s i).Ends Inv) (hs : Inv s) (c : σ)
    (input : List ι) : Inv (feed sink render process need s c input).2.1 := by
  induction input generalizing s c with
  | nil => exact hs
  | cons i rest ih =>
  unfold feed
  dsimp only
  by_cases hroom : (sink.space c).1 < need
  · rw [if_pos hroom]
    exact hs
  rw [if_neg hroom]
  have hleft := hkeep s i hs _ (deliver_leaves sink render (process s i) (sink.space c).2)
  generalize deliver sink render (process s i).state (process s i).writes
    (sink.space c).2 = outcome at hleft ⊢
  obtain ⟨_ | _, s', c'⟩ := outcome
  · exact hleft
  · exact ih hleft c'

theorem feed_spec (hsink : sink.Truthful written room)
    (hkeep : ∀ s i, Inv s → (process s i).Ends Inv)
    (hbound : ∀ s i, Inv s → ((process s i).output.flatMap render).length ≤ need) (hs : Inv s)
    (c : σ) (input : List ι) :
    ∃ taken left c', input = taken ++ left ∧
      feed sink render process need s c input =
        (taken.length, Emission.behind process s taken, c') ∧
      written c' = written c ++ (Emission.emitted process s taken).flatMap render ∧
      Inv (Emission.behind process s taken) := by
  induction input generalizing s c with
  | nil => exact ⟨[], [], c, rfl, rfl, (append_nil _).symm, hs⟩
  | cons i rest ih =>
  by_cases hroom : (sink.space c).1 < need
  · refine ⟨[], i :: rest, (sink.space c).2, rfl, ?_, ?_, hs⟩
    · exact if_pos hroom
    · rw [hsink.space_written, Emission.emitted_nil, flatMap_nil, append_nil]
  have hfits : ((process s i).output.flatMap render).length ≤ room (sink.space c).2 := by
    have h1 := hbound s i hs
    have h2 := hsink.space_le c
    omega
  obtain ⟨c1, hdeliver, hwritten, -⟩ := deliver_of_room hsink (process s i).state hfits
  obtain ⟨taken, left, c', hsplit, hfeed, hrest, hinv⟩ := ih (hkeep s i hs).state c1
  refine ⟨i :: taken, left, c', by rw [hsplit, cons_append], ?_, ?_, hinv⟩
  · unfold feed
    dsimp only
    rw [if_neg hroom, hdeliver]
    dsimp only
    rw [hfeed]
    rfl
  · rw [hrest, hwritten, hsink.space_written, Emission.emitted_cons, flatMap_append,
      append_assoc]
    rfl

theorem feed_pos (hsink : sink.Truthful written room)
    (hbound : ∀ s i, Inv s → ((process s i).output.flatMap render).length ≤ need) (hs : Inv s)
    {c : σ} (hspace : need ≤ (sink.space c).1) (i : ι) (rest : List ι) :
    0 < (feed sink render process need s c (i :: rest)).1 := by
  have hfits : ((process s i).output.flatMap render).length ≤ room (sink.space c).2 := by
    have h1 := hbound s i hs
    have h2 := hsink.space_le c
    omega
  obtain ⟨c1, hdeliver, -⟩ := deliver_of_room hsink (process s i).state hfits
  have hneg : ¬ (sink.space c).1 < need := Nat.not_lt.mpr hspace
  unfold feed
  dsimp only
  rw [if_neg hneg, hdeliver]
  exact Nat.succ_pos _

theorem deliver_unlimited (report : ℕ) (last : S) (writes : List (ω × S)) (bytes : List UInt8) :
    deliver (unlimited report) render last writes bytes =
      (true, last, bytes ++ (writes.map Prod.fst).flatMap render) := by
  induction writes generalizing bytes with
  | nil => rw [map_nil, flatMap_nil, append_nil]; rfl
  | cons w rest ih =>
    rw [map_cons, flatMap_cons, ← append_assoc]
    exact ih (bytes ++ render w.1)

theorem feed_unlimited {report : ℕ} (hreport : need ≤ report) (s : S) (bytes : List UInt8)
    (input : List ι) :
    feed (unlimited report) render process need s bytes input =
      (input.length, Emission.behind process s input,
        bytes ++ (Emission.emitted process s input).flatMap render) := by
  induction input generalizing s bytes with
  | nil => rw [Emission.emitted_nil, flatMap_nil, append_nil]; rfl
  | cons i rest ih =>
  have hspace : ((unlimited report).space bytes) = (report, bytes) := rfl
  unfold feed
  rw [hspace]
  dsimp only
  rw [if_neg (by omega), deliver_unlimited]
  dsimp only
  rw [ih, Emission.emitted_cons, flatMap_append, append_assoc]
  rfl

theorem push_unlimited (report : ℕ) (s : S) (bytes : List UInt8) (input : List ι) :
    push (unlimited report) render process s bytes input =
      (true, Emission.behind process s input,
        bytes ++ (Emission.emitted process s input).flatMap render) := by
  induction input generalizing s bytes with
  | nil => rw [Emission.emitted_nil, flatMap_nil, append_nil]; rfl
  | cons i rest ih =>
  unfold push
  rw [deliver_unlimited]
  dsimp only
  rw [ih, Emission.emitted_cons, flatMap_append, append_assoc]
  rfl

/-- **Back pressure is invisible.** At every moment of a session the sink has taken exactly the
output of the items taken so far, and the state is the one behind them. -/
theorem Session.run_spec (hsink : sink.Truthful written room)
    (hkeep : ∀ s i, Inv s → (process s i).Ends Inv)
    (hbound : ∀ s i, Inv s → ((process s i).output.flatMap render).length ≤ need)
    {t : Session S σ ι} (hs : Inv t.state) {moments : List (Moment σ)}
    (hmoments : ∀ m ∈ moments, m.Keeps written) :
    ∃ taken, t.rest = taken ++ (t.run sink render process need moments).rest ∧
      (t.run sink render process need moments).state = Emission.behind process t.state taken ∧
      written (t.run sink render process need moments).sink =
        written t.sink ++ (Emission.emitted process t.state taken).flatMap render ∧
      Inv (t.run sink render process need moments).state := by
  induction moments generalizing t with
  | nil => exact ⟨[], rfl, rfl, (append_nil _).symm, hs⟩
  | cons m moments ih =>
  have hrest : ∀ m ∈ moments, m.Keeps written := fun m' hm' =>
    hmoments m' (mem_cons_of_mem m hm')
  cases m with
  | offer amount =>
    obtain ⟨taken, left, c', hsplit, hfeed, hwritten, hinv⟩ :=
      feed_spec hsink hkeep hbound hs t.sink (t.rest.take amount)
    have hstep : t.step sink render process need (.offer amount) =
        ⟨Emission.behind process t.state taken, c', t.rest.drop taken.length⟩ := by
      unfold Session.step
      dsimp only
      rw [hfeed]
    have hdrop : t.rest = taken ++ t.rest.drop taken.length := by
      have htake : t.rest.take taken.length = taken := by
        have hlen : taken.length ≤ amount := by
          have := congrArg List.length hsplit
          rw [length_take, length_append] at this
          omega
        have := congrArg (take taken.length) hsplit
        rwa [take_take, Nat.min_eq_left hlen, take_left] at this
      conv_lhs => rw [← take_append_drop taken.length t.rest, htake]
    obtain ⟨more, h1, h2, h3, h4⟩ := @ih (t.step sink render process need (.offer amount))
      (by rw [hstep]; exact hinv) hrest
    refine ⟨taken ++ more, ?_, ?_, ?_, h4⟩
    · rw [hstep] at h1
      show t.rest = taken ++ more ++ ((t.step sink render process need (.offer amount)).run sink
        render process need moments).rest
      rw [append_assoc, hstep, ← h1]
      exact hdrop
    · show ((t.step sink render process need (.offer amount)).run sink render process need
        moments).state = _
      rw [h2, hstep, Emission.behind_append]
    · show written ((t.step sink render process need (.offer amount)).run sink render process
        need moments).sink = _
      rw [h3, hstep, hwritten, Emission.emitted_append, flatMap_append, append_assoc]
  | elsewhere change =>
  have hchange : written (change t.sink) = written t.sink :=
    hmoments _ mem_cons_self t.sink
  obtain ⟨taken, h1, h2, h3, h4⟩ :=
    @ih (t.step sink render process need (.elsewhere change)) hs hrest
  exact ⟨taken, h1, h2, h3.trans (by show written (change t.sink) ++ _ = _; rw [hchange]; rfl),
    h4⟩

end Bounded

end Sink
