import AceShell.Lib.Places
import AceShell.Lib.Text

/-!
# Output to the console

After `write_amiga_stream` in `console_device_bridge.c`. The sequence ESC c becomes a form feed, so
that an ESC is held back until the next byte shows what it is, also from one call to the next. The
batch, an array on the stack, is handed over when its fill is equal to its size, but a byte behind a
held ESC adds two to the fill. A byte that would be stored behind the array makes the result `none`;
`output_complete_iff` says which streams do that.
-/

namespace AceShell.Console

open List Option

/-- ESC -/
def esc : UInt8 := 27

def letterC : UInt8 := 99

def formFeed : UInt8 := 12

/-! ## The program -/

def writeDirect (data : List UInt8) : List (List UInt8) :=
  if data = [] then []
  else if data.length ≤ 65536 then [data]
  else data.take 65536 :: writeDirect (data.drop 65536)
termination_by data.length
decreasing_by
  rw [length_drop]
  omega

/-- `sizeof(ordinary)` -/
def ordinarySize : ℕ := 8192

structure Batch where
  ordinary : List UInt8 := []
  pendingResetEscape : Bool := false
  written : List (List UInt8) := []
  deriving DecidableEq

def Batch.store (batch : Batch) (byte : UInt8) : Option Batch :=
  if batch.ordinary.length < ordinarySize then
    some { batch with ordinary := batch.ordinary ++ [byte] }
  else none

/-- The batch is handed over. -/
def Batch.handOver (batch : Batch) : Batch :=
  { batch with ordinary := [], written := batch.written ++ writeDirect batch.ordinary }

/-- An ESC c is complete. -/
def Batch.reset (batch : Batch) : Batch :=
  let batch := batch.handOver
  { batch with pendingResetEscape := false, written := batch.written ++ writeDirect [formFeed] }

def Batch.step (batch : Batch) (byte : UInt8) : Option Batch :=
  if batch.pendingResetEscape && byte == letterC then some batch.reset
  else
    (if batch.pendingResetEscape then
        Batch.store { batch with pendingResetEscape := false } esc
      else some batch).bind fun batch =>
    if byte = esc then some { batch with pendingResetEscape := true }
    else (batch.store byte).map fun batch =>
      if batch.ordinary.length = ordinarySize then batch.handOver else batch

def Batch.run (batch : Batch) : List UInt8 → Option Batch
  | [] => some batch
  | byte :: rest => (batch.step byte).bind fun batch => batch.run rest

/-- `write_amiga_stream`: the batches, and the flag for the next call. -/
def writeAmigaStream (data : List UInt8) (pendingResetEscape : Bool) :
    Option (List (List UInt8) × Bool) :=
  (Batch.run { pendingResetEscape } data).map fun batch =>
    (batch.handOver.written, batch.pendingResetEscape)

/-- `struct ace_console_device`, as far as its stream goes. `screenful` is given by the window and
the font. -/
structure ConsoleDevice where
  screenful : ℕ := 0
  history : List UInt8 := []
  pendingResetEscape : Bool := false
  deriving DecidableEq

/-- What is behind the first line feed at or behind a place, as `trim_history` and
`replay_start_for_end` look for it. -/
def behindLine (stream : List UInt8) (cut : ℕ) : List UInt8 :=
  ((stream.drop cut).dropWhile (· != 10)).drop 1

/-- `history_limit` -/
def ConsoleDevice.historyLimit (device : ConsoleDevice) : ℕ :=
  if device.screenful = 0 then 128 * 1024
  else min (max (64 * device.screenful) (128 * 1024)) (4 * 1024 * 1024)

/-- `trim_history` -/
def ConsoleDevice.trimHistory (device : ConsoleDevice) : List UInt8 :=
  if device.history.length ≤ device.historyLimit then device.history
  else behindLine device.history (device.history.length - device.historyLimit)

def ConsoleDevice.write (device : ConsoleDevice) (data : List UInt8) :
    Option (ConsoleDevice × List (List UInt8)) :=
  if data = [] then some (device, [])
  else
    (writeAmigaStream data device.pendingResetEscape).map fun (written, pendingResetEscape) =>
      ({ device with history := device.trimHistory ++ data, pendingResetEscape }, written)

def ConsoleDevice.writes (device : ConsoleDevice) :
    List (List UInt8) → Option (ConsoleDevice × List (List UInt8))
  | [] => some (device, [])
  | data :: calls =>
    (device.write data).bind fun (device, written) =>
      (device.writes calls).map fun (device, more) => (device, written ++ more)

def ConsoleDevice.replayed (device : ConsoleDevice) : List UInt8 :=
  let want := 3 * device.screenful
  if device.screenful = 0 ∨ device.history.length ≤ want then device.history
  else
    let tail := behindLine device.history (device.history.length - want)
    if tail = [] then device.history else tail

/-- `replay_history` -/
def ConsoleDevice.replayHistory (device : ConsoleDevice) : Option (List (List UInt8)) :=
  (writeAmigaStream device.replayed false).map Prod.fst

/-! ## What it is for -/

/-- The stream with a form feed for each ESC c. A last ESC is not there yet. -/
def translate : List UInt8 → List UInt8
  | [] => []
  | [byte] => if byte = esc then [] else [byte]
  | byte :: byte' :: rest =>
    if byte = esc ∧ byte' = letterC then formFeed :: translate rest
    else byte :: translate (byte' :: rest)

/-- The stream ends in an ESC. -/
def Held (stream : List UInt8) : Prop := stream.getLast? = some esc

instance (stream : List UInt8) : Decidable (Held stream) := inferInstanceAs (Decidable (_ = _))

def owed (pendingResetEscape : Bool) : List UInt8 := if pendingResetEscape then [esc] else []

/-- Is an ESC held at this place, and how many bytes have come since the last reset or the start of
the call, that ESC apart? -/
structure Position where
  held : Bool
  since : ℕ
  deriving DecidableEq

variable (position : Position)

def Position.next (byte : UInt8) : Position :=
  if position.held then
    if byte = letterC then ⟨false, 0⟩
    else if byte = esc then ⟨true, position.since + 1⟩
    else ⟨false, position.since + 2⟩
  else if byte = esc then ⟨true, position.since⟩
  else ⟨false, position.since + 1⟩

/-- What may follow an ESC that takes the last place of a batch: the c of a reset, or a last ESC, or
that of a reset. -/
def MayFollow (byte : UInt8) (rest : List UInt8) : Prop :=
  byte = letterC ∨ byte = esc ∧ (rest = [] ∨ rest.head? = some letterC)

instance (byte : UInt8) (rest : List UInt8) : Decidable (MayFollow byte rest) :=
  inferInstanceAs (Decidable (_ ∨ _))

/-- From a place on, no ESC that takes the last place of a batch is followed by anything else. -/
def FitsFrom (data : List UInt8) : Prop :=
  ∀ before byte rest, data = before ++ byte :: rest →
    (before.foldl Position.next position).held = true →
    (before.foldl Position.next position).since % ordinarySize = ordinarySize - 1 →
    MayFollow byte rest

def Fits (pendingResetEscape : Bool) (data : List UInt8) : Prop :=
  FitsFrom ⟨pendingResetEscape, 0⟩ data

/-! ## The batches and the stream -/

theorem writeDirect_flatten (data : List UInt8) : (writeDirect data).flatten = data := by
  induction data using writeDirect.induct with
  | case1 => rw [writeDirect, if_pos rfl, flatten_nil]
  | case2 data hne hle =>
    rw [writeDirect, if_neg hne, if_pos hle, flatten_singleton]
  | case3 data hne hlt ih =>
    rw [writeDirect, if_neg hne, if_neg hlt, flatten_cons, ih, take_append_drop]

theorem translate_esc : translate [esc] = [] := if_pos rfl

variable {byte : UInt8}

theorem translate_byte (h : byte ≠ esc) : translate [byte] = [byte] := if_neg h

theorem translate_reset (rest : List UInt8) :
    translate (esc :: letterC :: rest) = formFeed :: translate rest := if_pos ⟨rfl, rfl⟩

theorem translate_plain {byte' : UInt8} (h : ¬ (byte = esc ∧ byte' = letterC)) (rest : List UInt8)
    : translate (byte :: byte' :: rest) = byte :: translate (byte' :: rest) :=
  if_neg h

theorem translate_concat (stream : List UInt8) (byte : UInt8) :
    translate (stream ++ [byte]) = translate stream ++
      if Held stream then if byte = letterC then [formFeed] else esc :: translate [byte]
      else translate [byte] := by
  induction stream using translate.induct with
  | case1 => rfl
  | case2 =>
    have hheld : Held [esc] := rfl
    rw [singleton_append, translate_esc, nil_append, if_pos hheld]
    by_cases hbyte : byte = letterC
    · rw [if_pos hbyte, hbyte, translate_reset, translate]
    · rw [if_neg hbyte, translate_plain (fun hboth => hbyte hboth.2)]
  | case3 first hfst =>
    have hfree : ¬ Held [first] := fun hheld => hfst (some.inj hheld)
    rw [singleton_append, translate_plain (fun hboth => hfst hboth.1), translate_byte hfst,
      singleton_append, if_neg hfree]
  | case4 first second rest hreset ih =>
    obtain ⟨rfl, rfl⟩ := hreset
    have hrest : Held (esc :: letterC :: rest) ↔ Held rest := by
      cases rest with
      | nil => decide
      | cons third rest => exact Iff.rfl
    simp only [cons_append, translate_reset, ih, hrest]
  | case5 first second rest hplain ih =>
  have hrest : Held (first :: second :: rest) ↔ Held (second :: rest) := Iff.rfl
  rw [cons_append, cons_append, translate_plain hplain, translate_plain hplain,
    ← cons_append, ih, cons_append]
  simp only [hrest]

theorem held_append (stream : List UInt8) (byte : UInt8) :
    Held (stream ++ [byte]) ↔ byte = esc := by
  unfold Held
  rw [getLast?_concat, some.injEq]

/-- What has gone to the renderer and what is waiting are the translation of the stream so far. -/
structure Batch.Renders (batch : Batch) (stream : List UInt8) : Prop where
  bytes : batch.written.flatten ++ batch.ordinary = translate stream
  pending : batch.pendingResetEscape = true ↔ Held stream

theorem Batch.handOver_bytes (batch : Batch) :
    batch.handOver.written.flatten ++ batch.handOver.ordinary =
      batch.written.flatten ++ batch.ordinary := by
  unfold Batch.handOver
  rw [append_nil, flatten_append, writeDirect_flatten]

/-! ### The step, case by case -/

/-- A full batch is handed over. -/
def Batch.settle (batch : Batch) : Batch :=
  if batch.ordinary.length = ordinarySize then batch.handOver else batch

variable {ordinary : List UInt8} {written : List (List UInt8)} {byte : UInt8}

theorem step_reset :
    Batch.step ⟨ordinary, true, written⟩ letterC = some (Batch.reset ⟨ordinary, true, written⟩) :=
  rfl

theorem step_escape_held :
    Batch.step ⟨ordinary, true, written⟩ esc =
      if ordinary.length < ordinarySize then some ⟨ordinary ++ [esc], true, written⟩ else none := by
  have hc : ¬ (true && esc == letterC) = true := by decide
  unfold Batch.step Batch.store
  rw [if_neg hc, if_pos rfl]
  by_cases hone : ordinary.length < ordinarySize
  · rw [if_pos hone, if_pos hone, bind_some, if_pos rfl]
  · rw [if_neg hone, if_neg hone, bind_none]

theorem step_held (hc : byte ≠ letterC) (hesc : byte ≠ esc) :
    Batch.step ⟨ordinary, true, written⟩ byte =
      if ordinary.length + 1 < ordinarySize then
        some (Batch.settle ⟨ordinary ++ [esc, byte], false, written⟩)
      else none := by
  have hlen : (ordinary ++ [esc]).length = ordinary.length + 1 := length_append
  have hne : ¬ (true && byte == letterC) = true := fun h => hc (beq_iff_eq.mp h)
  unfold Batch.step Batch.store
  rw [if_neg hne, if_pos rfl]
  by_cases hone : ordinary.length < ordinarySize
  · rw [if_pos hone, bind_some, if_neg hesc]
    rw [hlen]
    by_cases htwo : ordinary.length + 1 < ordinarySize
    · rw [if_pos htwo, if_pos htwo, append_assoc]
      rfl
    · rw [if_neg htwo, if_neg htwo, map_none]
  · rw [if_neg hone, if_neg (by omega), bind_none]

theorem step_escape :
    Batch.step ⟨ordinary, false, written⟩ esc = some ⟨ordinary, true, written⟩ := rfl

theorem step_plain (hesc : byte ≠ esc) :
    Batch.step ⟨ordinary, false, written⟩ byte =
      if ordinary.length < ordinarySize then
        some (Batch.settle ⟨ordinary ++ [byte], false, written⟩)
      else none := by
  unfold Batch.step Batch.store
  rw [Bool.false_and, if_neg Bool.false_ne_true, if_neg Bool.false_ne_true, bind_some,
    if_neg hesc]
  by_cases hone : ordinary.length < ordinarySize
  · rw [if_pos hone, if_pos hone]
    rfl
  · rw [if_neg hone, if_neg hone, map_none]

theorem Batch.settle_bytes (batch : Batch) :
    batch.settle.written.flatten ++ batch.settle.ordinary =
      batch.written.flatten ++ batch.ordinary := by
  unfold Batch.settle
  split_ifs
  · exact batch.handOver_bytes
  · rfl

theorem Batch.settle_pending (batch : Batch) :
    batch.settle.pendingResetEscape = batch.pendingResetEscape := by
  unfold Batch.settle
  split_ifs <;> rfl

variable {batch batch' : Batch} {stream : List UInt8}

theorem Batch.Renders.step (h : batch.Renders stream) (hstep : batch.step byte = some batch') :
    batch'.Renders (stream ++ [byte]) := by
  obtain ⟨ordinary, pending, written⟩ := batch
  obtain ⟨hbytes, hpend⟩ := h
  cases pending with
  | true =>
    have hheld := hpend.mp rfl
    by_cases hc : byte = letterC
    · rw [hc] at hstep
      obtain rfl := some.inj hstep
      refine ⟨?_, iff_of_false Bool.false_ne_true ?_⟩
      · have hff : writeDirect [formFeed] = [[formFeed]] := by
          rw [writeDirect, if_neg (by decide), if_pos (by decide)]
        unfold Batch.reset Batch.handOver
        rw [translate_concat, if_pos hheld, if_pos hc, ← hbytes, hff]
        rw [append_nil, flatten_append, flatten_append, writeDirect_flatten, flatten_singleton]
      · rw [held_append, hc]
        decide
    have htr : translate (stream ++ [byte]) =
        (written.flatten ++ ordinary) ++ esc :: translate [byte] := by
      rw [translate_concat, if_pos hheld, if_neg hc, hbytes]
    by_cases hesc : byte = esc
    · rw [hesc, step_escape_held] at hstep
      split_ifs at hstep
      obtain rfl := some.inj hstep
      refine ⟨?_, iff_of_true rfl ((held_append _ _).mpr hesc)⟩
      rw [htr, hesc, translate_esc, append_assoc]
    rw [step_held hc hesc] at hstep
    split_ifs at hstep
    obtain rfl := some.inj hstep
    refine ⟨?_, ?_⟩
    · rw [Batch.settle_bytes, htr, translate_byte hesc, append_assoc]
    · rw [Batch.settle_pending, held_append]
      exact iff_of_false Bool.false_ne_true hesc
  | false =>
  have hfree : ¬ Held stream := fun hheld => Bool.false_ne_true (hpend.mpr hheld)
  have htr : translate (stream ++ [byte]) =
      (written.flatten ++ ordinary) ++ translate [byte] := by
    rw [translate_concat, if_neg hfree, hbytes]
  by_cases hesc : byte = esc
  · rw [hesc] at hstep
    obtain rfl := some.inj hstep
    refine ⟨?_, iff_of_true rfl ((held_append _ _).mpr hesc)⟩
    rw [htr, hesc, translate_esc, append_nil]
  rw [step_plain hesc] at hstep
  split_ifs at hstep
  obtain rfl := some.inj hstep
  refine ⟨?_, ?_⟩
  · rw [Batch.settle_bytes, htr, translate_byte hesc, append_assoc]
  · rw [Batch.settle_pending, held_append]
    exact iff_of_false Bool.false_ne_true hesc

variable {data : List UInt8}

theorem Batch.Renders.run (h : batch.Renders stream) (hrun : batch.run data = some batch') :
    batch'.Renders (stream ++ data) := by
  induction data generalizing batch stream with
  | nil =>
    rw [append_nil, ← some.inj hrun]
    exact h
  | cons byte rest ih =>
    obtain ⟨next, hstep, hrest⟩ := bind_eq_some_iff.mp hrun
    rw [← singleton_append, ← append_assoc]
    exact ih (h.step hstep) hrest

/-! ## The fill of the batch -/

theorem fitsFrom_nil : FitsFrom position [] := Places.forall_nil

theorem fitsFrom_cons (byte : UInt8) (rest : List UInt8) :
    FitsFrom position (byte :: rest) ↔
      (position.held = true → position.since % ordinarySize = ordinarySize - 1 →
        MayFollow byte rest) ∧ FitsFrom (position.next byte) rest :=
  Places.forall_cons

theorem Batch.settle_length (h : batch.ordinary.length ≤ ordinarySize) :
    batch.settle.ordinary.length = batch.ordinary.length % ordinarySize := by
  unfold Batch.settle
  split_ifs with hfull
  · rw [hfull]
    rfl
  · exact (Nat.mod_eq_of_lt (lt_of_le_of_ne h hfull)).symm

/-- The fill at a place: the bytes since the last reset, less the batches handed over; only behind
an ESC that took the last place and was followed by another one, the batch stays full. -/
structure Batch.At (full : Bool) (position : Position) (batch : Batch) : Prop where
  pending : batch.pendingResetEscape = position.held
  fill : batch.ordinary.length =
    if full then ordinarySize else position.since % ordinarySize
  full_held : full = true → position.held = true ∧ position.since % ordinarySize = 0

section Fill

variable {since : ℕ}

theorem at_settle {bytes : List UInt8} (hroom : (ordinary ++ bytes).length ≤ ordinarySize)
    (hfill : ordinary.length = since % ordinarySize) :
    Batch.At false ⟨false, since + bytes.length⟩
      (Batch.settle ⟨ordinary ++ bytes, false, written⟩) where
  pending := Batch.settle_pending _
  fill := by
    rw [Batch.settle_length hroom, length_append, hfill]
    exact Nat.mod_add_mod _ _ _
  full_held := nofun

theorem at_escape_held (hfill : ordinary.length = since % ordinarySize) :
    Batch.At (decide (since % ordinarySize = ordinarySize - 1)) ⟨true, since + 1⟩
      ⟨ordinary ++ [esc], true, written⟩ where
  pending := rfl
  fill := by
    have hsize : ordinarySize = 8192 := rfl
    rw [length_append, hfill]
    dsimp only [length_singleton]
    split_ifs with hlast
    · rw [of_decide_eq_true hlast, hsize]
    have hne := of_decide_eq_false ((Bool.not_eq_true _).mp hlast)
    rw [hsize] at hne ⊢
    omega
  full_held := by
    intro hlast
    have hsize : ordinarySize = 8192 := rfl
    have heq := of_decide_eq_true hlast
    refine ⟨rfl, ?_⟩
    dsimp only
    rw [hsize] at heq ⊢
    omega

theorem run_isSome_iff {full : Bool} {position : Position} (h : batch.At full position)
    (data : List UInt8) :
    (batch.run data).isSome = true ↔
      (full = true → data = [] ∨ data.head? = some letterC) ∧ FitsFrom position data := by
  induction data generalizing full position batch with
  | nil => exact ⟨fun _ => ⟨fun _ => .inl rfl, fitsFrom_nil _⟩, fun _ => rfl⟩
  | cons byte rest ih =>
  obtain ⟨ordinary, pending, written⟩ := batch
  obtain ⟨held, since⟩ := position
  obtain ⟨hpend, hfill, hfull⟩ := h
  dsimp only at hpend hfill hfull
  subst hpend
  have hlt : since % ordinarySize < ordinarySize := Nat.mod_lt _ (by decide)
  unfold Batch.run
  rw [fitsFrom_cons]
  cases pending with
  | true =>
    by_cases hc : byte = letterC
    · have hnext : Position.next ⟨true, since⟩ byte = ⟨false, 0⟩ := if_pos hc
      have hat : Batch.At false ⟨false, 0⟩ (Batch.reset ⟨ordinary, true, written⟩) :=
        ⟨rfl, rfl, nofun⟩
      rw [hnext, hc, step_reset, bind_some, ih hat]
      simp [MayFollow]
    have hhead : ¬ (byte :: rest = [] ∨ (byte :: rest).head? = some letterC) := by
      simpa using hc
    by_cases hesc : byte = esc
    · have hnext : Position.next ⟨true, since⟩ byte = ⟨true, since + 1⟩ := by
        unfold Position.next
        rw [if_pos rfl, if_neg hc, if_pos hesc]
      rw [hnext, hesc, step_escape_held]
      cases full with
      | true =>
        rw [if_neg (by rw [hfill, if_pos rfl]; omega)]
        exact iff_of_false Bool.false_ne_true fun hno => (hesc ▸ hhead) (hno.1 rfl)
      | false =>
        rw [if_neg Bool.false_ne_true] at hfill
        rw [if_pos (by omega), bind_some, ih (at_escape_held hfill)]
        simp [MayFollow, hesc ▸ hc]
    have hnext : Position.next ⟨true, since⟩ byte = ⟨false, since + 2⟩ := by
      unfold Position.next
      rw [if_pos rfl, if_neg hc, if_neg hesc]
    rw [hnext, step_held hc hesc]
    cases full with
    | true =>
      rw [if_neg (by rw [hfill, if_pos rfl]; omega)]
      exact iff_of_false Bool.false_ne_true fun hno => hhead (hno.1 rfl)
    | false =>
    rw [if_neg Bool.false_ne_true] at hfill
    have hfollow : ¬ MayFollow byte rest := by simp [MayFollow, hc, hesc]
    by_cases hlast : since % ordinarySize = ordinarySize - 1
    · rw [if_neg (by omega)]
      exact iff_of_false Bool.false_ne_true fun hno => hfollow (hno.2.1 rfl hlast)
    · rw [if_pos (by omega), bind_some,
        ih (at_settle (by rw [length_append]; simp; omega) hfill)]
      simp [hlast]
  | false =>
  have hnotFull : full = false := by
    cases full with
    | true => exact absurd (hfull rfl).1 Bool.false_ne_true
    | false => rfl
  subst hnotFull
  rw [if_neg Bool.false_ne_true] at hfill
  by_cases hesc : byte = esc
  · have hnext : Position.next ⟨false, since⟩ byte = ⟨true, since⟩ := if_pos hesc
    have hat : Batch.At false ⟨true, since⟩ ⟨ordinary, true, written⟩ :=
      ⟨rfl, hfill, nofun⟩
    rw [hnext, hesc, step_escape, bind_some, ih hat]
    simp
  · have hnext : Position.next ⟨false, since⟩ byte = ⟨false, since + 1⟩ := if_neg hesc
    rw [hnext, step_plain hesc, if_pos (by omega), bind_some,
      ih (at_settle (by rw [length_append]; simp; omega) hfill)]
    simp

end Fill

/-! ## Calls -/

variable (pendingResetEscape : Bool)

theorem held_owed :
    Held (owed pendingResetEscape) ↔ pendingResetEscape = true := by
  cases pendingResetEscape with
  | true => exact iff_of_true rfl rfl
  | false => exact iff_of_false nofun Bool.false_ne_true

theorem translate_owed : translate (owed pendingResetEscape) = [] := by
  cases pendingResetEscape <;> rfl

theorem held_owed_append (stream data : List UInt8) :
    Held (owed (decide (Held stream)) ++ data) ↔ Held (stream ++ data) := by
  rcases eq_nil_or_concat data with rfl | ⟨front, last, rfl⟩
  · rw [append_nil, append_nil, held_owed, decide_eq_true_eq]
  · rw [concat_eq_append, ← append_assoc, ← append_assoc, held_append, held_append]

theorem translate_append (stream data : List UInt8) :
    translate (stream ++ data) =
      translate stream ++ translate (owed (decide (Held stream)) ++ data) := by
  induction data using reverseRecOn with
  | nil => rw [append_nil, append_nil, translate_owed, append_nil]
  | append_singleton data byte ih =>
    rw [← append_assoc, ← append_assoc]
    rw [translate_concat, translate_concat, ih, append_assoc]
    simp only [held_owed_append]

theorem writeAmigaStream_isSome_iff (data : List UInt8) (pendingResetEscape : Bool) :
    (writeAmigaStream data pendingResetEscape).isSome = true ↔ Fits pendingResetEscape data := by
  have hat : Batch.At false ⟨pendingResetEscape, 0⟩ { pendingResetEscape } :=
    ⟨rfl, rfl, nofun⟩
  unfold writeAmigaStream
  rw [isSome_map, run_isSome_iff hat]
  exact and_iff_right nofun

theorem writeAmigaStream_renders {pendingResetEscape after : Bool} {written : List (List UInt8)}
    (h : writeAmigaStream data pendingResetEscape = some (written, after)) :
    written.flatten = translate (owed pendingResetEscape ++ data) ∧
      (after = true ↔ Held (owed pendingResetEscape ++ data)) := by
  obtain ⟨batch, hrun, hbatch⟩ := map_eq_some_iff.mp h
  obtain ⟨rfl, rfl⟩ := Prod.mk.inj hbatch
  have hstart : Batch.Renders { pendingResetEscape } (owed pendingResetEscape) :=
    ⟨(translate_owed _).symm, (held_owed _).symm⟩
  obtain ⟨hbytes, hpend⟩ := hstart.run hrun
  refine ⟨?_, hpend⟩
  rw [← hbytes, ← batch.handOver_bytes]
  exact (append_nil _).symm

theorem fits_nil : Fits pendingResetEscape [] := fitsFrom_nil _

theorem ConsoleDevice.write_isSome_iff (device : ConsoleDevice) (data : List UInt8) :
    (device.write data).isSome = true ↔ Fits device.pendingResetEscape data := by
  unfold ConsoleDevice.write
  by_cases hdata : data = []
  · rw [hdata]
    exact iff_of_true rfl (fits_nil _)
  · rw [if_neg hdata, isSome_map, writeAmigaStream_isSome_iff]

variable {device device' : ConsoleDevice}

theorem ConsoleDevice.write_renders {written : List (List UInt8)}
    (h : device.write data = some (device', written)) :
    written.flatten = translate (owed device.pendingResetEscape ++ data) ∧
      (device'.pendingResetEscape = true ↔ Held (owed device.pendingResetEscape ++ data)) := by
  unfold ConsoleDevice.write at h
  by_cases hdata : data = []
  · rw [if_pos hdata] at h
    cases h
    rw [hdata, append_nil, translate_owed, held_owed]
    exact ⟨rfl, Iff.rfl⟩
  · rw [if_neg hdata] at h
    obtain ⟨⟨batches, after⟩, hstream, hdevice⟩ := map_eq_some_iff.mp h
    obtain ⟨rfl, rfl⟩ := Prod.mk.inj hdevice
    exact writeAmigaStream_renders hstream

def EachFits (stream : List UInt8) (calls : List (List UInt8)) : Prop :=
  ∀ before data after, calls = before ++ data :: after →
    Fits (decide (Held (stream ++ before.flatten))) data

theorem eachFits_nil (stream : List UInt8) : EachFits stream [] := Places.forall_nil

theorem eachFits_cons (stream data : List UInt8) (calls : List (List UInt8)) :
    EachFits stream (data :: calls) ↔
      Fits (decide (Held stream)) data ∧ EachFits (stream ++ data) calls := by
  unfold EachFits
  rw [Places.forall_cons]
  simp only [flatten_nil, append_nil, flatten_cons, append_assoc]

theorem eachFits_owed (stream : List UInt8) (calls : List (List UInt8)) :
    EachFits (owed (decide (Held stream))) calls ↔ EachFits stream calls := by
  unfold EachFits
  simp only [held_owed_append]

theorem ConsoleDevice.writes_isSome_iff (device : ConsoleDevice) (calls : List (List UInt8)) :
    (device.writes calls).isSome = true ↔ EachFits (owed device.pendingResetEscape) calls := by
  induction calls generalizing device with
  | nil => exact iff_of_true rfl (eachFits_nil _)
  | cons data calls ih =>
  have hheld : decide (Held (owed device.pendingResetEscape)) = device.pendingResetEscape := by
    rw [Bool.eq_iff_iff, decide_eq_true_eq, held_owed]
  rw [eachFits_cons, hheld, ← device.write_isSome_iff]
  unfold ConsoleDevice.writes
  cases hwrite : device.write data with
  | none => simp
  | some result =>
  obtain ⟨device', written⟩ := result
  have hpend : device'.pendingResetEscape =
      decide (Held (owed device.pendingResetEscape ++ data)) := by
    rw [Bool.eq_iff_iff, decide_eq_true_eq, (device.write_renders hwrite).2]
  rw [bind_some, isSome_map, ih device', hpend, eachFits_owed]
  simp

theorem ConsoleDevice.writes_renders {calls : List (List UInt8)} {written : List (List UInt8)}
    (h : device.writes calls = some (device', written)) :
    written.flatten = translate (owed device.pendingResetEscape ++ calls.flatten) ∧
      (device'.pendingResetEscape = true ↔
        Held (owed device.pendingResetEscape ++ calls.flatten)) := by
  induction calls generalizing device written with
  | nil =>
    cases h
    rw [flatten_nil, append_nil, translate_owed, held_owed]
    exact ⟨rfl, Iff.rfl⟩
  | cons data calls ih =>
  obtain ⟨⟨next, first⟩, hwrite, hrest⟩ := bind_eq_some_iff.mp h
  obtain ⟨⟨last, more⟩, hwrites, hres⟩ := map_eq_some_iff.mp hrest
  obtain ⟨rfl, rfl⟩ := Prod.mk.inj hres
  obtain ⟨hbytes, hpend⟩ := device.write_renders hwrite
  obtain ⟨hmore, hlast⟩ := ih hwrites
  have hnext : next.pendingResetEscape =
      decide (Held (owed device.pendingResetEscape ++ data)) := by
    rw [Bool.eq_iff_iff, decide_eq_true_eq, hpend]
  rw [hnext] at hmore hlast
  rw [flatten_cons, ← append_assoc]
  refine ⟨?_, hlast.trans (held_owed_append _ _)⟩
  rw [flatten_append, hbytes, hmore, ← translate_append]

/-- **Console output is complete and in order, unless an ESC fills the batch.** The batches of any
calls join to the stream with a form feed for each ESC c and a last ESC held, and no byte is stored
behind the batch, exactly if in each call no ESC that takes the last place of the batch is followed
by anything but the c of a reset, or an ESC that is last or belongs to a reset. The same is true of
the history, which is replayed as one call. -/
theorem output_complete_iff (device : ConsoleDevice) :
    (∀ calls : List (List UInt8),
      (∃ device' written, device.writes calls = some (device', written) ∧
        written.flatten = translate (owed device.pendingResetEscape ++ calls.flatten) ∧
        (device'.pendingResetEscape = true ↔
          Held (owed device.pendingResetEscape ++ calls.flatten))) ↔
        EachFits (owed device.pendingResetEscape) calls) ∧
      ((∃ written, device.replayHistory = some written ∧
        written.flatten = translate device.replayed) ↔ Fits false device.replayed) := by
  refine ⟨fun calls => ?_, ?_⟩
  · rw [← device.writes_isSome_iff]
    constructor
    · rintro ⟨device', written, hwrites, -⟩
      rw [hwrites]
      rfl
    · intro hsome
      obtain ⟨⟨device', written⟩, hwrites⟩ := isSome_iff_exists.mp hsome
      exact ⟨device', written, hwrites, ConsoleDevice.writes_renders hwrites⟩
  rw [← writeAmigaStream_isSome_iff]
  unfold ConsoleDevice.replayHistory
  constructor
  · rintro ⟨written, hreplay, -⟩
    obtain ⟨result, hstream, -⟩ := map_eq_some_iff.mp hreplay
    rw [hstream]
    rfl
  · intro hsome
    obtain ⟨⟨written, after⟩, hstream⟩ := isSome_iff_exists.mp hsome
    refine ⟨written, by rw [hstream, map_some], ?_⟩
    exact (writeAmigaStream_renders hstream).1

theorem position_plain (n since : ℕ) :
    (replicate n (97 : UInt8)).foldl Position.next ⟨false, since⟩ = ⟨false, since + n⟩ := by
  induction n generalizing since with
  | zero => rfl
  | succ n ih =>
    rw [replicate_succ, foldl_cons]
    have hnext : Position.next ⟨false, since⟩ 97 = ⟨false, since + 1⟩ := rfl
    rw [hnext, ih, Nat.add_right_comm, Nat.add_assoc]

/-- 8191 letters, an ESC and a letter: the last byte is stored behind the batch. -/
theorem escape_fills_batch : ConsoleDevice.writes {} [replicate 8191 97 ++ [esc, 120]] = none := by
  have hcall : ¬ Fits false (replicate 8191 97 ++ [esc, 120]) := by
    intro hfits
    have hplace : (replicate 8191 97 ++ [esc]).foldl Position.next ⟨false, 0⟩ = ⟨true, 8191⟩ := by
      rw [foldl_append, position_plain]
      rfl
    have hfollow := hfits (replicate 8191 97 ++ [esc]) 120 []
      (by rw [append_assoc]; rfl) (by rw [hplace]) (by rw [hplace]; rfl)
    exact absurd hfollow (by decide)
  rw [← not_isSome_iff_eq_none, ConsoleDevice.writes_isSome_iff, eachFits_cons]
  exact fun hfits => hcall hfits.1

end AceShell.Console
