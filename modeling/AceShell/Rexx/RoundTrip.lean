import AceShell.Rexx.Bounds

/-!
# Messages arrive as they were sent

A message that is sent is rebuilt, slot for slot. The header comes back (`Wire.decode_encode`), so
that the decoder takes for each slot the bytes that were put there for it (`decodeSlots_sent`). What
it makes of them is the string that was in the slot, if that is what the action wants there.
-/

namespace AceShell.Rexx

open Text List Decimal

/-! ## The header -/

variable {front rest : List UInt8} {offset : ℕ} {header : Wire}

section Header

variable {order : ByteOrder}

theorem wordAt_append (h : front.length ≤ offset) (width : ℕ) :
    wordAt order (front ++ rest) offset width =
      wordAt order rest (offset - front.length) width := by
  unfold wordAt
  rw [drop_append, drop_eq_nil_of_le h, nil_append]

theorem wordAt_encode {n width : ℕ} (h : n < 256 ^ width) (rest : List UInt8) :
    wordAt order (order.encode width n ++ rest) 0 width = n := by
  unfold wordAt
  rw [drop_zero, take_left' (order.length_encode width n), order.decode_encode h]

theorem wordAt_flatMap {lengths : List UInt32} {i : ℕ} (h : i < lengths.length) :
    wordAt order (lengths.flatMap fun length => order.encode 4 length.toNat) (4 * i) 4 =
      lengths[i].toNat := by
  induction lengths generalizing i with
  | nil => exact absurd h (Nat.not_lt_zero i)
  | cons length lengths ih =>
  rw [flatMap_cons]
  cases i with
  | zero => exact wordAt_encode length.toNat_lt _
  | succ i =>
    rw [wordAt_append (by rw [ByteOrder.length_encode]; omega), ByteOrder.length_encode]
    exact ih (Nat.lt_of_succ_lt_succ h)

theorem word32_encode (value : UInt32) (rest : List UInt8) :
    UInt32.ofNat (wordAt order (order.encode 4 value.toNat ++ rest) 0 4) = value := by
  rw [wordAt_encode value.toNat_lt]
  exact UInt32.ofNat_toNat

theorem word64_encode (value : UInt64) (rest : List UInt8) :
    UInt64.ofNat (wordAt order (order.encode 8 value.toNat ++ rest) 0 8) = value := by
  rw [wordAt_encode value.toNat_lt]
  exact UInt64.ofNat_toNat

theorem Wire.length_words (header : Wire) : (header.words order).length = 60 := by
  simp [Wire.words]

/-- **The header comes back.** -/
theorem Wire.decode_encode (hname : header.privatePortName.length = 64)
    (hlen : header.length.length = slotCount) :
    Wire.decode order (header.encode order) = header := by
  have hwords : (header.words order).length = 60 := header.length_words
  have hfront : (header.words order ++ header.privatePortName).length = 124 := by
    rw [length_append, hwords, hname]
  have hnameAt : ((header.encode order).drop 60).take 64 = header.privatePortName := by
    unfold Wire.encode
    rw [append_assoc, drop_left' hwords, take_left' hname]
  have hlengthAt : ((range slotCount).map fun i =>
      UInt32.ofNat (wordAt order (header.encode order) (124 + 4 * i) 4)) = header.length := by
    refine ext_getElem (by rw [length_map, length_range, hlen]) fun i _ hi => ?_
    rw [getElem_map, getElem_range]
    unfold Wire.encode
    rw [wordAt_append (by omega), hfront, Nat.add_sub_cancel_left, wordAt_flatMap hi]
    exact UInt32.ofNat_toNat
  unfold Wire.decode
  rw [hnameAt, hlengthAt]
  unfold Wire.encode Wire.words
  simp (disch := simp) only [append_assoc, wordAt_append, ByteOrder.length_encode,
    length_replicate, Nat.reduceSub, Nat.sub_self, word32_encode, word64_encode]

theorem Wire.length_encode (hname : header.privatePortName.length = 64)
    (hlen : header.length.length = slotCount) : (header.encode order).length = wireSize := by
  have hrow (lengths : List UInt32) :
      (lengths.flatMap fun length => order.encode 4 length.toNat).length = 4 * lengths.length := by
    induction lengths with
    | nil => rfl
    | cons length lengths ih =>
      rw [flatMap_cons, length_append, ByteOrder.length_encode, length_cons]
      omega
  unfold Wire.encode
  rw [length_append, length_append, header.length_words, hrow, hname, hlen]
  rfl

end Header

/-! ## The count of `RXADDCON` -/

theorem isDigit_facts {byte : UInt8} (h : isDigit byte = true) :
    byte ≠ 0 ∧ isSpace byte = false ∧ byte ≠ 45 ∧ byte ≠ 43 := by
  revert byte
  exact @forall_byte _ (by decide +kernel)

theorem parseCount_print (value : UInt64) :
    parseCount (print value.toNat) = some value := by
  have hdigits : ∀ byte ∈ print value.toNat, isDigit byte = true :=
    fun byte hbyte => isDigit_of_mem_print hbyte
  have hvalue := value_print value.toNat
  have hsome := length_print_pos value.toNat
  generalize print value.toNat = text at hdigits hvalue hsome
  obtain _ | ⟨byte, rest⟩ := text
  · exact absurd hsome (Nat.lt_irrefl 0)
  obtain ⟨-, hblank, hminus, hplus⟩ := isDigit_facts (hdigits byte mem_cons_self)
  have hcstr : cstr (byte :: rest) = byte :: rest :=
    takeWhile_eq_self_iff.mpr fun b hb => decide_eq_true (isDigit_facts (hdigits b hb)).1
  have hspace : (byte :: rest).dropWhile isSpace = byte :: rest :=
    dropWhile_cons_of_neg (Bool.not_eq_true _ ▸ hblank)
  have hsign : splitSign (byte :: rest) = (false, byte :: rest) :=
    (if_neg hminus).trans (if_neg hplus)
  have htake : (byte :: rest).takeWhile isDigit = byte :: rest :=
    takeWhile_eq_self_iff.mpr hdigits
  have hdrop : (byte :: rest).dropWhile isDigit = [] := dropWhile_eq_nil_iff.mpr hdigits
  unfold parseCount
  rw [hcstr, hspace, hsign]
  dsimp only
  rw [htake, hdrop, hvalue, if_neg]
  · exact congrArg some UInt64.ofNat_toNat
  rintro (hnone | hrest | hlarge)
  · exact nomatch hnone
  · exact hrest rfl
  · exact absurd value.toNat_lt (Nat.not_lt.mpr hlarge)

/-! ## The slots -/

variable {sent : RexxMsg} {index other : ℕ} {bytes : List UInt8} {d : Decoding} {indices : List ℕ}

section Slots

variable {memory : ℕ → UInt8}

def Stored (memory : ℕ → UInt8) (offset : ℕ) (bytes : List UInt8) : Prop :=
  fetch memory offset bytes.length = bytes

theorem fetch_add (memory : ℕ → UInt8) (offset first second : ℕ) :
    fetch memory offset (first + second) =
      fetch memory offset first ++ fetch memory (offset + first) second := by
  unfold fetch
  rw [range_add, map_append, map_map]
  congr 1
  refine map_congr_left fun i _ => ?_
  show memory (offset + (first + i)) = memory (offset + first + i)
  rw [Nat.add_assoc]

theorem length_fetch (memory : ℕ → UInt8) (offset count : ℕ) :
    (fetch memory offset count).length = count := by
  unfold fetch
  rw [length_map, length_range]

theorem Stored.split (h : Stored memory offset (front ++ rest)) :
    Stored memory offset front ∧ Stored memory (offset + front.length) rest := by
  unfold Stored at h ⊢
  rw [length_append, fetch_add] at h
  exact append_inj h (length_fetch memory offset front.length)

def received (sent : RexxMsg) (index : ℕ) : Option Slot :=
  (slotBytes sent index).map fun bytes =>
    if index = 2 ∧ rexxActionCode sent.action = rxAddCon then .number (sent.slotAt 2).integer
    else .string (createArgstring bytes)

def receive (sent message : RexxMsg) (index : ℕ) : RexxMsg :=
  match received sent index with
  | none => message
  | some slot => message.setSlot index slot

theorem slotBytes_count (h : rexxActionCode sent.action = rxAddCon) :
    slotBytes sent 2 = some (print (sent.slotAt 2).integer.toNat) := by
  unfold slotBytes
  simp [h]

theorem decodeSlot_sent (hbytes : slotBytes sent index = some bytes)
    (hstored : Stored memory d.cursor bytes) (hfits : bytes.length ≤ d.remaining)
    (hsmall : bytes.length ≤ maxPayload) :
    decodeSlot memory true (rexxActionCode sent.action) index (slotLength sent index) d =
      (true, { ((d.noted bytes.length).skip bytes.length) with
        message := receive sent d.message index }) := by
  have hmax : maxPayload = 16384 := rfl
  have hlen : (slotLength sent index).toNat = bytes.length := by
    unfold slotLength
    rw [hbytes]
    exact UInt32.toNat_ofNat_of_lt' (Nat.lt_of_le_of_lt hsmall (by decide))
  have hpresent : slotLength sent index ≠ absent := by
    intro habsent
    rw [habsent] at hlen
    have habsentNat : absent.toNat = 4294967295 := rfl
    omega
  unfold decodeSlot
  rw [if_neg hpresent, hlen, if_neg (Nat.not_lt.mpr hfits), hstored]
  unfold receive received
  rw [hbytes]
  by_cases hcnt : index = 2 ∧ rexxActionCode sent.action = rxAddCon
  · obtain ⟨rfl, hcode⟩ := hcnt
    obtain rfl : print (sent.slotAt 2).integer.toNat = bytes :=
      Option.some.inj ((slotBytes_count hcode).symm.trans hbytes)
    have hsome := length_print_pos (sent.slotAt 2).integer.toNat
    have hshort : (print (sent.slotAt 2).integer.toNat).length ≤ 20 :=
      length_print_le (by decide) (Nat.lt_trans (UInt64.toNat_lt _) (by decide))
    have hlimits : ¬ (slotLength sent 2 = 0 ∨ 32 ≤ slotLength sent 2) := by
      rw [UInt32.le_iff_toNat_le, ← UInt32.toNat_inj]
      show ¬ (_ = 0 ∨ 32 ≤ _)
      omega
    rw [if_neg hlimits, parseCount_print]
    simp [hcode, Decoding.set, Decoding.skip, Decoding.noted]
  · simp [hcnt, Decoding.set, Decoding.skip, Decoding.noted]

theorem bytesOf_cons (sent : RexxMsg) (index : ℕ) (indices : List ℕ) :
    bytesOf sent (index :: indices) = (slotBytes sent index).getD [] ++ bytesOf sent indices :=
  flatMap_cons

/-- **The loop takes the slots** from the bytes at the cursor. -/
theorem decodeSlots_sent (hstored : Stored memory d.cursor (bytesOf sent indices))
    (hfits : (bytesOf sent indices).length ≤ d.remaining)
    (hsmall : (bytesOf sent indices).length ≤ maxPayload) :
    ∃ left : Decoding,
      decodeSlots memory true (rexxActionCode sent.action)
        (indices.map fun index => (index, slotLength sent index)) d = (true, left) ∧
      left.message = indices.foldl (receive sent) d.message := by
  induction indices generalizing d with
  | nil => exact ⟨d, rfl, rfl⟩
  | cons index indices ih =>
  rw [bytesOf_cons] at hstored hfits hsmall
  rw [length_append] at hfits hsmall
  obtain ⟨hfst, hrest⟩ := hstored.split
  rw [map_cons]
  unfold decodeSlots
  cases hbytes : slotBytes sent index with
  | none =>
    have hskip : decodeSlot memory true (rexxActionCode sent.action) index
        (slotLength sent index) d = (true, d) := by
      have habsent : slotLength sent index = absent := by
        unfold slotLength
        rw [hbytes]
      unfold decodeSlot
      rw [if_pos habsent]
    have hsame : receive sent d.message index = d.message := by
      unfold receive received
      rw [hbytes]
      rfl
    rw [hbytes] at hrest hfits hsmall
    obtain ⟨left, hleft, hmsg⟩ := ih hrest (by omega) (by omega)
    rw [hskip]
    refine ⟨left, hleft, ?_⟩
    rw [hmsg, foldl_cons, hsame]
  | some bytes =>
  rw [hbytes] at hfst hrest hfits hsmall
  dsimp only [Option.getD_some] at hfst hrest hfits hsmall
  rw [decodeSlot_sent hbytes hfst (by omega) (by omega)]
  have hrem : (bytesOf sent indices).length ≤ d.remaining - bytes.length := by omega
  exact ih (d := { ((d.noted bytes.length).skip bytes.length) with
    message := receive sent d.message index }) hrest hrem (by omega)

/-! ## Slot by slot -/

theorem slotAt_setSlot (message : RexxMsg) (slot : Slot) (hidx : index < slotCount)
    (hother : other < slotCount) :
    (message.setSlot index slot).slotAt other =
      if other = index then slot else message.slotAt other := by
  have hlength := message.args_length
  unfold slotCount at hidx hother
  unfold RexxMsg.setSlot RexxMsg.slotAt slotResult2 slotCommAddr
  by_cases hsame : other = index
  · subst hsame
    rw [if_pos rfl]
    split_ifs
    · rw [getD_eq_getElem _ _ (by rw [length_set]; omega), getElem_set_self]
    all_goals rfl
  · split_ifs
    · rw [getD_eq_getElem?_getD, getElem?_set_ne (Ne.symm hsame), ← getD_eq_getElem?_getD]
    all_goals first | rfl | omega

theorem action_receive (sent message : RexxMsg) (index : ℕ) :
    (receive sent message index).action = message.action ∧
      (receive sent message index).result1 = message.result1 := by
  unfold receive RexxMsg.setSlot
  cases received sent index with
  | none => exact ⟨rfl, rfl⟩
  | some slot =>
    split_ifs <;> exact ⟨rfl, rfl⟩

theorem slotAt_receive (sent message : RexxMsg) (hidx : index < slotCount)
    (hother : other < slotCount) :
    (receive sent message index).slotAt other =
      if other = index then (received sent index).getD (message.slotAt index)
      else message.slotAt other := by
  unfold receive
  cases received sent index with
  | none =>
    split_ifs with hsame
    · rw [hsame]
      rfl
    · rfl
  | some slot => exact slotAt_setSlot message slot hidx hother

theorem slotAt_foldl_receive (hidxs : ∀ index ∈ indices, index < slotCount)
    (hdist : indices.Nodup) {message : RexxMsg} (hother : other < slotCount) :
    (indices.foldl (receive sent) message).slotAt other =
      if other ∈ indices then (received sent other).getD (message.slotAt other)
      else message.slotAt other := by
  induction indices generalizing message with
  | nil => rfl
  | cons index indices ih =>
  have hindex := hidxs index mem_cons_self
  obtain ⟨hnew, hdist⟩ := nodup_cons.mp hdist
  rw [foldl_cons, ih (fun i hi => hidxs i (mem_cons_of_mem _ hi)) hdist,
    slotAt_receive sent message hindex hother]
  by_cases hsame : other = index
  · subst hsame
    rw [if_neg hnew, if_pos rfl, if_pos mem_cons_self]
  · simp [hsame]

theorem RexxMsg.ext_slots {first second : RexxMsg} (hact : first.action = second.action)
    (hresult1 : first.result1 = second.result1)
    (hslots : ∀ index < slotCount, first.slotAt index = second.slotAt index) : first = second := by
  have hargs : first.args = second.args := by
    refine ext_getElem (first.args_length.trans second.args_length.symm) fun i hi hi' => ?_
    have hlt : i < 16 := first.args_length ▸ hi
    have hslot := hslots i (Nat.lt_trans hlt (by decide))
    unfold RexxMsg.slotAt at hslot
    rwa [if_pos hlt, if_pos hlt, getD_eq_getElem _ _ hi, getD_eq_getElem _ _ hi'] at hslot
  have hresult2 : first.result2 = second.result2 := hslots 16 (by decide)
  have hcommAddr : first.commAddr = second.commAddr := hslots 17 (by decide)
  have hfileExt : first.fileExt = second.fileExt := hslots 18 (by decide)
  obtain ⟨⟩ := first
  simp_all

end Slots

/-! ## Whole messages -/

variable {payload : List UInt8} {slot : Slot} {action : UInt32}

section Messages

variable {order : ByteOrder} {route : RexxMsg → Option PrivateRoute} {memory : ℕ → UInt8}

theorem deserialise_serialise (hpublic : isPrivateAction sent.action = false)
    (hpay : serialise order route sent = some payload) (hstored : Stored memory 0 payload) :
    ∃ left : Decoding, deserialise order memory {} payload.length true = (true, left) ∧
      left.message = (range slotCount).foldl (receive sent)
        { action := sent.action, result1 := sent.result1 } := by
  have hnum : sent.numberResult = false := by
    unfold RexxMsg.numberResult
    rw [hpublic]
    rfl
  have hhdr : Wire.decode order ((headerOf sent {}).encode order) = headerOf sent {} :=
    Wire.decode_encode rfl (by simp [headerOf])
  have hlen : ((headerOf sent {}).encode order).length = wireSize :=
    Wire.length_encode rfl (by simp [headerOf])
  have hflags : (headerOf sent {}).flags = 0 := by
    unfold headerOf
    rw [hnum]
    rfl
  unfold serialise fillPrivateHeader at hpay
  rw [hpublic, if_neg Bool.false_ne_true] at hpay
  split_ifs at hpay with hlarge
  obtain rfl := Option.some.inj hpay
  obtain ⟨hfront, hbody⟩ := hstored.split
  rw [hlen] at hbody
  unfold Stored at hfront
  rw [hlen] at hfront
  unfold deserialise
  rw [length_append, hlen, if_neg (by omega), hfront, hhdr]
  dsimp only
  rw [hflags]
  have hsmall : (bodyOf sent).length ≤ maxPayload := by omega
  refine decodeSlots_sent (d := ⟨_, wireSize, _, _⟩) hbody ?_ hsmall
  exact Nat.le_of_eq (Nat.add_sub_cancel_left ..).symm

/-! ### What may be sent -/

def isArgstring : Slot → Bool
  | .nothing => true
  | .string s => s.bytes.length < 65536 && s == createArgstring s.bytes
  | .number _ => false

/-- Nothing, or a C string. -/
def isCString : Slot → Bool
  | .nothing => true
  | .string s => 0 ∉ s.bytes
  | .number _ => false

def isCounted (count : UInt64) : Slot → Bool
  | .nothing => true
  | .string s => s.bytes.length == count.toNat
  | .number _ => false

/-- A number. -/
def isNumber : Slot → Bool
  | .number _ => true
  | _ => false

variable (message : RexxMsg)

def slotFits (index : ℕ) : Bool :=
  let code := rexxActionCode message.action
  let slot := message.slotAt index
  if code = rxAddCon ∧ index = 0 then isCString slot
  else if code = rxAddCon ∧ index = 1 then isCounted (message.slotAt 2).integer slot
  else if code = rxAddCon ∧ index = 2 then isNumber slot
  else if code = rxRemCon ∧ index = 0 then isCString slot
  else if index ≤ slotResult2 then isArgstring slot
  else isCString slot

structure Sendable (message : RexxMsg) : Prop where
  isPublic : isPrivateAction message.action = false
  slots : ∀ index < slotCount, slotFits message index = true

def Slot.rebuilt : Slot → Slot
  | .string s => .string (createArgstring s.bytes)
  | slot => slot

def RexxMsg.rebuilt : RexxMsg :=
  { message with
    result2 := message.result2.rebuilt
    args := message.args.map Slot.rebuilt
    commAddr := message.commAddr.rebuilt
    fileExt := message.fileExt.rebuilt
    args_length := (length_map ..).trans message.args_length }

theorem slotAt_rebuilt (index : ℕ) :
    message.rebuilt.slotAt index = (message.slotAt index).rebuilt := by
  unfold RexxMsg.slotAt
  split_ifs
  · exact getD_map message.args .nothing Slot.rebuilt
  all_goals rfl

def Carries (bytes : Option (List UInt8)) (slot : Slot) : Prop :=
  (bytes = none ∧ slot = .nothing) ∨ ∃ s : RexxString, bytes = some s.bytes ∧ slot = .string s

theorem carries_argstring (h : isArgstring slot = true) : Carries slot.argstring slot := by
  cases slot with
  | nothing => exact .inl ⟨rfl, rfl⟩
  | number value => exact nomatch h
  | string s =>
  unfold isArgstring at h
  rw [Bool.and_eq_true, decide_eq_true_iff, beq_iff_eq] at h
  refine .inr ⟨s, ?_, rfl⟩
  have hcnt : lengthArgstring s = s.bytes.length := by
    rw [h.2]
    exact UInt16.toNat_ofNat_of_lt' h.1
  show some (s.bytes.take (lengthArgstring s)) = some s.bytes
  rw [hcnt, take_length]

theorem carries_cstring (h : isCString slot = true) : Carries slot.cstring slot := by
  cases slot with
  | nothing => exact .inl ⟨rfl, rfl⟩
  | number value => exact nomatch h
  | string s =>
  refine .inr ⟨s, congrArg some (takeWhile_eq_self_iff.mpr fun byte hbyte => ?_), rfl⟩
  have hnul : 0 ∉ s.bytes := of_decide_eq_true h
  rw [decide_eq_true_iff]
  rintro rfl
  exact hnul hbyte

theorem carries_counted {count : UInt64} (h : isCounted count slot = true) :
    Carries (slot.counted count) slot := by
  cases slot with
  | nothing => exact .inl ⟨rfl, rfl⟩
  | number value => exact nomatch h
  | string s =>
  refine .inr ⟨s, ?_, rfl⟩
  have hlen : s.bytes.length = count.toNat := beq_iff_eq.mp h
  show some (s.bytes.take count.toNat) = some s.bytes
  rw [← hlen, take_length]

theorem isPrivateResourceAction_of_public (h : isPrivateAction action = false) :
    isPrivateResourceAction action = false := by
  unfold isPrivateResourceAction
  have hbelow : ¬ rxAddRsrc ≤ rexxActionCode action := of_decide_eq_false h
  rw [Bool.or_eq_false_iff, beq_eq_false_iff_ne, beq_eq_false_iff_ne]
  refine ⟨fun hcode => hbelow ?_, fun hcode => hbelow ?_⟩
  · rw [hcode]
    decide
  · rw [hcode]
    decide

theorem Sendable.carries (h : Sendable sent) (hidx : index < slotCount)
    (hcnt : ¬ (rexxActionCode sent.action = rxAddCon ∧ index = 2)) :
    Carries (slotBytes sent index) (sent.slotAt index) := by
  have hfits := h.slots index hidx
  have hresource := isPrivateResourceAction_of_public h.isPublic
  unfold slotFits at hfits
  unfold slotBytes
  by_cases hargs : index < 16
  · rw [if_pos hargs]
    by_cases hname : rexxActionCode sent.action = rxAddCon ∧ index = 0
    · rw [if_pos hname] at hfits ⊢
      exact carries_cstring hfits
    rw [if_neg hname] at hfits ⊢
    by_cases hdata : rexxActionCode sent.action = rxAddCon ∧ index = 1
    · rw [if_pos hdata] at hfits ⊢
      exact carries_counted hfits
    rw [if_neg hdata, if_neg hcnt] at hfits ⊢
    by_cases hremoved : rexxActionCode sent.action = rxRemCon ∧ index = 0
    · rw [if_pos hremoved] at hfits ⊢
      exact carries_cstring hfits
    rw [if_neg hremoved, if_pos (show index ≤ slotResult2 from Nat.le_of_lt hargs)] at hfits
    rw [if_neg hremoved, hresource]
    exact carries_argstring hfits
  have hnot (code : UInt32) (place : ℕ) (hplace : place < 16) :
      ¬ (rexxActionCode sent.action = code ∧ index = place) := fun hno => by omega
  rw [if_neg (hnot _ 0 (by decide)), if_neg (hnot _ 1 (by decide)), if_neg hcnt,
    if_neg (hnot _ 0 (by decide))] at hfits
  rw [if_neg hargs]
  by_cases hres : index = slotResult2
  · have hptr : sent.numberResult = false := by
      unfold RexxMsg.numberResult
      rw [h.isPublic]
      rfl
    rw [if_pos (Nat.le_of_eq hres)] at hfits
    rw [if_pos hres, hptr]
    exact carries_argstring hfits
  · have hbehind : ¬ index ≤ slotResult2 := by
      unfold slotResult2 at hres ⊢
      omega
    rw [if_neg hbehind] at hfits
    rw [if_neg hres]
    exact carries_cstring hfits

theorem Sendable.received_eq (h : Sendable sent) (hidx : index < slotCount) :
    (received sent index).getD .nothing = (sent.slotAt index).rebuilt := by
  by_cases hcnt : index = 2 ∧ rexxActionCode sent.action = rxAddCon
  · obtain ⟨rfl, hcode⟩ := hcnt
    have hnum : isNumber (sent.slotAt 2) = true := by
      have hfits := h.slots 2 hidx
      unfold slotFits at hfits
      simpa [hcode] using hfits
    unfold received
    rw [slotBytes_count hcode, Option.map_some, if_pos ⟨rfl, hcode⟩]
    generalize sent.slotAt 2 = slot at hnum
    cases slot with
    | number count => rfl
    | nothing => exact nomatch hnum
    | string s => exact nomatch hnum
  · unfold received
    simp only [if_neg hcnt]
    obtain ⟨hbytes, hslot⟩ | ⟨s, hbytes, hslot⟩ := h.carries hidx (fun hno => hcnt hno.symm)
    · rw [hbytes, hslot]
      rfl
    · rw [hbytes, hslot]
      rfl

/-- **A message comes back** as it was sent. -/
theorem Sendable.comes_back (h : Sendable sent)
    (hpay : serialise order route sent = some payload) (hstored : Stored memory 0 payload) :
    ∃ left : Decoding, deserialise order memory {} payload.length true = (true, left) ∧
      left.message = sent.rebuilt := by
  obtain ⟨left, hleft, hmsg⟩ := deserialise_serialise h.isPublic hpay hstored
  have hkept (indices : List ℕ) (message : RexxMsg) :
      (indices.foldl (receive sent) message).action = message.action ∧
        (indices.foldl (receive sent) message).result1 = message.result1 := by
    induction indices generalizing message with
    | nil => exact ⟨rfl, rfl⟩
    | cons index indices ih =>
      obtain ⟨hact, hresult1⟩ := action_receive sent message index
      exact ⟨(ih _).1.trans hact, (ih _).2.trans hresult1⟩
  refine ⟨left, hleft, RexxMsg.ext_slots ?_ ?_ fun index hidx => ?_⟩
  · rw [hmsg, (hkept _ _).1]
    rfl
  · rw [hmsg, (hkept _ _).2]
    rfl
  have hnothing :
      ({ action := sent.action, result1 := sent.result1 } : RexxMsg).slotAt index = .nothing := by
    unfold RexxMsg.slotAt
    split_ifs with hargs
    · exact getD_replicate _ hargs
    all_goals rfl
  rw [hmsg, slotAt_foldl_receive (fun i hi => mem_range.mp hi) nodup_range hidx,
    if_pos (mem_range.mpr hidx), hnothing, h.received_eq hidx, slotAt_rebuilt]

end Messages

/-- **The wire is faithful.** A message that may be sent and is not too long comes back with the
same action, first result and slots, and the decoder reads no byte that is not of the payload. -/
theorem wire_faithful (order : ByteOrder) :
    (∀ (route : RexxMsg → Option PrivateRoute) (sent : RexxMsg) (payload : List UInt8)
      (memory : ℕ → UInt8), Sendable sent → serialise order route sent = some payload →
      Stored memory 0 payload →
        ∃ left : Decoding, deserialise order memory {} payload.length true = (true, left) ∧
          left.message = sent.rebuilt) ∧
    ∀ (memory : ℕ → UInt8) (payloadLength : ℕ) (message : RexxMsg) (withResults : Bool),
      (∀ read ∈ (deserialise order memory message payloadLength withResults).2.reads,
        read.1 + read.2 ≤ payloadLength) ∧
      ∀ memory' : ℕ → UInt8, (∀ i < payloadLength, memory i = memory' i) →
        deserialise order memory message payloadLength withResults =
          deserialise order memory' message payloadLength withResults :=
  ⟨fun _ _ _ _ hsendable hpayload hstored => hsendable.comes_back hpayload hstored,
    fun _ _ message withResults => ⟨deserialise_inside message withResults,
      fun _ hagree => deserialise_congr hagree message withResults⟩⟩

/-! ## Examples -/

def arrives (order : ByteOrder) (sent : RexxMsg) : Option RexxMsg :=
  (serialise order (fun _ => none) sent).bind fun payload =>
    let outcome := deserialise order (fun i => payload.getD i 0) {} payload.length true
    if outcome.1 then some outcome.2.message else none

/-- A message with one argument. -/
def oneArgument (action : UInt32) (bytes : List UInt8) : RexxMsg where
  action := action
  args := .string (createArgstring bytes) :: replicate 15 .nothing

/-- A clip with a NUL in its value, and empty strings beside slots that hold nothing. -/
def clipMessage : RexxMsg where
  action := rxAddCon
  result1 := 5
  result2 := .string (createArgstring [])
  args := [.string ⟨0, ascii "clip"⟩, .string ⟨0, [65, 0, 66]⟩, .number 3,
    .string (createArgstring [])] ++ replicate 12 .nothing
  commAddr := .string ⟨0, ascii "REXX"⟩

theorem clipMessage_sendable : Sendable clipMessage := ⟨by decide, by decide⟩

/-- The payload of that message. -/
def clipPayload : List UInt8 := (serialise .little (fun _ => none) clipMessage).getD []

theorem wire_faithful_clip :
    ∃ left : Decoding,
      deserialise .little (fun i => clipPayload.getD i 0) {} clipPayload.length true =
        (true, left) ∧ left.message = clipMessage.rebuilt :=
  (wire_faithful .little).1 (fun _ => none) clipMessage clipPayload _ clipMessage_sendable
    (by decide +kernel) (by unfold Stored; decide +kernel)

theorem oneArgument_inj {other : List UInt8}
    (h : oneArgument action bytes = oneArgument action other) : bytes = other := by
  have hslot : Slot.string (createArgstring bytes) = .string (createArgstring other) :=
    congrArg (RexxMsg.slotAt · 0) h
  exact congrArg RexxString.bytes (Slot.string.inj hslot)

set_option maxRecDepth 4000 in
theorem arrives_long (bytes : List UInt8) :
    arrives .little
        { action := 0x01000000, args := .string ⟨0, bytes⟩ :: replicate 15 .nothing } =
      some (oneArgument 0x01000000 []) := by
  cbv

/-- Argstrings that are too long, or that have a NUL where a C string is wanted, are cut short: an
argument, the name in `RXREMCON`, the host and the extension. -/
theorem strings_cut_short :
    (∃ got, arrives .little (oneArgument 0x01000000 (replicate 65536 65)) = some got ∧
      got ≠ oneArgument 0x01000000 (replicate 65536 65)) ∧
    (∃ got, arrives .little (oneArgument rxRemCon [65, 0, 66]) = some got ∧
      got ≠ oneArgument rxRemCon [65, 0, 66]) ∧
    (∃ got, arrives .little { commAddr := .string (createArgstring [65, 0, 66]) } = some got ∧
      got ≠ { commAddr := .string (createArgstring [65, 0, 66]) }) ∧
    ∃ got, arrives .little { fileExt := .string (createArgstring [65, 0, 66]) } = some got ∧
      got ≠ { fileExt := .string (createArgstring [65, 0, 66]) } := by
  refine ⟨⟨oneArgument 0x01000000 [], ?_, ?_⟩, ⟨oneArgument rxRemCon [65], ?_, ?_⟩,
    ⟨{ commAddr := .string (createArgstring [65]) }, ?_, ?_⟩,
    ⟨{ fileExt := .string (createArgstring [65]) }, ?_, ?_⟩⟩
  · -- the 16 bits of `ra_Length` are zero
    have hlong : createArgstring (replicate 65536 65) = ⟨0, replicate 65536 65⟩ := by
      unfold createArgstring
      rw [length_replicate]
      rfl
    unfold oneArgument
    simp only [hlong]
    exact arrives_long _
  · intro hsame
    have hlength := congrArg length (oneArgument_inj hsame)
    rw [length_replicate] at hlength
    exact nomatch hlength
  all_goals decide +kernel

end AceShell.Rexx
