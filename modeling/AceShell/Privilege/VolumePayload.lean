import AceShell.Privilege.CrmServe
import AceShell.Privilege.Volume

/-!
# The payloads of volume requests

The worker's `serve` receives a payload over what earlier ones left in its buffer, and takes no
record that carries less than it declares. Where the payload is a single string, `split_payload`
looks for the second one behind the declared length (`stale_type_mounted`).
-/

namespace AceShell

open Text List

variable {payload : List UInt8} {name type : Name} {n : ℕ}

/-- The bytes begin with the two strings and end with a terminator, which is not that of an empty
second string. -/
def HoldsPair (bytes : List UInt8) (name type : Name) : Prop :=
  bytes.getLast? = some 0 ∧ 0 ∉ name ∧ 0 ∉ type ∧
    ∃ rest, bytes = name ++ 0 :: (type ++ 0 :: rest) ∧ (type ≠ [] ∨ rest ≠ [])

theorem getElem?_last_take (h : n ≤ payload.length) :
    payload[n - 1]? = some 0 ∧ n ≠ 0 ↔ (payload.take n).getLast? = some 0 := by
  rw [getLast?_eq_getElem?, length_take, min_eq_left h]
  cases n with
  | zero => simp
  | succ n => simp

theorem eq_of_zero_append {a b c d : List UInt8} (ha : 0 ∉ a) (hc : 0 ∉ c)
    (h : a ++ 0 :: b = c ++ 0 :: d) : a = c ∧ b = d := by
  have hac := congrArg cstr h
  rw [cstr_append_zero ha, cstr_append_zero hc] at hac
  subst hac
  exact ⟨rfl, (cons.inj (append_cancel_left h)).2⟩

theorem splitPayload_iff (hlen : n ≤ payload.length)
    (hfirst : (cstr (payload.take n)).length + 1 ≠ n) :
    splitPayload payload n = some (name, type) ↔ HoldsPair (payload.take n) name type := by
  by_cases hlast : (payload.take n).getLast? = some 0
  · obtain ⟨front, behind, hfront, hzero⟩ := eq_append_cons_of_mem (mem_of_getLast? hlast)
    have hn := congrArg length hfront
    rw [hfront, cstr_append_zero hzero] at hfirst
    have hlast' : behind.getLast? = some 0 := by
      have hbehind : behind ≠ [] := by
        rintro rfl
        simp at hn
        omega
      rwa [hfront, getLast?_append_of_ne_nil _ (cons_ne_nil 0 _), getLast?_cons_of_ne_nil hbehind]
        at hlast
    obtain ⟨second, rest, rfl, hzero'⟩ := eq_append_cons_of_mem (mem_of_getLast? hlast')
    have hsecond : cstr (payload.drop (front.length + 1)) = second := by
      rw [← take_append_drop n payload, hfront]
      simp [drop_append, drop_eq_nil_of_le, cstr_append_zero hzero']
    unfold splitPayload
    dsimp only
    obtain ⟨hbyte, -⟩ := (getElem?_last_take hlen).mpr hlast
    rw [hfront, cstr_append_zero hzero, hsecond]
    constructor
    · intro h
      split_ifs at h with hempty
      cases h
      refine ⟨hfront ▸ hlast, hzero, hzero', rest, rfl, ?_⟩
      grind
    · rintro ⟨-, hname, htype, rest', heq, hne⟩
      obtain ⟨rfl, hbehind⟩ := eq_of_zero_append hzero hname heq
      obtain ⟨rfl, rfl⟩ := eq_of_zero_append hzero' htype hbehind
      grind
  · refine iff_of_false (fun h => hlast ((getElem?_last_take hlen).mp ?_)) fun h => hlast h.1
    unfold splitPayload at h
    split_ifs at h with hbad
    grind

theorem splitPayload_take (hlen : n ≤ payload.length)
    (hfirst : (cstr (payload.take n)).length + 1 ≠ n) :
    splitPayload (payload.take n) n = splitPayload payload n := by
  have htake : (payload.take n).take n = payload.take n := by rw [take_take, min_self]
  ext ⟨name, type⟩
  rw [splitPayload_iff hlen hfirst, splitPayload_iff (by simpa using hlen) (by rwa [htake]), htake]

theorem parseDeviceId_take : parseDeviceId (payload.take n) n = parseDeviceId payload n := by
  unfold parseDeviceId
  by_cases hshort : n < 4
  · rw [if_pos (.inl hshort), if_pos (.inl hshort)]
  · rw [getElem?_take_of_lt (by omega), take_take, min_self]

variable (configured : Name) (servedUid : ℕ) (host : VolumeHost) (worker : VolumeWorker)
  {request : PrivilegeRequest}

theorem doUnmount_take (hlen : request.payloadLength ≤ payload.length) :
    doUnmount host request (payload.take request.payloadLength) worker =
      doUnmount host request payload worker := by
  unfold doUnmount
  by_cases hzero : request.payloadLength = 0
  · rw [if_pos (.inl hzero), if_pos (.inl hzero)]
  rw [getElem?_take_of_lt (by omega)]
  by_cases hlast : payload[request.payloadLength - 1]? = some 0
  · have hmem := mem_of_getLast? ((getElem?_last_take hlen).mp ⟨hlast, hzero⟩)
    obtain ⟨front, behind, hfront, hnone⟩ := eq_append_cons_of_mem hmem
    have hname : cstr payload = front := by
      rw [← take_append_drop request.payloadLength payload, hfront, append_assoc, cons_append,
        cstr_append_zero hnone]
    rw [hname, hfront, cstr_append_zero hnone]
  · rw [if_pos (.inr hlast), if_pos (.inr hlast)]

theorem volumeDispatch_take (hlen : request.payloadLength ≤ payload.length)
    (hfirst : request.opcode = some .mount →
      (cstr (payload.take request.payloadLength)).length + 1 ≠ request.payloadLength) :
    volumeDispatch configured servedUid host request (payload.take request.payloadLength) worker =
      volumeDispatch configured servedUid host request payload worker := by
  unfold volumeDispatch
  split
  next => rfl
  next => rfl
  next hop =>
    unfold doMount
    rw [splitPayload_take hlen (hfirst hop)]
  next =>
    unfold doBind
    rw [parseDeviceId_take]
  next => exact doUnmount_take host worker hlen
  next => rfl
  next => rfl

end AceShell
