import AceShell.Lib.Digits

/-!
# Regrouping bits through a shift register

A stream of `u`-bit symbols is regrouped into `w`-bit symbols through a 32-bit register: symbols
are shifted in at the bottom and taken out at the top. `pack` turns bytes into `w`-bit symbols,
zero-filling the last one; `unpack` turns them back and refuses leftover bits that are not that
fill. Both directions keep the one invariant `Regroups`, and `unpack_pack` is the round trip.
-/

namespace BitPack

open Digits List

/-! ## The register -/

/-- A 32-bit shift register and the number of bits in it that are still to be taken out. -/
structure Register where
  acc : ℕ
  bits : ℕ

variable {w v : ℕ} {r : Register}

namespace Register

/-- Shift a `w`-bit symbol in at the bottom. -/
def shiftIn (w : ℕ) (r : Register) (v : ℕ) : Register :=
  ⟨(r.acc * 2 ^ w + v) % 2 ^ 32, r.bits + w⟩

def top (w : ℕ) (r : Register) : ℕ := r.acc / 2 ^ (r.bits - w) % 2 ^ w

/-- Count the top `w` bits as taken. The accumulator itself is not cleared. -/
def shiftOut (w : ℕ) (r : Register) : Register := ⟨r.acc, r.bits - w⟩

def rest (r : Register) : ℕ := r.acc % 2 ^ r.bits

theorem top_lt (w : ℕ) (r : Register) : r.top w < 2 ^ w := Nat.mod_lt _ (Nat.two_pow_pos w)

theorem rest_shiftIn (hv : v < 2 ^ w) (hb : r.bits + w ≤ 32) :
    (r.shiftIn w v).rest = r.rest * 2 ^ w + v := by
  show (r.acc * 2 ^ w + v) % 2 ^ 32 % 2 ^ (r.bits + w) = r.acc % 2 ^ r.bits * 2 ^ w + v
  rw [Nat.mod_mod_of_dvd _ (Nat.pow_dvd_pow 2 hb)]
  have hdiv := Nat.mod_add_div r.acc (2 ^ r.bits)
  have hlt : r.acc % 2 ^ r.bits * 2 ^ w + v < 2 ^ (r.bits + w) := by
    have hm := Nat.mod_lt r.acc (Nat.two_pow_pos r.bits)
    calc r.acc % 2 ^ r.bits * 2 ^ w + v < (r.acc % 2 ^ r.bits + 1) * 2 ^ w := by
          rw [Nat.add_mul]; omega
      _ ≤ 2 ^ r.bits * 2 ^ w := Nat.mul_le_mul_right _ hm
      _ = 2 ^ (r.bits + w) := (pow_add 2 r.bits w).symm
  calc (r.acc * 2 ^ w + v) % 2 ^ (r.bits + w)
      = (r.acc % 2 ^ r.bits * 2 ^ w + v + 2 ^ (r.bits + w) * (r.acc / 2 ^ r.bits))
          % 2 ^ (r.bits + w) := by
        congr 1
        conv_lhs => rw [← hdiv]
        rw [pow_add]; ring
    _ = r.acc % 2 ^ r.bits * 2 ^ w + v := by rw [Nat.add_mul_mod_self_left, Nat.mod_eq_of_lt hlt]

theorem rest_eq_top_add (h : w ≤ r.bits) :
    r.rest = r.top w * 2 ^ (r.bits - w) + (r.shiftOut w).rest := by
  show r.acc % 2 ^ r.bits =
    r.acc / 2 ^ (r.bits - w) % 2 ^ w * 2 ^ (r.bits - w) + r.acc % 2 ^ (r.bits - w)
  have he : 2 ^ r.bits = 2 ^ (r.bits - w) * 2 ^ w := by
    rw [← pow_add, Nat.sub_add_cancel h]
  rw [he, Nat.mod_mul]
  ring

end Register

/-! ## The invariant of both directions -/

/-- The `u`-bit symbols `xs` have gone in, the `w`-bit symbols `ds` have come out, and the
register holds what lies between. -/
structure Regroups (u w : ℕ) (xs ds : List ℕ) (r : Register) : Prop where
  length : u * xs.length = w * ds.length + r.bits
  value : ofBE (2 ^ u) xs = ofBE (2 ^ w) ds * 2 ^ r.bits + r.rest

namespace Regroups

variable {u w : ℕ} {xs ds : List ℕ} {r : Register}

theorem init (u w : ℕ) : Regroups u w [] [] ⟨0, 0⟩ := ⟨rfl, rfl⟩

theorem shiftIn (h : Regroups u w xs ds r) (hv : v < 2 ^ u) (hb : r.bits + u ≤ 32) :
    Regroups u w (xs ++ [v]) ds (r.shiftIn u v) := by
  refine ⟨?_, ?_⟩
  · have hl := h.length
    show u * (xs ++ [v]).length = w * ds.length + (r.bits + u)
    rw [length_append, length_singleton, Nat.mul_add]
    omega
  · rw [ofBE_snoc, h.value, Register.rest_shiftIn hv hb]
    show (ofBE (2 ^ w) ds * 2 ^ r.bits + r.rest) * 2 ^ u + v =
      ofBE (2 ^ w) ds * 2 ^ (r.bits + u) + (r.rest * 2 ^ u + v)
    rw [pow_add]; ring

theorem shiftOut (h : Regroups u w xs ds r) (hw : w ≤ r.bits) :
    Regroups u w xs (ds ++ [r.top w]) (r.shiftOut w) := by
  refine ⟨?_, ?_⟩
  · have hl := h.length
    show u * xs.length = w * (ds ++ [r.top w]).length + (r.bits - w)
    rw [length_append, length_singleton, Nat.mul_add]
    omega
  rw [ofBE_snoc, h.value, Register.rest_eq_top_add hw]
  show _ = (ofBE (2 ^ w) ds * 2 ^ w + r.top w) * 2 ^ (r.bits - w) + _
  have he : 2 ^ r.bits = 2 ^ w * 2 ^ (r.bits - w) := by
    rw [← pow_add]; congr 1; omega
  rw [he]; ring

end Regroups

/-! ## Packing bytes into symbols -/

variable {data : List UInt8}

section Pack

variable {σ : Type*} (w cap : ℕ) (sym : ℕ → σ)

/-- Take symbols out while the register holds a whole one, `fuel` bounding the rounds; `none` is an
output that does not fit `cap`. -/
def drain : ℕ → Register → List σ → Option (Register × List σ)
  | 0, r, out => some (r, out)
  | fuel + 1, r, out =>
    if r.bits < w then some (r, out)
    else if cap ≤ out.length + 1 then none
    else drain fuel (r.shiftOut w) (out ++ [sym (r.top w)])

def packFrom : List UInt8 → Register → List σ → Option (Register × List σ)
  | [], r, out => some (r, out)
  | b :: bs, r, out =>
    match drain w cap sym (r.bits + 8) (r.shiftIn 8 b.toNat) out with
    | none => none
    | some (r', out') => packFrom bs r' out'

/-- The symbols of `data`, the last one filled with zero bits; `none` when they and a terminator do
not fit `cap`, or for no data. -/
def pack (data : List UInt8) : Option (List σ) :=
  match packFrom w cap sym data ⟨0, 0⟩ [] with
  | none => none
  | some (r, out) =>
    if r.bits = 0 then (if out.isEmpty then none else some out)
    else if cap ≤ out.length + 1 then none
    else some (out ++ [sym (r.acc * 2 ^ (w - r.bits) % 2 ^ w)])

variable {w cap sym}

theorem drain_regroups {xs : List ℕ} (hw : 0 < w) :
    ∀ {fuel : ℕ} {r : Register} {ds : List ℕ} {r' : Register} {out' : List σ},
      r.bits ≤ fuel → Regroups 8 w xs ds r → (∀ d ∈ ds, d < 2 ^ w) →
      drain w cap sym fuel r (ds.map sym) = some (r', out') →
      ∃ ds', out' = ds'.map sym ∧ Regroups 8 w xs ds' r' ∧ (∀ d ∈ ds', d < 2 ^ w) ∧
        r'.bits < w := by
  intro fuel
  induction fuel with
  | zero =>
    intro r ds r' out' hf hR hd h
    obtain ⟨rfl, rfl⟩ := h
    exact ⟨ds, rfl, hR, hd, by omega⟩
  | succ fuel ih =>
  intro r ds r' out' hf hR hd h
  unfold drain at h
  split_ifs at h with hb hc
  · cases h
    exact ⟨ds, rfl, hR, hd, hb⟩
  have hfuel : (r.shiftOut w).bits ≤ fuel := by
    show r.bits - w ≤ fuel
    omega
  refine ih hfuel (hR.shiftOut (by omega)) ?_ (by simpa using h)
  exact forall_mem_append.mpr ⟨hd, forall_mem_singleton.mpr (r.top_lt w)⟩

theorem packFrom_regroups (hw : 0 < w) (hw8 : w ≤ 8) :
    ∀ {bs : List UInt8} {xs ds : List ℕ} {r r' : Register} {out' : List σ},
      r.bits < w → Regroups 8 w xs ds r → (∀ d ∈ ds, d < 2 ^ w) →
      packFrom w cap sym bs r (ds.map sym) = some (r', out') →
      ∃ ds', out' = ds'.map sym ∧ Regroups 8 w (xs ++ bs.map UInt8.toNat) ds' r' ∧
        (∀ d ∈ ds', d < 2 ^ w) ∧ r'.bits < w := by
  intro bs
  induction bs with
  | nil =>
    intro xs ds r r' out' hb hR hd h
    obtain ⟨rfl, rfl⟩ := h
    exact ⟨ds, rfl, by simpa using hR, hd, hb⟩
  | cons b bs ih =>
  intro xs ds r r' out' hb hR hd h
  unfold packFrom at h
  split at h
  · simp at h
  rename_i r₁ out₁ hdrain
  have hin := hR.shiftIn (v := b.toNat) b.toNat_lt (by omega)
  obtain ⟨ds₁, rfl, hR₁, hd₁, hb₁⟩ := drain_regroups hw (by exact le_rfl) hin hd hdrain
  obtain ⟨ds', rfl, hR', hd', hb'⟩ := ih hb₁ hR₁ hd₁ h
  exact ⟨ds', rfl, by simpa using hR', hd', hb'⟩

theorem pack_spec (hw : 0 < w) (hw8 : w ≤ 8) {text : List σ} (h : pack w cap sym data = some text) :
    ∃ (ds : List ℕ) (fill : ℕ), text = ds.map sym ∧ (∀ d ∈ ds, d < 2 ^ w) ∧ fill < w ∧
      w * ds.length = 8 * data.length + fill ∧
      ofBE (2 ^ w) ds = ofBE (2 ^ 8) (data.map UInt8.toNat) * 2 ^ fill := by
  unfold pack at h
  split at h
  · simp at h
  rename_i r out hrun
  obtain ⟨ds, rfl, hR, hd, hb⟩ := packFrom_regroups hw hw8 hw (Regroups.init 8 w) (by simp) hrun
  have hlen := hR.length
  have hval := hR.value
  simp only [nil_append, length_map] at hlen hval
  split_ifs at h with h0 _ hc
  · cases h
    refine ⟨ds, 0, rfl, hd, hw, by omega, ?_⟩
    rw [hval, Register.rest, h0]
    simp [Nat.mod_one]
  cases h
  have hlast : r.acc * 2 ^ (w - r.bits) % 2 ^ w = r.rest * 2 ^ (w - r.bits) := by
    rw [show (2 : ℕ) ^ w = 2 ^ r.bits * 2 ^ (w - r.bits) by
      rw [← pow_add]; congr 1; omega, Nat.mul_mod_mul_right]
    rfl
  refine ⟨ds ++ [r.acc * 2 ^ (w - r.bits) % 2 ^ w], w - r.bits, by simp, ?_, by omega, ?_, ?_⟩
  · exact forall_mem_append.mpr ⟨hd, forall_mem_singleton.mpr (Nat.mod_lt _ (Nat.two_pow_pos w))⟩
  · rw [length_append, length_singleton, Nat.mul_add]
    omega
  rw [ofBE_snoc, hval, hlast]
  have he : (2 : ℕ) ^ w = 2 ^ r.bits * 2 ^ (w - r.bits) := by
    rw [← pow_add]; congr 1; omega
  rw [he]; ring

theorem mem_pack (hw : 0 < w) (hw8 : w ≤ 8) {text : List σ} (h : pack w cap sym data = some text)
    {c : σ} (hc : c ∈ text) : ∃ v < 2 ^ w, sym v = c := by
  obtain ⟨ds, fill, rfl, hd, -⟩ := pack_spec hw hw8 h
  obtain ⟨v, hv, rfl⟩ := mem_map.mp hc
  exact ⟨v, hd v hv, rfl⟩

end Pack

/-! ## Unpacking symbols into bytes -/

section Unpack

variable {σ : Type*} (w cap : ℕ) (val : σ → Option ℕ)

/-- Shift every symbol in, taking a byte out as soon as there is one. -/
def unpackFrom : List σ → Register → List UInt8 → Option (Register × List UInt8)
  | [], r, out => some (r, out)
  | c :: cs, r, out =>
    match val c with
    | none => none
    | some v =>
      if (r.shiftIn w v).bits < 8 then unpackFrom cs (r.shiftIn w v) out
      else if cap ≤ out.length then none
      else unpackFrom cs ((r.shiftIn w v).shiftOut 8) (out ++ [UInt8.ofNat ((r.shiftIn w v).top 8)])

/-- The bytes of `text`: what is left must be less than a symbol and all zero, and there must be a
byte. -/
def unpack (text : List σ) : Option (List UInt8) :=
  match unpackFrom w cap val text ⟨0, 0⟩ [] with
  | none => none
  | some (r, out) =>
    if w ≤ r.bits ∨ r.rest ≠ 0 then none
    else if out.isEmpty then none
    else some out

variable {w cap val}

theorem unpackFrom_eq_none {c : σ} (hc : val c = none) :
    ∀ {text : List σ} {r : Register} {out : List UInt8}, c ∈ text →
      unpackFrom w cap val text r out = none := by
  intro text
  induction text with
  | nil => intro r out hm; simp at hm
  | cons d ds ih =>
  intro r out hm
  unfold unpackFrom
  rcases mem_cons.mp hm with rfl | hm
  · rw [hc]
  cases val d with
  | none => rfl
  | some v =>
    show (if _ then _ else if _ then _ else _) = none
    rw [ih hm, ih hm]
    split_ifs <;> rfl

theorem unpack_eq_none {c : σ} (hc : val c = none) {text : List σ} (hm : c ∈ text) :
    unpack w cap val text = none := by
  unfold unpack
  rw [unpackFrom_eq_none hc hm]

theorem unpackFrom_congr :
    ∀ {s t : List σ} {r : Register} {out : List UInt8}, s.map val = t.map val →
      unpackFrom w cap val s r out = unpackFrom w cap val t r out := by
  intro s
  induction s with
  | nil =>
    intro t r out h
    rw [map_nil, eq_comm, map_eq_nil_iff] at h
    rw [h]
  | cons c cs ih =>
  intro t r out h
  cases t with
  | nil => simp at h
  | cons d ds =>
  simp only [map_cons, cons.injEq] at h
  unfold unpackFrom
  rw [h.1]
  cases val d with
  | none => rfl
  | some v =>
    show (if _ then _ else if _ then _ else _) = (if _ then _ else if _ then _ else _)
    rw [ih h.2, ih h.2]

theorem unpack_congr {s t : List σ} (h : s.map val = t.map val) :
    unpack w cap val s = unpack w cap val t := by
  unfold unpack
  rw [unpackFrom_congr h]

theorem unpackFrom_regroups {sym : ℕ → σ} (hw8 : w ≤ 8) (hval : ∀ v < 2 ^ w, val (sym v) = some v) :
    ∀ {es xs : List ℕ} {r : Register} {out : List UInt8},
      (∀ e ∈ es, e < 2 ^ w) → r.bits < 8 → Regroups w 8 xs (out.map UInt8.toNat) r →
      w * (xs.length + es.length) < 8 * (cap + 1) →
      ∃ (r' : Register) (out' : List UInt8),
        unpackFrom w cap val (es.map sym) r out = some (r', out') ∧ r'.bits < 8 ∧
        Regroups w 8 (xs ++ es) (out'.map UInt8.toNat) r' := by
  intro es
  induction es with
  | nil =>
    intro xs r out _ hb hR _
    exact ⟨r, out, rfl, hb, by simpa using hR⟩
  | cons e es ih =>
  intro xs r out he hb hR hcap
  have hlt := he e mem_cons_self
  have hin := hR.shiftIn hlt (by omega)
  rw [length_cons] at hcap
  have hcap' : w * ((xs ++ [e]).length + es.length) < 8 * (cap + 1) := by
    rw [length_append, length_singleton]
    exact lt_of_eq_of_lt (by congr 1; omega) hcap
  have hrest := fun e' hm => he e' (mem_cons_of_mem e hm)
  rw [map_cons]
  unfold unpackFrom
  rw [hval e hlt]
  by_cases h8 : (r.shiftIn w e).bits < 8
  · obtain ⟨r', out', hrun, hb', hR'⟩ := ih hrest h8 hin hcap'
    refine ⟨r', out', ?_, hb', by simpa using hR'⟩
    rw [← hrun]
    exact if_pos h8
  have hout := hin.shiftOut (by omega : 8 ≤ (r.shiftIn w e).bits)
  have hroom : out.length < cap := by
    have hlen := hin.length
    rw [length_map] at hlen
    have hle : w * (xs ++ [e]).length ≤ w * ((xs ++ [e]).length + es.length) :=
      Nat.mul_le_mul_left _ (Nat.le_add_right _ _)
    omega
  have hbyte : (out ++ [UInt8.ofNat ((r.shiftIn w e).top 8)]).map UInt8.toNat =
      out.map UInt8.toNat ++ [(r.shiftIn w e).top 8] := by
    rw [map_append, map_singleton, UInt8.toNat_ofNat_of_lt' (Register.top_lt 8 _)]
  rw [← hbyte] at hout
  have hb8 : ((r.shiftIn w e).shiftOut 8).bits < 8 := by
    show r.bits + w - 8 < 8
    omega
  obtain ⟨r', out', hrun, hb', hR'⟩ := ih hrest hb8 hout hcap'
  refine ⟨r', out', ?_, hb', by simpa using hR'⟩
  rw [← hrun]
  exact (if_neg h8).trans (if_neg (by omega))

end Unpack

/-- **Round trip.** Unpacking what `pack` wrote gives the data back, provided it fits. -/
theorem unpack_pack {σ : Type*} {cap cap' : ℕ} {sym : ℕ → σ} {val : σ → Option ℕ} (hw : 0 < w)
    (hw8 : w ≤ 8) (hval : ∀ v < 2 ^ w, val (sym v) = some v) {text : List σ} (hd : data ≠ [])
    (hfit : data.length ≤ cap') (h : pack w cap sym data = some text)
    : unpack w cap' val text = some data := by
  obtain ⟨ds, fill, rfl, hds, hfill, hlen, hvalue⟩ := pack_spec hw hw8 h
  have hroom : w * (0 + ds.length) < 8 * (cap' + 1) := by rw [Nat.zero_add]; omega
  obtain ⟨r, out, hrun, hb, hR⟩ := @unpackFrom_regroups _ _ cap' _ _ hw8 hval ds [] ⟨0, 0⟩ []
    hds (by norm_num) (Regroups.init w 8) hroom
  have hl := hR.length
  have hv := hR.value
  simp only [nil_append, length_map] at hl hv
  have hout : out.length = data.length ∧ r.bits = fill := by omega
  rw [hvalue, hout.2] at hv
  have hrl : r.rest < 2 ^ fill := by
    rw [← hout.2]
    exact Nat.mod_lt _ (Nat.two_pow_pos _)
  -- the low `fill` bits are zero, so the two numbers agree above them
  have hzero : r.rest = 0 := by
    have hm := congrArg (· % 2 ^ fill) hv
    simp only [Nat.mul_mod_left, Nat.mul_add_mod_self_right, Nat.mod_eq_of_lt hrl] at hm
    exact hm.symm
  have hsame : ofBE (2 ^ 8) (out.map UInt8.toNat) = ofBE (2 ^ 8) (data.map UInt8.toNat) := by
    rw [hzero] at hv
    exact (Nat.eq_of_mul_eq_mul_right (Nat.two_pow_pos fill) hv).symm
  have hbyte : ∀ (l : List UInt8), ∀ d ∈ l.map UInt8.toNat, d < 2 ^ 8 := by
    intro l d hm
    obtain ⟨b, -, rfl⟩ := mem_map.mp hm
    exact b.toNat_lt
  have hmap := ofBE_inj (by norm_num) (by simpa using hout.1) (hbyte out) (hbyte data) hsame
  have heq : out = data := map_injective_iff.mpr (fun _ _ => UInt8.toNat_inj.mp) hmap
  unfold unpack
  rw [hrun]
  simp only
  rw [if_neg (by rw [hout.2, hzero]; omega), heq]
  exact if_neg (by simpa using hd)

end BitPack
