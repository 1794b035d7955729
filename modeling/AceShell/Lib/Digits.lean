import Mathlib

/-!
# Radix conversion on digit strings

`ofBE B ds` is the number spelled by the digits `ds`, most significant first. A number held as
base-`B` digits is multiplied and added to in place (`mulAdd`, least significant digit first) and
divided in place (`longDiv`, most significant digit first), so that a string of base-`m` digits
can be turned into base-`B` digits and, with `extract`, back (`extract_ofBE`).
-/

namespace Digits

open List

/-! ## Big-endian numbers -/

/-- The number whose base-`B` digits are `ds`, most significant first. -/
def ofBE (B : ℕ) (ds : List ℕ) : ℕ := Nat.ofDigits B ds.reverse

@[simp] theorem ofBE_nil (B : ℕ) : ofBE B [] = 0 := rfl

theorem ofBE_snoc (B : ℕ) (ds : List ℕ) (d : ℕ) : ofBE B (ds ++ [d]) = ofBE B ds * B + d := by
  unfold ofBE
  rw [reverse_append, reverse_singleton, singleton_append, Nat.ofDigits_cons]
  ring

theorem ofBE_cons (B : ℕ) (d : ℕ) (ds : List ℕ) :
    ofBE B (d :: ds) = d * B ^ ds.length + ofBE B ds := by
  unfold ofBE
  rw [reverse_cons, Nat.ofDigits_append, Nat.ofDigits_singleton, length_reverse]
  ring

variable {B : ℕ} {ds : List ℕ}

theorem ofBE_inj (hB : 1 < B) {es : List ℕ} (hl : ds.length = es.length) (hd : ∀ d ∈ ds, d < B)
    (he : ∀ e ∈ es, e < B) (h : ofBE B ds = ofBE B es) : ds = es := by
  have hr : ds.reverse = es.reverse :=
    Nat.ofDigits_inj_of_len_eq hB (by simpa using hl)
      (fun l hm => hd l (mem_reverse.mp hm)) (fun l hm => he l (mem_reverse.mp hm)) h
  exact reverse_injective hr

def Canonical (ds : List ℕ) : Prop := ds.head? ≠ some 0

theorem eq_nil_of_ofBE_eq_zero (hB : 0 < B) (hc : Canonical ds) (h : ofBE B ds = 0) : ds = [] := by
  cases ds with
  | nil => rfl
  | cons d ds =>
  rw [ofBE_cons] at h
  have hpow : 0 < B ^ ds.length := Nat.pow_pos hB
  have hd : d * B ^ ds.length = 0 := by omega
  rcases Nat.mul_eq_zero.mp hd with hd | hd
  · exact absurd (by rw [hd]; rfl) hc
  · omega

/-! ## Multiply and add -/

/-- One pass over little-endian digits: multiply each by `m`, carrying. -/
def mulAdd (B m : ℕ) : List ℕ → ℕ → List ℕ × ℕ
  | [], carry => ([], carry)
  | d :: ds, carry =>
    ((d * m + carry) % B :: (mulAdd B m ds ((d * m + carry) / B)).1,
      (mulAdd B m ds ((d * m + carry) / B)).2)

/-- Append what is left of the carry, digit by digit, to at most `cap` digits. -/
def pushCarry (B cap : ℕ) : ℕ → List ℕ → ℕ → Option (List ℕ)
  | 0, ds, _ => some ds
  | fuel + 1, ds, carry =>
    if carry = 0 then some ds
    else if cap ≤ ds.length then none
    else pushCarry B cap fuel (ds ++ [carry % B]) (carry / B)

theorem mulAdd_length (B m : ℕ) (ds : List ℕ) (carry : ℕ) :
    (mulAdd B m ds carry).1.length = ds.length := by
  induction ds generalizing carry with
  | nil => rfl
  | cons d ds ih => simp [mulAdd, ih]

variable {m : ℕ}

theorem mulAdd_lt (hB : 0 < B) (ds : List ℕ) (carry : ℕ) :
    ∀ d ∈ (mulAdd B m ds carry).1, d < B := by
  induction ds generalizing carry with
  | nil => intro d hd; simp [mulAdd] at hd
  | cons e ds ih =>
    exact forall_mem_cons.mpr ⟨Nat.mod_lt _ hB, ih _⟩

theorem mulAdd_value (B m : ℕ) (ds : List ℕ) (carry : ℕ) :
    Nat.ofDigits B (mulAdd B m ds carry).1 + B ^ ds.length * (mulAdd B m ds carry).2 =
      Nat.ofDigits B ds * m + carry := by
  induction ds generalizing carry with
  | nil => simp [mulAdd]
  | cons d ds ih =>
  have h := ih ((d * m + carry) / B)
  have hdiv := Nat.mod_add_div (d * m + carry) B
  calc (d * m + carry) % B + B * Nat.ofDigits B (mulAdd B m ds ((d * m + carry) / B)).1
        + B ^ ds.length * B * (mulAdd B m ds ((d * m + carry) / B)).2
      = (d * m + carry) % B + B * (Nat.ofDigits B (mulAdd B m ds ((d * m + carry) / B)).1
        + B ^ ds.length * (mulAdd B m ds ((d * m + carry) / B)).2) := by ring
    _ = (d * m + carry) % B + B * ((d * m + carry) / B) + B * Nat.ofDigits B ds * m := by
        rw [h]; ring
    _ = (d + B * Nat.ofDigits B ds) * m + carry := by rw [hdiv]; ring

theorem mulAdd_carry_lt (hd : ∀ d ∈ ds, d < B) {carry : ℕ} (hc : carry < m)
    : (mulAdd B m ds carry).2 < m := by
  induction ds generalizing carry with
  | nil => exact hc
  | cons d ds ih =>
  refine ih (fun e he => hd e (mem_cons_of_mem d he)) ?_
  have hdB := hd d mem_cons_self
  refine Nat.div_lt_of_lt_mul ?_
  calc d * m + carry < d * m + m := by omega
    _ = (d + 1) * m := by ring
    _ ≤ B * m := Nat.mul_le_mul_right m hdB

theorem pushCarry_value {cap : ℕ} (hB : 0 < B) :
    ∀ {fuel : ℕ} {ds : List ℕ} {carry : ℕ} {ds' : List ℕ}, carry < B ^ fuel →
      (∀ d ∈ ds, d < B) → pushCarry B cap fuel ds carry = some ds' →
      Nat.ofDigits B ds' = Nat.ofDigits B ds + B ^ ds.length * carry ∧ ∀ d ∈ ds', d < B := by
  intro fuel
  induction fuel with
  | zero =>
    intro ds carry ds' hc hd h
    simp only [pushCarry, Option.some.injEq] at h
    subst h
    rw [pow_zero, Nat.lt_one_iff] at hc
    exact ⟨by rw [hc]; ring, hd⟩
  | succ fuel ih =>
  intro ds carry ds' hc hd h
  unfold pushCarry at h
  split_ifs at h with h0 hcap
  · cases h
    exact ⟨by rw [h0]; ring, hd⟩
  have hc' : carry / B < B ^ fuel := Nat.div_lt_of_lt_mul (by rwa [pow_succ'] at hc)
  have hd' : ∀ d ∈ ds ++ [carry % B], d < B := by
    exact forall_mem_append.mpr ⟨hd, forall_mem_singleton.mpr (Nat.mod_lt _ hB)⟩
  obtain ⟨hv, hlt⟩ := ih hc' hd' h
  refine ⟨?_, hlt⟩
  rw [hv, Nat.ofDigits_append, length_append]
  calc Nat.ofDigits B ds + B ^ ds.length * (carry % B) + B ^ ds.length * B * (carry / B)
      = Nat.ofDigits B ds + B ^ ds.length * (carry % B + B * (carry / B)) := by ring
    _ = Nat.ofDigits B ds + B ^ ds.length * carry := by rw [Nat.mod_add_div]

/-! ## Long division -/

/-- One pass over big-endian digits, dividing by `m` and dropping leading zeros of the
quotient. -/
def longDiv (B m : ℕ) : List ℕ → ℕ → List ℕ → List ℕ × ℕ
  | [], rem, out => (out, rem)
  | d :: ds, rem, out =>
    longDiv B m ds ((rem * B + d) % m)
      (if (rem * B + d) / m ≠ 0 ∨ out ≠ [] then out ++ [(rem * B + d) / m] else out)

theorem longDiv_spec {B m : ℕ} (hm : 0 < m) :
    ∀ {ds xs out : List ℕ} {rem : ℕ}, rem < m → Canonical out →
      ofBE B xs = ofBE B out * m + rem →
      ofBE B (xs ++ ds) = ofBE B (longDiv B m ds rem out).1 * m + (longDiv B m ds rem out).2 ∧
        (longDiv B m ds rem out).2 < m ∧ Canonical (longDiv B m ds rem out).1 := by
  intro ds
  induction ds with
  | nil =>
    intro xs out rem hr hc hv
    exact ⟨by simpa [longDiv] using hv, hr, hc⟩
  | cons d ds ih =>
  intro xs out rem hr hc hv
  unfold longDiv
  have hdiv := Nat.mod_add_div (rem * B + d) m
  have hnext : ofBE B (xs ++ [d]) =
      (ofBE B out * B + (rem * B + d) / m) * m + (rem * B + d) % m := by
    rw [ofBE_snoc, hv]
    calc (ofBE B out * m + rem) * B + d = ofBE B out * B * m + (rem * B + d) := by ring
      _ = ofBE B out * B * m + ((rem * B + d) % m + m * ((rem * B + d) / m)) := by rw [hdiv]
      _ = (ofBE B out * B + (rem * B + d) / m) * m + (rem * B + d) % m := by ring
  have happ : xs ++ d :: ds = xs ++ [d] ++ ds := by simp
  rw [happ]
  by_cases hq : (rem * B + d) / m ≠ 0 ∨ out ≠ []
  · rw [if_pos hq]
    refine ih (Nat.mod_lt _ hm) ?_ (by rw [hnext, ofBE_snoc])
    -- the new leading digit is the old one, or the nonzero quotient
    cases out with
    | nil => simpa [Canonical] using hq
    | cons e es => exact hc
  · rw [if_neg hq]
    push Not at hq
    refine ih (Nat.mod_lt _ hm) hc ?_
    rw [hnext, hq.1, hq.2]
    simp

theorem longDiv_value (hm : 0 < m) (ds : List ℕ) :
    ofBE B (longDiv B m ds 0 []).1 = ofBE B ds / m ∧
      (longDiv B m ds 0 []).2 = ofBE B ds % m ∧ Canonical (longDiv B m ds 0 []).1 := by
  obtain ⟨hv, hr, hc⟩ := @longDiv_spec B m hm ds [] [] 0 hm (by simp [Canonical]) (by simp)
  rw [nil_append] at hv
  refine ⟨?_, ?_, hc⟩
  · rw [hv, Nat.mul_comm, Nat.mul_add_div hm, Nat.div_eq_of_lt hr, Nat.add_zero]
  · rw [hv, Nat.mul_comm, Nat.mul_add_mod, Nat.mod_eq_of_lt hr]

/-- Divide `n` times, collecting the remainders; what is left of the number comes second. -/
def extract (B m : ℕ) : ℕ → List ℕ → List ℕ × List ℕ
  | 0, ds => ([], ds)
  | n + 1, ds =>
    ((longDiv B m ds 0 []).2 :: (extract B m n (longDiv B m ds 0 []).1).1,
      (extract B m n (longDiv B m ds 0 []).1).2)

/-- **Radix round trip.** Dividing a number that spells the base-`m` digits `vs` as often as
there are digits gives them back, least significant first, and leaves nothing. -/
theorem extract_ofBE (hB : 0 < B) (hm : 0 < m) {vs : List ℕ} (hne : vs ≠ []) (hlt : ∀ v ∈ vs, v < m)
    (h : ofBE B ds = ofBE m vs) : extract B m vs.length ds = (vs.reverse, []) := by
  induction vs using reverseRecOn generalizing ds with
  | nil => exact absurd rfl hne
  | append_singleton vs v ih =>
  have hv : v < m := hlt v (by simp)
  obtain ⟨hq, hr, hc⟩ := longDiv_value (B := B) hm ds
  rw [h, ofBE_snoc, Nat.mul_comm] at hq hr
  rw [Nat.mul_add_div hm, Nat.div_eq_of_lt hv] at hq
  rw [Nat.mul_add_mod, Nat.mod_eq_of_lt hv] at hr
  rw [length_append, length_singleton, reverse_append, reverse_singleton, singleton_append]
  unfold extract
  rw [hr]
  by_cases hvs : vs = []
  · subst hvs
    rw [length_nil, reverse_nil]
    unfold extract
    rw [eq_nil_of_ofBE_eq_zero hB hc hq]
  · rw [ih hvs (fun u hu => hlt u (by simp [hu])) hq]

end Digits
