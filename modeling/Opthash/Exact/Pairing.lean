import Opthash.Exact.Phi

namespace Opthash.Probe

/-- The loop of `elastic_phi_inverse`: the bits that remain behind the delimiter, and `j`. -/
def readPairs (encoded : Nat) : Nat → Nat → Option (Nat × Nat)
  | 0, _ => none
  | 1, j => if (encoded >>> 0) &&& 1 = 0 then some (0, j) else none
  | remainingBits + 2, j =>
    if (encoded >>> (remainingBits + 1)) &&& 1 = 0 then some (remainingBits + 1, j)
    else do
      let j ← appendBit j ((encoded >>> remainingBits) &&& 1)
      readPairs encoded remainingBits j

def elasticPhiInverse (encoded : Nat) : Option (Nat × Nat) :=
  if encoded = 0 then none
  else do
    let (remainingBits, j) ← readPairs encoded (bitLength encoded) 0
    if remainingBits = 0 then none
    else if remainingBits ≥ 128 then none
    else
      let i := encoded &&& (2 ^ remainingBits - 1)
      match elasticPhi i j with
      | .ok again => if again = encoded then some (i, j) else none
      | .error _ => none

section Failure

variable {i j b e v : Nat}

theorem appendBit_some {value bit : Nat} (h : appendBit value bit = some v) : v = value * 2 + bit ∧ v < 2 ^ 128 := by
  rw [appendBit] at h
  split at h
  · rename_i hlt
    obtain rfl := Option.some.inj h
    exact ⟨rfl, hlt⟩
  · cases h

theorem appendPairs_some (he : e < 2 ^ 128) (h : appendPairs j b e = some v) :
    v = e * 4 ^ b + pairsBelow j b ∧ v < 2 ^ 128 := by
  induction b generalizing e with
  | zero =>
    obtain rfl := Option.some.inj h
    exact ⟨by rw [pairsBelow, Nat.pow_zero, Nat.mul_one, Nat.add_zero], he⟩
  | succ b ih =>
    obtain ⟨marked, hmarked, hdata⟩ := Option.bind_eq_some_iff.mp h
    obtain ⟨paired, hpaired, hrest⟩ := Option.bind_eq_some_iff.mp hdata
    obtain ⟨hmark, -⟩ := appendBit_some hmarked
    obtain ⟨hvalue, hlt⟩ := appendBit_some hpaired
    obtain ⟨hv, hlast⟩ := ih hlt hrest
    constructor
    · rw [hv, hvalue, hmark, bit_eq, pairsBelow_top, Nat.pow_succ]
      ring
    · exact hlast

theorem appendBits_some (he : e < 2 ^ 128) (h : appendBits i b e = some v) :
    v = e * 2 ^ b + i % 2 ^ b ∧ v < 2 ^ 128 := by
  induction b generalizing e with
  | zero =>
    obtain rfl := Option.some.inj h
    exact ⟨by rw [Nat.pow_zero, Nat.mul_one, Nat.mod_one, Nat.add_zero], he⟩
  | succ b ih =>
    obtain ⟨next, hnext, hrest⟩ := Option.bind_eq_some_iff.mp h
    obtain ⟨hvalue, hlt⟩ := appendBit_some hnext
    obtain ⟨hv, hlast⟩ := ih hlt hrest
    constructor
    · rw [hv, hvalue, bit_eq, Nat.mod_pow_succ, Nat.pow_succ]
      ring
    · exact hlast

theorem elasticPhi_ok_iff : elasticPhi i j = .ok v ↔ 0 < i ∧ 0 < j ∧ phi i j < 2 ^ 128 ∧ v = phi i j := by
  constructor
  · intro h
    rw [elasticPhi] at h
    split at h
    · cases h
    split at h
    · cases h
    rename_i hi hj
    dsimp only at h
    split at h
    · rename_i encoded hencoded
      obtain rfl := Except.ok.inj h
      obtain ⟨paired, hpaired, hrest⟩ := Option.bind_eq_some_iff.mp hencoded
      obtain ⟨delimited, hdelimited, hsuffix⟩ := Option.bind_eq_some_iff.mp hrest
      obtain ⟨hp, -⟩ := appendPairs_some (Nat.two_pow_pos 128) hpaired
      obtain ⟨hd, hdlt⟩ := appendBit_some hdelimited
      obtain ⟨hv, hlt⟩ := appendBits_some hdlt hsuffix
      have hphi : encoded = phi i j := by
        rw [hv, hd, hp, Nat.mod_eq_of_lt (lt_two_pow_bitLength i), phi, pairs, Nat.pow_succ]
        ring
      exact ⟨Nat.pos_of_ne_zero hi, Nat.pos_of_ne_zero hj, hphi ▸ hlt, hphi⟩
    · cases h
  · rintro ⟨hi, hj, hlt, rfl⟩
    exact elasticPhi_eq hi hj hlt

theorem elasticPhi_overflow_iff (hi : 0 < i) (hj : 0 < j) :
    elasticPhi i j = .error .overflow ↔ 128 < 2 * bitLength j + 1 + bitLength i := by
  have hfits := phi_lt_iff (i := i) (b := 128) hj
  constructor
  · intro h
    by_contra hle
    rw [elasticPhi_eq hi hj (hfits.mpr (Nat.le_of_not_lt hle))] at h
    cases h
  · intro hgt
    cases h : elasticPhi i j with
    | ok v =>
      have := (elasticPhi_ok_iff.mp h).2.2.1
      omega
    | error error =>
      rw [elasticPhi, if_neg (Nat.ne_of_gt hi), if_neg (Nat.ne_of_gt hj)] at h
      dsimp only at h
      split at h
      · cases h
      · exact h.symm

end Failure

section Decoding

variable {i j b : Nat}

theorem pairs_shift (j b : Nat) : pairs j / 4 ^ b = pairs (j / 2 ^ b) := by
  induction b generalizing j with
  | zero => simp
  | succ b ih =>
    have hstep : pairs j / 4 = pairs (j / 2) := by
      rcases Nat.eq_zero_or_pos j with rfl | hpos
      · rfl
      · rw [pairs_pos hpos]
        omega
    rw [Nat.pow_succ', ← Nat.div_div_eq_div_mul, hstep, ih, Nat.div_div_eq_div_mul, ← Nat.pow_succ']

theorem phi_high (i j m : Nat) : phi i j / 2 ^ (bitLength i + 1 + m) = pairs j / 2 ^ m := by
  rw [Nat.pow_add, ← Nat.div_div_eq_div_mul, phi, Nat.add_comm, Nat.add_mul_div_right _ _ (Nat.two_pow_pos _),
    Nat.div_eq_of_lt (suffix_lt i), Nat.zero_add]

theorem phi_delimiter (i j : Nat) : phi i j / 2 ^ bitLength i % 2 = 0 := by
  have hvalue : phi i j = i + 2 ^ bitLength i * (pairs j * 2) := by
    rw [phi, Nat.pow_succ]
    ring
  rw [hvalue, Nat.add_mul_div_left _ _ (Nat.two_pow_pos _), Nat.div_eq_of_lt (lt_two_pow_bitLength i), Nat.zero_add,
    Nat.mul_mod_left]

theorem shift_pos (h : b < bitLength j) : 0 < j / 2 ^ b := by
  apply Nat.div_pos _ (Nat.two_pow_pos b)
  by_contra hlt
  have := bitLength_le (Nat.lt_of_not_le hlt)
  omega

theorem readPairs_phi (hi : 0 < i) (hj : j < 2 ^ 128) (hb : b ≤ bitLength j) :
    readPairs (phi i j) (2 * b + 1 + bitLength i) (j / 2 ^ b) = some (bitLength i, j) := by
  induction b with
  | zero =>
    obtain ⟨l, hl⟩ : ∃ l, bitLength i = l + 1 := ⟨_, bitLength_pos hi⟩
    have hdelimiter := phi_delimiter i j
    have hbits : 2 * 0 + 1 + bitLength i = l + 2 := by omega
    rw [hl] at hdelimiter
    rw [hbits, readPairs, bit_eq, if_pos hdelimiter, hl, Nat.pow_zero, Nat.div_one]
  | succ b ih =>
    have hbits : 2 * (b + 1) + 1 + bitLength i = (2 * b + 1 + bitLength i) + 2 := by omega
    have hnext : j / 2 ^ (b + 1) * 2 + j / 2 ^ b % 2 = j / 2 ^ b := by
      rw [Nat.pow_succ, ← Nat.div_div_eq_div_mul]
      omega
    have hpair : pairs j / 2 ^ (2 * b) = pairs (j / 2 ^ b) := by
      rw [← four_pow, pairs_shift]
    have hpos := pairs_pos (shift_pos (b := b) (j := j) (by omega))
    have hmarker : phi i j / 2 ^ (2 * b + 1 + bitLength i + 1) % 2 = 1 := by
      have hexp : 2 * b + 1 + bitLength i + 1 = bitLength i + 1 + (2 * b + 1) := by omega
      rw [hexp, phi_high, Nat.pow_succ, ← Nat.div_div_eq_div_mul, hpair, hpos]
      omega
    have hdata : phi i j / 2 ^ (2 * b + 1 + bitLength i) % 2 = j / 2 ^ b % 2 := by
      have hexp : 2 * b + 1 + bitLength i = bitLength i + 1 + 2 * b := by omega
      rw [hexp, phi_high, hpair, hpos]
      omega
    have hsmall : j / 2 ^ b < 2 ^ 128 := Nat.lt_of_le_of_lt (Nat.div_le_self ..) hj
    rw [hbits, readPairs, bit_eq, bit_eq, hmarker, hdata, if_neg Nat.one_ne_zero, appendBit, hnext, if_pos hsmall]
    exact ih (by omega)

theorem bitLength_phi (hj : 0 < j) : bitLength (phi i j) = 2 * bitLength j + 1 + bitLength i := by
  apply Nat.le_antisymm
  · exact bitLength_le (phi_lt i j)
  · exact (phi_lt_iff hj).mp (lt_two_pow_bitLength _)

theorem elasticPhiInverse_phi (hi : 0 < i) (hj : 0 < j) (hlt : phi i j < 2 ^ 128) :
    elasticPhiInverse (phi i j) = some (i, j) := by
  have hbits := (phi_lt_iff hj).mp hlt
  have hjlt : j < 2 ^ 128 := bitLength_le_iff.mp (by omega)
  have hipos := bitLength_pos hi
  have hread := readPairs_phi hi hjlt (Nat.le_refl (bitLength j))
  have hsuffix : phi i j &&& (2 ^ bitLength i - 1) = i := by
    have hvalue : phi i j = i + pairs j * 2 * 2 ^ bitLength i := by
      rw [phi, Nat.pow_succ]
      ring
    rw [Nat.and_two_pow_sub_one_eq_mod, hvalue, Nat.add_mul_mod_self_right,
      Nat.mod_eq_of_lt (lt_two_pow_bitLength i)]
  rw [Nat.div_eq_of_lt (lt_two_pow_bitLength j)] at hread
  rw [elasticPhiInverse, if_neg (Nat.ne_of_gt (phi_pos hi)), bitLength_phi hj, hread, Option.bind_eq_bind,
    Option.bind_some]
  dsimp only
  rw [if_neg (by omega), if_neg (by omega), hsuffix, elasticPhi_eq hi hj hlt]
  exact if_pos rfl

theorem phi_injective {i' j' : Nat} (hi : 0 < i) (hj : 0 < j) (hi' : 0 < i') (hj' : 0 < j') (hlt : phi i j < 2 ^ 128)
    (h : phi i j = phi i' j') : i = i' ∧ j = j' := by
  have hread := elasticPhiInverse_phi hi hj hlt
  rw [h, elasticPhiInverse_phi hi' hj' (h ▸ hlt)] at hread
  obtain ⟨hsame, hsame'⟩ := Prod.mk.inj (Option.some.inj hread)
  exact ⟨hsame.symm, hsame'.symm⟩

theorem elasticPhiInverse_iff {encoded : Nat} :
    elasticPhiInverse encoded = some (i, j) ↔ elasticPhi i j = .ok encoded := by
  constructor
  · intro h
    rw [elasticPhiInverse] at h
    split at h
    · cases h
    obtain ⟨⟨remainingBits, j'⟩, -, h⟩ := Option.bind_eq_some_iff.mp h
    dsimp only at h
    split at h
    · cases h
    split at h
    · cases h
    split at h
    · rename_i again hagain
      split at h
      · rename_i hsame
        obtain ⟨rfl, rfl⟩ := Prod.mk.inj (Option.some.inj h)
        rw [hagain, hsame]
      · cases h
    · cases h
  · intro h
    obtain ⟨hi, hj, hlt, rfl⟩ := elasticPhi_ok_iff.mp h
    exact elasticPhiInverse_phi hi hj hlt

end Decoding

theorem phi_bound {i j : Nat} (hi : 0 < i) (hj : 0 < j) : phi i j < 16 * i * j ^ 2 := by
  calc phi i j < 2 ^ (2 * bitLength j + 1 + bitLength i) := phi_lt i j
    _ = 2 * (2 ^ bitLength j * 2 ^ bitLength j) * 2 ^ bitLength i := by ring
    _ ≤ 2 * (2 * j * (2 * j)) * (2 * i) := by
      have hjb := bitLength_le_self hj
      have hib := bitLength_le_self hi
      gcongr
    _ = 16 * i * j ^ 2 := by ring

/-- The pairing code, its inverse and its bounded form agree on every pair of coordinates. -/
theorem phi_code_exact :
    (∀ i j, 0 < i → 0 < j →
      (elasticPhi i j = .error .overflow ↔ 2 * bitLength j + 1 + bitLength i > 128) ∧
      ((∃ encoded, elasticPhi i j = .ok encoded) ↔ 2 * bitLength j + 1 + bitLength i ≤ 128)) ∧
    (∀ i j i' j' encoded, elasticPhi i j = .ok encoded → elasticPhi i' j' = .ok encoded → i = i' ∧ j = j') ∧
    (∀ i j j' encoded encoded', elasticPhi i j = .ok encoded → elasticPhi i j' = .ok encoded' → j < j' →
      encoded < encoded') ∧
    (∀ i j encoded, elasticPhi i j = .ok encoded → encoded < 16 * i * j ^ 2) ∧
    (∀ encoded < 2 ^ 128, ∀ i j, elasticPhiInverse encoded = some (i, j) ↔ elasticPhi i j = .ok encoded) ∧
    (∀ i < 2 ^ 32, ∀ j < 2 ^ 64,
      (elasticPhiBounded i j = none ↔
        i = 0 ∨ j = 0 ∨ j > 2 ^ 16 - 1 ∨ 2 * bitLength j + 1 + bitLength i > 64) ∧
      ∀ encoded, elasticPhiBounded i j = some encoded → elasticPhi i j = .ok encoded) := by
  constructor
  · intro i j hi hj
    constructor
    · exact elasticPhi_overflow_iff hi hj
    · rw [← phi_lt_iff hj]
      constructor
      · rintro ⟨encoded, h⟩
        exact (elasticPhi_ok_iff.mp h).2.2.1
      · intro h
        exact ⟨_, elasticPhi_eq hi hj h⟩
  constructor
  · intro i j i' j' encoded h h'
    have hpair := (elasticPhiInverse_iff.mpr h).symm.trans (elasticPhiInverse_iff.mpr h')
    exact Prod.mk.inj (Option.some.inj hpair)
  constructor
  · intro i j j' encoded encoded' h h' hlt
    obtain ⟨-, -, -, rfl⟩ := elasticPhi_ok_iff.mp h
    obtain ⟨-, -, -, rfl⟩ := elasticPhi_ok_iff.mp h'
    exact phi_strictMono i hlt
  constructor
  · intro i j encoded h
    obtain ⟨hi, hj, -, rfl⟩ := elasticPhi_ok_iff.mp h
    exact phi_bound hi hj
  constructor
  · intro encoded _ i j
    exact elasticPhiInverse_iff
  · intro i _ j _
    constructor
    · rw [elasticPhiBounded_none]
      omega
    · intro encoded h
      have hsome : elasticPhiBounded i j ≠ none := by
        rw [h]
        exact Option.some_ne_none _
      rw [Ne, elasticPhiBounded_none] at hsome
      have hi : 0 < i := by omega
      have hj : 0 < j := by omega
      have hbits : 2 * bitLength j + 1 + bitLength i ≤ 64 := by omega
      rw [elasticPhiBounded_some hi hj (by omega) hbits] at h
      obtain rfl := Option.some.inj h
      exact elasticPhi_eq hi hj ((phi_lt_iff hj).mpr (by omega))

end Opthash.Probe
