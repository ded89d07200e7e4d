import Mathlib.Order.Monotone.Basic
import Mathlib.Tactic.Ring
import Mathlib.Tactic.Linarith
import Opthash.Machine
import Opthash.Exact.Probe

namespace Opthash.Probe

inductive PhiCoordinate
  | i
  | j
  deriving DecidableEq, Repr

inductive PhiError
  | zeroCoordinate (coordinate : PhiCoordinate)
  | overflow
  deriving DecidableEq, Repr

/-- `prefix * 2 + bit` in `u128`. -/
def appendBit (value bit : Nat) : Option Nat :=
  if value * 2 + bit < 2 ^ 128 then some (value * 2 + bit) else none

def appendPairs (j : Nat) : Nat → Nat → Option Nat
  | 0, encoded => some encoded
  | bitIndex + 1, encoded => do
    let encoded ← appendBit encoded 1
    let encoded ← appendBit encoded ((j >>> bitIndex) &&& 1)
    appendPairs j bitIndex encoded

def appendBits (i : Nat) : Nat → Nat → Option Nat
  | 0, encoded => some encoded
  | bitIndex + 1, encoded => do
    let encoded ← appendBit encoded ((i >>> bitIndex) &&& 1)
    appendBits i bitIndex encoded

def elasticPhi (i j : Nat) : Except PhiError Nat :=
  if i = 0 then .error (.zeroCoordinate .i)
  else if j = 0 then .error (.zeroCoordinate .j)
  else
    let encoded := do
      let encoded ← appendPairs j (bitLength j) 0
      let encoded ← appendBit encoded 0
      appendBits i (bitLength i) encoded
    match encoded with
    | some encoded => .ok encoded
    | none => .error .overflow

def spreadLow16 (value : UInt32) : UInt32 :=
  let value := (value ||| (value <<< 8)) &&& 0x00ff00ff
  let value := (value ||| (value <<< 4)) &&& 0x0f0f0f0f
  let value := (value ||| (value <<< 2)) &&& 0x33333333
  (value ||| (value <<< 1)) &&& 0x55555555

def elasticPhiBounded (i j : Nat) : Option Nat :=
  if i = 0 ∨ j = 0 then none
  else if j ≥ 2 ^ 16 then none
  else
    let pairBits := bitLength j * 2
    let iBits := bitLength i
    if pairBits + 1 + iBits > 64 then none
    else
      let pairMask : UInt64 := ((1 : UInt64) <<< UInt64.ofNat pairBits) - 1
      let data := (spreadLow16 (UInt32.ofNat j)).toUInt64
      let pairs := data ||| (0xaaaaaaaa &&& pairMask)
      if iBits + 1 ≥ 64 then none
      else some ((pairs <<< UInt64.ofNat (iBits + 1)) ||| UInt64.ofNat i).toNat

def pairsBelow (j : Nat) : Nat → Nat
  | 0 => 0
  | b + 1 => pairsBelow (j / 2) b * 4 + (2 + j % 2)

def pairs (j : Nat) : Nat := pairsBelow j (bitLength j)

/-- The position `elastic_phi` computes where it does not overflow. -/
def phi (i j : Nat) : Nat := pairs j * 2 ^ (bitLength i + 1) + i

section Pairs

variable {i j : Nat}

theorem bitLength_pos (h : 0 < j) : bitLength j = bitLength (j / 2) + 1 := by
  unfold bitLength
  rw [if_neg (Nat.ne_of_gt h)]
  by_cases h2 : j / 2 = 0
  · rw [if_pos h2]
    obtain rfl : j = 1 := by omega
    decide
  · rw [if_neg h2, Nat.log2_def j, if_pos (by omega)]

theorem lt_two_pow_bitLength (i : Nat) : i < 2 ^ bitLength i := by
  unfold bitLength
  split
  · rename_i h
    rw [h]
    decide
  · exact Nat.lt_log2_self

theorem pairsBelow_lt (b : Nat) : pairsBelow j b < 4 ^ b := by
  induction b generalizing j with
  | zero => exact Nat.one_pos
  | succ b ih =>
    have := @ih (j / 2)
    rw [pairsBelow, Nat.pow_succ]
    omega

theorem pairsBelow_top (b : Nat) : pairsBelow j (b + 1) = (2 + j / 2 ^ b % 2) * 4 ^ b + pairsBelow j b := by
  induction b generalizing j with
  | zero => simp [pairsBelow]
  | succ b ih =>
    rw [pairsBelow, ih, Nat.div_div_eq_div_mul, ← Nat.pow_succ', pairsBelow, Nat.pow_succ 4]
    ring

theorem pairs_pos (h : 0 < j) : pairs j = pairs (j / 2) * 4 + (2 + j % 2) := by
  rw [pairs, bitLength_pos h, pairsBelow]
  rfl

theorem pairs_strictMono : StrictMono pairs := by
  have hlt : ∀ j', ∀ j < j', pairs j < pairs j' := by
    intro j'
    induction j' using Nat.strongRecOn with
    | ind j' ih =>
      intro j hj
      rw [pairs_pos (Nat.zero_lt_of_lt hj)]
      rcases Nat.eq_zero_or_pos j with rfl | hpos
      · have : pairs 0 = 0 := rfl
        omega
      · rw [pairs_pos hpos]
        rcases Nat.lt_or_ge (j / 2) (j' / 2) with h | h
        · have := ih (j' / 2) (by omega) (j / 2) h
          omega
        · have heq : j / 2 = j' / 2 := by omega
          rw [heq]
          omega
  exact fun j j' h => hlt j' j h

theorem phi_strictMono (i : Nat) : StrictMono (phi i) := by
  intro j j' h
  exact Nat.add_lt_add_right (Nat.mul_lt_mul_of_pos_right (pairs_strictMono h) (Nat.two_pow_pos _)) i

theorem phi_pos (h : 0 < i) : 0 < phi i j := Nat.lt_of_lt_of_le h (Nat.le_add_left ..)

end Pairs

section Encoding

variable {i j : Nat}

theorem bit_eq (j b : Nat) : (j >>> b) &&& 1 = j / 2 ^ b % 2 := by
  rw [Nat.shiftRight_eq_div_pow]
  exact Nat.and_one_is_mod _

theorem appendPairs_eq {b e : Nat} (h : e * 4 ^ b + pairsBelow j b < 2 ^ 128) :
    appendPairs j b e = some (e * 4 ^ b + pairsBelow j b) := by
  induction b generalizing e with
  | zero => rw [appendPairs, pairsBelow, Nat.pow_zero, Nat.mul_one, Nat.add_zero]
  | succ b ih =>
    have hbit := Nat.mod_lt (j / 2 ^ b) (Nat.two_pos)
    have hnext : (e * 2 + 1) * 2 + j / 2 ^ b % 2 = e * 4 + (2 + j / 2 ^ b % 2) := by omega
    have hvalue : e * 4 ^ (b + 1) + pairsBelow j (b + 1) =
        (e * 4 + (2 + j / 2 ^ b % 2)) * 4 ^ b + pairsBelow j b := by
      rw [pairsBelow_top, Nat.pow_succ]
      ring
    rw [hvalue] at h ⊢
    have hsmall : e * 4 + (2 + j / 2 ^ b % 2) < 2 ^ 128 :=
      Nat.lt_of_le_of_lt (Nat.le_trans (Nat.le_mul_of_pos_right _ (Nat.pow_pos (by decide))) (Nat.le_add_right ..)) h
    rw [appendPairs, appendBit, if_pos (by omega), Option.bind_eq_bind, Option.bind_some, bit_eq, appendBit,
      hnext, if_pos hsmall]
    exact ih h

theorem appendBits_eq {b e : Nat} (h : e * 2 ^ b + i % 2 ^ b < 2 ^ 128) :
    appendBits i b e = some (e * 2 ^ b + i % 2 ^ b) := by
  induction b generalizing e with
  | zero => rw [appendBits, Nat.pow_zero, Nat.mul_one, Nat.mod_one, Nat.add_zero]
  | succ b ih =>
    have hvalue : e * 2 ^ (b + 1) + i % 2 ^ (b + 1) = (e * 2 + i / 2 ^ b % 2) * 2 ^ b + i % 2 ^ b := by
      rw [Nat.mod_pow_succ, Nat.pow_succ]
      ring
    rw [hvalue] at h ⊢
    have hsmall : e * 2 + i / 2 ^ b % 2 < 2 ^ 128 :=
      Nat.lt_of_le_of_lt (Nat.le_trans (Nat.le_mul_of_pos_right _ (Nat.two_pow_pos _)) (Nat.le_add_right ..)) h
    rw [appendBits, bit_eq, appendBit, if_pos hsmall]
    exact ih h

theorem elasticPhi_eq (hi : 0 < i) (hj : 0 < j) (h : phi i j < 2 ^ 128) : elasticPhi i j = .ok (phi i j) := by
  have hvalue : phi i j = (pairs j * 2 + 0) * 2 ^ bitLength i + i % 2 ^ bitLength i := by
    rw [phi, Nat.mod_eq_of_lt (lt_two_pow_bitLength i), Nat.pow_succ]
    ring
  have hdouble : pairs j * 2 + 0 < 2 ^ 128 := by
    rw [hvalue] at h
    exact Nat.lt_of_le_of_lt (Nat.le_trans (Nat.le_mul_of_pos_right _ (Nat.two_pow_pos _)) (Nat.le_add_right ..)) h
  have hpairs : 0 * 4 ^ bitLength j + pairsBelow j (bitLength j) < 2 ^ 128 := by
    rw [Nat.zero_mul, Nat.zero_add]
    change pairs j < _
    omega
  have hencoded : (do
      let encoded ← appendPairs j (bitLength j) 0
      let encoded ← appendBit encoded 0
      appendBits i (bitLength i) encoded) = some (phi i j) := by
    rw [appendPairs_eq hpairs, Nat.zero_mul, Nat.zero_add]
    change (appendBit (pairs j) 0 >>= appendBits i (bitLength i)) = _
    rw [appendBit, if_pos hdouble]
    change appendBits i (bitLength i) (pairs j * 2 + 0) = _
    rw [appendBits_eq (hvalue ▸ h), ← hvalue]
  rw [elasticPhi, if_neg (Nat.ne_of_gt hi), if_neg (Nat.ne_of_gt hj)]
  dsimp only
  rw [hencoded]

end Encoding

section Length

variable {i j n b : Nat}

theorem bitLength_le_iff : bitLength n ≤ b ↔ n < 2 ^ b := by
  constructor
  · intro h
    exact Nat.lt_of_lt_of_le (lt_two_pow_bitLength n) (Nat.pow_le_pow_right (by decide) h)
  · exact bitLength_le

theorem bitLength_le_self (h : 0 < n) : 2 ^ bitLength n ≤ 2 * n := by
  unfold bitLength
  rw [if_neg (Nat.ne_of_gt h), Nat.pow_succ']
  exact Nat.mul_le_mul_left 2 (Nat.log2_self_le (Nat.ne_of_gt h))

theorem four_pow (b : Nat) : 4 ^ b = 2 ^ (2 * b) := by
  rw [Nat.pow_mul]

theorem suffix_lt (i : Nat) : i < 2 ^ (bitLength i + 1) :=
  Nat.lt_of_lt_of_le (lt_two_pow_bitLength i) (Nat.pow_le_pow_right (by decide) (Nat.le_succ _))

theorem phi_lt (i j : Nat) : phi i j < 2 ^ (2 * bitLength j + 1 + bitLength i) := by
  have hpairs : pairs j < 4 ^ bitLength j := pairsBelow_lt _
  have hsuffix := suffix_lt i
  calc phi i j < (pairs j + 1) * 2 ^ (bitLength i + 1) := by
        rw [phi, Nat.succ_mul]
        omega
    _ ≤ 4 ^ bitLength j * 2 ^ (bitLength i + 1) := Nat.mul_le_mul_right _ hpairs
    _ = 2 ^ (2 * bitLength j + 1 + bitLength i) := by
        rw [four_pow, ← Nat.pow_add]
        congr 1
        omega

theorem le_phi (hj : 0 < j) : 2 ^ (2 * bitLength j + bitLength i) ≤ phi i j := by
  obtain ⟨b, hb⟩ : ∃ b, bitLength j = b + 1 := ⟨_, bitLength_pos hj⟩
  have htop : 2 * 4 ^ b ≤ pairs j := by
    rw [pairs, hb, pairsBelow_top]
    have : 2 * 4 ^ b ≤ (2 + j / 2 ^ b % 2) * 4 ^ b := Nat.mul_le_mul_right _ (Nat.le_add_right ..)
    omega
  calc 2 ^ (2 * bitLength j + bitLength i) = 2 * 4 ^ b * 2 ^ (bitLength i + 1) := by
        rw [four_pow, ← Nat.pow_succ', ← Nat.pow_add, hb]
        congr 1
        omega
    _ ≤ pairs j * 2 ^ (bitLength i + 1) := Nat.mul_le_mul_right _ htop
    _ ≤ phi i j := Nat.le_add_right ..

theorem phi_lt_iff (hj : 0 < j) : phi i j < 2 ^ b ↔ 2 * bitLength j + 1 + bitLength i ≤ b := by
  constructor
  · intro h
    have := (Nat.pow_lt_pow_iff_right (by decide)).mp (Nat.lt_of_le_of_lt (le_phi hj) h)
    omega
  · intro h
    exact Nat.lt_of_lt_of_le (phi_lt i j) (Nat.pow_le_pow_right (by decide) h)

end Length

section Bounded

variable {i j : Nat}

theorem masked_or (x y m k : UInt32) : (x ||| y ||| ((x ||| y) <<< k)) &&& m =
    ((x ||| (x <<< k)) &&& m) ||| ((y ||| (y <<< k)) &&& m) := by
  rw [UInt32.shiftLeft_or]
  apply UInt32.toBitVec_inj.mp
  ext n hn
  simp only [UInt32.toBitVec_and, UInt32.toBitVec_or, BitVec.getElem_and, BitVec.getElem_or]
  rw [← Bool.and_or_distrib_right]
  ac_rfl

theorem spreadLow16_or (a b : UInt32) : spreadLow16 (a ||| b) = spreadLow16 a ||| spreadLow16 b := by
  simp only [spreadLow16, masked_or]

def pairMarkers (b : Nat) : UInt64 := 0xaaaaaaaa &&& (((1 : UInt64) <<< UInt64.ofNat (b * 2)) - 1)

def spreadPairs (j : Nat) : UInt64 := (spreadLow16 (UInt32.ofNat j)).toUInt64 ||| pairMarkers (bitLength j)

theorem spreadPairs_byte : ∀ j < 256, (spreadPairs j).toNat = pairs j := by decide +kernel

theorem spreadLow16_byte : ∀ j < 256,
    ((spreadLow16 (UInt32.ofNat j)).toUInt64 ||| 0xaaaa).toNat = pairsBelow j 8 := by
  decide +kernel

theorem spreadLow16_shift : ∀ j < 256, (spreadLow16 (UInt32.ofNat (j * 2 ^ 8))).toUInt64 =
    (spreadLow16 (UInt32.ofNat j)).toUInt64 <<< 16 := by
  decide +kernel

theorem pairMarkers_add : ∀ b < 9, pairMarkers (b + 8) = (pairMarkers b <<< 16) ||| 0xaaaa := by decide

theorem pairsBelow_add (j b c : Nat) : pairsBelow j (b + c) = pairsBelow (j / 2 ^ c) b * 4 ^ c + pairsBelow j c := by
  induction c generalizing j with
  | zero => simp [pairsBelow]
  | succ c ih =>
    rw [Nat.add_succ, pairsBelow, ih, pairsBelow, Nat.div_div_eq_div_mul, ← Nat.pow_succ', Nat.pow_succ 4]
    ring

theorem pairsBelow_mod (j b : Nat) : pairsBelow (j % 2 ^ b) b = pairsBelow j b := by
  induction b generalizing j with
  | zero => rfl
  | succ b ih =>
    have hdiv : j % 2 ^ (b + 1) / 2 = j / 2 % 2 ^ b := by
      rw [Nat.pow_succ', Nat.mod_mul_right_div_self]
    have hmod : j % 2 ^ (b + 1) % 2 = j % 2 := Nat.mod_mod_of_dvd j ⟨2 ^ b, Nat.pow_succ'⟩
    rw [pairsBelow, pairsBelow, hdiv, hmod, ih]

theorem bitLength_byte (h : 256 ≤ j) : bitLength j = bitLength (j / 2 ^ 8) + 8 := by
  have hhalf : ∀ b, 2 ^ b ≤ j → bitLength j = bitLength (j / 2 ^ b) + b := by
    intro b
    induction b with
    | zero => simp
    | succ b ih =>
      intro hb
      have hsmall : 2 ^ b ≤ j := Nat.le_trans (Nat.pow_le_pow_right (by decide) (Nat.le_succ b)) hb
      have hpos : 0 < j / 2 ^ b := Nat.div_pos hsmall (Nat.two_pow_pos b)
      have hdiv : j / 2 ^ b / 2 = j / 2 ^ (b + 1) := by rw [Nat.div_div_eq_div_mul, Nat.pow_succ]
      rw [ih hsmall, bitLength_pos hpos, hdiv]
      omega
  exact hhalf 8 h

theorem spreadPairs_split (hlow : 256 ≤ j) (hhigh : j < 2 ^ 16) :
    spreadPairs j = (spreadPairs (j / 2 ^ 8) <<< 16) |||
      ((spreadLow16 (UInt32.ofNat (j % 2 ^ 8))).toUInt64 ||| 0xaaaa) := by
  have hbytes : UInt32.ofNat j = UInt32.ofNat (j / 2 ^ 8 * 2 ^ 8) ||| UInt32.ofNat (j % 2 ^ 8) := by
    rw [← UInt32.ofNat_or, Nat.mul_comm, ← Nat.two_pow_add_eq_or_of_lt (Nat.mod_lt _ (by decide)), Nat.div_add_mod]
  have hswap : ∀ a b c d : UInt64, a ||| b ||| (c ||| d) = a ||| c ||| (b ||| d) := by
    intro a b c d
    ac_rfl
  have hhigh' : bitLength (j / 2 ^ 8) < 9 := Nat.lt_succ_of_le (bitLength_le (by omega))
  rw [spreadPairs, spreadPairs, hbytes, spreadLow16_or, UInt32.toUInt64_or, spreadLow16_shift _ (by omega),
    bitLength_byte hlow, pairMarkers_add _ hhigh', UInt64.shiftLeft_or]
  exact hswap ..

theorem spreadPairs_eq (h : j < 2 ^ 16) : (spreadPairs j).toNat = pairs j := by
  by_cases hbyte : j < 256
  · exact spreadPairs_byte j hbyte
  · have hlow : 256 ≤ j := Nat.le_of_not_lt hbyte
    have hj : j / 2 ^ 8 < 256 := by omega
    have hpairs : pairs (j / 2 ^ 8) < 4 ^ 8 := Nat.lt_of_lt_of_le (pairsBelow_lt _)
      (Nat.pow_le_pow_right (by decide) (bitLength_le (by omega)))
    have hbelow := pairsBelow_lt (j := j % 2 ^ 8) 8
    have hwide : pairs (j / 2 ^ 8) <<< 16 % 2 ^ 64 = 2 ^ 16 * pairs (j / 2 ^ 8) := by
      rw [Nat.shiftLeft_eq]
      omega
    rw [spreadPairs_split hlow h, UInt64.toNat_or, UInt64.toNat_shiftLeft, spreadPairs_byte _ hj,
      spreadLow16_byte (j % 2 ^ 8) (Nat.mod_lt j (by decide))]
    change pairs (j / 2 ^ 8) <<< 16 % 2 ^ 64 ||| pairsBelow (j % 2 ^ 8) 8 = pairs j
    rw [hwide, ← Nat.two_pow_add_eq_or_of_lt hbelow, pairsBelow_mod, pairs, pairs, bitLength_byte hlow,
      pairsBelow_add]
    omega

theorem elasticPhiBounded_some (hi : 0 < i) (hj : 0 < j) (hj' : j < 2 ^ 16)
    (hbits : 2 * bitLength j + 1 + bitLength i ≤ 64) : elasticPhiBounded i j = some (phi i j) := by
  have hjpos := bitLength_pos hj
  have hword : phi i j < 2 ^ 64 := (phi_lt_iff hj).mpr hbits
  have hi' : i < 2 ^ 64 := Nat.lt_of_lt_of_le (suffix_lt i) (Nat.pow_le_pow_right (by decide) (by omega))
  have hshift : (UInt64.ofNat (bitLength i + 1)).toNat = bitLength i + 1 := by
    rw [UInt64.toNat_ofNat']
    omega
  have hi64 : (UInt64.ofNat i).toNat = i := by
    rw [UInt64.toNat_ofNat']
    omega
  have hwide : pairs j * 2 ^ (bitLength i + 1) < 2 ^ 64 := Nat.lt_of_le_of_lt (Nat.le_add_right ..) hword
  have hcode : ((spreadPairs j <<< UInt64.ofNat (bitLength i + 1)) ||| UInt64.ofNat i).toNat = phi i j := by
    have hmod : (bitLength i + 1) % 64 = bitLength i + 1 := Nat.mod_eq_of_lt (by omega)
    rw [UInt64.toNat_or, UInt64.toNat_shiftLeft, hshift, hi64, spreadPairs_eq hj', hmod, Nat.shiftLeft_eq,
      Nat.mod_eq_of_lt hwide, Nat.mul_comm, ← Nat.two_pow_add_eq_or_of_lt (suffix_lt i), phi, Nat.mul_comm]
  rw [elasticPhiBounded, if_neg (by omega), if_neg (by omega)]
  dsimp only
  rw [if_neg (by omega), if_neg (by omega)]
  exact congrArg some hcode

theorem elasticPhiBounded_none :
    elasticPhiBounded i j = none ↔ i = 0 ∨ j = 0 ∨ 2 ^ 16 ≤ j ∨ 64 < 2 * bitLength j + 1 + bitLength i := by
  constructor
  · intro h
    by_contra hall
    simp only [not_or, Nat.not_le, Nat.not_lt] at hall
    obtain ⟨hi, hj, hj', hbits⟩ := hall
    rw [elasticPhiBounded_some (Nat.pos_of_ne_zero hi) (Nat.pos_of_ne_zero hj) hj' hbits] at h
    cases h
  · intro h
    rw [elasticPhiBounded]
    split
    · rfl
    · split
      · rfl
      · exact if_pos (by omega)

theorem elasticPhiBounded_eq (hi : 0 < i) (hi' : i ≤ 32) (hj : 0 < j) (hj' : j < 512) :
    elasticPhiBounded i j = some (phi i j) := by
  have hib : bitLength i ≤ 6 := bitLength_le (by omega)
  have hjb : bitLength j ≤ 9 := bitLength_le (by omega)
  exact elasticPhiBounded_some hi hj (by omega) (by omega)

end Bounded

end Opthash.Probe
