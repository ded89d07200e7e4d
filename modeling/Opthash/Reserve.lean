import Opthash.Machine

namespace Opthash

/-- `floor(value / 2 ^ exponent)` on 64-bit words, for exponents of any size. -/
def floorDivPow2 (value exponent : Nat) : Nat :=
  if 64 ≤ exponent then 0 else value >>> exponent

structure ReserveFraction where
  exponent : Nat
  positive : 0 < exponent
  bounded : exponent < 2 ^ 32

namespace ReserveFraction

variable (r : ReserveFraction)

def floorReserved (n : Nat) : Nat := floorDivPow2 n r.exponent

def floorHalfReserved (n : Nat) : Nat := floorDivPow2 n (r.exponent + 1)

end ReserveFraction

inductive TryReserveError
  | capacityOverflow
  | allocError
  deriving DecidableEq, Repr

def TryReserveError.message : TryReserveError → String
  | capacityOverflow => "capacity overflow"
  | allocError => "memory allocation failed"

namespace Capacity

def maxInsertions (capacity : Nat) (r : ReserveFraction) : Nat := capacity - r.floorReserved capacity

def capacityForFrom (needed : Nat) (r : ReserveFraction) : Nat → Nat → Option Nat
  | 0, _ => none
  | fuel + 1, cap =>
    if maxInsertions cap r < needed then
      (checkedUsize (cap * 2)).bind (capacityForFrom needed r fuel)
    else some cap

/-- Sixty-five doublings overflow every positive start. -/
def capacityFor (start needed : Nat) (r : ReserveFraction) : Option Nat :=
  capacityForFrom needed r 65 start

def exactCapacityFor (needed : Nat) (r : ReserveFraction) : Option Nat :=
  if needed = 0 then some 0
  else if 64 ≤ r.exponent then some needed
  else checkedUsize (needed + (needed - 1) / (2 ^ r.exponent - 1))

def tombstoneCleanupThreshold (group : GroupBackend) (capacity : Nat) : Nat :=
  let half := capacity / 2
  let capThreeQuarters := saturatingUsize (capacity * 3) / 4
  let hysteresis := saturatingUsize (half + saturatingUsize (group.groupSize * 4))
  max (min hysteresis capThreeQuarters) half

end Capacity

theorem floorDivPow2_le (n e : Nat) : floorDivPow2 n e ≤ n := by
  unfold floorDivPow2
  split
  · omega
  · exact Nat.shiftRight_le n e

theorem floorDivPow2_lt {n e : Nat} (hn : 0 < n) (he : 0 < e) : floorDivPow2 n e < n := by
  unfold floorDivPow2
  split
  · exact hn
  · rw [Nat.shiftRight_eq_div_pow]
    exact Nat.div_lt_self hn (Nat.one_lt_two_pow (by omega))

namespace Capacity

theorem maxInsertions_le (n : Nat) (r : ReserveFraction) : maxInsertions n r ≤ n := Nat.sub_le ..

theorem maxInsertions_pos {n : Nat} (r : ReserveFraction) (hn : 0 < n) : 0 < maxInsertions n r := by
  have := floorDivPow2_lt hn r.positive
  simp only [maxInsertions, ReserveFraction.floorReserved]
  omega

theorem capacityForFrom_spec {needed fuel cap c : Nat} {r : ReserveFraction}
    (h : capacityForFrom needed r fuel cap = some c) :
    needed ≤ maxInsertions c r ∧ ∃ doublings, c = cap * 2 ^ doublings := by
  induction fuel generalizing cap with
  | zero => simp [capacityForFrom] at h
  | succ fuel ih =>
    rw [capacityForFrom] at h
    split at h
    · obtain ⟨d, hd, hc⟩ := Option.bind_eq_some_iff.mp h
      obtain ⟨rfl, -⟩ := checkedUsize_spec hd
      obtain ⟨hle, doublings, rfl⟩ := ih hc
      exact ⟨hle, doublings + 1, by rw [Nat.pow_succ', Nat.mul_assoc]⟩
    · obtain rfl := Option.some.inj h
      exact ⟨by omega, 0, by rw [Nat.pow_zero, Nat.mul_one]⟩

theorem capacityFor_spec {start needed c : Nat} {r : ReserveFraction} (h : capacityFor start needed r = some c) :
    needed ≤ maxInsertions c r ∧ ∃ doublings, c = start * 2 ^ doublings :=
  capacityForFrom_spec h

theorem maxInsertions_eq {n : Nat} {r : ReserveFraction} (hr : r.exponent < 64) :
    maxInsertions n r = n - n / 2 ^ r.exponent := by
  rw [maxInsertions, ReserveFraction.floorReserved, floorDivPow2, if_neg (by omega), Nat.shiftRight_eq_div_pow]

theorem maxInsertions_mono (r : ReserveFraction) : Monotone fun n => maxInsertions n r := by
  apply monotone_nat_of_le_succ
  intro n
  simp only [maxInsertions, ReserveFraction.floorReserved, floorDivPow2]
  split
  · omega
  · rw [Nat.shiftRight_eq_div_pow, Nat.shiftRight_eq_div_pow]
    have hsucc := @Nat.succ_div n (2 ^ r.exponent)
    split at hsucc <;> omega

theorem le_maxInsertions_iff {needed n : Nat} {r : ReserveFraction} (hneeded : 0 < needed) (hr : r.exponent < 64) :
    needed ≤ maxInsertions n r ↔ needed + (needed - 1) / (2 ^ r.exponent - 1) ≤ n := by
  rw [maxInsertions_eq hr]
  have hpow : 2 ≤ 2 ^ r.exponent := Nat.pow_le_pow_right (n := 2) (by omega) r.positive
  generalize 2 ^ r.exponent = power at hpow
  have hdiv := Nat.div_add_mod (needed - 1) (power - 1)
  have hmod := Nat.mod_lt (needed - 1) (show 0 < power - 1 by omega)
  generalize (needed - 1) / (power - 1) = reserved at hdiv ⊢
  generalize (needed - 1) % (power - 1) = rest at hdiv hmod
  -- `needed + reserved` is one more than a slot count with `rest < power - 1` slots beyond `reserved` full reserves.
  have hleast : needed + reserved = power * reserved + rest + 1 := by
    have : (power - 1) * reserved + reserved = power * reserved := by
      obtain ⟨k, rfl⟩ : ∃ k, power = k + 1 := ⟨power - 1, by omega⟩
      rw [Nat.add_sub_cancel, Nat.add_mul, Nat.one_mul]
    omega
  have hquot := Nat.div_add_mod n power
  have hlt := Nat.mod_lt n (show 0 < power by omega)
  generalize n / power = quotient at hquot ⊢
  generalize n % power = remainder at hquot hlt
  rcases Nat.lt_trichotomy quotient reserved with hless | rfl | hmore
  · have hmul := Nat.mul_le_mul_left power (show quotient + 1 ≤ reserved from hless)
    have hmul' := Nat.mul_le_mul_left (power - 1) (show quotient + 1 ≤ reserved from hless)
    have hsplit : power * quotient = (power - 1) * quotient + quotient := by
      obtain ⟨k, rfl⟩ : ∃ k, power = k + 1 := ⟨power - 1, by omega⟩
      rw [Nat.add_sub_cancel, Nat.add_mul, Nat.one_mul]
    rw [Nat.mul_add, Nat.mul_one] at hmul hmul'
    omega
  · omega
  · have hmul := Nat.mul_le_mul_left power (show reserved + 1 ≤ quotient from hmore)
    have hmul' := Nat.mul_le_mul_left (power - 1) (show reserved + 1 ≤ quotient from hmore)
    have hsplit : power * quotient = (power - 1) * quotient + quotient := by
      obtain ⟨k, rfl⟩ : ∃ k, power = k + 1 := ⟨power - 1, by omega⟩
      rw [Nat.add_sub_cancel, Nat.add_mul, Nat.one_mul]
    rw [Nat.mul_add, Nat.mul_one] at hmul hmul'
    omega

theorem exactCapacityFor_inverts {needed n : Nat} {r : ReserveFraction} (hn : n ≤ usizeMax) :
    needed ≤ maxInsertions n r ↔ ∃ m, exactCapacityFor needed r = some m ∧ m ≤ n := by
  rw [exactCapacityFor]
  split
  · rename_i hzero
    rw [hzero]
    exact ⟨fun _ => ⟨0, rfl, Nat.zero_le n⟩, fun _ => Nat.zero_le _⟩
  · rename_i hneeded
    split
    · rename_i hwide
      have hroom : maxInsertions n r = n := by
        rw [maxInsertions, ReserveFraction.floorReserved, floorDivPow2, if_pos hwide, Nat.sub_zero]
      rw [hroom]
      exact ⟨fun h => ⟨needed, rfl, h⟩, fun ⟨m, hm, hle⟩ => Option.some.inj hm ▸ hle⟩
    · rename_i hnarrow
      rw [le_maxInsertions_iff (Nat.pos_of_ne_zero hneeded) (Nat.lt_of_not_le hnarrow)]
      constructor
      · exact fun h => ⟨_, if_pos (h.trans hn), h⟩
      · rintro ⟨m, hm, hle⟩
        obtain ⟨rfl, -⟩ := checkedUsize_spec hm
        exact hle

theorem exactCapacityFor_le {needed m : Nat} {r : ReserveFraction} (hneeded : needed ≤ usizeMax)
    (hm : exactCapacityFor needed r = some m) : m ≤ usizeMax := by
  rw [exactCapacityFor] at hm
  split at hm
  · cases hm
    exact Nat.zero_le _
  · split at hm
    · cases hm
      exact hneeded
    · exact (checkedUsize_spec hm).1 ▸ (checkedUsize_spec hm).2

/-- `exact_capacity_for` inverts `max_insertions`: what holds `needed` entries is exactly the slot counts from its value on. -/
theorem exactCapacityFor_exact {needed n : Nat} (r : ReserveFraction) (hneeded : needed ≤ usizeMax) (hn : n ≤ usizeMax) :
    (needed ≤ maxInsertions n r ↔ ∃ m, exactCapacityFor needed r = some m ∧ m ≤ n) ∧
      (∀ m, exactCapacityFor needed r = some m → m ≤ usizeMax ∧ IsLeast {k | needed ≤ maxInsertions k r} m) ∧
      (exactCapacityFor needed r = none ↔ ∀ k ≤ usizeMax, ¬needed ≤ maxInsertions k r) := by
  have hinverts : ∀ k ≤ usizeMax, (needed ≤ maxInsertions k r ↔ ∃ m, exactCapacityFor needed r = some m ∧ m ≤ k) :=
    fun k hk => exactCapacityFor_inverts hk
  refine ⟨hinverts n hn, fun m hm => ?_, ?_⟩
  · have hsize := exactCapacityFor_le hneeded hm
    refine ⟨hsize, (hinverts m hsize).mpr ⟨m, hm, Nat.le_refl m⟩, fun k hk => ?_⟩
    rcases Nat.le_total k m with hle | hge
    · obtain ⟨m', hm', hle'⟩ := (hinverts k (hle.trans hsize)).mp hk
      rwa [Option.some.inj (hm.symm.trans hm')]
    · exact hge
  · constructor
    · intro hnone k hk hroom
      obtain ⟨m, hm, -⟩ := (hinverts k hk).mp hroom
      rw [hnone] at hm
      cases hm
    · intro hall
      cases hm : exactCapacityFor needed r with
      | none => rfl
      | some m =>
        have hsize := exactCapacityFor_le hneeded hm
        exact absurd ((hinverts m hsize).mpr ⟨m, hm, Nat.le_refl m⟩) (hall m hsize)

theorem exactCapacityFor_exact_top :
    (usizeMax ≤ maxInsertions usizeMax ⟨3, by decide, by decide⟩ ↔
      ∃ m, exactCapacityFor usizeMax ⟨3, by decide, by decide⟩ = some m ∧ m ≤ usizeMax) ∧
    (∀ m, exactCapacityFor usizeMax ⟨3, by decide, by decide⟩ = some m →
      m ≤ usizeMax ∧ IsLeast {k | usizeMax ≤ maxInsertions k ⟨3, by decide, by decide⟩} m) ∧
    (exactCapacityFor usizeMax ⟨3, by decide, by decide⟩ = none ↔
      ∀ k ≤ usizeMax, ¬usizeMax ≤ maxInsertions k ⟨3, by decide, by decide⟩) :=
  exactCapacityFor_exact ⟨3, by decide, by decide⟩ (Nat.le_refl _) (Nat.le_refl _)

end Capacity

end Opthash
