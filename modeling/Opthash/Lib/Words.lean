import Mathlib.Algebra.Order.Floor.Div
import Mathlib.Data.Set.Card
import Mathlib.Data.Nat.Bitwise
import Mathlib.Data.UInt
import Mathlib.Order.Interval.Finset.Nat
import Mathlib.Tactic.Ring

namespace Opthash.Words

section Multiples

variable {M u i t w : Nat}

theorem multiple_mem_iff {a q : Nat} (hpos : 0 < u) :
    a ≤ w * u ∧ w * u < a + u * q ↔ w ∈ Finset.Ico (a ⌈/⌉ u) (a ⌈/⌉ u + q) := by
  have hlow : a ⌈/⌉ u ≤ w ↔ a ≤ w * u := by
    rw [ceilDiv_le_iff_le_mul hpos, Nat.mul_comm]
  have hshift : (a + u * q) ⌈/⌉ u = a ⌈/⌉ u + q := by
    rw [Nat.ceilDiv_eq_add_pred_div, Nat.ceilDiv_eq_add_pred_div, ← Nat.add_mul_div_left _ _ hpos]
    congr 1
    omega
  have hhigh : a ⌈/⌉ u + q ≤ w ↔ a + u * q ≤ w * u := by
    rw [← hshift, ceilDiv_le_iff_le_mul hpos, Nat.mul_comm u w]
  rw [Finset.mem_Ico]
  omega

theorem split_product_iff (hM : 0 < M) : t ≤ w * u % M ∧ w * u / M = i ↔ i * M + t ≤ w * u ∧ w * u < (i + 1) * M := by
  have hdiv := Nat.div_add_mod (w * u) M
  have hmod := Nat.mod_lt (w * u) hM
  constructor
  · rintro ⟨hlow, rfl⟩
    have : (w * u / M + 1) * M = M * (w * u / M) + M := by ring
    have : w * u / M * M = M * (w * u / M) := by ring
    omega
  · rintro ⟨hlow, hhigh⟩
    have hi : w * u / M = i :=
      Nat.div_eq_of_lt_le (Nat.le_trans (Nat.le_add_right ..) hlow) hhigh
    have : i * M = M * i := by ring
    rw [hi] at hdiv
    exact ⟨by omega, hi⟩

theorem mem_scaled_iff (hpos : 0 < u) (hle : u ≤ M) :
    M % u ≤ w * u % M ∧ w * u / M = i ↔
      w ∈ Finset.Ico ((i * M + M % u) ⌈/⌉ u) ((i * M + M % u) ⌈/⌉ u + M / u) := by
  rw [split_product_iff (Nat.lt_of_lt_of_le hpos hle), ← multiple_mem_iff hpos]
  have hwhole := Nat.mod_add_div M u
  have : (i + 1) * M = i * M + M := by ring
  omega

end Multiples

section Permutations

theorem xor_shiftRight_injective {k : Nat} (hk : 0 < k) : Function.Injective fun x : Nat => x ^^^ x >>> k := by
  intro a
  induction a using Nat.strongRecOn with
  | ind a ih =>
    intro b h
    dsimp only at h
    have hshrink : ∀ x : Nat, 0 < x → x >>> k < x := by
      intro x hx
      rw [Nat.shiftRight_eq_div_pow]
      exact Nat.div_lt_self hx (Nat.one_lt_two_pow (Nat.ne_of_gt hk))
    have hhigh : a >>> k = b >>> k := by
      rcases Nat.eq_zero_or_pos a with rfl | ha
      · rcases Nat.eq_zero_or_pos b with rfl | hb
        · rfl
        · have heq : b = b >>> k := by
            rw [Nat.zero_shiftRight, Nat.xor_self] at h
            exact Nat.eq_of_xor_eq_zero h.symm
          exact absurd (hshrink b hb) (by omega)
      · apply ih (a >>> k) (hshrink a ha)
        dsimp only
        rw [← Nat.shiftRight_xor_distrib, h, Nat.shiftRight_xor_distrib]
    rw [hhigh] at h
    exact Nat.xor_left_injective h

theorem xorShift_injective {k : UInt64} (hk : 0 < k.toNat % 64) :
    Function.Injective fun x : UInt64 => x ^^^ x >>> k := by
  intro a b h
  apply UInt64.toNat_inj.mp
  apply xor_shiftRight_injective hk
  have hwords := congrArg UInt64.toNat h
  simpa only [UInt64.toNat_xor, UInt64.toNat_shiftRight] using hwords

theorem mul_injective_of_inverse {m m' : UInt64} (h : m * m' = 1) : Function.Injective fun x : UInt64 => x * m := by
  intro a b hab
  calc a = a * (m * m') := by rw [h, UInt64.mul_one]
    _ = b * (m * m') := by
      rw [← UInt64.mul_assoc, ← UInt64.mul_assoc]
      exact congrArg (· * m') hab
    _ = b := by rw [h, UInt64.mul_one]

end Permutations

section Fields

variable {a b k : Nat}

theorem toNat_ofNat_of_lt (h : a < 2 ^ 64) : (UInt64.ofNat a).toNat = a := by
  rw [UInt64.toNat_ofNat']
  exact Nat.mod_eq_of_lt h

theorem or_eq_add (h : b < 2 ^ k) : (a * 2 ^ k) ||| b = a * 2 ^ k + b := by
  rw [Nat.mul_comm, Nat.two_pow_add_eq_or_of_lt h]

end Fields

end Opthash.Words
