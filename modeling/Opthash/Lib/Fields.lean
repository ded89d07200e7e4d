import Mathlib.Data.UInt

namespace Opthash.Fields

variable {m m' x y : UInt64} {k s : Nat}

def Within (m x : UInt64) : Prop := x &&& m = x

theorem or_and (x y m : UInt64) : (x ||| y) &&& m = x &&& m ||| y &&& m :=
  UInt64.toNat_inj.mp (by simp only [UInt64.toNat_and, UInt64.toNat_or, Nat.and_or_distrib_right])

theorem Within.and_disjoint (h : Within m x) (hm : m &&& m' = 0) : x &&& m' = 0 := by
  rw [← show x &&& m = x from h, UInt64.and_assoc, hm, UInt64.and_zero]

theorem within_and (x m : UInt64) : Within m (x &&& m) := by
  rw [Within, UInt64.and_assoc, UInt64.and_self]

theorem within_of_lt (hx : x.toNat < 2 ^ k) (hm : m.toNat = 2 ^ k - 1) : Within m x := by
  apply UInt64.toNat_inj.mp
  rw [UInt64.toNat_and, hm, Nat.and_two_pow_sub_one_eq_mod, Nat.mod_eq_of_lt hx]

theorem toNat_lt_of_and (hm : m.toNat = 2 ^ k - 1) : (x &&& m).toNat < 2 ^ k := by
  rw [UInt64.toNat_and, hm, Nat.and_two_pow_sub_one_eq_mod]
  exact Nat.mod_lt _ (Nat.two_pow_pos k)

theorem Within.shiftLeft (h : Within m x) (c : UInt64) : Within (m <<< c) (x <<< c) := by
  rw [Within, ← UInt64.shiftLeft_and, show x &&& m = x from h]

theorem shiftLeft_shiftRight {c : UInt64} (hc : c.toNat < 64) (hx : x.toNat * 2 ^ c.toNat < 2 ^ 64) :
    x <<< c >>> c = x := by
  apply UInt64.toNat_inj.mp
  rw [UInt64.toNat_shiftRight, UInt64.toNat_shiftLeft, Nat.mod_eq_of_lt hc, Nat.shiftLeft_eq, Nat.mod_eq_of_lt hx,
    Nat.shiftRight_eq_div_pow, Nat.mul_div_cancel _ (Nat.two_pow_pos _)]

end Opthash.Fields
