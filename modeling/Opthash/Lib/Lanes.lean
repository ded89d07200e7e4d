import Mathlib.Data.Nat.Bitwise

namespace Opthash.Lanes

def lane (s word i : Nat) : Nat := word / 2 ^ (s * i) % 2 ^ s

variable {s a b i j : Nat}

theorem lane_lt : lane s a i < 2 ^ s := Nat.mod_lt _ (Nat.two_pow_pos s)

theorem testBit_lane (hj : j < s) : (lane s a i).testBit j = a.testBit (s * i + j) := by
  rw [lane, Nat.testBit_mod_two_pow, Nat.testBit_div_two_pow, decide_eq_true hj, Bool.true_and, Nat.add_comm]

theorem testBit_eq_lane (hs : 0 < s) : a.testBit j = (lane s a (j / s)).testBit (j % s) := by
  rw [testBit_lane (Nat.mod_lt j hs), Nat.div_add_mod]

theorem lane_and : lane s (a &&& b) i = lane s a i &&& lane s b i := by
  rw [lane, Nat.and_div_two_pow, Nat.and_mod_two_pow]
  rfl

theorem lane_or : lane s (a ||| b) i = lane s a i ||| lane s b i := by
  rw [lane, Nat.or_div_two_pow, Nat.or_mod_two_pow]
  rfl

theorem lane_xor : lane s (a ^^^ b) i = lane s a i ^^^ lane s b i := by
  rw [lane, Nat.xor_div_two_pow, Nat.xor_mod_two_pow]
  rfl

theorem mod_succ_lanes : a % 2 ^ (s * (i + 1)) = a % 2 ^ (s * i) + 2 ^ (s * i) * lane s a i := by
  rw [Nat.mul_succ, Nat.pow_add, Nat.mod_mul]
  rfl

theorem low_add_lt (h : ∀ j < i, lane s a j + lane s b j < 2 ^ s) : a % 2 ^ (s * i) + b % 2 ^ (s * i) < 2 ^ (s * i) := by
  induction i with
  | zero => simp [Nat.mod_one]
  | succ i ih =>
    have hlow := ih fun j hj => h j (Nat.lt_succ_of_lt hj)
    have hlane : lane s a i + lane s b i + 1 ≤ 2 ^ s := h i (Nat.lt_succ_self i)
    rw [mod_succ_lanes, mod_succ_lanes, Nat.mul_succ, Nat.pow_add]
    calc a % 2 ^ (s * i) + 2 ^ (s * i) * lane s a i + (b % 2 ^ (s * i) + 2 ^ (s * i) * lane s b i)
        = a % 2 ^ (s * i) + b % 2 ^ (s * i) + 2 ^ (s * i) * (lane s a i + lane s b i) := by
          rw [Nat.mul_add]
          omega
      _ < 2 ^ (s * i) + 2 ^ (s * i) * (lane s a i + lane s b i) := Nat.add_lt_add_right hlow _
      _ = 2 ^ (s * i) * (lane s a i + lane s b i + 1) := by rw [Nat.mul_succ, Nat.add_comm]
      _ ≤ 2 ^ (s * i) * 2 ^ s := Nat.mul_le_mul_left _ hlane

theorem lane_add (h : ∀ j ≤ i, lane s a j + lane s b j < 2 ^ s) : lane s (a + b) i = lane s a i + lane s b i := by
  have hlow := low_add_lt fun j hj => h j (Nat.le_of_lt hj)
  have hdiv : (a + b) / 2 ^ (s * i) = a / 2 ^ (s * i) + b / 2 ^ (s * i) := by
    rw [Nat.add_div (Nat.two_pow_pos _), if_neg (Nat.not_le_of_lt hlow), Nat.add_zero]
  rw [lane, hdiv, Nat.add_mod]
  exact Nat.mod_eq_of_lt (h i (Nat.le_refl i))

def ofLanes (s : Nat) : List Nat → Nat
  | [] => 0
  | b :: bs => 2 ^ s * ofLanes s bs + b

theorem ofLanes_lt {bs : List Nat} (h : ∀ b ∈ bs, b < 2 ^ s) : ofLanes s bs < 2 ^ (s * bs.length) := by
  induction bs with
  | nil => exact Nat.two_pow_pos _
  | cons b bs ih =>
    have hb := h b List.mem_cons_self
    have hbs : ofLanes s bs + 1 ≤ 2 ^ (s * bs.length) := ih fun b hb => h b (List.mem_cons_of_mem _ hb)
    rw [ofLanes, List.length_cons, Nat.mul_succ, Nat.add_comm (s * bs.length), Nat.pow_add]
    calc 2 ^ s * ofLanes s bs + b < 2 ^ s * (ofLanes s bs + 1) := by
          rw [Nat.mul_succ]
          omega
      _ ≤ 2 ^ s * 2 ^ (s * bs.length) := Nat.mul_le_mul_left _ hbs

theorem lane_ofLanes {bs : List Nat} (h : ∀ b ∈ bs, b < 2 ^ s) : lane s (ofLanes s bs) i = bs[i]?.getD 0 := by
  induction bs generalizing i with
  | nil => simp [ofLanes, lane]
  | cons b bs ih =>
    have hb := h b List.mem_cons_self
    cases i with
    | zero =>
      rw [lane, Nat.mul_zero, Nat.pow_zero, Nat.div_one, ofLanes, Nat.mul_add_mod, Nat.mod_eq_of_lt hb]
      rfl
    | succ i =>
      have hdiv : ofLanes s (b :: bs) / 2 ^ (s * (i + 1)) = ofLanes s bs / 2 ^ (s * i) := by
        rw [Nat.mul_succ, Nat.add_comm (s * i), Nat.pow_add, ← Nat.div_div_eq_div_mul, ofLanes,
          Nat.mul_add_div (Nat.two_pow_pos s), Nat.div_eq_of_lt hb, Nat.add_zero]
      rw [lane, hdiv]
      exact ih fun b hb => h b (List.mem_cons_of_mem _ hb)

end Opthash.Lanes
