import Mathlib.Data.List.Perm.Subperm
import Mathlib.Tactic.Common

namespace Opthash.Weights

variable {α τ : Type} {xs ys : List α}

def total (κ : α → Nat) : List α → Nat
  | [] => 0
  | x :: xs => κ x + total κ xs

/-- The weighing under which a list weighs as often as `a` is in it. -/
def only [DecidableEq α] (a : α) (x : α) : Nat := if x = a then 1 else 0

@[simp] theorem total_nil (κ : α → Nat) : total κ ([] : List α) = 0 := rfl

@[simp] theorem total_cons (κ : α → Nat) (x : α) (xs : List α) : total κ (x :: xs) = κ x + total κ xs := rfl

@[simp] theorem total_append (κ : α → Nat) (xs ys : List α) : total κ (xs ++ ys) = total κ xs + total κ ys := by
  induction xs with
  | nil => simp
  | cons x xs ih => simp [ih, Nat.add_assoc]

theorem total_comp (κ : τ → Nat) (f : α → τ) (xs : List α) : total (κ ∘ f) xs = total κ (xs.map f) := by
  induction xs with
  | nil => rfl
  | cons x xs ih => simp [ih]

theorem total_only [DecidableEq α] (a : α) (xs : List α) : total (only a) xs = xs.count a := by
  induction xs with
  | nil => rfl
  | cons x xs ih => simp [only, ih, List.count_cons, Nat.add_comm]

theorem perm_of_total (h : ∀ κ : α → Nat, total κ xs = total κ ys) : xs.Perm ys := by
  classical
  apply List.perm_iff_count.mpr
  intro a
  rw [← total_only, ← total_only]
  exact h (only a)

theorem subperm_of_total (h : ∀ κ : α → Nat, total κ xs ≤ total κ ys) : xs.Subperm ys := by
  classical
  apply List.subperm_ext_iff.mpr
  intro a _
  rw [← total_only, ← total_only]
  exact h (only a)

end Opthash.Weights
