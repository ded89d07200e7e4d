import Mathlib.Data.List.Basic

namespace Opthash.Cursors

variable {T C L : Type} (next : T → C → Option L × C) (c : C) (t : Nat → T)

/-- The cursor before call `k` of `next`, when call `k` sees `t k`. -/
def cursorAt : Nat → C
  | 0 => c
  | k + 1 => (next (t k) (cursorAt k)).2

def yieldAt (k : Nat) : Option L := (next (t k) (cursorAt next c t k)).1

/-- What call `k` may find changed: at the places yielded so far anything, elsewhere nothing that `Same` compares. -/
def Untouched (Same : T → T → L → Prop) : Prop :=
  ∀ k l, (∀ j ≤ k, yieldAt next c t j ≠ some l) → Same (t k) (t (k + 1)) l

/-- A cursor that yields what is `Pending`, in order. What it `Passed` it does not read again. -/
structure Ordered (Frame : T → T → Prop) (Same : T → T → L → Prop) (Passed : C → L → Prop)
    (Pending : T → C → List L → Prop) : Prop where
  yields : ∀ {t c ls}, Pending t c ls → (next t c).1 = ls.head?
  passes : ∀ {t c ls l}, Pending t c ls → (next t c).1 = some l ∨ Passed c l → Passed (next t c).2 l
  advances : ∀ {t c ls t'}, Pending t c ls → Frame t t' → (∀ l, ¬Passed (next t c).2 l → Same t t' l) →
    Pending t' (next t c).2 ls.tail

variable {next c t} {Frame : T → T → Prop} {Same : T → T → L → Prop} {Passed : C → L → Prop}
  {Pending : T → C → List L → Prop} {ls : List L}

theorem Ordered.pending_drop (h : Ordered next Frame Same Passed Pending) (hpending : Pending (t 0) c ls)
    (hframe : ∀ k, Frame (t k) (t (k + 1))) (hsame : Untouched next c t Same) (k : Nat) :
    Pending (t k) (cursorAt next c t k) (ls.drop k) ∧
      ∀ j < k, ∀ l, yieldAt next c t j = some l → Passed (cursorAt next c t k) l := by
  induction k with
  | zero => exact ⟨hpending, fun j hj => absurd hj (Nat.not_lt_zero j)⟩
  | succ k ih =>
    obtain ⟨hpending, hpassed⟩ := ih
    have hpassed' : ∀ j < k + 1, ∀ l, yieldAt next c t j = some l → Passed (cursorAt next c t (k + 1)) l := by
      intro j hj l hl
      rcases Nat.lt_succ_iff_lt_or_eq.mp hj with hlt | rfl
      · exact h.passes hpending (.inr (hpassed j hlt l hl))
      · exact h.passes hpending (.inl hl)
    refine ⟨?_, hpassed'⟩
    rw [← List.tail_drop]
    refine h.advances hpending (hframe k) fun l hl => hsame k l fun j hj hyield => ?_
    exact hl (hpassed' j (Nat.lt_succ_of_le hj) l hyield)

theorem Ordered.yieldAt_eq (h : Ordered next Frame Same Passed Pending) (hpending : Pending (t 0) c ls)
    (hframe : ∀ k, Frame (t k) (t (k + 1))) (hsame : Untouched next c t Same) (k : Nat) :
    yieldAt next c t k = ls[k]? := by
  have hyields := h.yields (h.pending_drop hpending hframe hsame k).1
  rwa [List.head?_drop] at hyields

/-- A cursor whose every call yields what the other one's does yields the same all along. -/
theorem yieldAt_simulated {C' : Type} {next' : T → C' → Option L × C'} {c' : C'} {Shows : C → C' → Prop}
    (hnext : ∀ t c c', Shows c c' → (next t c).1 = (next' t c').1 ∧ Shows (next t c).2 (next' t c').2) (h : Shows c c')
    (k : Nat) : yieldAt next c t k = yieldAt next' c' t k := by
  have hcursor : ∀ k, Shows (cursorAt next c t k) (cursorAt next' c' t k) := by
    intro k
    induction k with
    | zero => exact h
    | succ k ih => exact (hnext _ _ _ ih).2
  exact (hnext _ _ _ (hcursor k)).1

/-- The list of the places with `P`, each once and in the order of `lt`. -/
structure Lists (lt : L → L → Prop) (P : L → Prop) (ls : List L) : Prop where
  sorted : ls.Pairwise lt
  mem : ∀ l, l ∈ ls ↔ P l

end Opthash.Cursors
