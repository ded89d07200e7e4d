import Mathlib.Order.CompletePartialOrder
import Mathlib.Order.Interval.Set.Disjoint

namespace Opthash.Tiles

structure Extent where
  start : Nat
  length : Nat
  deriving DecidableEq, Repr

namespace Extent

variable (e : Extent)

def stop : Nat := e.start + e.length

def cells : Set Nat := Set.Ico e.start e.stop

end Extent

/-- The extents follow one another without a gap, the first at `a` and the last up to `b`. -/
inductive Tiled : Nat → List Extent → Nat → Prop
  | nil {a : Nat} : Tiled a [] a
  | cons {a b n : Nat} {es : List Extent} (h : Tiled (a + n) es b) : Tiled a (⟨a, n⟩ :: es) b

variable {a b : Nat} {es : List Extent} {e : Extent}

theorem Tiled.le (h : Tiled a es b) : a ≤ b := by
  induction h with
  | nil => exact Nat.le_refl _
  | cons h ih => exact (Nat.le_add_right ..).trans ih

theorem Tiled.bounds (h : Tiled a es b) (he : e ∈ es) : a ≤ e.start ∧ e.stop ≤ b := by
  induction h with
  | nil => cases he
  | cons h ih =>
    rcases List.mem_cons.mp he with rfl | he
    · exact ⟨Nat.le_refl _, h.le⟩
    · exact ⟨(Nat.le_add_right ..).trans (ih he).1, (ih he).2⟩

theorem Tiled.append {c : Nat} {fs : List Extent} (h : Tiled a es b) (hf : Tiled b fs c) : Tiled a (es ++ fs) c := by
  induction h with
  | nil => exact hf
  | cons h ih => exact .cons (ih hf)

theorem Tiled.covers (h : Tiled a es b) {x : Nat} (hx : x ∈ Set.Ico a b) : ∃ e ∈ es, x ∈ e.cells := by
  induction h with
  | nil => exact absurd hx.2 (Nat.not_lt.mpr hx.1)
  | @cons a b n es h ih =>
    by_cases hfirst : x < a + n
    · exact ⟨⟨a, n⟩, List.mem_cons_self .., hx.1, hfirst⟩
    · obtain ⟨e, he, hcell⟩ := ih ⟨Nat.not_lt.mp hfirst, hx.2⟩
      exact ⟨e, List.mem_cons_of_mem _ he, hcell⟩

theorem Extent.disjoint_cells {e e' : Extent} (h : e.stop ≤ e'.start) : Disjoint e.cells e'.cells := by
  rw [Extent.cells, Extent.cells, Set.Ico_disjoint_Ico]
  exact (Nat.min_le_left ..).trans (h.trans (Nat.le_max_right ..))

theorem Tiled.disjoint (h : Tiled a es b) : es.Pairwise fun e e' => Disjoint e.cells e'.cells := by
  induction h with
  | nil => exact .nil
  | cons h ih => exact .cons (fun e he => Extent.disjoint_cells (h.bounds he).1) ih

theorem Tiled.cells_subset (h : Tiled a es b) (he : e ∈ es) : e.cells ⊆ Set.Ico a b :=
  Set.Ico_subset_Ico (h.bounds he).1 (h.bounds he).2

end Opthash.Tiles
