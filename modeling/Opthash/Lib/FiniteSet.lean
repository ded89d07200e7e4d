import Mathlib.Data.Set.Lattice
import Mathlib.Data.Set.SymmDiff
import Mathlib.Order.CompletePartialOrder
import Mathlib.Order.ConditionallyCompleteLattice.Basic
import Opthash.Lib.FiniteMap

namespace Opthash.FiniteSet

open FiniteMap

variable {T : Type} (eqv : T → T → Bool)

def Apart (xs : List T) : Prop := xs.Pairwise fun x y => eqv x y = false

/-- The set that a list stands for, up to equality. -/
def listed (xs : List T) : Set T := {x | ∃ y ∈ xs, eqv x y = true}

variable {eqv} {xs ys : List T} {x y : T}

theorem mem_listed : x ∈ listed eqv xs ↔ ∃ y ∈ xs, eqv x y = true := Iff.rfl

@[simp] theorem listed_nil : listed eqv ([] : List T) = ∅ := by
  ext x
  simp [listed]

theorem mem_listed_cons : x ∈ listed eqv (y :: xs) ↔ eqv x y = true ∨ x ∈ listed eqv xs := by
  simp [listed]

theorem mem_listed_singleton : x ∈ listed eqv [y] ↔ eqv x y = true := by
  simp [listed]

theorem listed_append : listed eqv (xs ++ ys) = listed eqv xs ∪ listed eqv ys := by
  ext x
  simp only [listed, Set.mem_ofPred_eq, Set.mem_union, List.mem_append, or_and_right, exists_or]

theorem listed_perm (h : xs.Perm ys) : listed eqv xs = listed eqv ys := by
  ext x
  simp only [listed, Set.mem_ofPred_eq, h.mem_iff]

theorem mem_listed_congr (h : Equality eqv) (hxy : eqv x y = true) : x ∈ listed eqv xs ↔ y ∈ listed eqv xs := by
  have hcross : ∀ {x y : T}, eqv x y = true → x ∈ listed eqv xs → y ∈ listed eqv xs := by
    rintro x y hxy ⟨z, hz, hxz⟩
    exact ⟨z, hz, h.trans _ _ _ (h.symm _ _ hxy) hxz⟩
  exact ⟨hcross hxy, hcross (h.symm _ _ hxy)⟩

theorem mem_listed_self (h : Equality eqv) (hx : x ∈ xs) : x ∈ listed eqv xs := ⟨x, hx, h.refl x⟩

theorem listed_filter {f : T → Bool} (hf : ∀ x y, eqv x y = true → f x = f y) :
    listed eqv (xs.filter f) = listed eqv xs ∩ {x | f x = true} := by
  ext x
  simp only [listed, Set.mem_inter_iff, Set.mem_ofPred_eq, List.mem_filter]
  constructor
  · rintro ⟨y, ⟨hy, hfy⟩, hxy⟩
    exact ⟨⟨y, hy, hxy⟩, (hf x y hxy).trans hfy⟩
  · rintro ⟨⟨y, hy, hxy⟩, hfx⟩
    exact ⟨y, ⟨hy, (hf x y hxy).symm.trans hfx⟩, hxy⟩

theorem Apart.filter (h : Apart eqv xs) (f : T → Bool) : Apart eqv (xs.filter f) := List.Pairwise.filter f h

theorem Apart.append (hx : Apart eqv xs) (hy : Apart eqv ys) (hcross : ∀ x ∈ xs, x ∉ listed eqv ys) :
    Apart eqv (xs ++ ys) := by
  refine List.pairwise_append.mpr ⟨hx, hy, fun x hxs y hys => ?_⟩
  by_contra hxy
  exact hcross x hxs ⟨y, hys, by simpa using hxy⟩

theorem not_listed_of_apart (h : Equality eqv) (hapart : Apart eqv (y :: xs)) (hxy : eqv x y = true) :
    x ∉ listed eqv xs := by
  rintro ⟨z, hz, hxz⟩
  have hyz := h.trans _ _ _ (h.symm _ _ hxy) hxz
  rw [(List.pairwise_cons.mp hapart).1 z hz] at hyz
  cases hyz

theorem Apart.matched (h : Equality eqv) (hapart : Apart eqv xs) (hsub : listed eqv xs ⊆ listed eqv ys) :
    ∃ zs rest, ys.Perm (zs ++ rest) ∧ List.Forall₂ (fun x z => eqv x z = true) xs zs := by
  induction xs generalizing ys with
  | nil => exact ⟨[], ys, .refl _, .nil⟩
  | cons x xs ih =>
    obtain ⟨y, hy, hxy⟩ := hsub (mem_listed_self h (List.mem_cons_self ..))
    obtain ⟨ys', hys⟩ := List.mem_iff_append.mp hy
    obtain ⟨ys'', rfl⟩ := hys
    have hperm : (ys' ++ y :: ys'').Perm (y :: (ys' ++ ys'')) := List.perm_middle
    have hrest : listed eqv xs ⊆ listed eqv (ys' ++ ys'') := by
      intro z hz
      have hmem : z ∈ listed eqv (y :: (ys' ++ ys'')) := by
        rw [← listed_perm hperm]
        exact hsub (mem_listed_cons.mpr (.inr hz))
      refine (mem_listed_cons.mp hmem).resolve_left fun hzy => ?_
      exact not_listed_of_apart h hapart (h.trans _ _ _ hzy (h.symm _ _ hxy)) hz
    obtain ⟨zs, rest, hzs, hall⟩ := ih (List.pairwise_cons.mp hapart).2 hrest
    exact ⟨y :: zs, rest, hperm.trans (hzs.cons y), .cons hxy hall⟩

theorem Apart.length_le (h : Equality eqv) (hapart : Apart eqv xs) (hsub : listed eqv xs ⊆ listed eqv ys) :
    xs.length ≤ ys.length := by
  obtain ⟨zs, rest, hperm, hall⟩ := hapart.matched h hsub
  have hlength := hperm.length_eq
  rw [List.length_append, ← hall.length_eq] at hlength
  omega

theorem Apart.eq_of_subset (h : Equality eqv) (hapart : Apart eqv xs) (hsub : listed eqv xs ⊆ listed eqv ys)
    (hlength : xs.length = ys.length) : listed eqv xs = listed eqv ys := by
  obtain ⟨zs, rest, hperm, hall⟩ := hapart.matched h hsub
  have hrest : rest = [] := by
    have hsum := hperm.length_eq
    rw [List.length_append, ← hall.length_eq] at hsum
    exact List.length_eq_zero_iff.mp (by omega)
  subst hrest
  rw [List.append_nil] at hperm
  refine hsub.antisymm ?_
  rintro x ⟨y, hy, hxy⟩
  obtain ⟨z, hz, hzy⟩ := exists_of_forall₂ hall.flip (hperm.mem_iff.mp hy)
  exact ⟨z, hz, h.trans _ _ _ hxy (h.symm _ _ hzy)⟩

theorem all_iff_subset (h : Equality eqv) {f : T → Bool} (hf : ∀ x, f x = true ↔ x ∈ listed eqv ys) :
    xs.all f = true ↔ listed eqv xs ⊆ listed eqv ys := by
  rw [List.all_eq_true]
  constructor
  · rintro hall x ⟨y, hy, hxy⟩
    exact (mem_listed_congr h hxy).mpr ((hf y).mp (hall y hy))
  · exact fun hsub x hx => (hf x).mpr (hsub (mem_listed_self h hx))

theorem head?_eq_none_iff (h : Equality eqv) : xs.head? = none ↔ listed eqv xs = ∅ := by
  cases xs with
  | nil => simp
  | cons x xs =>
    refine iff_of_false (by simp) fun hempty => ?_
    have := mem_listed_self h (List.mem_cons_self (a := x) (l := xs))
    rw [hempty] at this
    exact this

section Changes

variable {g : Prop → Prop} {V V' A A' A'' : Set T}

/-- The members of `V` are in `A'` as `g` of their membership in `A` says; the others as they are in `A`. -/
def Changed (g : Prop → Prop) (V A A' : Set T) : Prop :=
  ∀ x, (x ∈ V → (x ∈ A' ↔ g (x ∈ A))) ∧ (x ∉ V → (x ∈ A' ↔ x ∈ A))

theorem Changed.refl (g : Prop → Prop) (A : Set T) : Changed g ∅ A A := fun _ => ⟨fun h => h.elim, fun _ => Iff.rfl⟩

theorem Changed.union (h : Changed g V A A') (h' : Changed g V' A' A'') (hdisjoint : Disjoint V V') :
    Changed g (V ∪ V') A A'' := by
  intro x
  constructor
  · rintro (hx | hx)
    · exact ((h' x).2 (Set.disjoint_left.mp hdisjoint hx)).trans ((h x).1 hx)
    · have hsame : (x ∈ A') = (x ∈ A) := propext ((h x).2 (Set.disjoint_right.mp hdisjoint hx))
      rw [← hsame]
      exact (h' x).1 hx
  · intro hx
    exact ((h' x).2 fun hv => hx (.inr hv)).trans ((h x).2 fun hv => hx (.inl hv))

theorem Changed.subset (h : Changed g V A A') : A' ⊆ A ∪ V := by
  intro x hx
  by_cases hV : x ∈ V
  · exact .inr hV
  · exact .inl (((h x).2 hV).mp hx)

theorem Changed.eq_union (h : Changed (fun _ => True) V A A') : A' = A ∪ V := by
  ext x
  by_cases hx : x ∈ V
  · exact iff_of_true (((h x).1 hx).mpr trivial) (.inr hx)
  · exact ((h x).2 hx).trans (or_iff_left hx).symm

theorem Changed.eq_diff (h : Changed (fun _ => False) V A A') : A' = A \ V := by
  ext x
  by_cases hx : x ∈ V
  · exact iff_of_false ((h x).1 hx).mp fun hdiff => hdiff.2 hx
  · exact ((h x).2 hx).trans (and_iff_left hx).symm

theorem Changed.eq_symmDiff (h : Changed Not V A A') : A' = symmDiff A V := by
  ext x
  rw [Set.mem_symmDiff]
  by_cases hx : x ∈ V
  · simp only [(h x).1 hx, hx, not_true_eq_false, and_false, true_and, false_or]
  · simp only [(h x).2 hx, hx, not_false_eq_true, and_true, false_and, or_false]

end Changes

end Opthash.FiniteSet
