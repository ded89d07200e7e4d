import Opthash.Lib.FiniteSet
import Opthash.Lib.References

namespace Opthash.FiniteMap

open FiniteSet

variable {K V : Type} {eqv : K → K → Bool} {eqValue : V → V → Bool} {m m' m'' : List (K × V)}

/-- The maps have the same keys, with equal values. -/
def Alike (eqv : K → K → Bool) (eqValue : V → V → Bool) (m m' : List (K × V)) : Prop :=
  ∀ k, Option.Rel (fun e e' => eqValue e.2 e'.2 = true) (find eqv k m) (find eqv k m')

def Matches (eqv : K → K → Bool) (eqValue : V → V → Bool) (m' : List (K × V)) (e : K × V) : Prop :=
  ∃ e', find eqv e.1 m' = some e' ∧ eqValue e.2 e'.2 = true

theorem find_congr (h : Equality eqv) {k k' : K} (hk : eqv k k' = true) (m : List (K × V)) :
    find eqv k m = find eqv k' m := by
  rw [find, find]
  congr 1
  funext e
  rw [Bool.eq_iff_iff]
  exact ⟨fun he => h.trans _ _ _ (h.symm _ _ hk) he, fun he => h.trans _ _ _ hk he⟩

theorem isSome_find_iff {k : K} : (find eqv k m).isSome = true ↔ k ∈ listed eqv (m.map Prod.fst) := by
  rw [mem_listed, find, List.find?_isSome]
  constructor
  · rintro ⟨e, he, hk⟩
    exact ⟨e.1, List.mem_map_of_mem he, hk⟩
  · rintro ⟨k', hk', hk⟩
    obtain ⟨e, he, rfl⟩ := List.mem_map.mp hk'
    exact ⟨e, he, hk⟩

theorem Alike.listed_eq (h : Alike eqv eqValue m m') : listed eqv (m.map Prod.fst) = listed eqv (m'.map Prod.fst) := by
  ext k
  rw [← isSome_find_iff, ← isSome_find_iff]
  have hk := h k
  generalize find eqv k m = o at hk ⊢
  generalize find eqv k m' = o' at hk ⊢
  cases hk with
  | some _ => exact ⟨fun _ => rfl, fun _ => rfl⟩
  | none => exact Iff.rfl

theorem Alike.length_eq (heq : Equality eqv) (hd : Distinct eqv m) (hd' : Distinct eqv m')
    (h : Alike eqv eqValue m m') : m.length = m'.length := by
  have hle := Apart.length_le heq hd h.listed_eq.subset
  have hge := Apart.length_le heq hd' h.listed_eq.symm.subset
  rw [List.length_map, List.length_map] at hle hge
  exact Nat.le_antisymm hle hge

theorem alike_iff (heq : Equality eqv) (hd : Distinct eqv m) (hd' : Distinct eqv m') :
    Alike eqv eqValue m m' ↔ m.length = m'.length ∧ ∀ e ∈ m, Matches eqv eqValue m' e := by
  constructor
  · intro h
    refine ⟨h.length_eq heq hd hd', fun e he => ?_⟩
    have hfind := h e.1
    rw [find_eq_some heq hd he (heq.refl e.1)] at hfind
    cases hfound : find eqv e.1 m' with
    | none =>
      rw [hfound] at hfind
      cases hfind
    | some e' =>
      rw [hfound] at hfind
      cases hfind with
      | some hvalue => exact ⟨e', hfound, hvalue⟩
  · rintro ⟨hlength, hmatches⟩ k
    have hsub : listed eqv (m.map Prod.fst) ⊆ listed eqv (m'.map Prod.fst) := by
      intro k hk
      obtain ⟨e, he⟩ := Option.isSome_iff_exists.mp (isSome_find_iff.mpr hk)
      obtain ⟨e', hfound, -⟩ := hmatches e (List.mem_of_find?_eq_some he)
      have hke : eqv k e.1 = true := List.find?_some (p := fun e : K × V => eqv k e.1) he
      rw [← isSome_find_iff, find_congr heq hke, hfound]
      rfl
    have hsame := Apart.eq_of_subset heq hd hsub (by rw [List.length_map, List.length_map, hlength])
    cases hfind : find eqv k m with
    | none =>
      have hnone : find eqv k m' = none := by
        rw [← Option.isNone_iff_eq_none, ← Option.isSome_eq_false_iff, ← Bool.not_eq_true, isSome_find_iff, ← hsame,
          ← isSome_find_iff, hfind]
        exact Bool.false_ne_true
      rw [hnone]
      exact .none
    | some e =>
      have hke : eqv k e.1 = true := List.find?_some (p := fun e : K × V => eqv k e.1) hfind
      obtain ⟨e', hfound, hvalue⟩ := hmatches e (List.mem_of_find?_eq_some hfind)
      rw [find_congr heq hke, hfound]
      exact .some hvalue

theorem alike_copy (heq : Equality eqv) {copyKey : K → K} {copyValue : V → V}
    (hkey : ∀ k, eqv k (copyKey k) = true) (hvalue : ∀ v, eqValue v (copyValue v) = true) :
    Alike eqv eqValue m (m.map fun e => (copyKey e.1, copyValue e.2)) := by
  intro k
  have hsame : (fun e : K × V => eqv k (copyKey e.1)) = fun e => eqv k e.1 := by
    funext e
    rw [Bool.eq_iff_iff]
    exact ⟨fun h => heq.trans _ _ _ h (heq.symm _ _ (hkey e.1)), fun h => heq.trans _ _ _ h (hkey e.1)⟩
  have hcopied : find eqv k (m.map fun e => (copyKey e.1, copyValue e.2)) =
      (find eqv k m).map fun e => (copyKey e.1, copyValue e.2) := by
    rw [find, List.find?_map, find]
    congr 2
  rw [hcopied]
  cases find eqv k m with
  | none => exact .none
  | some e => exact .some (hvalue e.2)

end Opthash.FiniteMap
