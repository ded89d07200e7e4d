import Opthash.Elastic.Costs
import Opthash.Funnel.Costs
import Opthash.Guarantees.Vacancies

namespace Opthash

open HashMap

variable {W K V : Type} {u : User W K V} {m : W → Nat}

/-- In every reachable table, whatever panicked before. -/
theorem comparisons_bounded (group : GroupBackend) (hm : u.Compares m) :
    (∀ t, Reachable (Funnel.backend group u) u (Funnel.Initial group u) (fun _ => True) t →
      Frugal (Funnel.backend group u) u m t (fun _ => t.searchBound) ∧
        ∀ key x w, m (Funnel.FunnelTable.searchForInsert group u key x (t, w)).2.2.code ≤ m w.code + t.searchBound) ∧
    ∀ t, Reachable (Elastic.backend group u) u (Elastic.Initial group u) (fun _ => True) t →
      Frugal (Elastic.backend group u) u m t t.searchBound := by
  constructor
  · intro t ht
    have hw : t.Wf := Reachable.wf (Funnel.contract group u) (fun _ h => h.fresh.wf) ht
    constructor
    · apply frugal_of_compared hm
      · exact fun key x => Funnel.FunnelTable.compared_find hm hw
      · exact fun key x => Funnel.FunnelTable.compared_findForEntry hm hw
    · exact fun key x w => Compared.le (Funnel.FunnelTable.compared_searchForInsert hm hw) w
  · intro t ht
    have hw := Elastic.wf_of_reachable ht
    apply frugal_of_compared hm
    · exact fun key x => Elastic.ElasticTable.compared_find hm hw
    · exact fun key x => Elastic.ElasticTable.compared_findForEntry hm hw

section Counting

open Elastic

/-- Keys that hash to themselves and count how often they are compared. -/
def User.counting : User Nat UInt64 Nat where
  hashOne := pure
  equivalent := fun q k n => (.ok (q == k), n + 1)
  cloneKey := pure
  cloneValue := pure
  cloneBuilder := pure ()
  dropKey := fun _ => pure ()
  dropValue := fun _ => pure ()
  needsDrop := false
  slotSize := 16
  slotAlign := 8
  allocate := fun _ n => (true, n)

theorem User.compares_counting : User.counting.Compares id := ⟨fun _ _ => Nat.le_refl _, fun _ _ _ => Nat.le_refl _⟩

def Counting.start : World Nat UInt64 Nat := ⟨0, ⟨[], [], []⟩⟩

def Counting.hits (b : TableBackend Nat UInt64 Nat) (bound : b.Table → Nat) (n : Nat)
    (s : b.Table × World Nat UInt64 Nat) : Bool :=
  decide (s.2.code = 0 ∧ bound s.1 = n ∧ (get b User.counting 7 s).1.toOption = some (some 70) ∧
    0 < (get b User.counting 7 s).2.2.code)

/-- One lookup in the table of each backend after one insertion. -/
theorem comparisons_bounded_hits :
    (∃ (t : Funnel.FunnelTable UInt64 Nat) (w : World Nat UInt64 Nat), w.code = 0 ∧
      (get (Funnel.backend .scalar User.counting) User.counting 7 (t, w)).1.toOption = some (some 70) ∧
      0 < (get (Funnel.backend .scalar User.counting) User.counting 7 (t, w)).2.2.code ∧
      (get (Funnel.backend .scalar User.counting) User.counting 7 (t, w)).2.2.code ≤ 147) ∧
    ∃ (t : ElasticTable UInt64 Nat) (w : World Nat UInt64 Nat), w.code = 0 ∧
      (get (Elastic.backend .scalar User.counting) User.counting 7 (t, w)).1.toOption = some (some 70) ∧
      0 < (get (Elastic.backend .scalar User.counting) User.counting 7 (t, w)).2.2.code ∧
      (get (Elastic.backend .scalar User.counting) User.counting 7 (t, w)).2.2.code ≤ 13 := by
  have hbounded := comparisons_bounded .scalar User.compares_counting
  constructor
  · have hinitial : Funnel.Initial .scalar User.counting Funnel.FunnelTable.unallocated :=
      ⟨0, Funnel.FunnelTable.unallocated.reserveFraction, Counting.start, Counting.start, rfl⟩
    obtain ⟨t, w, ht, hhits⟩ := Reachable.replayed (b := Funnel.backend .scalar User.counting) (u := User.counting)
      (A := fun _ => True) hinitial Counting.start
      (fun op (_ : op ∈ [Op.insert 7 70]) _ _ => trivial) (Counting.hits _ Funnel.FunnelTable.searchBound 147)
      (by decide +kernel)
    obtain ⟨hcode, hbound, hfound, hpos⟩ := of_decide_eq_true hhits
    have hle := (hbounded.1 t ht).1.get 7 w 147 fun _ _ _ => Nat.le_of_eq hbound
    rw [id_eq, id_eq, hcode, Nat.zero_add] at hle
    exact ⟨t, w, hcode, hfound, hpos, hle⟩
  · have hinitial : Initial .scalar User.counting ElasticTable.unallocated :=
      ⟨0, ElasticTable.unallocated.reserveFraction, Counting.start, Counting.start, rfl⟩
    obtain ⟨t, w, ht, hhits⟩ := Reachable.replayed (b := Elastic.backend .scalar User.counting) (u := User.counting)
      (A := fun _ => True) hinitial Counting.start
      (fun op (_ : op ∈ [Op.insert 7 70]) _ _ => trivial) (Counting.hits _ (fun t => ElasticTable.searchBound t 7) 13)
      (by decide +kernel)
    obtain ⟨hcode, hbound, hfound, hpos⟩ := of_decide_eq_true hhits
    have hle := (hbounded.2 t ht).get 7 w 13 fun x c hx => by
      cases hx
      exact Nat.le_of_eq hbound
    rw [id_eq, id_eq, hcode, Nat.zero_add] at hle
    exact ⟨t, w, hcode, hfound, hpos, hle⟩

end Counting

end Opthash
