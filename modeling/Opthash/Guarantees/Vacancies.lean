import Opthash.Elastic.Searches
import Opthash.Guarantees.Filter

namespace Opthash.Elastic

open Exec HashMap Probe ElasticTable

variable {W K V : Type} {group : GroupBackend} {u : User W K V} {t : ElasticTable K V}

theorem wf_of_reachable {A : Event (Elastic.backend group u) → Prop}
    (ht : Reachable (Elastic.backend group u) u (Initial group u) A t) : t.Wf := by
  have hready : (reading group).Wf t := Reachable.wf (contract group u) (fun _ h => h.fresh.wf) ht
  exact hready.toWf

/-- The limits under which slots are searched are those under which placements are accepted. -/
theorem vacancies_kept (ht : Reachable (Elastic.backend group u) u (Initial group u) (fun _ => True) t) (x : UInt64)
    (target : BatchTarget) :
    (∀ level n slot j, t.Searches x target level n →
      t.firstVacancy (PreparedElasticKey.new x).probe level n = some (slot, j) →
      ∃ position, elasticPhiBounded (level + 1) j = some position ∧ elasticPhi (level + 1) j = .ok position ∧
        position ≤ queryPositionCap ∧ t.Offers x level slot j ∧ j ≤ n ∧
        t.chooseSlotForNewKey (PreparedElasticKey.new x).probe target = some ⟨level, slot, position⟩) ∧
    (∀ placement, t.chooseSlotForNewKey (PreparedElasticKey.new x).probe target = some placement →
      ∃ n j, t.Searches x target placement.level n ∧
        t.firstVacancy (PreparedElasticKey.new x).probe placement.level n = some (placement.slot, j)) ∧
    (∀ level n j, t.Searches x target level n → 0 < j → j ≤ n →
      ∃ position, elasticPhi (level + 1) j = .ok position ∧ position ≤ queryPositionCap) ∧
    (∀ level, level < t.levels.length → t.uniformVacancy (PreparedElasticKey.new x).probe level = none →
      ∀ j position, 0 < j → j ≤ uniformSearchCap → elasticPhi (level + 1) j = .ok position →
        position ≤ queryPositionCap → t.vacancy level (PreparedElasticKey.new x).probe (j - 1) = none) ∧
    (∀ i current next, t.Pair i current next → ¬t.CurrentLow current → ¬NextLow next → ∀ n,
      t.Searches x (.levelPair i) i n ↔ ∃ k, Dyadic current.freeSlots current.region.capacity k ∧
        n = min (elasticProbeBudgetC * min (k ^ 2) t.reserveFraction.exponent) (levelProbeLimit i)) ∧
    (∀ free capacity d c, capacity ≤ usizeMax →
      ((∃ e, elasticDyadicProbeBudget free capacity d c = .error e) ↔ free = 0 ∨ capacity < free ∨ c = 0 ∨
        ∃ k, Dyadic free capacity k ∧ usizeMax < c * min (k ^ 2) d) ∧
      ∀ budget, elasticDyadicProbeBudget free capacity d c = .ok budget →
        ∃ k, Dyadic free capacity k ∧ budget = c * min (k ^ 2) d) := by
  have hw := wf_of_reachable ht
  refine ⟨?_, ?_, ?_, ?_, ?_, ?_⟩
  · intro level n slot j hsearch hfound
    exact hsearch.returned hw hfound
  · intro placement h
    exact exists_searches h
  · intro level n j hsearch hj hn
    exact (tried_iff hw hsearch.level_lt hj).mp (Nat.le_trans hn hsearch.le_limit)
  · intro level hlevel hfails j position hj _ hposition hle
    exact firstVacancy_none hfails hj ((tried_iff hw hlevel hj).mpr ⟨position, hposition, hle⟩)
  · intro i current next hpair hlow hnext n
    exact searches_current_iff hw hpair hlow hnext
  · intro free capacity d c hcap
    constructor
    · exact elasticDyadicProbeBudget_error_iff hcap
    · intro budget hbudget
      exact elasticDyadicProbeBudget_ok hcap hbudget

/-- The search of an insertion after the first one. -/
theorem vacancies_kept_insert : ∃ (t : ElasticTable UInt64 Nat) (loc : Nat × Nat), t.Holds loc (7, 70) ∧
    ∀ level n slot j, t.Searches 9 .bootstrap level n →
      t.firstVacancy (PreparedElasticKey.new 9).probe level n = some (slot, j) →
      ∃ position, elasticPhiBounded (level + 1) j = some position ∧ elasticPhi (level + 1) j = .ok position ∧
        position ≤ queryPositionCap ∧ t.Offers 9 level slot j ∧ j ≤ n ∧
        t.chooseSlotForNewKey (PreparedElasticKey.new 9).probe .bootstrap = some ⟨level, slot, position⟩ := by
  obtain ⟨t, loc, ht, hloc⟩ := exists_stored (A := fun _ => True) fun _ _ _ => trivial
  exact ⟨t, loc, hloc, (vacancies_kept ht 9 .bootstrap).1⟩

end Opthash.Elastic
