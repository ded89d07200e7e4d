import Opthash.Elastic.Filling
import Opthash.Guarantees.Placement

namespace Opthash.Elastic.ElasticTable

open Exec Opthash.Geometry

variable {W K V : Type} {group : GroupBackend} {u : User W K V} {t t₀ : ElasticTable K V} {w w₀ w₁ : World W K V}
  {g : ElasticGeometry}

/-- Insertions that the active targets take never meet a full level, and the batches leave the loads they were cut
for. -/
theorem batches_fill {n : Nat} {r : ReserveFraction} (hg : ElasticGeometry.forSlots n r = .ok (some g))
    (hfresh : tryFromGeometry u g r w₀ = (.ok (.ok t₀), w₁)) (hfills : Fills group u (t₀, w₁) (t, w)) :
    (t.len < t.maxInsertions → t.Roomy (t.scheduler.target t.len).1) ∧
    ∀ batch current next, t.Pair batch current next →
      g.batchPlan.getD (batch + 1) 0 = fullLoad r.exponent current.region.capacity -
        ceilThreeQuarters current.region.capacity + ceilThreeQuarters next.region.capacity →
      t.len = (g.batchPlan.take (batch + 2)).sum →
      current.len = fullLoad r.exponent current.region.capacity ∧
        next.len = ceilThreeQuarters next.region.capacity := by
  obtain ⟨hsmall, rfl⟩ := (wp_of_ok hfresh).mp (wp_tryFromGeometry (Z := fun _ _ => True)) t₀ rfl
  have hstaged := hfills.staged (staged_start hg hsmall)
  constructor
  · intro hroom
    exact hstaged.roomy hroom
  · intro batch current next hpair hquota hend
    exact hstaged.ended hpair hquota hend

def fill (group : GroupBackend) (u : User W K V) :
    List (K × V × UInt64) → ElasticTable K V × World W K V → Option (ElasticTable K V × World W K V)
  | [], s => some s
  | (k, v, x) :: entries, s =>
    if s.1.len < s.1.maxInsertions ∧ (s.1.targeted x).isSome then
      match ElasticTable.insert group u k v x s with
      | (.ok none, s') => fill group u entries s'
      | _ => none
    else none

theorem Fills.fill {s s' s'' : ElasticTable K V × World W K V} (h : Fills group u s s') {entries : List (K × V × UInt64)}
    (hfill : ElasticTable.fill group u entries s' = some s'') : Fills group u s s'' := by
  induction entries generalizing s' with
  | nil =>
    cases hfill
    exact h
  | cons entry entries ih =>
    obtain ⟨k, v, x⟩ := entry
    rw [ElasticTable.fill] at hfill
    split at hfill
    · rename_i hready
      obtain ⟨placement, hplacement⟩ := Option.isSome_iff_exists.mp hready.2
      split at hfill
      · rename_i s₁ hinsert
        exact ih (h.insert hready.1 hplacement hinsert) hfill
      · cases hfill
    · cases hfill

/-- The second batch of a table of eight slots is over after six insertions. -/
theorem batches_fill_six : ∃ (t : ElasticTable UInt64 Nat) (current next : Level UInt64 Nat),
    t.Roomy (t.scheduler.target t.len).1 ∧ t.Pair 0 current next ∧ current.len = 4 ∧ next.len = 2 := by
  have hg : ElasticGeometry.forSlots 8 ⟨3, by decide, by decide⟩ = .ok (some ⟨8, 7, [4, 2, 2], [3, 3, 1]⟩) := by
    decide +kernel
  have hfresh : tryFromGeometry User.sample ⟨8, 7, [4, 2, 2], [3, 3, 1]⟩ ⟨3, by decide, by decide⟩ World.start =
      (.ok (.ok (fresh ⟨8, 7, [4, 2, 2], [3, 3, 1]⟩ ⟨3, by decide, by decide⟩ [.newAt 4, .newAt 2, .newAt 2]
        (.zeroed 1))), World.start) := rfl
  have hrun : (ElasticTable.fill .scalar User.sample ((List.range 6).map fun i => (UInt64.ofNat i, i, UInt64.ofNat i))
      (fresh ⟨8, 7, [4, 2, 2], [3, 3, 1]⟩ ⟨3, by decide, by decide⟩ [.newAt 4, .newAt 2, .newAt 2] (.zeroed 1),
        World.start)).any (fun s => decide (s.1.len = 6 ∧ s.1.maxInsertions = 7 ∧ s.1.capacities = [4, 2, 2])) = true := by
    decide +kernel
  obtain ⟨⟨t, w⟩, hfill, hstate⟩ := (Option.any_eq_true _ _).mp hrun
  obtain ⟨hlen, hmax, hcapacities⟩ := of_decide_eq_true hstate
  have hlevels : t.levels.length = 3 := by
    have hlength := congrArg List.length hcapacities
    rwa [capacities, List.length_map] at hlength
  obtain ⟨current, -, hcurrent, -⟩ := level_of_lt (by omega : 0 < t.levels.length)
  obtain ⟨next, -, hnext, -⟩ := level_of_lt (by omega : 1 < t.levels.length)
  have hcap := capacities_getD hcurrent
  have hcap' := capacities_getD hnext
  rw [hcapacities] at hcap hcap'
  obtain ⟨hroomy, hended⟩ := batches_fill hg hfresh ((Fills.refl _).fill hfill)
  obtain ⟨hfull, hquarters⟩ := hended 0 current next ⟨hcurrent, hnext⟩ (by rw [← hcap, ← hcap']; decide) (by rw [hlen]; rfl)
  refine ⟨t, current, next, hroomy (by rw [hlen, hmax]; decide), ⟨hcurrent, hnext⟩, ?_, ?_⟩
  · rw [hfull, ← hcap]
    decide
  · rw [hquarters, ← hcap']
    decide

end Opthash.Elastic.ElasticTable
