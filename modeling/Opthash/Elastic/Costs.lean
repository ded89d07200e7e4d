import Opthash.Comparisons
import Opthash.Elastic.Lookup

namespace Opthash.Elastic.ElasticTable

open Exec Probe Probing

variable {W K V : Type} {u : User W K V} {t : ElasticTable K V} {m : W → Nat} {key : K} {x : UInt64}

/-- Some range reduction of the first probe or of the schedule fails for the hash. -/
def strays (t : ElasticTable K V) (x : UInt64) : Bool :=
  (t.probeSlot x 0 1).isNone || t.probeSchedule.any fun route => (routeTarget (.new x) route).isNone

/-- What a search may compare: one key a position up to the mark, and every stored key where an entry may be at none of
them. -/
def searchBound (t : ElasticTable K V) (x : UInt64) : Nat :=
  max 1 t.priorHighWater.toNat + if t.exceptional || t.strays x then t.entries.length else 0

theorem Wf.length_probeSchedule (hw : t.Wf) : t.probeSchedule.length ≤ t.priorHighWater.toNat - 1 := by
  obtain ⟨pairs, hschedule, hordered, hpairs⟩ := hw.schedule
  have hnodup : (pairs.map fun p => phi (p.1 + 1) p.2).Nodup := by
    rw [List.nodup_iff_pairwise_ne, List.pairwise_map]
    exact hordered.imp Nat.ne_of_lt
  have hsub : (pairs.map fun p => phi (p.1 + 1) p.2) ⊆ List.range' 2 (t.priorHighWater.toNat - 1) := by
    intro position hposition
    obtain ⟨⟨level, j⟩, hpair, rfl⟩ := List.mem_map.mp hposition
    obtain ⟨-, hj, hphi, -⟩ := (hpairs level j).mp hpair
    have hfirst : phi (level + 1) 0 < phi (level + 1) j := phi_strictMono (level + 1) hj
    have hpos : 0 < phi (level + 1) 0 := phi_pos (Nat.succ_pos level)
    rw [List.mem_range'_1]
    dsimp only
    omega
  have hlength := (hnodup.subperm hsub).length_le
  rwa [List.length_map, List.length_range', ← List.length_map (f := fun p => t.routeIn p.1 p.2), ← hschedule] at hlength

theorem occupied_eq_filter : t.occupied = t.locations.filter fun loc => (t.region loc.1).Occ loc.2 := by
  rw [occupied, locations, List.filter_flatMap]
  congr 1
  funext level
  rw [List.filter_map, Region.occupied, Region.occupiedFrom, Nat.sub_zero, ← List.range_eq_range']
  rfl

section Searches

variable (hm : u.Compares m)
include hm

theorem compared_inspectKey (loc : Nat × Nat) : Compared m t 1 (inspectKey u key loc) := by
  apply Costs.get_bind
  rintro ⟨t', w⟩ rfl
  exact Nat.zero_add 1 ▸ (Costs.expect _ _).bind fun entry => compared_eq hm t' key entry.1

theorem compared_findByFullScan (hw : t.Wf) :
    Compared m t t.entries.length (t.findByFullScan (inspectKey u key) (controlFingerprint x)) := by
  rw [findByFullScan, findFrom_eq]
  apply ((costs_search (compared_inspectKey hm) _ none).map _).mono
  rw [← length_occupied hw, occupied_eq_filter, List.countP_map, ← List.countP_eq_length_filter]
  apply List.countP_mono_left
  intro loc _ hcandidate
  exact occ_of_fingerprinted (matchKind_candidate.mp (by simpa using hcandidate))

theorem compared_entryIfMatch (loc : Nat × Nat) :
    Compared m t 1 (t.entryIfMatch (inspectKey u key) (controlFingerprint x) loc.1 loc.2) := by
  apply Costs.ite
  · intro _
    exact compared_inspectKey hm loc
  · intro _
    exact Costs.pure _

theorem compared_findInSchedule (hw : t.Wf) (levelMask : UInt32) (routes : List PhiRoute)
    (hroutes : t.strays x = false → ∀ route ∈ routes, routeTarget (.new x) route ≠ none) :
    Compared m t (routes.length + if t.exceptional || t.strays x then t.entries.length else 0)
      (t.findInSchedule (inspectKey u key) (.new x) (controlFingerprint x) levelMask routes) := by
  have hscan : t.exceptional = true ∨ t.strays x = true →
      Compared m t (if t.exceptional || t.strays x then t.entries.length else 0)
        (t.findByFullScan (inspectKey u key) (controlFingerprint x)) := by
    intro h
    rw [if_pos (by simpa using h)]
    exact compared_findByFullScan hm hw
  induction routes with
  | nil =>
    rw [List.length_nil, Nat.zero_add]
    apply Costs.ite
    · intro hexceptional
      exact hscan (.inl hexceptional)
    · intro _
      exact Costs.pure _
  | cons route routes ih =>
    have ih := ih fun h r hr => hroutes h r (List.mem_cons_of_mem _ hr)
    rw [findInSchedule, List.length_cons, Nat.add_right_comm]
    apply Costs.ite
    · intro _
      exact ih.mono (Nat.le_succ _)
    · intro _
      have hfound := fun h => hroutes h route (List.mem_cons_self ..)
      unfold routeTarget at hfound
      cases hslot : routePreparedCounterForUpper (PreparedElasticKey.new x).probe route.counterBase route.rangeUpper with
      | none =>
        rw [hslot] at hfound
        apply (hscan (.inr _)).mono
        · omega
        · by_contra hstrays
          exact hfound (by simpa using hstrays) rfl
      | some slot =>
        rw [Nat.add_comm]
        apply (compared_entryIfMatch hm (route.level, slot)).bind
        intro answer
        cases answer with
        | true => exact Costs.pure _
        | false => exact ih

theorem compared_find (hw : t.Wf) : Compared m t (t.searchBound x) (find u key x) := by
  apply Costs.get_bind
  rintro ⟨t', w⟩ rfl
  change t'.Wf at hw
  have hlength := hw.length_probeSchedule
  change Compared m t' (t'.searchBound x) _
  apply Costs.ite
  · intro _
    exact Costs.pure _
  intro _
  cases hfirst : routePreparedCounterForUpper (PreparedElasticKey.new x).probe h11CounterBase (t'.region 0).capacity with
  | none =>
    have hstrays : t'.strays x = true := by
      have hdirect : t'.probeSlot x 0 1 = none := hfirst
      rw [strays, hdirect]
      rfl
    apply (compared_findByFullScan hm hw).mono
    rw [searchBound, hstrays, Bool.or_true, if_pos rfl]
    exact Nat.le_add_left ..
  | some h11Slot =>
    have hroutes : t'.strays x = false → ∀ route ∈ t'.probeSchedule, routeTarget (.new x) route ≠ none := by
      intro h route hroute hnone
      rw [strays, Bool.or_eq_false_iff, List.any_eq_false] at h
      exact h.2 route hroute (by simp [hnone])
    apply ((compared_entryIfMatch hm (0, h11Slot)).bind (k := t'.searchBound x - 1) _).mono
    · rw [searchBound]
      omega
    intro answer
    cases answer with
    | true => exact Costs.pure _
    | false =>
      rw [if_neg Bool.false_ne_true]
      apply Costs.ite
      · intro _
        exact Costs.pure _
      · intro _
        apply (compared_findInSchedule hm hw _ _ hroutes).mono
        rw [searchBound]
        omega

theorem compared_findForEntry (hw : t.Wf) : Compared m t (t.searchBound x) (findForEntry u key x) := by
  apply (compared_find hm hw).bind_free
  intro answer
  cases answer with
  | some loc => exact Costs.pure _
  | none => exact Costs.pure _

end Searches

end Opthash.Elastic.ElasticTable
