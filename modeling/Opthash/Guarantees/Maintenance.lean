import Opthash.Guarantees.Filter

namespace Opthash

open Exec HashMap

theorem Capacity.tombstoneCleanupThreshold_bounds (group : GroupBackend) (capacity : Nat) :
    capacity / 2 ≤ tombstoneCleanupThreshold group capacity ∧
      tombstoneCleanupThreshold group capacity ≤ 3 * capacity / 4 := by
  have hthree : saturatingUsize (capacity * 3) / 4 ≤ 3 * capacity / 4 := by
    apply Nat.div_le_div_right
    rw [Nat.mul_comm]
    exact Nat.min_le_left ..
  simp only [tombstoneCleanupThreshold]
  omega

variable {W K V : Type} {group : GroupBackend} {u : User W K V}

namespace Funnel

open FunnelTable

/-- Deleted slots and deletes the filter has not caught up with stay within their bounds, and maintenance clears them. -/
structure DebtBounded (group : GroupBackend) (u : User W K V) (t : FunnelTable K V) : Prop where
  tombstones : t.storage.tombstoneCount ≤ Capacity.tombstoneCleanupThreshold group t.shape.n
  stale : t.staleMembership ≤ t.shape.maxInsertions
  cleanup : ∀ (transition : EpochTransition) (w : World W K V), wp (resizeWithTransition group u t.shape.n transition)
    (fun _ s => s.1.storage.tombstoneCount = 0 ∧ s.1.staleMembership = 0 ∧ s.1.storage.entries.Perm t.storage.entries)
    (fun _ s => s.1 = t) (t, w)
  refresh : ∀ w : World W K V, wp (refreshMembership group u)
    (fun _ s => s.1.staleMembership = 0 ∧ s.1.storage = t.storage) (fun _ s => s.1.storage = t.storage) (t, w)

theorem debtBounded_of_settled {t : FunnelTable K V} (hw : t.Wf) (hc : t.Counted) (hs : t.Settled group) :
    DebtBounded group u t where
  tombstones := by
    have hcleanup := of_decide_eq_false hs.1
    rw [hc.tombstones] at hcleanup
    exact Nat.le_of_not_lt hcleanup
  stale := Nat.le_of_not_lt (of_decide_eq_false hs.2)
  cleanup := by
    intro transition w
    refine wp_mono (wp_resizeWithTransition hw hw.planned hw.limit transition w) ?_ (fun _ _ h => h.2.1)
    rintro _ s ⟨-, hr⟩
    exact ⟨hr.counted.tombstones.symm.trans hr.clean, hr.stale, hr.entries⟩
  refresh := by
    intro w
    refine wp_mono (wp_refreshMembership hw) ?_ ?_
    · rintro _ s ⟨hr, -⟩
      obtain ⟨hashAt, heq⟩ := hr.eq
      rw [heq]
      exact ⟨rfl, rfl⟩
    · rintro p s ⟨-, ⟨hashAt, slots, heq⟩, -⟩
      rw [heq]
      rfl

end Funnel

namespace Elastic

open ElasticTable

structure DebtBounded (group : GroupBackend) (u : User W K V) (t : ElasticTable K V) : Prop where
  tombstones : ∀ l ∈ t.levels, l.region.tombstoneCount ≤ Capacity.tombstoneCleanupThreshold group l.region.capacity
  stale : t.staleMembership ≤ t.maxInsertions
  cleanup : ∀ (transition : EpochTransition) (w : World W K V), wp (resizeWithTransition group u t.totalSlots transition)
    (fun _ s => (∀ l ∈ s.1.levels, l.region.tombstoneCount = 0) ∧ s.1.staleMembership = 0 ∧ s.1.entries.Perm t.entries)
    (fun _ s => s.1 = t) (t, w)
  refresh : ∀ w : World W K V, wp (refreshMembership group u)
    (fun _ s => s.1.staleMembership = 0 ∧ s.1.levels = t.levels) (fun _ s => s.1.levels = t.levels) (t, w)

theorem debtBounded_of_settled {t : ElasticTable K V} (hw : t.Ready) (hc : t.Counted) (hs : t.Settled group) :
    DebtBounded group u t where
  tombstones := by
    intro l hl
    have hcleanup := of_decide_eq_false (hs.levels l hl)
    rw [(hc.levels l hl).2] at hcleanup
    exact Nat.le_of_not_lt hcleanup
  stale := Nat.le_of_not_lt (of_decide_eq_false hs.stale)
  cleanup := by
    intro transition w
    have hfit : t.len ≤ Capacity.maxInsertions t.totalSlots t.reserveFraction := hw.maxInsertions ▸ hw.limit
    refine wp_mono (wp_resizeWithTransition hw.toWf hfit transition w) ?_ (fun _ _ h => h.2.1)
    rintro _ s ⟨-, g, -, hr⟩
    exact ⟨fun l hl => (hr.counted.levels l hl).2.symm.trans (hr.clean l hl), hr.stale, hr.entries⟩
  refresh := by
    intro w
    refine wp_mono (wp_refreshMembership hw.toWf) ?_ ?_
    · rintro _ s ⟨hr, -⟩
      obtain ⟨hashAt, heq⟩ := hr.eq
      rw [heq]
      exact ⟨rfl, rfl⟩
    · rintro p s ⟨-, ⟨hashAt, locs, heq⟩, -⟩
      rw [heq]
      rfl

end Elastic

/-- In every run whose deletes complete, after every call that returned. -/
theorem debt_bounded :
    (∀ t : Funnel.FunnelTable K V, Reachable (Funnel.backend group u) u (Funnel.Initial group u) Orderly t →
      Funnel.DebtBounded group u t) ∧
    (∀ t : Elastic.ElasticTable K V, Reachable (Elastic.backend group u) u (Elastic.Initial group u) Orderly t →
      Elastic.DebtBounded group u t) ∧
    ∀ capacity, capacity / 2 ≤ Capacity.tombstoneCleanupThreshold group capacity ∧
      Capacity.tombstoneCleanupThreshold group capacity ≤ 3 * capacity / 4 := by
  refine ⟨?_, ?_, Capacity.tombstoneCleanupThreshold_bounds group⟩
  · rintro t ⟨t₀, w₀, w, h₀, hruns⟩
    have hfresh := h₀.fresh
    obtain ⟨hw, hc, hs⟩ := hruns.settled (Funnel.contract group u) hfresh.wf hfresh.counted hfresh.settled
    exact Funnel.debtBounded_of_settled hw hc hs
  · rintro t ⟨t₀, w₀, w, h₀, hruns⟩
    have hfresh := h₀.fresh
    obtain ⟨hw, hc, hs⟩ := hruns.settled (Elastic.contract group u) hfresh.wf hfresh.counted hfresh.settled
    exact Elastic.debtBounded_of_settled hw hc hs

/-- Two keys, of which the second leaves a tombstone and a bit of the filter behind. -/
def removed : List (Op UInt64 Nat) := [.insert 7 70, .insert 9 90, .removeEntry 9]

theorem removed_orderly (b : TableBackend Unit UInt64 Nat) (op : Op UInt64 Nat) (hop : op ∈ removed)
    (s : b.Table × World Unit UInt64 Nat) (r : Ret UInt64 Nat) : Orderly ((s, op, .ok r) : Event b) := by
  refine ⟨?_, fun _ => ⟨r, rfl⟩⟩
  simp only [removed, List.mem_cons, List.not_mem_nil, or_false] at hop
  rcases hop with rfl | rfl | rfl <;> exact id

theorem debt_bounded_removed :
    (∃ t : Funnel.FunnelTable UInt64 Nat, t.storage.tombstoneCount = 1 ∧ t.staleMembership = 1 ∧
      Funnel.DebtBounded .scalar User.sample t) ∧
    ∃ t : Elastic.ElasticTable UInt64 Nat, t.levels.map (fun l => l.region.tombstoneCount) = [1, 0, 0] ∧
      t.staleMembership = 1 ∧ Elastic.DebtBounded .scalar User.sample t := by
  have hbounded := @debt_bounded Unit UInt64 Nat .scalar User.sample
  constructor
  · obtain ⟨t, _, ht, hdebt⟩ := Reachable.scripted (b := Funnel.backend .scalar User.sample)
      (u := User.sample) Funnel.initial_unallocated World.start (removed_orderly _)
      (fun s => decide (s.1.storage.tombstoneCount = 1 ∧ s.1.staleMembership = 1)) (by decide +kernel)
    obtain ⟨htombstones, hstale⟩ := of_decide_eq_true hdebt
    exact ⟨t, htombstones, hstale, hbounded.1 t ht⟩
  · obtain ⟨t, _, ht, hdebt⟩ := Reachable.scripted (b := Elastic.backend .scalar User.sample)
      (u := User.sample) Elastic.initial_unallocated World.start (removed_orderly _)
      (fun s => decide (s.1.levels.map (fun l => l.region.tombstoneCount) = [1, 0, 0] ∧ s.1.staleMembership = 1))
      (by decide +kernel)
    obtain ⟨htombstones, hstale⟩ := of_decide_eq_true hdebt
    exact ⟨t, htombstones, hstale, hbounded.2.1 t ht⟩

end Opthash
