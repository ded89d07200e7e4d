import Opthash.Guarantees.Panics

namespace Opthash

open Exec HashMap

variable {W K V E : Type} {group : GroupBackend} {u : User W K V}

namespace Region

def occupiedCount (r : Region E) : Nat := (List.range r.capacity).countP fun i => isOccupied (r.ctrl i)

theorem length_entries_eq_count {r : Region E} (h : r.Filled) : r.entries.length = r.occupiedCount := by
  rw [length_entries h, occupied, occupiedFrom, Nat.sub_zero, ← List.range_eq_range', occupiedCount,
    List.countP_eq_length_filter]
  rfl

theorem tombstoneCount_pos {r : Region E} {i : Nat} (hi : i < r.capacity) (h : r.ctrl i = ctrlTombstone) :
    0 < r.tombstoneCount := List.countP_pos_iff.mpr ⟨i, List.mem_range.mpr hi, decide_eq_true h⟩

end Region

/-- A forgotten drain took nothing, and no destructor interrupts the drop of another one. -/
def HashMap.Settling {b : TableBackend W K V} (R : Reading b.Table b.Location b.Vacant b.Scan K V) (u : User W K V)
    (e : Event b) : Prop :=
  e.2.1.Undrained (R.entries e.1.1) ∧ e.2.1.Quiet u (R.entries e.1.1) e.1.2.code

namespace Funnel

open FunnelTable

/-- The counters are what the control bytes say, the reuse of a tombstone can be counted, and a completed clear
leaves every slot EMPTY. -/
structure CountersMatch (group : GroupBackend) (u : User W K V) (t : FunnelTable K V) : Prop where
  len : t.len = t.storage.occupiedCount
  tombstones : t.tombstones = t.storage.tombstoneCount
  reuse : ∀ slot < t.storage.capacity, t.storage.ctrl slot = ctrlTombstone →
    wrappingDec usizeMax t.tombstones + 1 = t.tombstones
  clear : ∀ w : World W K V, wp (FunnelTable.clear group u) (fun _ s => s.1.len = 0 ∧ s.1.storage.Blank)
    (fun _ _ => True) (t, w)

theorem countersMatch_of_counted {t : FunnelTable K V} (hw : t.Wf) (hc : t.Counted) : CountersMatch group u t where
  len := hc.len.trans (Region.length_entries_eq_count hw.filled)
  tombstones := hc.tombstones
  reuse := by
    intro slot hslot htombstone
    have hpos : 0 < t.tombstones := by
      rw [hc.tombstones]
      exact Region.tombstoneCount_pos hslot htombstone
    rw [wrappingDec_of_pos hpos, Nat.sub_add_cancel hpos]
  clear := by
    intro w
    refine wp_mono (FunnelTable.wp_clear (κ := fun _ => 0) hw) ?_ (fun _ _ _ => trivial)
    rintro _ s ⟨hsteady, hnil, hblank, -⟩
    have hcounted : s.1.Counted := hsteady.counted hc
    exact ⟨by rw [hcounted.len, hnil]; rfl, hblank⟩

end Funnel

namespace Elastic

open ElasticTable

structure CountersMatch (group : GroupBackend) (u : User W K V) (t : ElasticTable K V) : Prop where
  len : t.len = (t.levels.map fun l => l.region.occupiedCount).sum
  levels : ∀ l ∈ t.levels, l.len = l.region.occupiedCount ∧ l.tombstones = l.region.tombstoneCount
  reuse : ∀ l ∈ t.levels, ∀ slot < l.region.capacity, l.region.ctrl slot = ctrlTombstone →
    wrappingDec u32Max l.tombstones + 1 = l.tombstones
  clear : ∀ w : World W K V, wp (ElasticTable.clear group u)
    (fun _ s => s.1.len = 0 ∧ ∀ l ∈ s.1.levels, l.len = 0 ∧ l.region.Blank) (fun _ _ => True) (t, w)

theorem countersMatch_of_counted {t : ElasticTable K V} (hw : t.Ready) (hc : t.Counted) : CountersMatch group u t where
  len := by
    rw [hc.len, entries, List.length_flatMap]
    congr 1
    exact List.map_congr_left fun l hl => Region.length_entries_eq_count (hw.filled l hl)
  levels := fun l hl => ⟨(hc.levels l hl).1.trans (Region.length_entries_eq_count (hw.filled l hl)), (hc.levels l hl).2⟩
  reuse := by
    intro l hl slot hslot htombstone
    have hpos : 0 < l.tombstones := by
      rw [(hc.levels l hl).2]
      exact Region.tombstoneCount_pos hslot htombstone
    rw [wrappingDec_of_pos hpos, Nat.sub_add_cancel hpos]
  clear := by
    intro w
    refine wp_mono (ElasticTable.wp_clear (κ := fun _ => 0) hw) ?_ (fun _ _ _ => trivial)
    rintro _ s ⟨hsteady, hnil, hblank, -⟩
    have hcounted : s.1.Counted := hsteady.counted hc
    refine ⟨by rw [hcounted.len, hnil]; rfl, fun l hl => ⟨?_, hblank l hl⟩⟩
    rw [(hcounted.levels l hl).1]
    exact List.length_eq_zero_iff.mpr (List.flatMap_eq_nil_iff.mp hnil l hl)

end Elastic

/-- In every run whose drains come to the reset of the counters, whatever else panics or is forgotten. -/
theorem counters_match :
    (∀ t : Funnel.FunnelTable K V, Reachable (Funnel.backend group u) u (Funnel.Initial group u)
        (Settling (b := Funnel.backend group u) (Funnel.reading group) u) t → Funnel.CountersMatch group u t) ∧
    ∀ t : Elastic.ElasticTable K V, Reachable (Elastic.backend group u) u (Elastic.Initial group u)
        (Settling (b := Elastic.backend group u) (Elastic.reading group) u) t → Elastic.CountersMatch group u t := by
  constructor
  · rintro t ⟨t₀, w₀, w, h₀, hruns⟩
    have hfresh := h₀.fresh
    obtain ⟨hw, hc⟩ := hruns.counted (Funnel.contract group u) (fun _ => id) hfresh.wf hfresh.counted
    exact Funnel.countersMatch_of_counted hw hc
  · rintro t ⟨t₀, w₀, w, h₀, hruns⟩
    have hfresh := h₀.fresh
    obtain ⟨hw, hc⟩ := hruns.counted (Elastic.contract group u) (fun _ => id) hfresh.wf hfresh.counted
    exact Elastic.countersMatch_of_counted hw hc

theorem counters_match_insert : Funnel.CountersMatch .scalar User.sample Funnel.FunnelTable.stored ∧
    ∃ (t : Elastic.ElasticTable UInt64 Nat) (loc : Nat × Nat), t.Holds loc (7, 70) ∧
      Elastic.CountersMatch .scalar User.sample t := by
  have hmatch := @counters_match Unit UInt64 Nat .scalar User.sample
  obtain ⟨ht, -⟩ := Funnel.stored_of_start
    (A := Settling (b := Funnel.backend .scalar User.sample) (Funnel.reading .scalar) User.sample)
    fun _ => ⟨trivial, trivial⟩
  obtain ⟨t, loc, ht', hloc⟩ := Elastic.exists_stored
    (A := Settling (b := Elastic.backend .scalar User.sample) (Elastic.reading .scalar) User.sample)
    fun _ _ _ => ⟨trivial, trivial⟩
  exact ⟨hmatch.1 _ ht, t, loc, hloc, hmatch.2 t ht'⟩

/-- A forgotten drain leaves counters that even a completed clear does not reset. -/
theorem forgotten_drain_drifts :
    (∃ t : Funnel.FunnelTable UInt64 Nat, Reachable (Funnel.backend .scalar User.sample) User.sample
        (Funnel.Initial .scalar User.sample) (fun _ => True) t ∧ t.len = 1 ∧ t.storage.occupiedCount = 0) ∧
    ∃ t : Elastic.ElasticTable UInt64 Nat, Reachable (Elastic.backend .scalar User.sample) User.sample
        (Elastic.Initial .scalar User.sample) (fun _ => True) t ∧ t.len = 1 ∧
      ∃ s, Elastic.ElasticTable.clear .scalar User.sample (t, World.start) = (.ok (), s) ∧ s.1.len = 1 ∧
        s.1.levels.map (fun l => l.region.occupiedCount) = [0, 0, 0] := by
  let drained : List (Op UInt64 Nat) := [.insert 7 70, .leakDrain 1]
  constructor
  · obtain ⟨t, w, ht, hdrifted⟩ := Reachable.replayed (b := Funnel.backend .scalar User.sample) (u := User.sample)
      (A := fun _ => True) Funnel.initial_unallocated World.start (fun op (_ : op ∈ drained) _ _ => trivial)
      (fun s => s.1.len == 1 && s.1.storage.occupiedCount == 0) (by decide +kernel)
    rw [Bool.and_eq_true] at hdrifted
    exact ⟨t, ht, eq_of_beq hdrifted.1, eq_of_beq hdrifted.2⟩
  · obtain ⟨t, w, ht, hdrifted⟩ := Reachable.replayed (b := Elastic.backend .scalar User.sample) (u := User.sample)
      (A := fun _ => True) Elastic.initial_unallocated World.start (fun op (_ : op ∈ drained) _ _ => trivial)
      (fun s => s.1.len == 1 && match Elastic.ElasticTable.clear .scalar User.sample (s.1, World.start) with
        | (.ok _, s') => s'.1.len == 1 && s'.1.levels.map (fun l => l.region.occupiedCount) == [0, 0, 0]
        | (.error _, _) => false) (by decide +kernel)
    rw [Bool.and_eq_true] at hdrifted
    refine ⟨t, ht, eq_of_beq hdrifted.1, ?_⟩
    rcases hclear : Elastic.ElasticTable.clear .scalar User.sample (t, World.start) with ⟨p | r, s⟩
    · rw [hclear] at hdrifted
      cases hdrifted.2
    · rw [hclear] at hdrifted
      obtain ⟨hlen, hoccupied⟩ := Bool.and_eq_true_iff.mp hdrifted.2
      exact ⟨s, rfl, eq_of_beq hlen, eq_of_beq hoccupied⟩

end Opthash
