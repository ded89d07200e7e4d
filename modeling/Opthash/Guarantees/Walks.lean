import Opthash.Funnel.Memory

namespace Opthash.Funnel

open Tiles

namespace FunnelTable

variable {K V : Type}

/-- The masks of level bits a table records: the bits of slots and of the regions its walks come to. -/
inductive Recordable (t : FunnelTable K V) : UInt16 → Prop
  | none : Recordable t 0
  | slot {levels : UInt16} {slot : Nat} (h : Recordable t levels) (hslot : slot < t.shape.n) :
    Recordable t (levels ||| t.levelBit slot)
  | walked {levels : UInt16} {draw : Draw} {stop : UInt16 × Stop} (h : Recordable t levels)
    (hdraw : t.shape.Below draw) (hstop : stop ∈ t.shape.stops draw) : Recordable t (levels ||| stop.1)

/-- The regions tile the slots, and `level_bit` names the region of a slot. -/
structure Regular (t : FunnelTable K V) : Prop where
  tiled : Tiled 0 (t.shape.regions.map Prod.snd) t.shape.n
  disjoint : (t.shape.regions.map Prod.snd).Pairwise fun e e' => Disjoint e.cells e'.cells
  below : ∀ region ∈ t.shape.regions, region.2.cells ⊆ Set.Iio t.shape.n
  named : ∀ slot < t.shape.n, ∃ region ∈ t.shape.regions, slot ∈ region.2.cells
  bit : ∀ region ∈ t.shape.regions, ∀ slot ∈ region.2.cells, t.levelBit slot = region.1
  recordable : ∀ levels, t.Recordable levels → ∀ index ∈ setLevels levels, index < t.shape.levels.length

/-- Whatever indexes are sampled and whatever is read, the walks reach nothing beyond the table. -/
structure Confined (group : GroupBackend) (t : FunnelTable K V) : Prop where
  met : ∀ draw, t.shape.Below draw → ∀ stop ∈ t.shape.stops draw, ∀ slot ∈ stop.2.slots t.shape.beta,
    slot < t.shape.n ∧ t.levelBit slot = stop.1 ∧ ∃ region ∈ t.shape.regions, region.1 = stop.1 ∧ slot ∈ region.2.cells
  exact : ∀ draw, t.shape.Below draw → ∀ (σ : Type) (M : Memory σ) (fingerprint : UInt8) (cleanEpoch : Bool),
    (M.guarded group t.shape.n).searchExact group fingerprint t.shape.beta cleanEpoch
        ((t.shape.stops draw).map Prod.snd) none =
      M.searchExact group fingerprint t.shape.beta cleanEpoch ((t.shape.stops draw).map Prod.snd) none
  vacancy : ∀ draw, t.shape.Below draw → ∀ (σ : Type) (M : Memory σ),
    (M.guarded group t.shape.n).searchVacancy group t.shape.beta (t.shape.stops draw) =
      M.searchVacancy group t.shape.beta (t.shape.stops draw)
  masked : ∀ draw, t.shape.Below draw → ∀ (σ : Type) (M : Memory σ) (fingerprint : UInt8) (levels : UInt16),
    t.Recordable levels → .missing ∉ t.shape.recordedStops draw levels ∧
      (M.guarded group t.shape.n).lookup group fingerprint t.shape.beta (t.shape.recordedStops draw levels) =
        M.lookup group fingerprint t.shape.beta (t.shape.recordedStops draw levels)

/-- The walks of the table are these walks over its own memory, at the indexes its probes sample. -/
structure Walking (group : GroupBackend) (t : FunnelTable K V) : Prop where
  below : ∀ probe, t.shape.Below (t.draw probe)
  exact : ∀ (σ : Type) (inspect : Nat → Exec Panic σ Bool) probe fingerprint cleanEpoch,
    t.searchExactMode group inspect cleanEpoch probe fingerprint =
      (t.memory group inspect).searchExact group fingerprint t.shape.beta cleanEpoch
        ((t.shape.stops (t.draw probe)).map Prod.snd) none
  vacancy : ∀ (σ : Type) (inspect : Nat → Exec Panic σ Bool) probe,
    (t.memory group inspect).searchVacancy group t.shape.beta (t.shape.stops (t.draw probe)) =
      pure (t.searchVacancy group probe)
  masked : ∀ (σ : Type) (inspect : Nat → Exec Panic σ Bool) probe fingerprint levels,
    t.lookupRecordedLevels group inspect probe fingerprint levels =
      (t.memory group inspect).lookup group fingerprint t.shape.beta (t.shape.recordedStops (t.draw probe) levels)

variable {t : FunnelTable K V}

theorem knownLevels_or {levels bit : UInt16} (h : t.KnownLevels levels) (hbit : t.KnownLevels bit) :
    t.KnownLevels (levels ||| bit) := by
  intro level hlevel hor
  rcases or_and_ne_zero.mp hor with hor | hor
  · exact h level hlevel hor
  · exact hbit level hlevel hor

theorem knownLevels_stop {draw : Draw} {stop : UInt16 × Stop} (h : stop ∈ t.shape.stops draw) :
    t.KnownLevels stop.1 := by
  intro level hlevel hbit
  rcases List.mem_append.mp h with h | h
  · obtain ⟨⟨shape, index⟩, hindex, rfl⟩ := List.mem_map.mp h
    obtain rfl := levelBitOf_and hlevel hbit
    exact (List.getElem?_eq_some_iff.mp (List.mem_zipIdx_iff_getElem?.mp hindex)).1
  · obtain ⟨special, -, rfl⟩ := List.mem_map.mp h
    have := levelBitOf_and hlevel hbit
    omega

theorem Recordable.known (hl : t.shape.levels = [] → t.shape.primaryOffset = 0) {levels : UInt16}
    (h : t.Recordable levels) : t.KnownLevels levels := by
  induction h with
  | none => exact knownLevels_zero
  | slot _ _ ih => exact knownLevels_or ih (knownLevels_levelBit hl _)
  | walked _ _ hstop ih => exact knownLevels_or ih (knownLevels_stop hstop)

section Planned

variable {n : Nat} {r : ReserveFraction} (h : FunnelShape.fromSlots n r = .ok t.shape) (hn : 0 < n)

include h hn

theorem fromSlots_laid : t.shape.n = n ∧ t.shape.Laid := by
  obtain ⟨hshape, -, hlaid⟩ := FunnelShape.fromSlots_spec h
  exact ⟨hshape, (hlaid (Nat.ne_of_gt hn)).1⟩

theorem regular_of_fromSlots : t.Regular := by
  obtain ⟨hshape, hlaid⟩ := fromSlots_laid h hn
  obtain ⟨-, htiled⟩ := FunnelShape.fromSlots_tiled h (Nat.ne_of_gt hn)
  rw [← hshape] at htiled
  refine ⟨htiled, htiled.disjoint, ?_, ?_, fun region hregion slot => levelBit_region hlaid hregion, ?_⟩
  · intro region hregion slot hslot
    exact (htiled.cells_subset (List.mem_map_of_mem hregion) hslot).2
  · intro slot hslot
    obtain ⟨extent, hextent, hcell⟩ := htiled.covers ⟨Nat.zero_le _, hslot⟩
    obtain ⟨region, hregion, rfl⟩ := List.mem_map.mp hextent
    exact ⟨region, hregion, hcell⟩
  · intro levels hlevels index hindex
    obtain ⟨hlt, hbit⟩ := List.mem_filter.mp hindex
    apply hlevels.known _ index (List.mem_range.mp hlt) (by simpa using hbit)
    intro hnil
    have hcons := hlaid.levels
    rw [hnil] at hcons
    exact Eq.symm hcons

theorem confined_of_fromSlots (group : GroupBackend) : t.Confined group := by
  have hregular := regular_of_fromSlots h hn
  obtain ⟨hbeta, -⟩ := FunnelShape.fromSlots_tiled h (Nat.ne_of_gt hn)
  have hmet : ∀ draw, t.shape.Below draw → ∀ stop ∈ t.shape.stops draw, ∀ slot ∈ stop.2.slots t.shape.beta,
      slot < t.shape.n ∧ t.levelBit slot = stop.1 ∧
        ∃ region ∈ t.shape.regions, region.1 = stop.1 ∧ slot ∈ region.2.cells := by
    intro draw hdraw stop hstop slot hslot
    obtain ⟨region, hregion, hbit, hcell⟩ := FunnelShape.stops_region hdraw hstop hslot
    exact ⟨hregular.below region hregion hcell, (hregular.bit region hregion slot hcell).trans hbit,
      region, hregion, hbit, hcell⟩
  have hwithin : ∀ draw, t.shape.Below draw → ∀ stop ∈ t.shape.stops draw, stop.2.Within t.shape.beta t.shape.n :=
    fun draw hdraw stop hstop => Stop.within_of_slots hbeta (fun slot hslot => (hmet draw hdraw stop hstop slot hslot).1)
      (FunnelShape.stops_ne_missing hstop)
  refine ⟨hmet, ?_, ?_, ?_⟩
  · intro draw hdraw σ M fingerprint cleanEpoch
    apply (M.guarded_agree group t.shape.n).searchExact
    intro stop hstop
    obtain ⟨walked, hwalked, rfl⟩ := List.mem_map.mp hstop
    exact hwithin draw hdraw walked hwalked
  · intro draw hdraw σ M
    exact (M.guarded_agree group t.shape.n).searchVacancy (hwithin draw hdraw)
  · intro draw hdraw σ M fingerprint levels hlevels
    have hmissing : .missing ∉ t.shape.recordedStops draw levels :=
      FunnelShape.missing_notMem_recordedStops (hregular.recordable levels hlevels)
    refine ⟨hmissing, (M.guarded_agree group t.shape.n).lookup ?_⟩
    intro stop hstop
    rcases FunnelShape.recordedStops_stops hstop with rfl | ⟨bit, hwalked⟩
    · exact absurd hstop hmissing
    · exact hwithin draw hdraw (bit, stop) hwalked

theorem walking_of_fromSlots (group : GroupBackend) : t.Walking group := by
  obtain ⟨hshape, hlaid⟩ := fromSlots_laid h hn
  have hslots : t.shape.n ≠ 0 := by omega
  exact ⟨fun _ => draw_below hlaid, fun _ _ _ _ cleanEpoch => searchExactMode_memory hslots cleanEpoch,
    fun _ _ _ => searchVacancy_memory hslots, fun _ _ _ _ levels => lookupRecordedLevels_memory hslots levels⟩

/-- The walks of every planned table stay in bounds, and its level bits name the regions they come to. -/
theorem walks_confined (group : GroupBackend) : t.Regular ∧ t.Confined group ∧ t.Walking group :=
  ⟨regular_of_fromSlots h hn, confined_of_fromSlots h hn group, walking_of_fromSlots h hn group⟩

end Planned

theorem walks_confined_least : ∃ t : FunnelTable UInt64 Nat,
    FunnelShape.fromSlots 144 ⟨3, by decide, by decide⟩ = .ok t.shape ∧ t.Regular ∧ t.Confined .scalar ∧
      t.Walking .scalar := by
  have hplanned : (FunnelShape.fromSlots 144 ⟨3, by decide, by decide⟩).toOption.isSome := by decide +kernel
  cases hshape : FunnelShape.fromSlots 144 ⟨3, by decide, by decide⟩ with
  | error e =>
    rw [hshape] at hplanned
    cases hplanned
  | ok s => exact ⟨fresh s ⟨3, by decide, by decide⟩ (.empty 144) (.zeroed 0), rfl,
      walks_confined (t := fresh s ⟨3, by decide, by decide⟩ (.empty 144) (.zeroed 0)) hshape (by decide) .scalar⟩

end FunnelTable

end Opthash.Funnel
