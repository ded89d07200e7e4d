import Opthash.Funnel.Budget
import Opthash.Funnel.Invariant
import Opthash.Funnel.Stops
import Opthash.Lib.Tiles

namespace Opthash.Funnel

open Opthash.Geometry Tiles

namespace Stop

def slots (beta : Nat) : Stop → List Nat
  | .failed => []
  | .missing => []
  | .bucket start => List.range' start beta
  | .slot place => [place]

theorem within_of_slots {beta n : Nat} (hbeta : 0 < beta) {stop : Stop} (h : ∀ slot ∈ stop.slots beta, slot < n)
    (hmissing : stop ≠ .missing) : stop.Within beta n := by
  cases stop with
  | failed => trivial
  | missing => exact absurd rfl hmissing
  | bucket start =>
    have hfirst := h start (List.mem_range'_1.mpr ⟨Nat.le_refl _, by omega⟩)
    have hlast := h (start + (beta - 1)) (List.mem_range'_1.mpr ⟨by omega, by omega⟩)
    exact ⟨hfirst, by omega⟩
  | slot place => exact h place (List.mem_singleton.mpr rfl)

end Stop

namespace FunnelShape

def levelExtent (s : FunnelShape) (level : LevelShape) : Extent := ⟨level.offset, level.bucketRange.upper * s.beta⟩

def fallbackExtent (s : FunnelShape) (bucket : Nat) : Extent := ⟨s.fallbackSlot bucket 0, s.fallbackBucketWidth⟩

/-- The ordinary levels, the primary region and the fallback buckets, with their level-bin bits. -/
def regions (s : FunnelShape) : List (UInt16 × Extent) :=
  (s.levels.zipIdx.map fun level => (levelBitOf level.2, s.levelExtent level.1)) ++
    (overflowLevelBit, ⟨s.primaryOffset, s.primaryRange.upper⟩) ::
      (List.range s.fallbackBucketRange.upper).map fun bucket => (overflowLevelBit, s.fallbackExtent bucket)

section Tiling

variable {s : FunnelShape}

theorem levels_tiled {levels : List LevelShape} {a b : Nat} (h : Consecutive s.beta a levels b) :
    Tiled a (levels.map s.levelExtent) b := by
  induction levels generalizing a with
  | nil =>
    obtain rfl := h
    exact .nil
  | cons level levels ih =>
    obtain ⟨rfl, -, h⟩ := h
    exact .cons (ih h)

theorem fallback_tiled (s : FunnelShape) (count : Nat) :
    Tiled s.fallbackOffset ((List.range count).map s.fallbackExtent)
      (s.fallbackOffset + count * s.fallbackBucketWidth) := by
  induction count with
  | zero =>
    rw [Nat.zero_mul, Nat.add_zero]
    exact .nil
  | succ count ih =>
    rw [List.range_succ, List.map_append, Nat.add_one_mul, ← Nat.add_assoc]
    exact ih.append (.cons .nil)

theorem regions_extents (s : FunnelShape) :
    s.regions.map Prod.snd = s.levels.map s.levelExtent ++
      ⟨s.primaryOffset, s.primaryRange.upper⟩ :: (List.range s.fallbackBucketRange.upper).map s.fallbackExtent := by
  rw [regions, List.map_append, List.map_map, List.map_cons, List.map_map]
  have hlevels : s.levels.zipIdx.map (s.levelExtent ∘ Prod.fst) = s.levels.map s.levelExtent := by
    rw [← List.map_map, List.zipIdx_map_fst]
  exact congrArg (· ++ _) hlevels

theorem Laid.tiled (h : s.Laid) :
    Tiled 0 (s.regions.map Prod.snd) (s.fallbackOffset + s.fallbackBucketRange.upper * s.fallbackBucketWidth) := by
  rw [regions_extents]
  apply (levels_tiled h.levels).append
  apply Tiled.cons
  rw [← h.fallbackOffset]
  exact fallback_tiled s _

variable {n : Nat} {r : ReserveFraction}

theorem fromSlots_tiled (h : fromSlots n r = .ok s) (hn : n ≠ 0) :
    0 < s.beta ∧ Tiled 0 (s.regions.map Prod.snd) n := by
  obtain ⟨hlaid, -⟩ := (fromSlots_spec h).2.2 hn
  obtain ⟨hsmall, hsize, hd, -, p, hplan, hshape⟩ := fromSlots_plan h hn
  have halpha : 4 * r.exponent + 10 ≤ usizeMax := by
    have := r.bounded
    unfold usizeMax
    omega
  obtain ⟨⟨-, -, hbeta, -, hwidth⟩, hspecial, -, -⟩ := funnelPlan_spec hsmall hsize hd halpha hplan
  have hbuckets := hspecial.buckets
  rw [← baseTwoLoglogCeiling_eq, ← hwidth] at hbuckets
  have hfallback : p.fallbackBucketCount * p.fallbackBucketWidth = p.specialFallbackLen := Nat.div_mul_cancel hbuckets
  have htiled := hlaid.tiled
  rw [fromPlan] at hshape
  obtain ⟨⟨levels, primaryOffset⟩, -, hshape⟩ := bind_ok hshape
  obtain ⟨primaryRange, -, hshape⟩ := bind_ok hshape
  obtain ⟨fallbackOffset, -, hshape⟩ := bind_ok hshape
  obtain ⟨stop, hstop, hshape⟩ := bind_ok hshape
  dsimp only at hstop hshape
  obtain ⟨rfl, -⟩ := checkedUsize_spec (orOverflow_spec hstop)
  by_cases hslots : fallbackOffset + p.specialFallbackLen = n
  swap
  · rw [if_pos hslots] at hshape
    cases hshape
  rw [if_neg (not_not.mpr hslots)] at hshape
  by_cases hloglog : p.loglogCeiling > 255
  · rw [if_pos hloglog] at hshape
    cases hshape
  rw [if_neg hloglog] at hshape
  obtain ⟨fallbackRange, hrange, hshape⟩ := bind_ok hshape
  obtain ⟨hupper, -⟩ := rangeOrOverflow_spec hrange
  cases hshape
  refine ⟨by dsimp only; omega, ?_⟩
  dsimp only at htiled
  rwa [hupper, hfallback, hslots] at htiled

end Tiling

end FunnelShape

namespace FunnelShape

variable {s : FunnelShape} {draw : Draw} {bit : UInt16} {stop : Stop}

theorem stops_region (hdraw : s.Below draw) (h : (bit, stop) ∈ s.stops draw) {slot : Nat}
    (hslot : slot ∈ stop.slots s.beta) : ∃ region ∈ s.regions, region.1 = bit ∧ slot ∈ region.2.cells := by
  have hspecial : ∀ extent, extent ∈ ⟨s.primaryOffset, s.primaryRange.upper⟩ ::
      (List.range s.fallbackBucketRange.upper).map s.fallbackExtent → (overflowLevelBit, extent) ∈ s.regions := by
    intro extent hextent
    apply List.mem_append_right
    rcases List.mem_cons.mp hextent with rfl | hextent
    · exact List.mem_cons_self ..
    · obtain ⟨bucket, hbucket, rfl⟩ := List.mem_map.mp hextent
      exact List.mem_cons_of_mem _ (List.mem_map_of_mem hbucket)
  rcases List.mem_append.mp h with h | h
  · obtain ⟨⟨level, index⟩, hlevel, heq⟩ := List.mem_map.mp h
    cases heq
    refine ⟨_, List.mem_append_left _ (List.mem_map_of_mem hlevel), rfl, ?_⟩
    unfold ordinaryStop at hslot
    dsimp only at hslot
    cases hbucket : draw (.ordinary index) with
    | none =>
      rw [hbucket] at hslot
      cases hslot
    | some bucket =>
      rw [hbucket] at hslot
      have hlt := hdraw _ _ hbucket
      rw [upper, List.mem_zipIdx_iff_getElem?.mp hlevel, Option.elim_some] at hlt
      obtain ⟨hfirst, hlast⟩ := List.mem_range'_1.mp hslot
      have hmul : (bucket + 1) * s.beta ≤ level.bucketRange.upper * s.beta := Nat.mul_le_mul_right _ hlt
      rw [Nat.add_one_mul] at hmul
      exact ⟨by dsimp only [levelExtent]; omega, by dsimp only [levelExtent, Extent.stop]; omega⟩
  · obtain ⟨special, hstop, heq⟩ := List.mem_map.mp h
    cases heq
    rcases List.mem_append.mp hstop with hstop | hstop
    · obtain ⟨logicalProbe, -, rfl⟩ := List.mem_map.mp hstop
      cases hindex : draw (.primary logicalProbe) with
      | none =>
        rw [hindex] at hslot
        cases hslot
      | some index =>
        rw [hindex] at hslot
        obtain rfl := List.mem_singleton.mp hslot
        have hlt := hdraw _ _ hindex
        exact ⟨_, hspecial _ (List.mem_cons_self ..), rfl, Nat.le_add_right .., Nat.add_lt_add_left hlt _⟩
    · unfold fallbackStops at hstop
      split at hstop
      · rename_i first second hfirst hsecond
        obtain ⟨place, hplace, rfl⟩ := List.mem_map.mp hstop
        obtain ⟨slotInBucket, hin, hplace⟩ := List.mem_flatMap.mp hplace
        obtain rfl := List.mem_singleton.mp hslot
        have hin := List.mem_range.mp hin
        have hbucket : ∀ bucket < s.fallbackBucketRange.upper,
            ∃ region ∈ s.regions, region.1 = overflowLevelBit ∧ s.fallbackSlot bucket slotInBucket ∈ region.2.cells := by
          intro bucket hbucket
          refine ⟨_, hspecial _ (List.mem_cons_of_mem _ (List.mem_map_of_mem (List.mem_range.mpr hbucket))), rfl, ?_⟩
          exact ⟨Nat.add_le_add_left (Nat.zero_le _) _, Nat.add_lt_add_left hin _⟩
        rcases List.mem_cons.mp hplace with rfl | hplace
        · exact hbucket first (hdraw _ _ hfirst)
        · obtain rfl := List.mem_singleton.mp hplace
          exact hbucket second (hdraw _ _ hsecond)
      · rw [List.mem_singleton.mp hstop] at hslot
        cases hslot

theorem specialStops_ne_missing (h : stop ∈ s.specialStops draw) : stop ≠ .missing := by
  rintro rfl
  rcases List.mem_append.mp h with h | h
  · obtain ⟨logicalProbe, -, heq⟩ := List.mem_map.mp h
    cases hindex : draw (.primary logicalProbe) <;> rw [hindex] at heq <;> cases heq
  · unfold fallbackStops at h
    split at h
    · obtain ⟨_, -, heq⟩ := List.mem_map.mp h
      cases heq
    · cases List.mem_singleton.mp h

theorem ordinaryStop_ne_missing (level : LevelShape × Nat) : s.ordinaryStop draw level ≠ .missing := by
  unfold ordinaryStop
  cases draw (.ordinary level.2) <;> exact Stop.noConfusion

theorem stops_ne_missing (h : (bit, stop) ∈ s.stops draw) : stop ≠ .missing := by
  rcases List.mem_append.mp h with h | h
  · obtain ⟨level, -, heq⟩ := List.mem_map.mp h
    cases heq
    exact ordinaryStop_ne_missing level
  · obtain ⟨special, hspecial, heq⟩ := List.mem_map.mp h
    cases heq
    exact specialStops_ne_missing hspecial

theorem recordedStops_stops {levels : UInt16} (h : stop ∈ s.recordedStops draw levels) :
    stop = .missing ∨ ∃ bit, (bit, stop) ∈ s.stops draw := by
  have hlevel : ∀ level ∈ s.levels.zipIdx, (levelBitOf level.2, s.ordinaryStop draw level) ∈ s.stops draw :=
    fun level h => List.mem_append_left _ (List.mem_map_of_mem h)
  rcases List.mem_append.mp h with h | h
  · obtain ⟨index, -, rfl⟩ := List.mem_map.mp h
    cases hget : s.levels[index]? with
    | none => exact .inl rfl
    | some level => exact .inr ⟨_, hlevel (level, index) (List.mem_zipIdx_iff_getElem?.mpr hget)⟩
  · split at h
    · cases h
    · rcases List.mem_append.mp h with h | h
      · obtain ⟨level, hmem, rfl⟩ := List.mem_map.mp h
        exact .inr ⟨_, hlevel level (List.mem_of_mem_drop hmem)⟩
      · exact .inr ⟨_, List.mem_append_right _ (List.mem_map_of_mem h)⟩

theorem missing_notMem_recordedStops {levels : UInt16} (h : ∀ index ∈ FunnelTable.setLevels levels, index < s.levels.length) :
    .missing ∉ s.recordedStops draw levels := by
  intro hmissing
  rcases List.mem_append.mp hmissing with hmem | hmem
  · obtain ⟨index, hindex, heq⟩ := List.mem_map.mp hmem
    rw [List.getElem?_eq_getElem (h index hindex)] at heq
    exact ordinaryStop_ne_missing _ heq
  · split at hmem
    · cases hmem
    · rcases List.mem_append.mp hmem with hmem | hmem
      · obtain ⟨level, -, heq⟩ := List.mem_map.mp hmem
        exact ordinaryStop_ne_missing level heq
      · exact specialStops_ne_missing hmem rfl

end FunnelShape

namespace FunnelTable

variable {K V : Type} {t : FunnelTable K V}

theorem levelBit_region (h : t.shape.Laid) {region : UInt16 × Extent} (hregion : region ∈ t.shape.regions) {slot : Nat}
    (hslot : slot ∈ region.2.cells) : t.levelBit slot = region.1 := by
  rcases List.mem_append.mp hregion with hregion | hregion
  · obtain ⟨⟨level, index⟩, hlevel, rfl⟩ := List.mem_map.mp hregion
    obtain ⟨hlen, hget⟩ := List.getElem?_eq_some_iff.mp (List.mem_zipIdx_iff_getElem?.mp hlevel)
    dsimp only at hlen hget
    have hsplit : t.shape.levels = t.shape.levels.take index ++ level :: t.shape.levels.drop (index + 1) := by
      rw [← hget, List.getElem_cons_drop, List.take_append_drop]
    rw [levelBit_ordinary h hsplit hslot.1 hslot.2, List.length_take, Nat.min_eq_left (Nat.le_of_lt hlen)]
  · have hoffset := h.fallbackOffset
    have hfirst : t.shape.primaryOffset ≤ region.2.start ∧ region.1 = overflowLevelBit := by
      rcases List.mem_cons.mp hregion with rfl | hregion
      · exact ⟨Nat.le_refl _, rfl⟩
      · obtain ⟨bucket, -, rfl⟩ := List.mem_map.mp hregion
        refine ⟨?_, rfl⟩
        dsimp only [FunnelShape.fallbackExtent, FunnelShape.fallbackSlot]
        omega
    rw [hfirst.2]
    exact levelBit_special h (hfirst.1.trans hslot.1)

end FunnelTable

end Opthash.Funnel
