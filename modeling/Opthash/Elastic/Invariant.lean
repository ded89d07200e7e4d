import Mathlib.Data.List.Induction
import Opthash.Elastic.Layout

namespace Opthash.Elastic.ElasticTable

open Probe

variable {W K V : Type} {u : User W K V} {q : Prop} {t t' : ElasticTable K V} {loc : Nat × Nat} {e : K × V} {x : UInt64}

def Holds (t : ElasticTable K V) (loc : Nat × Nat) (e : K × V) : Prop := (t.region loc.1).Holds loc.2 e

def entries (t : ElasticTable K V) : List (K × V) := t.levels.flatMap fun l => l.region.entries

def occupied (t : ElasticTable K V) : List (Nat × Nat) :=
  (List.range t.levels.length).flatMap fun level => (t.region level).occupied.map fun slot => (level, slot)

def levelLocs (t : ElasticTable K V) (level : Nat) : List (Nat × Nat) :=
  (t.region level).occupied.map fun slot => (level, slot)

def recording (t : ElasticTable K V) (loc : Nat × Nat) (x : UInt64) : Recording :=
  ⟨Membership.word (PreparedElasticKey.new x).signature t.membership.words, (PreparedElasticKey.new x).membership,
    (PreparedElasticKey.new x).summaryBin, summaryBit loc.1⟩

def Recorded (t : ElasticTable K V) (loc : Nat × Nat) (x : UInt64) : Prop := t.membership.Knows (t.recording loc x)

/-- The slot to which the `j`th probe of a level sends the hash `x`. -/
def probeSlot (t : ElasticTable K V) (x : UInt64) (level j : Nat) : Option Nat :=
  routePreparedCounterForUpper (PreparedElasticKey.new x).probe (elasticCounterBase level (j - 1))
    (t.region level).capacity

/-- Queries visit the `j`th probe of the level: first of all, or by the schedule. -/
def Visits (t : ElasticTable K V) (level j : Nat) : Prop :=
  Direct level j ∨ phi (level + 1) j ≤ t.priorHighWater.toNat

/-- A visited probe sends the hash `x` to `loc`, whose control byte comes from it, unless entries may lie off every
route. -/
structure Lodged (t : ElasticTable K V) (loc : Nat × Nat) (x : UInt64) : Prop where
  fingerprint : (t.region loc.1).ctrl loc.2 = controlFingerprint x
  reachable : t.exceptional = true ∨ ∃ j, 0 < j ∧ t.Visits loc.1 j ∧ t.probeSlot x loc.1 j = some loc.2

/-- What lookups of a key that hashes to `x` rely on for an entry at `loc`. -/
structure Placed (filtered : Prop) (t : ElasticTable K V) (loc : Nat × Nat) (x : UInt64) : Prop
    extends t.Lodged loc x where
  recorded : filtered → t.Recorded loc x

def capacities (t : ElasticTable K V) : List Nat := t.levels.map fun l => l.region.capacity

structure Wf (t : ElasticTable K V) : Prop where
  levels : t.levels.length ≤ 32
  slots : t.capacities.sum = t.totalSlots
  small : ∀ cap ∈ t.capacities, cap ≤ u32Max
  maxInsertions : t.maxInsertions = Capacity.maxInsertions t.totalSlots t.reserveFraction
  filled : ∀ l ∈ t.levels, l.region.Filled
  fits : t.entries.length ≤ t.len
  limit : t.len ≤ t.maxInsertions
  words : t.membership.words = Membership.wordCount t.totalSlots
  highWater : t.priorHighWater.toNat ≤ queryPositionCap
  schedule : t.Scheduled
  lodged : ∀ loc e, t.Holds loc e → ∃ x, t.Lodged loc x

def Scaled (n : Nat) : Prop := n = 0 ∨ ∃ k, n = 2 ^ (k + 1)

structure Ready (t : ElasticTable K V) : Prop extends Wf t where
  scaled : Scaled t.totalSlots

structure Counted (t : ElasticTable K V) : Prop where
  len : t.len = t.entries.length
  levels : ∀ l ∈ t.levels, l.len = l.region.entries.length ∧ l.tombstones = l.region.tombstoneCount

def Sound (u : User W K V) (filtered : Prop) (t : ElasticTable K V) : Prop :=
  (filtered → u.Deterministic) → ∀ loc e, t.Holds loc e → ∃ x, u.Hashes e.1 x ∧ t.Placed filtered loc x

def recordAll (t : ElasticTable K V) (hashAt : Nat × Nat → UInt64) (locs : List (Nat × Nat)) : MembershipRegion :=
  .recordAll t.membership.words (locs.map fun loc => t.recording loc (hashAt loc))

/-- The filter is exactly what recording the stored entries into an empty one gives. -/
def Exact (u : User W K V) (t : ElasticTable K V) : Prop :=
  ∃ hashAt : Nat × Nat → UInt64, (∀ loc e, t.Holds loc e → u.Hashes e.1 (hashAt loc)) ∧
    t.membership = t.recordAll hashAt t.occupied

section Regions

theorem region_of_getElem? {level : Nat} {l : Level K V} (h : t.levels[level]? = some l) :
    t.region level = l.region := by
  rw [region, h]
  rfl

theorem level_of_lt {level : Nat} (h : level < t.levels.length) :
    ∃ l, l ∈ t.levels ∧ t.levels[level]? = some l ∧ t.region level = l.region :=
  ⟨t.levels[level], List.getElem_mem h, List.getElem?_eq_getElem h, region_of_getElem? (List.getElem?_eq_getElem h)⟩

theorem region_of_ge {level : Nat} (h : t.levels.length ≤ level) : t.region level = .empty 0 := by
  rw [region, List.getElem?_eq_none h]
  rfl

theorem capacity_region (level : Nat) : (t.region level).capacity = t.capacities.getD level 0 := by
  rw [region, capacities, List.getD_eq_getElem?_getD, List.getElem?_map]
  cases t.levels[level]? <;> rfl

theorem Holds.level_lt (h : t.Holds loc e) : loc.1 < t.levels.length := by
  by_contra hge
  have := h.1
  rw [region_of_ge (Nat.le_of_not_lt hge)] at this
  exact absurd this (Nat.not_lt_zero _)

theorem filled_region (h : t.Wf) (level : Nat) : (t.region level).Filled := by
  rcases Nat.lt_or_ge level t.levels.length with hlt | hge
  · obtain ⟨l, hl, -, hr⟩ := level_of_lt hlt
    rw [hr]
    exact h.filled l hl
  · rw [region_of_ge hge]
    exact Region.filled_empty

theorem Wf.capacity_le (h : t.Wf) (level : Nat) : (t.region level).capacity ≤ u32Max := by
  rcases Nat.lt_or_ge level t.levels.length with hlt | hge
  · obtain ⟨l, hl, -, hr⟩ := level_of_lt hlt
    rw [hr]
    exact h.small _ (List.mem_map_of_mem hl)
  · rw [region_of_ge hge]
    exact Nat.zero_le _

theorem probeSlot_lt (hw : t.Wf) {level j slot : Nat} (h : t.probeSlot x level j = some slot) :
    slot < (t.region level).capacity := by
  have hcap := hw.capacity_le level
  unfold probeSlot routePreparedCounterForUpper at h
  split at h
  · rename_i probe hprobe
    cases h
    refine elasticProbeIndex_lt ?_ hprobe
    unfold u32Max at hcap
    omega
  · cases h

theorem Wf.scannable (h : t.Wf) (level : Nat) : (t.region level).Scannable false := by
  refine ⟨?_, fun h => by cases h⟩
  have := h.capacity_le level
  unfold u32Max at this
  omega

theorem mem_entries : e ∈ t.entries ↔ ∃ loc, t.Holds loc e := by
  rw [entries, List.mem_flatMap]
  constructor
  · rintro ⟨l, hl, he⟩
    obtain ⟨level, hlevel⟩ := List.mem_iff_getElem?.mp hl
    obtain ⟨slot, hslot⟩ := Region.mem_entries.mp he
    refine ⟨(level, slot), ?_⟩
    rw [Holds, region_of_getElem? hlevel]
    exact hslot
  · rintro ⟨loc, he⟩
    obtain ⟨l, hl, -, hr⟩ := level_of_lt he.level_lt
    rw [Holds, hr] at he
    exact ⟨l, hl, Region.mem_entries.mpr ⟨loc.2, he⟩⟩

theorem mem_occupied : loc ∈ t.occupied ↔ loc.2 < (t.region loc.1).capacity ∧ (t.region loc.1).Occ loc.2 := by
  rw [occupied, List.mem_flatMap]
  constructor
  · rintro ⟨level, -, hloc⟩
    obtain ⟨slot, hslot, rfl⟩ := List.mem_map.mp hloc
    exact Region.mem_occupied _ |>.mp hslot
  · intro h
    have hlt : loc.1 < t.levels.length := by
      by_contra hge
      rw [region_of_ge (Nat.le_of_not_lt hge)] at h
      exact absurd h.1 (Nat.not_lt_zero _)
    exact ⟨loc.1, List.mem_range.mpr hlt, List.mem_map.mpr ⟨loc.2, (Region.mem_occupied _).mpr h, rfl⟩⟩

theorem Wf.holds (h : t.Wf) (hl : loc ∈ t.occupied) : ∃ e, t.Holds loc e := by
  obtain ⟨hlt, hocc⟩ := mem_occupied.mp hl
  exact (filled_region h loc.1).holds hlt hocc

theorem occupied_nodup : t.occupied.Nodup := by
  rw [occupied, List.nodup_flatMap]
  refine ⟨fun level _ => ?_, ?_⟩
  · exact ((t.region level).occupiedFrom_nodup 0).map fun _ _ h => (Prod.mk.inj h).2
  · refine List.nodup_range.imp fun {level level'} hne => ?_
    change List.Disjoint _ _
    rw [List.disjoint_left]
    intro loc h h'
    obtain ⟨slot, -, rfl⟩ := List.mem_map.mp h
    obtain ⟨slot', -, heq⟩ := List.mem_map.mp h'
    exact hne (Prod.mk.inj heq).1.symm

theorem regions_eq : t.levels.map Level.region = (List.range t.levels.length).map t.region := by
  apply List.ext_getElem?
  intro level
  rw [List.getElem?_map, List.getElem?_map]
  rcases Nat.lt_or_ge level t.levels.length with hlt | hge
  · rw [List.getElem?_range hlt, List.getElem?_eq_getElem hlt]
    exact congrArg some (region_of_getElem? (List.getElem?_eq_getElem hlt)).symm
  · rw [List.getElem?_eq_none hge, List.getElem?_eq_none (by rw [List.length_range]; exact hge)]
    rfl

theorem entries_eq : t.entries = (List.range t.levels.length).flatMap fun level => (t.region level).entries := by
  have h := congrArg (List.flatMap Region.entries) (regions_eq (t := t))
  rwa [List.flatMap_map, List.flatMap_map] at h

theorem holds_occupied (h : t.Wf) : List.Forall₂ t.Holds t.occupied t.entries := by
  rw [entries_eq, occupied]
  generalize List.range t.levels.length = levels
  induction levels with
  | nil => exact .nil
  | cons level levels ih =>
    rw [List.flatMap_cons, List.flatMap_cons]
    refine List.rel_append ?_ ih
    rw [List.forall₂_map_left_iff]
    exact Region.holds_occupied (filled_region h level)

theorem length_occupied (h : t.Wf) : t.occupied.length = t.entries.length := (holds_occupied h).length_eq

theorem Wf.exists_free (h : t.Wf) (hlt : t.entries.length < t.totalSlots) :
    ∃ loc, t.firstFreeSlot = some loc ∧ loc.1 < t.levels.length ∧ loc.2 < (t.region loc.1).capacity ∧
      isFree ((t.region loc.1).ctrl loc.2) := by
  cases hfind : t.firstFreeSlot with
  | some loc =>
    obtain ⟨level, hlevel, hmap⟩ := List.exists_of_findSome?_eq_some hfind
    obtain ⟨slot, hslot, rfl⟩ := Option.map_eq_some_iff.mp hmap
    have hfree := List.find?_some (p := fun slot => isFree ((t.region level).ctrl slot)) hslot
    exact ⟨_, rfl, List.mem_range.mp hlevel, List.mem_range.mp (List.mem_of_find?_eq_some hslot), hfree⟩
  | none =>
    have hfull : ∀ l ∈ t.levels, l.region.capacity ≤ l.region.entries.length := by
      intro l hl
      by_contra hroom
      obtain ⟨slot, hslot, hfree⟩ := Region.exists_free (h.filled l hl) (Nat.lt_of_not_le hroom)
      obtain ⟨level, hlevel⟩ := List.mem_iff_getElem?.mp hl
      have hnone := List.findSome?_eq_none_iff.mp hfind level
        (List.mem_range.mpr (List.getElem?_eq_some_iff.mp hlevel).1)
      rw [region_of_getElem? hlevel, Option.map_eq_none_iff] at hnone
      exact absurd hfree (List.find?_eq_none.mp hnone slot (List.mem_range.mpr hslot))
    have hsum : t.capacities.sum ≤ t.entries.length := by
      rw [capacities, entries, List.length_flatMap]
      exact List.sum_le_sum hfull
    rw [h.slots] at hsum
    omega

end Regions

section Extends

structure Extends (t t' : ElasticTable K V) : Prop where
  capacities : t'.capacities = t.capacities
  words : t'.membership.words = t.membership.words
  knows : ∀ r, t.membership.Knows r → t'.membership.Knows r
  exceptional : t.exceptional = true → t'.exceptional = true
  prior : t.priorHighWater.toNat ≤ t'.priorHighWater.toNat

theorem Extends.trans {t'' : ElasticTable K V} (h : t.Extends t') (h' : t'.Extends t'') : t.Extends t'' :=
  ⟨h'.capacities.trans h.capacities, h'.words.trans h.words, fun r hr => h'.knows r (h.knows r hr),
    fun he => h'.exceptional (h.exceptional he), Nat.le_trans h.prior h'.prior⟩

theorem capacity_congr (hc : t'.capacities = t.capacities) (level : Nat) :
    (t'.region level).capacity = (t.region level).capacity := by
  rw [capacity_region, capacity_region, hc]

theorem length_levels_congr (hc : t'.capacities = t.capacities) : t'.levels.length = t.levels.length := by
  have := congrArg List.length hc
  rwa [capacities, capacities, List.length_map, List.length_map] at this

theorem routeIn_congr (hc : t'.capacities = t.capacities) (level j : Nat) : t'.routeIn level j = t.routeIn level j := by
  rw [routeIn, routeIn, capacity_congr hc]

theorem probeSlot_congr (hc : t'.capacities = t.capacities) (x : UInt64) (level j : Nat) :
    t'.probeSlot x level j = t.probeSlot x level j := by
  rw [probeSlot, probeSlot, capacity_congr hc]

theorem recording_congr (hw : t'.membership.words = t.membership.words) (loc : Nat × Nat) (x : UInt64) :
    t'.recording loc x = t.recording loc x := by
  rw [recording, recording, hw]

theorem recordAll_congr {hashAt : Nat × Nat → UInt64} {locs : List (Nat × Nat)}
    (hw : t'.membership.words = t.membership.words) : t'.recordAll hashAt locs = t.recordAll hashAt locs := by
  simp only [recordAll, hw, recording_congr hw]

theorem recordAll_hashAt {hashAt hashAt' : Nat × Nat → UInt64} {locs : List (Nat × Nat)}
    (h : ∀ loc ∈ locs, hashAt' loc = hashAt loc) : t.recordAll hashAt' locs = t.recordAll hashAt locs := by
  rw [recordAll, recordAll, List.map_congr_left fun loc hloc => by rw [h loc hloc]]

theorem Lodged.mono (hl : t.Lodged loc x) (hcaps : t'.capacities = t.capacities)
    (hexceptional : t.exceptional = true → t'.exceptional = true)
    (hprior : t.priorHighWater.toNat ≤ t'.priorHighWater.toNat)
    (hc : (t'.region loc.1).ctrl loc.2 = (t.region loc.1).ctrl loc.2) : t'.Lodged loc x where
  fingerprint := hc.trans hl.fingerprint
  reachable := by
    refine hl.reachable.imp hexceptional ?_
    rintro ⟨j, hj, hvisits, hslot⟩
    refine ⟨j, hj, hvisits.imp_right fun hphi => Nat.le_trans hphi hprior, ?_⟩
    rw [probeSlot_congr hcaps]
    exact hslot

theorem Placed.mono (h : t.Extends t') (hp : t.Placed q loc x)
    (hc : (t'.region loc.1).ctrl loc.2 = (t.region loc.1).ctrl loc.2) : t'.Placed q loc x where
  toLodged := hp.toLodged.mono h.capacities h.exceptional h.prior hc
  recorded := by
    intro hq
    unfold Recorded
    rw [recording_congr h.words]
    exact h.knows _ (hp.recorded hq)

theorem Wf.lodged_mono (hw : t.Wf) (hcaps : t'.capacities = t.capacities)
    (hexceptional : t.exceptional = true → t'.exceptional = true)
    (hprior : t.priorHighWater.toNat ≤ t'.priorHighWater.toNat)
    (hold : ∀ loc e, t'.Holds loc e → (∃ e', t.Holds loc e') ∧
      (t'.region loc.1).ctrl loc.2 = (t.region loc.1).ctrl loc.2) :
    ∀ loc e, t'.Holds loc e → ∃ x, t'.Lodged loc x := by
  intro loc e he
  obtain ⟨⟨e', he'⟩, hctrl⟩ := hold loc e he
  obtain ⟨x, hx⟩ := hw.lodged loc e' he'
  exact ⟨x, hx.mono hcaps hexceptional hprior hctrl⟩

theorem Sound.mono (h : t.Extends t') (hs : t.Sound u q)
    (hold : ∀ loc e, t'.Holds loc e → ∃ e', e'.1 = e.1 ∧ t.Holds loc e' ∧
      (t'.region loc.1).ctrl loc.2 = (t.region loc.1).ctrl loc.2) : t'.Sound u q := by
  intro hd loc e he
  obtain ⟨e', hkey, he', hc⟩ := hold loc e he
  obtain ⟨x, hx, hp⟩ := hs hd loc e' he'
  exact ⟨x, hkey ▸ hx, hp.mono h hc⟩

theorem Extended.toExtends {highWater : Nat} (h : t.Extended highWater t') : t.Extends t' := by
  have heq := h.eq
  refine ⟨by rw [heq]; rfl, by rw [heq], fun r => by rw [heq]; exact id, ?_, ?_⟩
  · rw [h.flag]
    exact id
  · rw [h.prior]
    exact Nat.le_max_left ..

end Extends

end Opthash.Elastic.ElasticTable
