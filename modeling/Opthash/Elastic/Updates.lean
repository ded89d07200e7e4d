import Opthash.Elastic.Invariant

namespace Opthash.Elastic.ElasticTable

open Probe

variable {W K V : Type} {u : User W K V} {q : Prop} {t t' : ElasticTable K V} {loc : Nat × Nat} {e : K × V} {x : UInt64}

structure SamePlan (t t' : ElasticTable K V) : Prop where
  capacities : t'.capacities = t.capacities
  totalSlots : t'.totalSlots = t.totalSlots
  maxInsertions : t'.maxInsertions = t.maxInsertions
  reserveFraction : t'.reserveFraction = t.reserveFraction
  probeHighWater : t'.probeHighWater = t.probeHighWater
  probeSchedule : t'.probeSchedule = t.probeSchedule
  words : t'.membership.words = t.membership.words

namespace SamePlan

theorem prior (h : t.SamePlan t') : t'.priorHighWater = t.priorHighWater := by
  rw [priorHighWater, priorHighWater, h.probeHighWater]

theorem exceptional (h : t.SamePlan t') : t'.exceptional = t.exceptional := by
  rw [ElasticTable.exceptional, ElasticTable.exceptional, h.probeHighWater]

theorem wf (h : t.SamePlan t') (hw : t.Wf) (hfilled : ∀ l ∈ t'.levels, l.region.Filled)
    (hfits : t'.entries.length ≤ t'.len) (hlimit : t'.len ≤ t.maxInsertions)
    (hlodged : ∀ loc e, t'.Holds loc e → ∃ x, t'.Lodged loc x) : t'.Wf where
  levels := by rw [length_levels_congr h.capacities]; exact hw.levels
  slots := by rw [h.capacities, h.totalSlots]; exact hw.slots
  small := by rw [h.capacities]; exact hw.small
  maxInsertions := by rw [h.maxInsertions, h.totalSlots, h.reserveFraction]; exact hw.maxInsertions
  filled := hfilled
  fits := hfits
  limit := by rw [h.maxInsertions]; exact hlimit
  words := by rw [h.words, h.totalSlots]; exact hw.words
  highWater := by rw [h.prior]; exact hw.highWater
  schedule := hw.schedule.congr h.probeSchedule (length_levels_congr h.capacities) h.prior (routeIn_congr h.capacities)
  lodged := hlodged

theorem lodged (h : t.SamePlan t') (hw : t.Wf) (hold : ∀ loc e, t'.Holds loc e → (∃ e', t.Holds loc e') ∧
    (t'.region loc.1).ctrl loc.2 = (t.region loc.1).ctrl loc.2) : ∀ loc e, t'.Holds loc e → ∃ x, t'.Lodged loc x :=
  hw.lodged_mono h.capacities (fun he => by rw [h.exceptional]; exact he)
    (Nat.le_of_eq (congrArg UInt32.toNat h.prior.symm)) hold

theorem ready (h : t.SamePlan t') (hr : t.Ready) (hw : t'.Wf) : t'.Ready :=
  ⟨hw, by rw [h.totalSlots]; exact hr.scaled⟩

theorem toExtends (h : t.SamePlan t') (hknows : ∀ r, t.membership.Knows r → t'.membership.Knows r) :
    t.Extends t' :=
  ⟨h.capacities, h.words, hknows, fun he => by rw [h.exceptional]; exact he,
    Nat.le_of_eq (congrArg UInt32.toNat h.prior.symm)⟩

end SamePlan

section Modify

variable {level : Nat} {l : Level K V} {f : Level K V → Level K V}

theorem region_modify (hl : t.levels[level]? = some l) (hlevels : t'.levels = t.levels.modify level f)
    (level' : Nat) : t'.region level' = if level' = level then (f l).region else t.region level' := by
  rw [region, hlevels, List.getElem?_modify]
  split
  · rename_i h
    rw [if_pos h.symm, ← h, hl]
    rfl
  · rename_i h
    rw [if_neg fun h' => h h'.symm, id_map', region]

theorem entries_modify (hl : t.levels[level]? = some l) (hlevels : t'.levels = t.levels.modify level f) :
    ∃ rest, t.entries.Perm (l.region.entries ++ rest) ∧ t'.entries.Perm ((f l).region.entries ++ rest) := by
  rw [entries, entries, hlevels]
  exact Slots.flatMap_modify hl

theorem capacities_modify (hf : ∀ l, (f l).region.capacity = l.region.capacity)
    (hlevels : t'.levels = t.levels.modify level f) : t'.capacities = t.capacities := by
  rw [capacities, capacities, hlevels]
  exact Slots.map_modify hf

theorem levels_modify (hl : t.levels[level]? = some l) (hlevels : t'.levels = t.levels.modify level f)
    {P : Level K V → Prop} (h : ∀ l ∈ t.levels, P l) (hf : P l → P (f l)) : ∀ l ∈ t'.levels, P l := by
  intro m hm
  rw [hlevels] at hm
  rcases Slots.mem_modify hl hm with hm | rfl
  · exact h m hm
  · exact hf (h l (List.mem_of_getElem? hl))

end Modify

section Place

variable {k : K} {v : V}

/-- A new entry at a free location, as every insertion path writes it. -/
def place (t : ElasticTable K V) (loc : Nat × Nat) (k : K) (v : V) (x : UInt64) : ElasticTable K V :=
  t.writeNewEntry k v (.new x) (controlFingerprint x) loc.1 loc.2

structure Vacant (t : ElasticTable K V) (loc : Nat × Nat) : Prop where
  slot : loc.2 < (t.region loc.1).capacity
  free : isFree ((t.region loc.1).ctrl loc.2)

theorem Vacant.level (h : t.Vacant loc) :
    loc.1 < t.levels.length ∧ ∃ l, l ∈ t.levels ∧ t.levels[loc.1]? = some l ∧ t.region loc.1 = l.region := by
  have hlt : loc.1 < t.levels.length := by
    by_contra hge
    have := h.slot
    rw [region_of_ge (Nat.le_of_not_lt hge)] at this
    exact absurd this (Nat.not_lt_zero _)
  exact ⟨hlt, level_of_lt hlt⟩

theorem Vacant.of_capacities (h : t.Vacant loc) (hr : ∀ level, t'.region level = t.region level) : t'.Vacant loc :=
  ⟨by rw [hr]; exact h.slot, by rw [hr]; exact h.free⟩

theorem levels_place : (t.place loc k v x).levels =
    t.levels.modify loc.1 fun l => l.write loc.2 (k, v) (controlFingerprint x) := rfl

theorem region_place (h : t.Vacant loc) (level : Nat) : (t.place loc k v x).region level =
    if level = loc.1 then (t.region level).writeWithControl loc.2 (k, v) (controlFingerprint x)
    else t.region level := by
  obtain ⟨-, l, -, hl, hr⟩ := h.level
  rw [region_modify hl levels_place]
  split
  · rename_i hlevel
    rw [hlevel, hr]
    rfl
  · rfl

theorem samePlan_place : t.SamePlan (t.place loc k v x) where
  capacities := capacities_modify (f := fun l => l.write loc.2 (k, v) (controlFingerprint x)) (fun _ => rfl)
    levels_place
  totalSlots := rfl
  maxInsertions := rfl
  reserveFraction := rfl
  probeHighWater := rfl
  probeSchedule := rfl
  words := MembershipRegion.words_record

theorem holds_place (h : t.Vacant loc) {loc' : Nat × Nat} :
    (t.place loc k v x).Holds loc' e ↔ (loc' = loc ∧ e = (k, v)) ∨ (loc' ≠ loc ∧ t.Holds loc' e) := by
  rw [Holds, Holds, region_place h]
  split
  · rename_i hlevel
    rw [Region.holds_writeWithControl (isOccupied_controlFingerprint x)]
    have hloc : loc' = loc ↔ loc'.2 = loc.2 := ⟨fun h => by rw [h], fun h => Prod.ext hlevel h⟩
    rw [hlevel, ne_eq, ne_eq, hloc]
    have := h.slot
    tauto
  · rename_i hlevel
    have hloc : loc' ≠ loc := fun h => hlevel (congrArg Prod.fst h)
    simp only [hloc, false_and, ne_eq, not_false_eq_true, true_and, false_or]

theorem entries_place (h : t.Vacant loc) : (t.place loc k v x).entries.Perm ((k, v) :: t.entries) := by
  obtain ⟨-, l, -, hl, hr⟩ := h.level
  obtain ⟨rest, hrest, hrest'⟩ := entries_modify (f := fun l => l.write loc.2 (k, v) (controlFingerprint x)) hl
    (levels_place (k := k) (v := v) (x := x))
  have hslot := h.slot
  have hfree := h.free
  rw [hr] at hslot hfree
  have hwrite := Region.entries_writeWithControl (e := (k, v)) hslot (Region.not_occ_of_free hfree)
    (isOccupied_controlFingerprint x)
  exact hrest'.trans ((hwrite.append_right rest).trans (hrest.symm.cons _))

theorem ctrl_place_of_ne (h : t.Vacant loc) {loc' : Nat × Nat} (hne : loc' ≠ loc) :
    ((t.place loc k v x).region loc'.1).ctrl loc'.2 = (t.region loc'.1).ctrl loc'.2 := by
  rw [region_place h]
  split
  · rename_i hlevel
    rw [Region.ctrl_writeWithControl, if_neg fun hslot => hne (Prod.ext hlevel hslot)]
  · rfl

/-- Where a new entry goes: a free location its key's queries visit, unless the placement is exceptional. -/
structure Target (t : ElasticTable K V) (x : UInt64) (loc : Nat × Nat) : Prop where
  vacant : t.Vacant loc
  reachable : t.exceptional = true ∨ ∃ j, 0 < j ∧ t.Visits loc.1 j ∧ t.probeSlot x loc.1 j = some loc.2

theorem lodged_place (h : t.Target x loc) : (t.place loc k v x).Lodged loc x where
  fingerprint := by rw [region_place h.vacant, if_pos rfl, Region.ctrl_writeWithControl, if_pos rfl]
  reachable := by
    refine h.reachable.imp (fun he => by rw [samePlan_place.exceptional]; exact he) ?_
    rintro ⟨j, hj, hvisits, hslot⟩
    refine ⟨j, hj, hvisits, ?_⟩
    rw [probeSlot_congr samePlan_place.capacities]
    exact hslot

theorem wf_place (hw : t.Wf) (h : t.Target x loc) (hlen : t.len < t.maxInsertions) : (t.place loc k v x).Wf := by
  obtain ⟨-, l, -, hl, -⟩ := h.vacant.level
  apply samePlan_place.wf hw
  · exact levels_modify hl levels_place hw.filled fun hf =>
      Region.filled_writeWithControl hf (isOccupied_controlFingerprint x)
  · rw [(entries_place h.vacant).length_eq, List.length_cons]
    exact Nat.succ_le_succ hw.fits
  · exact hlen
  · intro loc' e he
    rcases (holds_place h.vacant).mp he with ⟨rfl, -⟩ | ⟨hne, he⟩
    · exact ⟨x, lodged_place h⟩
    · obtain ⟨y, hy⟩ := hw.lodged loc' e he
      exact ⟨y, hy.mono samePlan_place.capacities (fun he => by rw [samePlan_place.exceptional]; exact he)
        (Nat.le_refl _) (ctrl_place_of_ne h.vacant hne)⟩

theorem counted_place (h : t.Vacant loc) (hc : t.Counted) : (t.place loc k v x).Counted where
  len := by
    rw [(entries_place h).length_eq, List.length_cons, ← hc.len]
    rfl
  levels := by
    obtain ⟨-, l, -, hl, hr⟩ := h.level
    refine levels_modify hl levels_place hc.levels ?_
    rintro ⟨hlen, htomb⟩
    have hslot := h.slot
    have hfree := h.free
    rw [hr] at hslot hfree
    have hentries := (Region.entries_writeWithControl (e := (k, v)) hslot (Region.not_occ_of_free hfree)
      (isOccupied_controlFingerprint x)).length_eq
    have hcount := Region.tombstoneCount_writeWithControl (e := (k, v)) hslot (controlFingerprint_ne_ctrlTombstone x)
    rw [List.length_cons] at hentries
    refine ⟨by rw [Level.write, hentries, hlen], ?_⟩
    rw [Level.write]
    dsimp only
    split
    · rename_i hmark
      rw [if_pos hmark] at hcount
      rw [wrappingDec_of_pos (by omega)]
      omega
    · rename_i hmark
      rw [if_neg hmark] at hcount
      omega

theorem recorded_place (hw : t.membership.words ≠ 0) : (t.place loc k v x).Recorded loc x := by
  unfold Recorded
  rw [recording_congr samePlan_place.words]
  exact MembershipRegion.has_record hw (summaryBit_ne_zero loc.1)

theorem extends_place : t.Extends (t.place loc k v x) := samePlan_place.toExtends fun _ h => h.record

theorem sound_place (hw : t.Wf) (h : t.Target x loc) (hx : u.Hashes k x) (hs : t.Sound u q) :
    (t.place loc k v x).Sound u q := by
  intro hd loc' e he
  rcases (holds_place h.vacant).mp he with ⟨rfl, rfl⟩ | ⟨hne, he⟩
  · have hpos : 0 < t.totalSlots := by
      obtain ⟨hlt, l, hmem, -, hr⟩ := h.vacant.level
      have hcap := h.vacant.slot
      rw [hr] at hcap
      have hle := List.single_le_sum (fun _ _ => Nat.zero_le _) l.region.capacity
        (List.mem_map_of_mem (f := fun l : Level K V => l.region.capacity) hmem)
      rw [← hw.slots]
      exact Nat.lt_of_lt_of_le (Nat.zero_lt_of_lt hcap) hle
    refine ⟨x, hx, lodged_place h, fun _ => recorded_place ?_⟩
    rw [hw.words, Membership.wordCount, Membership.slotsPerWord]
    omega
  · obtain ⟨y, hy, hp⟩ := hs hd loc' e he
    exact ⟨y, hy, hp.mono extends_place (ctrl_place_of_ne h.vacant hne)⟩

theorem occupied_place (h : t.Vacant loc) : (t.place loc k v x).occupied.Perm (t.occupied ++ [loc]) := by
  apply (List.perm_ext_iff_of_nodup occupied_nodup ?_).mpr
  · intro loc'
    rw [mem_occupied, List.mem_append, List.mem_singleton, mem_occupied, region_place h]
    split
    · rename_i hlevel
      rw [Region.capacity_writeWithControl, Region.occ_writeWithControl (isOccupied_controlFingerprint x)]
      have hloc : loc' = loc ↔ loc'.2 = loc.2 := ⟨fun h => by rw [h], fun h => Prod.ext hlevel h⟩
      have hslot := h.slot
      rw [hloc, hlevel]
      split
      · rename_i heq
        rw [heq]
        simp [hslot]
      · rename_i hne
        simp [hne]
    · rename_i hlevel
      have hloc : loc' ≠ loc := fun h => hlevel (congrArg Prod.fst h)
      simp [hloc]
  · refine List.nodup_append.mpr ⟨occupied_nodup, List.nodup_singleton _, ?_⟩
    rintro a ha b hb rfl
    obtain rfl := List.mem_singleton.mp hb
    have hocc := (mem_occupied.mp ha).2
    rw [Region.not_occ_of_free h.free] at hocc
    cases hocc

theorem exact_place (h : t.Vacant loc) (hx : u.Hashes k x) (he : t.Exact u) : (t.place loc k v x).Exact u := by
  obtain ⟨hashAt, hhash, hmem⟩ := he
  have hfree := Region.not_occ_of_free h.free
  refine ⟨Function.update hashAt loc x, ?_, ?_⟩
  · intro loc' e he
    rcases (holds_place h).mp he with ⟨rfl, rfl⟩ | ⟨hne, he⟩
    · rwa [Function.update_self]
    · rw [Function.update_of_ne hne]
      exact hhash loc' e he
  · have hsame : t.recordAll (Function.update hashAt loc x) t.occupied = t.membership := by
      have hother : ∀ loc' ∈ t.occupied, Function.update hashAt loc x loc' = hashAt loc' := by
        intro loc' hloc'
        rw [Function.update_of_ne]
        rintro rfl
        rw [(mem_occupied.mp hloc').2] at hfree
        cases hfree
      rw [recordAll_hashAt hother, ← hmem]
    rw [recordAll, samePlan_place.words]
    simp only [recording_congr (t := t) samePlan_place.words]
    rw [MembershipRegion.recordAll_perm ((occupied_place h).map _), List.map_append, List.map_singleton,
      MembershipRegion.recordAll_append, ← recordAll, hsame, Function.update_self]
    rfl

end Place

section Take

variable {f : Level K V → Level K V} {mark : UInt8}

structure Taken (t : ElasticTable K V) (loc : Nat × Nat) (f : Level K V → Level K V) (mark : UInt8)
    (t' : ElasticTable K V) : Prop where
  levels : t'.levels = t.levels.modify loc.1 f
  region : ∀ l, (f l).region = l.region.setControl loc.2 mark
  free : isOccupied mark = false
  plan : t.SamePlan t'
  membership : t'.membership = t.membership

namespace Taken

theorem region_eq (h : t.Taken loc f mark t') (he : t.Holds loc e) (level : Nat) :
    t'.region level = if level = loc.1 then (t.region level).setControl loc.2 mark else t.region level := by
  obtain ⟨l, -, hl, hr⟩ := level_of_lt he.level_lt
  rw [region_modify hl h.levels]
  split
  · rename_i hlevel
    rw [hlevel, hr, h.region]
  · rfl

theorem holds (h : t.Taken loc f mark t') (he : t.Holds loc e) {loc' : Nat × Nat} {e' : K × V} :
    t'.Holds loc' e' ↔ loc' ≠ loc ∧ t.Holds loc' e' := by
  rw [Holds, Holds, h.region_eq he]
  split
  · rename_i hlevel
    rw [Region.holds_setControl h.free]
    have hloc : loc' = loc ↔ loc'.2 = loc.2 := ⟨fun h => by rw [h], fun h => Prod.ext hlevel h⟩
    rw [ne_eq, ne_eq, hloc]
  · rename_i hlevel
    have hloc : loc' ≠ loc := fun h => hlevel (congrArg Prod.fst h)
    simp only [hloc, ne_eq, not_false_eq_true, true_and]

theorem entries (h : t.Taken loc f mark t') (he : t.Holds loc e) : t.entries.Perm (e :: t'.entries) := by
  obtain ⟨l, -, hl, hr⟩ := level_of_lt he.level_lt
  obtain ⟨rest, hrest, hrest'⟩ := entries_modify hl h.levels
  rw [Holds, hr] at he
  rw [h.region] at hrest'
  have htake := Region.entries_setControl he h.free
  exact hrest.trans ((htake.append_right rest).trans (hrest'.symm.cons e))

theorem toExtends (h : t.Taken loc f mark t') : t.Extends t' :=
  h.plan.toExtends fun r hr => by rw [h.membership]; exact hr

theorem ctrl_of_ne (h : t.Taken loc f mark t') (he : t.Holds loc e) {loc' : Nat × Nat} (hne : loc' ≠ loc) :
    (t'.region loc'.1).ctrl loc'.2 = (t.region loc'.1).ctrl loc'.2 := by
  rw [h.region_eq he]
  split
  · rename_i hlevel
    rw [Region.ctrl_setControl, if_neg fun hslot => hne (Prod.ext hlevel hslot)]
  · rfl

theorem sound (h : t.Taken loc f mark t') (he : t.Holds loc e) (hs : t.Sound u q) : t'.Sound u q := by
  refine hs.mono h.toExtends ?_
  intro loc' e' he'
  obtain ⟨hne, he'⟩ := (h.holds he).mp he'
  exact ⟨e', rfl, he', h.ctrl_of_ne he hne⟩

theorem wf (h : t.Taken loc f mark t') (hw : t.Wf) (he : t.Holds loc e) (hlen : t.len ≤ t'.len + 1)
    (hle : t'.len ≤ t.len) : t'.Wf := by
  obtain ⟨l, -, hl, -⟩ := level_of_lt he.level_lt
  apply h.plan.wf hw
  · refine levels_modify hl h.levels hw.filled fun hf => ?_
    rw [h.region]
    exact Region.filled_setControl hf h.free
  · have := (h.entries he).length_eq
    have := hw.fits
    rw [List.length_cons] at *
    omega
  · exact Nat.le_trans hle hw.limit
  · refine h.plan.lodged hw ?_
    intro loc' e' he'
    obtain ⟨hne, he'⟩ := (h.holds he).mp he'
    exact ⟨⟨e', he'⟩, h.ctrl_of_ne he hne⟩

theorem counted (h : t.Taken loc f mark t') (he : t.Holds loc e) (hlen : t'.len = t.len - 1)
    (hlevel : ∀ l ∈ t.levels, l.region.Holds loc.2 e → l.len = l.region.entries.length ∧
      l.tombstones = l.region.tombstoneCount →
      (f l).len = l.len - 1 ∧ (f l).tombstones = (f l).region.tombstoneCount) (hc : t.Counted) : t'.Counted where
  len := by
    have := (h.entries he).length_eq
    have := hc.len
    rw [List.length_cons] at *
    omega
  levels := by
    obtain ⟨l, hmem, hl, hr⟩ := level_of_lt he.level_lt
    rw [Holds, hr] at he
    refine levels_modify hl h.levels hc.levels fun hl => ?_
    obtain ⟨hlen, htomb⟩ := hlevel l hmem he hl
    have := (Region.entries_setControl he h.free).length_eq
    rw [List.length_cons] at this
    refine ⟨?_, htomb⟩
    rw [hlen, h.region, hl.1]
    omega

end Taken

theorem len_pos (hw : t.Wf) (he : t.Holds loc e) : 0 < t.len := by
  have := List.length_pos_of_mem (mem_entries.mpr ⟨loc, he⟩)
  have := hw.fits
  omega

theorem taken_extractFinish : t.Taken loc (fun l => l.extractFinish loc.2) ctrlTombstone (t.extractFinish loc) where
  levels := rfl
  region := fun _ => rfl
  free := isOccupied_ctrlTombstone
  plan := ⟨capacities_modify (f := fun l => l.extractFinish loc.2) (fun _ => rfl) rfl, rfl, rfl, rfl, rfl, rfl, rfl⟩
  membership := rfl

theorem taken_tombstoneSlot : t.Taken loc (fun l => l.tombstoneSlot loc.2) ctrlTombstone (t.tombstoneSlot loc) where
  levels := rfl
  region := fun _ => rfl
  free := isOccupied_ctrlTombstone
  plan := ⟨capacities_modify (f := fun l => l.tombstoneSlot loc.2) (fun _ => rfl) rfl, rfl, rfl, rfl, rfl, rfl, rfl⟩
  membership := rfl

def drainSlot (t : ElasticTable K V) (loc : Nat × Nat) : ElasticTable K V :=
  { t.modifyLevel loc.1 (fun l => l.emptySlot loc.2) with len := t.len - 1 }

theorem taken_drainSlot : t.Taken loc (fun l => l.emptySlot loc.2) ctrlEmpty (t.drainSlot loc) where
  levels := rfl
  region := fun _ => rfl
  free := isOccupied_ctrlEmpty
  plan := ⟨capacities_modify (f := fun l => l.emptySlot loc.2) (fun _ => rfl) rfl, rfl, rfl, rfl, rfl, rfl, rfl⟩
  membership := rfl

theorem counted_extractFinish (hw : t.Wf) (he : t.Holds loc e) (hc : t.Counted) : (t.extractFinish loc).Counted := by
  refine taken_extractFinish.counted he rfl ?_ hc
  rintro l hl hholds ⟨-, htomb⟩
  refine ⟨rfl, ?_⟩
  have hle := Region.tombstones_and_entries_le (hw.filled l hl)
  have hpos := List.length_pos_of_mem (Region.mem_entries.mpr ⟨loc.2, hholds⟩)
  have hcap := hw.small _ (List.mem_map_of_mem (f := fun l : Level K V => l.region.capacity) hl)
  rw [Level.extractFinish, Region.tombstoneCount_mark hholds, htomb, wrappingInc, if_neg (by omega)]

theorem counted_drainSlot (he : t.Holds loc e) (hc : t.Counted) : (t.drainSlot loc).Counted := by
  refine taken_drainSlot.counted he rfl ?_ hc
  rintro l - hholds ⟨-, htomb⟩
  refine ⟨rfl, ?_⟩
  rw [Level.emptySlot, Region.tombstoneCount_empty_slot hholds, htomb]

end Take

section Replace

variable {v : V}

theorem levels_replaceValue : (t.replaceValue loc e.1 v).levels =
    t.levels.modify loc.1 fun l => { l with region := l.region.setSlot loc.2 (e.1, v) } := rfl

theorem region_replaceValue (he : t.Holds loc e) (level : Nat) : (t.replaceValue loc e.1 v).region level =
    if level = loc.1 then (t.region level).setSlot loc.2 (e.1, v) else t.region level := by
  obtain ⟨l, -, hl, hr⟩ := level_of_lt he.level_lt
  rw [region_modify hl levels_replaceValue]
  split
  · rename_i hlevel
    rw [hlevel, hr]
  · rfl

theorem samePlan_replaceValue : t.SamePlan (t.replaceValue loc e.1 v) :=
  ⟨capacities_modify (f := fun l => { l with region := l.region.setSlot loc.2 (e.1, v) }) (fun _ => rfl)
    levels_replaceValue, rfl, rfl, rfl, rfl, rfl, rfl⟩

theorem holds_replaceValue (he : t.Holds loc e) {loc' : Nat × Nat} {e' : K × V} :
    (t.replaceValue loc e.1 v).Holds loc' e' ↔ (loc' = loc ∧ e' = (e.1, v)) ∨ (loc' ≠ loc ∧ t.Holds loc' e') := by
  rw [Holds, Holds, region_replaceValue he]
  split
  · rename_i hlevel
    have hloc : loc' = loc ↔ loc'.2 = loc.2 := ⟨fun h => by rw [h], fun h => Prod.ext hlevel h⟩
    rw [Region.holds_setSlot (by rw [hlevel]; exact he), ne_eq, ne_eq, hloc]
  · rename_i hlevel
    have hloc : loc' ≠ loc := fun h => hlevel (congrArg Prod.fst h)
    simp only [hloc, false_and, ne_eq, not_false_eq_true, true_and, false_or]

theorem entries_replaceValue (he : t.Holds loc e) :
    ∃ rest, t.entries.Perm (e :: rest) ∧ (t.replaceValue loc e.1 v).entries.Perm ((e.1, v) :: rest) := by
  obtain ⟨l, -, hl, hr⟩ := level_of_lt he.level_lt
  obtain ⟨others, hothers, hothers'⟩ := entries_modify (f := fun l => { l with region := l.region.setSlot loc.2 (e.1, v) })
    hl (levels_replaceValue (t := t) (e := e) (v := v))
  rw [Holds, hr] at he
  obtain ⟨rest, hrest, hrest'⟩ := @Region.entries_setSlot _ _ _ _ (e.1, v) he
  exact ⟨rest ++ others, hothers.trans (hrest.append_right others), hothers'.trans (hrest'.append_right others)⟩

theorem replaceValue_keeps (he : t.Holds loc e) (loc' : Nat × Nat) (e' : K × V)
    (he' : (t.replaceValue loc e.1 v).Holds loc' e') : ∃ e'', e''.1 = e'.1 ∧ t.Holds loc' e'' ∧
      ((t.replaceValue loc e.1 v).region loc'.1).ctrl loc'.2 = (t.region loc'.1).ctrl loc'.2 := by
  have hctrl : ((t.replaceValue loc e.1 v).region loc'.1).ctrl loc'.2 = (t.region loc'.1).ctrl loc'.2 := by
    rw [region_replaceValue he]
    split <;> rfl
  rcases (holds_replaceValue he).mp he' with ⟨rfl, rfl⟩ | ⟨-, he'⟩
  · exact ⟨e, rfl, he, hctrl⟩
  · exact ⟨e', rfl, he', hctrl⟩

theorem wf_replaceValue (hw : t.Wf) (he : t.Holds loc e) : (t.replaceValue loc e.1 v).Wf := by
  obtain ⟨l, -, hl, -⟩ := level_of_lt he.level_lt
  apply samePlan_replaceValue.wf hw
  · exact levels_modify hl levels_replaceValue hw.filled fun hf => Region.filled_setSlot hf
  · obtain ⟨rest, h, h'⟩ := entries_replaceValue (v := v) he
    have := hw.fits
    rw [h'.length_eq]
    rwa [h.length_eq] at this
  · exact hw.limit
  · refine samePlan_replaceValue.lodged hw ?_
    intro loc' e' he'
    obtain ⟨e'', -, he'', hctrl⟩ := replaceValue_keeps he loc' e' he'
    exact ⟨⟨e'', he''⟩, hctrl⟩

theorem counted_replaceValue (he : t.Holds loc e) (hc : t.Counted) : (t.replaceValue loc e.1 v).Counted where
  len := by
    obtain ⟨rest, h, h'⟩ := entries_replaceValue (v := v) he
    have := hc.len
    rw [h'.length_eq]
    rwa [h.length_eq] at this
  levels := by
    obtain ⟨l, -, hl, hr⟩ := level_of_lt he.level_lt
    rw [Holds, hr] at he
    refine levels_modify hl levels_replaceValue hc.levels ?_
    rintro ⟨hlen, htomb⟩
    obtain ⟨rest, h, h'⟩ := @Region.entries_setSlot _ _ _ _ (e.1, v) he
    refine ⟨?_, htomb⟩
    rw [hlen, h.length_eq]
    exact h'.length_eq.symm

theorem sound_replaceValue (he : t.Holds loc e) (hs : t.Sound u q) : (t.replaceValue loc e.1 v).Sound u q :=
  hs.mono (samePlan_replaceValue.toExtends fun _ => id) (replaceValue_keeps he)

end Replace

section Clear

theorem sound_of_entries_nil (h : t.entries = []) : t.Sound u q := by
  intro _ loc e he
  have hmem := mem_entries.mpr ⟨loc, he⟩
  rw [h] at hmem
  cases hmem

theorem lodged_of_entries_nil (h : t.entries = []) : ∀ loc e, t.Holds loc e → ∃ x, t.Lodged loc x := by
  intro loc e he
  have hmem := mem_entries.mpr ⟨loc, he⟩
  rw [h] at hmem
  cases hmem

theorem prior_resetAfterClear : t.resetAfterClear.priorHighWater.toNat = 0 := by
  change (0 &&& ~~~exceptionalPlacementFlag).toNat = 0
  decide

theorem wf_resetAfterClear (hw : t.Wf) (hnil : t.entries = []) : t.resetAfterClear.Wf where
  levels := hw.levels
  slots := hw.slots
  small := hw.small
  maxInsertions := hw.maxInsertions
  filled := hw.filled
  fits := hw.fits
  limit := hw.limit
  words := hw.words
  highWater := by
    rw [prior_resetAfterClear]
    exact Nat.zero_le _
  schedule := scheduled_nil rfl prior_resetAfterClear
  lodged := lodged_of_entries_nil hnil

theorem entries_wipeAll : t.wipeAll.entries = [] := by
  have hnil : ∀ l ∈ t.wipeAll.levels, l.region.entries = [] := by
    intro l hl
    obtain ⟨l, -, rfl⟩ := List.mem_map.mp hl
    exact Region.entries_clearAllControls
  exact List.flatMap_eq_nil_iff.mpr hnil

theorem wf_wipeAll (hw : t.Wf) : t.wipeAll.Wf := by
  have hplan : t.SamePlan { t with levels := t.levels.map Level.wipe, len := 0 } := by
    refine ⟨?_, rfl, rfl, rfl, rfl, rfl, rfl⟩
    rw [capacities, List.map_map]
    rfl
  refine wf_resetAfterClear (hplan.wf hw ?_ ?_ (Nat.zero_le _) (lodged_of_entries_nil entries_wipeAll)) entries_wipeAll
  · intro _ hwiped
    obtain ⟨l, hl, rfl⟩ := List.mem_map.mp hwiped
    exact Region.filled_clearAllControls (hw.filled l hl)
  · exact Nat.le_of_eq (congrArg List.length entries_wipeAll)

theorem clean_wipeAll : ∀ l ∈ t.wipeAll.levels, l.tombstones = 0 := by
  intro _ hwiped
  obtain ⟨l, -, rfl⟩ := List.mem_map.mp hwiped
  rfl

theorem ready_wipeAll (hr : t.Ready) : t.wipeAll.Ready := ⟨wf_wipeAll hr.toWf, hr.scaled⟩

theorem counted_wipeAll : t.wipeAll.Counted where
  len := (congrArg List.length entries_wipeAll).symm
  levels := by
    intro l hl
    obtain ⟨l, -, rfl⟩ := List.mem_map.mp hl
    refine ⟨?_, Region.tombstoneCount_clearAllControls.symm⟩
    exact (congrArg List.length Region.entries_clearAllControls).symm

end Clear

end Opthash.Elastic.ElasticTable
