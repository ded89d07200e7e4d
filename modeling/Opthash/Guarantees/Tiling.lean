import Opthash.Elastic.Snug
import Opthash.Funnel.Layout
import Opthash.Raw.Tiling

namespace Opthash

open Tiles

namespace Elastic

/-- `try_alloc_elastic_arena` with the offsets of what it lays out. -/
def elasticArenaPlan (slotSize slotAlign : Nat) (levelCapacities : List Nat) : Except TryReserveError ArenaPlan :=
  match ElasticTable.totalCtrl levelCapacities with
  | none => .error .capacityOverflow
  | some total => do
    let base ← Arena.layoutFor slotSize slotAlign total
    let extended ← Arena.extendMembershipAt base.1 total
    let cursor ← LayoutCursor.new slotSize base.2
    let regions ← (reserveRegions levelCapacities cursor).1
    return ⟨extended.1, total, base.2, extended.2.1, extended.2.2, regions⟩

variable {K V : Type} {slotSize slotAlign : Nat} {caps : List Nat} {plan : ArenaPlan}

theorem elasticArenaPlan_spec (h : elasticArenaPlan slotSize slotAlign caps = .ok plan) (halign : 0 < slotAlign) :
    plan.regions.map ArenaRegion.capacity = caps ∧ plan.ctrlBytes = caps.sum ∧ plan.Exact slotSize caps.sum := by
  unfold elasticArenaPlan at h
  cases htotal : ElasticTable.totalCtrl caps with
  | none =>
    rw [htotal] at h
    cases h
  | some total =>
    rw [htotal] at h
    have hsum := ElasticTable.totalCtrl_spec htotal
    rw [Nat.zero_add] at hsum
    subst hsum
    obtain ⟨⟨base, off⟩, hbase, h⟩ := bind_ok h
    obtain ⟨⟨layout, tailOff, words⟩, hextended, h⟩ := bind_ok h
    obtain ⟨cursor, hcursor, h⟩ := bind_ok h
    obtain ⟨regions, hregions, h⟩ := bind_ok h
    cases h
    obtain ⟨dataOff, hdataOff, hcursor⟩ := bind_ok hcursor
    obtain ⟨size, hslotSize, hcursor⟩ := bind_ok hcursor
    cases hcursor
    obtain ⟨rfl, -⟩ := ElasticTable.checkedU32_spec hdataOff
    obtain ⟨rfl, -⟩ := ElasticTable.checkedU32_spec hslotSize
    obtain ⟨hle, hsize⟩ := Arena.layoutForExtents_sections halign hbase
    obtain ⟨hbaseSize, htail⟩ := Arena.extendMembershipAt_sections hextended
    obtain ⟨hcaps, hctrl, hdata, haligned⟩ :=
      reserveRegions_spec (Prod.ext hregions rfl : reserveRegions caps _ = (.ok regions, _))
    rw [Nat.zero_add] at hctrl
    exact ⟨hcaps, rfl, ArenaPlan.exact_of_sections hctrl hdata haligned (Nat.le_refl _) hle (hsize.trans hbaseSize)
      (htail.imp id fun h => ⟨hsize.trans h.1, h.2⟩)⟩

theorem reserveLevels_regions {c c' : LayoutCursor} {regions : List ArenaRegion}
    (h : reserveRegions caps c = (.ok regions, c')) :
    (ElasticTable.reserveLevels caps c : Except _ (List (Level K V))) =
      .ok (regions.map fun r => Level.newAt r.capacity) := by
  induction caps generalizing c regions with
  | nil =>
    cases h
    rfl
  | cons cap caps ih =>
    obtain ⟨hcap, hctrl, hdata, rest, hrest, rfl⟩ := reserveRegions_cons h
    have hbytes : cap * c.slotSize ≤ u32Max := (Nat.le_add_left ..).trans hdata
    rw [ElasticTable.reserveLevels, ElasticTable.checkedU32_ok hcap, ok_bind, LayoutCursor.reserve,
      ElasticTable.checkedU32_ok hctrl, ok_bind, ElasticTable.checkedU32_ok hbytes, ok_bind,
      ElasticTable.checkedU32_ok hdata, ok_bind]
    change (ElasticTable.reserveLevels caps _ >>= _) = _
    rw [ih hrest]
    rfl

theorem elasticArenaPlan_levels (h : elasticArenaPlan slotSize slotAlign caps = .ok plan) :
    ElasticTable.elasticArenaLayout slotSize slotAlign caps.sum = .ok (plan.layout, plan.dataBaseOff, plan.words) ∧
      (ElasticTable.buildElasticLevels slotSize plan.dataBaseOff caps : Except _ (List (Level K V))) =
        .ok (plan.regions.map fun r => Level.newAt r.capacity) := by
  unfold elasticArenaPlan at h
  cases htotal : ElasticTable.totalCtrl caps with
  | none =>
    rw [htotal] at h
    cases h
  | some total =>
    rw [htotal] at h
    have hsum := ElasticTable.totalCtrl_spec htotal
    rw [Nat.zero_add] at hsum
    subst hsum
    obtain ⟨⟨base, off⟩, hbase, h⟩ := bind_ok h
    obtain ⟨⟨layout, tailOff, words⟩, hextended, h⟩ := bind_ok h
    obtain ⟨cursor, hcursor, h⟩ := bind_ok h
    obtain ⟨regions, hregions, h⟩ := bind_ok h
    cases h
    constructor
    · rw [ElasticTable.elasticArenaLayout, hbase, ok_bind]
      dsimp only at hextended ⊢
      rw [Arena.extendMembership_eq, hextended]
      rfl
    · rw [ElasticTable.buildElasticLevels, hcursor, ok_bind]
      exact reserveLevels_regions (Prod.ext hregions rfl : reserveRegions caps _ = (.ok regions, _))

end Elastic

namespace Funnel

def controlBytes (group : GroupBackend) (n : Nat) : Except TryReserveError Nat :=
  if n = 0 then .ok 0 else orOverflow (checkedUsize (n + (group.groupSize - 1)))

/-- `try_allocate_storage` with the offsets of what it lays out. -/
def funnelArenaPlan (group : GroupBackend) (slotSize slotAlign n : Nat) : Except TryReserveError ArenaPlan := do
  let controlBytes ← controlBytes group n
  let base ← Arena.layoutForExtents slotSize slotAlign controlBytes n
  let extended ← Arena.extendMembershipAt base.1 n
  return ⟨extended.1, controlBytes, base.2, extended.2.1, extended.2.2, [⟨0, base.2, n⟩]⟩

variable {group : GroupBackend} {slotSize slotAlign n : Nat} {plan : ArenaPlan}

theorem funnelArenaPlan_layout : funnelLayout group slotSize slotAlign n =
    (funnelArenaPlan group slotSize slotAlign n).map fun plan => (plan.layout, plan.words) := by
  have hrest : ∀ bytes, (Arena.layoutForExtents slotSize slotAlign bytes n >>= fun base => Arena.extendMembership base.1 n) =
      (Arena.layoutForExtents slotSize slotAlign bytes n >>= fun base => Arena.extendMembershipAt base.1 n >>= fun extended =>
        pure (⟨extended.1, bytes, base.2, extended.2.1, extended.2.2, [⟨0, base.2, n⟩]⟩ : ArenaPlan)).map
          fun plan => (plan.layout, plan.words) := by
    intro bytes
    rcases Arena.layoutForExtents slotSize slotAlign bytes n with e | base
    · rfl
    · rw [ok_bind, ok_bind, Arena.extendMembership_eq]
      rcases Arena.extendMembershipAt base.1 n with e | p
      · rfl
      · rfl
  unfold funnelLayout funnelArenaPlan controlBytes
  by_cases hzero : n = 0
  · rw [if_pos hzero, if_pos hzero]
    exact hrest 0
  · rw [if_neg hzero, if_neg hzero]
    rcases orOverflow (checkedUsize (n + (group.groupSize - 1))) with e | bytes
    · rfl
    · exact hrest bytes

theorem funnelArenaPlan_spec (h : funnelArenaPlan group slotSize slotAlign n = .ok plan) (halign : 0 < slotAlign) :
    plan.regions.map ArenaRegion.capacity = [n] ∧
      plan.ctrlBytes = (if n = 0 then 0 else n + (group.groupSize - 1)) ∧ plan.Exact slotSize n := by
  obtain ⟨bytes, hbytes, h⟩ := bind_ok h
  obtain ⟨⟨base, off⟩, hbase, h⟩ := bind_ok h
  obtain ⟨⟨layout, tailOff, words⟩, hextended, h⟩ := bind_ok h
  cases h
  have hcontrol : bytes = if n = 0 then 0 else n + (group.groupSize - 1) := by
    unfold controlBytes at hbytes
    by_cases hzero : n = 0
    · rw [if_pos hzero] at hbytes ⊢
      cases hbytes
      rfl
    · rw [if_neg hzero] at hbytes ⊢
      exact (checkedUsize_spec (orOverflow_spec hbytes)).1
  have hslots : n ≤ bytes := by
    rw [hcontrol]
    split
    · omega
    · exact Nat.le_add_right ..
  obtain ⟨hle, hsize⟩ := Arena.layoutForExtents_sections halign hbase
  obtain ⟨hbaseSize, htail⟩ := Arena.extendMembershipAt_sections hextended
  refine ⟨rfl, hcontrol, ArenaPlan.exact_of_sections ?_ ?_ ?_ hslots hle (hsize.trans hbaseSize)
    (htail.imp id fun h => ⟨hsize.trans h.1, h.2⟩)⟩
  · exact .cons (by rw [Nat.zero_add]; exact .nil)
  · exact .cons .nil
  · intro r hr
    obtain rfl := List.mem_singleton.mp hr
    exact ⟨0, by rw [Nat.zero_mul, Nat.add_zero]⟩

end Funnel

/-- Whatever a layout is computed for, its regions tile their sections, its sections share no byte, and a cursor whose next
offset does not fit 32 bits stays where it is. -/
theorem arena_layout_tiles :
    (∀ (slotSize k : Nat) (caps : List Nat) (plan : ArenaPlan), Elastic.elasticArenaPlan slotSize (2 ^ k) caps = .ok plan →
      plan.regions.map ArenaRegion.capacity = caps ∧ plan.ctrlBytes = caps.sum ∧ plan.Exact slotSize caps.sum) ∧
    (∀ (c : LayoutCursor) (cap : Nat), LayoutCursor.reserveRegion cap c =
      if c.ctrlOff + cap ≤ u32Max ∧ c.dataOff + cap * c.slotSize ≤ u32Max then
        (.ok (c.ctrlOff, c.dataOff), ⟨c.ctrlOff + cap, c.dataOff + cap * c.slotSize, c.slotSize⟩)
      else (.error .capacityOverflow, c)) ∧
    ∀ (group : GroupBackend) (slotSize k n : Nat) (plan : ArenaPlan),
      Funnel.funnelArenaPlan group slotSize (2 ^ k) n = .ok plan →
        plan.regions.map ArenaRegion.capacity = [n] ∧
          plan.ctrlBytes = (if n = 0 then 0 else n + (group.groupSize - 1)) ∧ plan.Exact slotSize n := by
  refine ⟨fun slotSize k caps plan h => Elastic.elasticArenaPlan_spec h (Nat.two_pow_pos k), fun c cap => ?_,
    fun group slotSize k n plan h => Funnel.funnelArenaPlan_spec h (Nat.two_pow_pos k)⟩
  by_cases hfits : c.ctrlOff + cap ≤ u32Max ∧ c.dataOff + cap * c.slotSize ≤ u32Max
  · rw [if_pos hfits]
    exact LayoutCursor.reserveRegion_fits hfits.1 hfits.2
  · rw [if_neg hfits]
    exact LayoutCursor.reserveRegion_overflows hfits

/-- Three levels of sixteen-byte slots. -/
theorem arena_layout_tiles_three : ∃ plan, Elastic.elasticArenaPlan 16 (2 ^ 3) [8, 4, 4] = .ok plan ∧
    plan.regions.map ArenaRegion.capacity = [8, 4, 4] ∧ plan.ctrlBytes = 16 ∧ plan.Exact 16 16 := by
  obtain ⟨plan, hplan⟩ : ∃ plan, Elastic.elasticArenaPlan 16 (2 ^ 3) [8, 4, 4] = .ok plan := ⟨_, rfl⟩
  exact ⟨plan, hplan, arena_layout_tiles.1 16 3 [8, 4, 4] plan hplan⟩

end Opthash
