import Opthash.Lib.Tiles
import Opthash.Raw.Arena

namespace Opthash

open Tiles

namespace LayoutCursor

/-- `reserve` on the cursor itself: the offsets of the region, or an error that leaves the cursor as it was. -/
def reserveRegion (cap : Nat) : Exec TryReserveError LayoutCursor (Nat × Nat) := do
  let c ← Exec.get
  let nextCtrlOff ← Exec.expect .capacityOverflow (if c.ctrlOff + cap ≤ u32Max then some (c.ctrlOff + cap) else none)
  let dataBytes ← Exec.expect .capacityOverflow (if cap * c.slotSize ≤ u32Max then some (cap * c.slotSize) else none)
  let nextDataOff ← Exec.expect .capacityOverflow
    (if c.dataOff + dataBytes ≤ u32Max then some (c.dataOff + dataBytes) else none)
  Exec.modify fun c => { c with ctrlOff := nextCtrlOff, dataOff := nextDataOff }
  pure (c.ctrlOff, c.dataOff)

variable {c c' : LayoutCursor} {cap : Nat}

theorem reserveRegion_fits (hctrl : c.ctrlOff + cap ≤ u32Max) (hdata : c.dataOff + cap * c.slotSize ≤ u32Max) :
    reserveRegion cap c =
      (.ok (c.ctrlOff, c.dataOff), { c with ctrlOff := c.ctrlOff + cap, dataOff := c.dataOff + cap * c.slotSize }) := by
  have hbytes : cap * c.slotSize ≤ u32Max := (Nat.le_add_left ..).trans hdata
  simp only [reserveRegion, Exec.bind_apply, Exec.get, if_pos hctrl, if_pos hbytes, if_pos hdata, Exec.expect,
    Exec.pure_apply, Exec.modify]

theorem reserveRegion_overflows (h : ¬(c.ctrlOff + cap ≤ u32Max ∧ c.dataOff + cap * c.slotSize ≤ u32Max)) :
    reserveRegion cap c = (.error .capacityOverflow, c) := by
  simp only [reserveRegion, Exec.bind_apply, Exec.get]
  by_cases hctrl : c.ctrlOff + cap ≤ u32Max
  · have hdata : ¬c.dataOff + cap * c.slotSize ≤ u32Max := fun hdata => h ⟨hctrl, hdata⟩
    rw [if_pos hctrl]
    by_cases hbytes : cap * c.slotSize ≤ u32Max
    · rw [if_pos hbytes]
      simp only [Exec.expect, Exec.pure_apply, if_neg hdata, Exec.raise]
    · rw [if_neg hbytes]
      simp only [Exec.expect, Exec.pure_apply, Exec.raise]
  · rw [if_neg hctrl]
    simp only [Exec.expect, Exec.raise]

/-- The cursor of the code and the value it is modelled by elsewhere move alike. -/
theorem reserveRegion_eq : reserveRegion cap c = match c.reserve cap with
    | .ok c' => (.ok (c.ctrlOff, c.dataOff), c')
    | .error e => (.error e, c) := by
  by_cases hfits : c.ctrlOff + cap ≤ u32Max ∧ c.dataOff + cap * c.slotSize ≤ u32Max
  · have hbytes : cap * c.slotSize ≤ u32Max := (Nat.le_add_left ..).trans hfits.2
    have hreserve : c.reserve cap =
        .ok { c with ctrlOff := c.ctrlOff + cap, dataOff := c.dataOff + cap * c.slotSize } := by
      simp only [reserve, checkedU32, if_pos hfits.1, if_pos hbytes, if_pos hfits.2, ok_bind]
      rfl
    rw [reserveRegion_fits hfits.1 hfits.2, hreserve]
  · have hreserve : c.reserve cap = .error .capacityOverflow := by
      simp only [reserve, checkedU32]
      by_cases hctrl : c.ctrlOff + cap ≤ u32Max
      · have hdata : ¬c.dataOff + cap * c.slotSize ≤ u32Max := fun hdata => hfits ⟨hctrl, hdata⟩
        rw [if_pos hctrl, ok_bind]
        by_cases hbytes : cap * c.slotSize ≤ u32Max
        · rw [if_pos hbytes, ok_bind, if_neg hdata]
          rfl
        · rw [if_neg hbytes]
          rfl
      · rw [if_neg hctrl]
        rfl
    rw [reserveRegion_overflows hfits, hreserve]

end LayoutCursor

structure ArenaRegion where
  ctrlOff : Nat
  dataOff : Nat
  capacity : Nat
  deriving DecidableEq, Repr

namespace ArenaRegion

variable (slotSize : Nat) (r : ArenaRegion)

def ctrl : Extent := ⟨r.ctrlOff, r.capacity⟩

def data : Extent := ⟨r.dataOff, r.capacity * slotSize⟩

end ArenaRegion

section Regions

def reserveRegions : List Nat → Exec TryReserveError LayoutCursor (List ArenaRegion)
  | [] => pure []
  | cap :: caps => do
    let cap ← Exec.expect .capacityOverflow (if cap ≤ u32Max then some cap else none)
    let offsets ← LayoutCursor.reserveRegion cap
    let regions ← reserveRegions caps
    pure (⟨offsets.1, offsets.2, cap⟩ :: regions)

variable {c c' : LayoutCursor} {cap : Nat} {caps : List Nat} {regions : List ArenaRegion}

theorem reserveRegions_cons (h : reserveRegions (cap :: caps) c = (.ok regions, c')) :
    cap ≤ u32Max ∧ c.ctrlOff + cap ≤ u32Max ∧ c.dataOff + cap * c.slotSize ≤ u32Max ∧ ∃ rest,
      reserveRegions caps { c with ctrlOff := c.ctrlOff + cap, dataOff := c.dataOff + cap * c.slotSize } = (.ok rest, c') ∧
        regions = ⟨c.ctrlOff, c.dataOff, cap⟩ :: rest := by
  rw [reserveRegions, Exec.bind_apply] at h
  by_cases hcap : cap ≤ u32Max
  · rw [if_pos hcap] at h
    by_cases hfits : c.ctrlOff + cap ≤ u32Max ∧ c.dataOff + cap * c.slotSize ≤ u32Max
    · simp only [Exec.expect, Exec.pure_apply, Exec.bind_apply, LayoutCursor.reserveRegion_fits hfits.1 hfits.2] at h
      refine ⟨hcap, hfits.1, hfits.2, ?_⟩
      generalize reserveRegions caps _ = result at h ⊢
      obtain ⟨_ | rest, c''⟩ := result
      · cases h
      · cases h
        exact ⟨rest, rfl, rfl⟩
    · simp only [Exec.expect, Exec.pure_apply, Exec.bind_apply, LayoutCursor.reserveRegion_overflows hfits] at h
      cases h
  · rw [if_neg hcap] at h
    cases h

structure Reserved (c : LayoutCursor) (caps : List Nat) (regions : List ArenaRegion) : Prop where
  capacities : regions.map ArenaRegion.capacity = caps
  ctrl : Tiled c.ctrlOff (regions.map ArenaRegion.ctrl) (c.ctrlOff + caps.sum)
  data : Tiled c.dataOff (regions.map (ArenaRegion.data c.slotSize)) (c.dataOff + caps.sum * c.slotSize)
  aligned : ∀ r ∈ regions, ∃ slots, r.dataOff = c.dataOff + slots * c.slotSize

theorem reserveRegions_spec (h : reserveRegions caps c = (.ok regions, c')) : Reserved c caps regions := by
  induction caps generalizing c regions with
  | nil =>
    cases h
    refine ⟨rfl, .nil, ?_, fun r hr => by cases hr⟩
    rw [List.sum_nil, Nat.zero_mul]
    exact .nil
  | cons cap caps ih =>
    obtain ⟨-, -, -, rest, hrest, rfl⟩ := reserveRegions_cons h
    obtain ⟨hcaps, hctrl, hdata, haligned⟩ := ih hrest
    refine ⟨congrArg (cap :: ·) hcaps, .cons ?_, .cons ?_, ?_⟩
    · rw [List.sum_cons, ← Nat.add_assoc]
      exact hctrl
    · rw [List.sum_cons, Nat.add_mul, ← Nat.add_assoc]
      exact hdata
    · intro r hr
      rcases List.mem_cons.mp hr with rfl | hr
      · exact ⟨0, by rw [Nat.zero_mul, Nat.add_zero]⟩
      · obtain ⟨slots, hslots⟩ := haligned r hr
        exact ⟨cap + slots, by rw [hslots, Nat.add_mul, Nat.add_assoc]⟩

end Regions

namespace Layout

theorem le_roundUp (size : Nat) {align : Nat} (h : 0 < align) : size ≤ roundUp size align := by
  have hdiv := Nat.div_add_mod (size + align - 1) align
  have hmod := Nat.mod_lt (size + align - 1) h
  rw [roundUp, Nat.mul_comm]
  omega

theorem extend_spec {l next layout : Layout} {offset : Nat} (halign : 0 < next.align)
    (h : l.extend next = .ok (layout, offset)) :
    l.size ≤ offset ∧ offset + next.size = layout.size ∧ next.align ≤ layout.align := by
  obtain ⟨layout', hlayout, h⟩ := bind_ok h
  cases h
  obtain ⟨rfl, -⟩ := fromSizeAlign_spec hlayout
  exact ⟨le_roundUp _ halign, rfl, Nat.le_max_right ..⟩

theorem size_le_padToAlign {l : Layout} (h : 0 < l.align) : l.size ≤ l.padToAlign.size := le_roundUp _ h

end Layout

namespace Arena

def extendMembershipAt (base : Layout) (totalSlots : Nat) : Except TryReserveError (Layout × Nat × Nat) := do
  let words := Membership.wordCount totalSlots
  if words = 0 then
    return (base, 0, 0)
  let tail ← Layout.array 16 8 words
  let extended ← base.extend tail
  return (extended.1.padToAlign, extended.2, words)

variable {slotSize slotAlign ctrlBytes dataSlots n offset words : Nat} {base layout : Layout}

theorem extendMembership_eq : extendMembership base n = (extendMembershipAt base n).map fun p => (p.1, p.2.2) := by
  unfold extendMembership extendMembershipAt
  dsimp only
  by_cases hwords : Membership.wordCount n = 0
  · rw [if_pos hwords, if_pos hwords]
    rfl
  · rw [if_neg hwords, if_neg hwords]
    rcases Layout.array 16 8 (Membership.wordCount n) with e | tail
    · rfl
    · rw [ok_bind, ok_bind]
      rcases base.extend tail with e | p
      · rfl
      · rfl

theorem layoutForExtents_sections (halign : 0 < slotAlign)
    (h : layoutForExtents slotSize slotAlign ctrlBytes dataSlots = .ok (layout, offset)) :
    ctrlBytes ≤ offset ∧ offset + dataSlots * slotSize ≤ layout.size := by
  unfold layoutForExtents at h
  by_cases hzero : ctrlBytes = 0 ∧ dataSlots = 0
  · rw [if_pos hzero] at h
    cases h
    rw [hzero.1, hzero.2, Nat.zero_mul]
    exact ⟨Nat.le_refl _, Nat.le_refl _⟩
  · rw [if_neg hzero] at h
    obtain ⟨ctrlLayout, hctrlLayout, h⟩ := bind_ok h
    obtain ⟨dataLayout, hdataLayout, h⟩ := bind_ok h
    obtain ⟨⟨arena, offset'⟩, harena, h⟩ := bind_ok h
    cases h
    obtain ⟨rfl, -⟩ := Layout.fromSizeAlign_spec hctrlLayout
    obtain ⟨rfl, -⟩ := Layout.fromSizeAlign_spec hdataLayout
    obtain ⟨hle, hsize, hpos⟩ := Layout.extend_spec halign harena
    have hpad := Layout.size_le_padToAlign (halign.trans_le hpos)
    refine ⟨hle, ?_⟩
    rw [Nat.mul_comm]
    exact hsize.le.trans hpad

theorem extendMembershipAt_sections (h : extendMembershipAt base n = .ok (layout, offset, words)) :
    base.size ≤ layout.size ∧ (words = 0 ∨ base.size ≤ offset ∧ offset + 16 * words ≤ layout.size) := by
  unfold extendMembershipAt at h
  dsimp only at h
  by_cases hwords : Membership.wordCount n = 0
  · rw [if_pos hwords] at h
    cases h
    exact ⟨Nat.le_refl _, .inl rfl⟩
  · rw [if_neg hwords] at h
    obtain ⟨tail, htail, h⟩ := bind_ok h
    obtain ⟨⟨extended, offset'⟩, hextended, h⟩ := bind_ok h
    cases h
    obtain ⟨rfl, -⟩ := Layout.fromSizeAlign_spec htail
    obtain ⟨hle, hsize, hpos⟩ := Layout.extend_spec (by decide : 0 < 8) hextended
    have hpad := Layout.size_le_padToAlign (Nat.lt_of_lt_of_le (by decide : 0 < 8) hpos)
    refine ⟨(hle.trans ((Nat.le_add_right ..).trans hsize.le)).trans hpad, .inr ⟨hle, hsize.le.trans hpad⟩⟩

end Arena

/-- An arena as it is laid out: its control bytes, its regions and the tail of metadata words. -/
structure ArenaPlan where
  layout : Layout
  ctrlBytes : Nat
  dataBaseOff : Nat
  tailOff : Nat
  words : Nat
  regions : List ArenaRegion

namespace ArenaPlan

variable (slotSize : Nat) (plan : ArenaPlan)

def control : Extent := ⟨0, plan.ctrlBytes⟩

def tail : Extent := ⟨plan.tailOff, 16 * plan.words⟩

/-- The regions of an arena for `slots` slots tile its control and data sections, and no two sections share a byte. -/
structure Exact (slots : Nat) : Prop where
  ctrl : Tiled 0 (plan.regions.map ArenaRegion.ctrl) slots
  data : Tiled plan.dataBaseOff (plan.regions.map (ArenaRegion.data slotSize)) (plan.dataBaseOff + slots * slotSize)
  ctrlApart : plan.regions.Pairwise fun r r' => Disjoint r.ctrl.cells r'.ctrl.cells
  dataApart : plan.regions.Pairwise fun r r' => Disjoint (r.data slotSize).cells (r'.data slotSize).cells
  aligned : ∀ r ∈ plan.regions, ∃ before, r.dataOff = plan.dataBaseOff + before * slotSize
  ctrlWithin : ∀ r ∈ plan.regions, r.ctrl.cells ⊆ plan.control.cells
  ctrlData : ∀ r ∈ plan.regions, Disjoint plan.control.cells (r.data slotSize).cells
  ctrlTail : Disjoint plan.control.cells plan.tail.cells
  dataTail : ∀ r ∈ plan.regions, Disjoint (r.data slotSize).cells plan.tail.cells
  ctrlInside : plan.control.cells ⊆ Set.Ico 0 plan.layout.size
  dataInside : ∀ r ∈ plan.regions, (r.data slotSize).cells ⊆ Set.Ico 0 plan.layout.size
  tailInside : plan.tail.cells ⊆ Set.Ico 0 plan.layout.size

variable {slotSize plan} {slots : Nat}

theorem exact_of_sections (hctrl : Tiled 0 (plan.regions.map ArenaRegion.ctrl) slots)
    (hdata : Tiled plan.dataBaseOff (plan.regions.map (ArenaRegion.data slotSize)) (plan.dataBaseOff + slots * slotSize))
    (haligned : ∀ r ∈ plan.regions, ∃ before, r.dataOff = plan.dataBaseOff + before * slotSize)
    (hslots : slots ≤ plan.ctrlBytes) (hbase : plan.ctrlBytes ≤ plan.dataBaseOff)
    (hsize : plan.dataBaseOff + slots * slotSize ≤ plan.layout.size)
    (htail : plan.words = 0 ∨ plan.dataBaseOff + slots * slotSize ≤ plan.tailOff ∧
      plan.tailOff + 16 * plan.words ≤ plan.layout.size) : plan.Exact slotSize slots := by
  have hctrlBounds : ∀ r ∈ plan.regions, r.ctrl.stop ≤ slots := fun r hr => (hctrl.bounds (List.mem_map_of_mem hr)).2
  have hdataBounds : ∀ r ∈ plan.regions, plan.dataBaseOff ≤ (r.data slotSize).start ∧
      (r.data slotSize).stop ≤ plan.dataBaseOff + slots * slotSize :=
    fun r hr => hdata.bounds (List.mem_map_of_mem hr)
  have hstop : plan.control.stop = plan.ctrlBytes := Nat.zero_add _
  have hctrlApart : plan.regions.Pairwise fun r r' => Disjoint r.ctrl.cells r'.ctrl.cells := by
    have hpair := hctrl.disjoint
    rwa [List.pairwise_map] at hpair
  have hdataApart : plan.regions.Pairwise fun r r' => Disjoint (r.data slotSize).cells (r'.data slotSize).cells := by
    have hpair := hdata.disjoint
    rwa [List.pairwise_map] at hpair
  -- An empty tail has no byte to share.
  have hempty : plan.words = 0 → plan.tail.cells = ∅ := by
    intro hwords
    rw [Extent.cells, Extent.stop, tail, hwords, Nat.mul_zero, Nat.add_zero, Set.Ico_self]
  refine ⟨hctrl, hdata, hctrlApart, hdataApart, haligned, ?_, ?_, ?_, ?_, ?_, ?_, ?_⟩
  · intro r hr
    exact Set.Ico_subset_Ico (Nat.zero_le _) (((hctrlBounds r hr).trans hslots).trans hstop.ge)
  · intro r hr
    exact Extent.disjoint_cells (hstop.le.trans (hbase.trans (hdataBounds r hr).1))
  · rcases htail with hwords | ⟨hoff, -⟩
    · rw [hempty hwords]
      exact Set.disjoint_empty _
    · exact Extent.disjoint_cells (hstop.le.trans (hbase.trans ((Nat.le_add_right ..).trans hoff)))
  · intro r hr
    rcases htail with hwords | ⟨hoff, -⟩
    · rw [hempty hwords]
      exact Set.disjoint_empty _
    · exact Extent.disjoint_cells ((hdataBounds r hr).2.trans hoff)
  · exact Set.Ico_subset_Ico (Nat.le_refl _) (hstop.le.trans (hbase.trans ((Nat.le_add_right ..).trans hsize)))
  · intro r hr
    exact Set.Ico_subset_Ico (Nat.zero_le _) ((hdataBounds r hr).2.trans hsize)
  · rcases htail with hwords | ⟨-, hend⟩
    · rw [hempty hwords]
      exact Set.empty_subset _
    · exact Set.Ico_subset_Ico (Nat.zero_le _) hend

end ArenaPlan

end Opthash
