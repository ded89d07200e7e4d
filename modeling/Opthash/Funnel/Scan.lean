import Mathlib.Data.List.Range
import Opthash.Funnel.Table
import Opthash.Lib.Probing

namespace Opthash.Funnel

open Probing

variable {σ : Type} {group : GroupBackend} {ctrl : Nat → UInt8} {fingerprint : UInt8}
  {inspect : Nat → Exec Panic σ Bool}

/-- What a probe for `fingerprint` reads at a slot. -/
def slotKind (ctrl : Nat → UInt8) (fingerprint : UInt8) (slot : Nat) : Kind :=
  if ctrl slot = ctrlEmpty then .empty
  else if ctrl slot = ctrlTombstone then .deleted
  else if ctrl slot = fingerprint then .candidate
  else .other

theorem slotKind_empty {slot : Nat} : slotKind ctrl fingerprint slot = .empty ↔ ctrl slot = ctrlEmpty := by
  unfold slotKind
  split <;> [simp_all; split <;> [simp_all; split <;> simp_all]]

theorem slotKind_deleted {slot : Nat} :
    slotKind ctrl fingerprint slot = .deleted ↔ ctrl slot = ctrlTombstone := by
  unfold slotKind
  split
  · rename_i h
    simp [h, ctrlTombstone_ne_ctrlEmpty.symm]
  · split <;> [simp_all; split <;> simp_all]

theorem slotKind_free {slot : Nat} :
    (slotKind ctrl fingerprint slot = .empty ∨ slotKind ctrl fingerprint slot = .deleted) ↔
      isFree (ctrl slot) := by
  rw [slotKind_empty, slotKind_deleted, isFree_iff]

theorem slotKind_candidate {slot : Nat} (hf : isOccupied fingerprint) :
    slotKind ctrl fingerprint slot = .candidate ↔ ctrl slot = fingerprint := by
  unfold slotKind
  split
  · rename_i h
    simp only [reduceCtorEq, h, false_iff]
    rintro rfl
    simp at hf
  · split
    · rename_i h
      simp only [reduceCtorEq, h, false_iff]
      rintro rfl
      simp at hf
    · split <;> simp_all

/-- A bucket scan's result, in which EMPTY gives way to a remembered tombstone. -/
def toBucket : Scanned Nat × Option Nat → BucketScanResult × Option Nat
  | (.hit slot, reuse) => (.hit slot, reuse)
  | (.empty slot, reuse) => (.empty (reuse.getD slot), reuse)
  | (.passed, reuse) => (.full, reuse)

section Tombstones

variable (group ctrl fingerprint inspect)

theorem scanLanes_eq (start logicalLanes lane count : Nat) (reuse : Option Nat) :
    scanLanes ctrl inspect start logicalLanes ((List.range' lane count).filter fun lane =>
        isFree (ctrl (start + lane)) || ctrl (start + lane) == fingerprint) reuse =
      toBucket <$> scan (slotKind ctrl fingerprint) inspect
        (List.range' (start + lane) (min count (logicalLanes - lane))) reuse := by
  induction count generalizing lane reuse with
  | zero =>
    rw [Nat.zero_min]
    rfl
  | succ count ih =>
    rw [List.range'_succ, List.filter_cons]
    rcases Nat.lt_or_ge lane logicalLanes with hlt | hge
    · have hmin : min (count + 1) (logicalLanes - lane) = min count (logicalLanes - (lane + 1)) + 1 := by
        omega
      rw [hmin, List.range'_succ, scan]
      unfold slotKind
      by_cases hempty : ctrl (start + lane) = ctrlEmpty
      · have hne : ctrlEmpty ≠ ctrlTombstone := ctrlTombstone_ne_ctrlEmpty.symm
        simp [scanLanes, hempty, hne, Nat.not_le.mpr hlt, toBucket]
      · by_cases htomb : ctrl (start + lane) = ctrlTombstone
        · simp only [htomb, isFree_ctrlTombstone, Bool.true_or, ↓reduceIte, scanLanes,
            ctrlTombstone_ne_ctrlEmpty, ge_iff_le, Nat.not_le.mpr hlt]
          exact ih (lane + 1) _
        · have hfree : isFree (ctrl (start + lane)) = false := by
            rw [Bool.eq_false_iff, ne_eq, isFree_iff]
            exact fun h => h.elim hempty htomb
          by_cases hmatch : ctrl (start + lane) = fingerprint
          · simp only [hmatch, BEq.rfl, Bool.or_true, ↓reduceIte, scanLanes, ge_iff_le,
              Nat.not_le.mpr hlt]
            rw [hmatch] at hempty htomb
            simp only [hempty, htomb, ↓reduceIte, map_bind]
            refine bind_congr fun answer => ?_
            cases answer with
            | true => rfl
            | false => exact ih (lane + 1) reuse
          · simp only [hfree, hempty, htomb, hmatch, beq_iff_eq, ↓reduceIte, Bool.false_or]
            exact ih (lane + 1) reuse
    · have hzero : logicalLanes - lane = 0 := by omega
      have hnone : ∀ n, min n (logicalLanes - lane) = 0 := by omega
      rw [hnone]
      split
      · simp [scanLanes, hge, scan, toBucket]
      · rw [ih (lane + 1) reuse]
        have : logicalLanes - (lane + 1) = 0 := by omega
        simp [this]

theorem scanFunnelGroup_eq (start logicalLanes : Nat) (reuse : Option Nat)
    (h : logicalLanes ≤ group.groupSize) :
    scanFunnelGroup group ctrl fingerprint inspect start logicalLanes reuse =
      toBucket <$> scan (slotKind ctrl fingerprint) inspect (List.range' start logicalLanes) reuse := by
  rw [scanFunnelGroup, groupLanes, List.range_eq_range', scanLanes_eq, Nat.sub_zero, Nat.min_eq_right h,
    Nat.add_zero]

theorem scanFunnelGroups_eq (stop fuel position : Nat) (reuse : Option Nat) (h : stop - position ≤ fuel) :
    scanFunnelGroups group ctrl fingerprint inspect stop fuel position reuse =
      toBucket <$> scan (slotKind ctrl fingerprint) inspect (List.range' position (stop - position)) reuse := by
  induction fuel generalizing position reuse with
  | zero =>
    obtain hzero : stop - position = 0 := by omega
    rw [hzero]
    rfl
  | succ fuel ih =>
    rw [scanFunnelGroups]
    split
    · rename_i hlt
      have hpos := group.groupSize_pos
      dsimp only
      generalize hlanes : min group.groupSize (stop - position) = lanes
      have hrest : stop - position = lanes + (stop - (position + lanes)) := by omega
      rw [hrest, ← List.range'_append_1, scan_append,
        scanFunnelGroup_eq group ctrl fingerprint inspect position lanes reuse (by omega), map_bind]
      simp only [bind_map_left]
      refine bind_congr fun found => ?_
      rcases found with ⟨_ | _ | _, reuse⟩
      · rfl
      · rfl
      · exact ih (position + lanes) reuse (by omega)
    · rename_i hge
      have hzero : stop - position = 0 := by omega
      rw [hzero]
      rfl

theorem scanFunnelBucket_eq (start length : Nat) (reuse : Option Nat) :
    scanFunnelBucket group ctrl fingerprint inspect start length reuse =
      toBucket <$> scan (slotKind ctrl fingerprint) inspect (List.range' start length) reuse := by
  rw [scanFunnelBucket]
  split
  · rename_i h
    exact scanFunnelGroup_eq group ctrl fingerprint inspect start length reuse h
  · rw [scanFunnelGroups_eq _ _ _ _ _ _ _ _ (by omega), Nat.add_sub_cancel_left]

end Tombstones

section Clean

def toClean : Scanned Nat × Option Nat → BucketScanResult
  | (.hit slot, _) => .hit slot
  | (.empty slot, _) => .empty slot
  | (.passed, _) => .full

variable (group ctrl fingerprint inspect)

abbrev blindKind (slot : Nat) : Kind := (slotKind ctrl fingerprint slot).blind

variable {ctrl fingerprint}

theorem blindKind_of_empty {slot : Nat} (h : ctrl slot = ctrlEmpty) :
    blindKind ctrl fingerprint slot = .empty := by
  simp [blindKind, slotKind_empty.mpr h, Kind.blind]

theorem blindKind_of_match (hf : isOccupied fingerprint) {slot : Nat} (h : ctrl slot = fingerprint) :
    blindKind ctrl fingerprint slot = .candidate := by
  simp [blindKind, (slotKind_candidate hf).mpr h, Kind.blind]

theorem blindKind_of_other {slot : Nat} (hempty : ctrl slot ≠ ctrlEmpty) (h : ctrl slot ≠ fingerprint) :
    blindKind ctrl fingerprint slot = .other := by
  unfold blindKind slotKind
  split
  · contradiction
  · split
    · rfl
    · rfl

variable (ctrl fingerprint)

theorem inspectLanes_eq (hf : isOccupied fingerprint) (start lane count : Nat) :
    (do
      let firstEmpty := ((List.range' lane count).filter fun lane => ctrl (start + lane) == ctrlEmpty).head?
      match ← inspectLanes inspect start (firstEmpty.getD (lane + count))
          ((List.range' lane count).filter fun lane => ctrl (start + lane) == fingerprint) with
      | some slot => pure (.hit slot)
      | none => match firstEmpty with
        | some emptyLane => pure (.empty (start + emptyLane))
        | none => pure .full) =
      toClean <$> scan (blindKind ctrl fingerprint) inspect (List.range' (start + lane) count) none := by
  induction count generalizing lane with
  | zero => rfl
  | succ count ih =>
    have hne : fingerprint ≠ ctrlEmpty := by
      rintro rfl
      simp at hf
    rw [List.range'_succ, List.range'_succ, scan]
    by_cases hempty : ctrl (start + lane) = ctrlEmpty
    · rw [blindKind_of_empty hempty]
      have hmatch : (ctrl (start + lane) == fingerprint) = false := by
        rw [hempty]
        simpa using hne.symm
      simp only [List.filter_cons, hempty, BEq.rfl, ↓reduceIte, List.head?_cons, Option.getD_some,
        map_pure, toClean]
      have hskip : ∀ lanes : List Nat, inspectLanes inspect start lane lanes = pure none ∨
          ∃ m ms, lanes = m :: ms ∧ m < lane := by
        intro lanes
        cases lanes with
        | nil => exact .inl rfl
        | cons m ms =>
          rcases Nat.lt_or_ge m lane with hlt | hge
          · exact .inr ⟨m, ms, rfl, hlt⟩
          · exact .inl (by simp [inspectLanes, hge])
      rw [← hempty, hmatch, if_neg Bool.false_ne_true]
      rcases hskip ((List.range' (lane + 1) count).filter fun lane => ctrl (start + lane) == fingerprint)
        with h | ⟨m, ms, hm, hlt⟩
      · rw [h]
        rfl
      · have : m ∈ (List.range' (lane + 1) count).filter fun lane => ctrl (start + lane) == fingerprint := by
          rw [hm]
          exact List.mem_cons_self ..
        have := (List.mem_range'_1.mp (List.mem_filter.mp this).1).1
        omega
    · have hemptyLane : (ctrl (start + lane) == ctrlEmpty) = false := by simpa using hempty
      have hbound : ∀ o : Option Nat, (∀ m, o = some m → lane < m) →
          lane < o.getD (lane + 1 + count) := by
        intro o ho
        cases o with
        | none => simp; omega
        | some m => exact ho m rfl
      have hlane : lane < ((((List.range' (lane + 1) count).filter fun lane =>
          ctrl (start + lane) == ctrlEmpty).head?).getD (lane + 1 + count)) := by
        apply hbound
        intro m hm
        have := List.mem_of_mem_head? hm
        have := (List.mem_range'_1.mp (List.mem_filter.mp this).1).1
        omega
      have hcount : lane + (count + 1) = lane + 1 + count := by omega
      have ih := ih (lane + 1)
      by_cases hmatch : ctrl (start + lane) = fingerprint
      · rw [blindKind_of_match hf hmatch]
        rw [hmatch] at hemptyLane
        simp only [List.filter_cons, hmatch, hemptyLane, Bool.false_eq_true, ↓reduceIte, BEq.rfl,
          inspectLanes, hcount, ge_iff_le, Nat.not_le.mpr hlane, bind_assoc, map_bind]
        refine bind_congr fun answer => ?_
        cases answer with
        | true => rfl
        | false => exact ih
      · have hmatchLane : (ctrl (start + lane) == fingerprint) = false := by simpa using hmatch
        rw [blindKind_of_other hempty hmatch]
        simp only [List.filter_cons, hemptyLane, hmatchLane, Bool.false_eq_true, ↓reduceIte, hcount]
        exact ih

theorem inspectLanes_append {start semanticLanes : Nat} (ls ms : List Nat)
    (h : ∀ m ∈ ms, semanticLanes ≤ m) :
    inspectLanes inspect start semanticLanes (ls ++ ms) = inspectLanes inspect start semanticLanes ls := by
  induction ls with
  | nil =>
    cases ms with
    | nil => rfl
    | cons m ms => simp [inspectLanes, h m (List.mem_cons_self ..)]
  | cons l ls ih => simp only [List.cons_append, inspectLanes, ih]

theorem groupLanes_eq (start lanes : Nat) (p : UInt8 → Bool) (h : lanes ≤ group.groupSize) :
    ∃ later, groupLanes group ctrl start p =
      ((List.range' 0 lanes).filter fun lane => p (ctrl (start + lane))) ++ later ∧
        ∀ lane ∈ later, lanes ≤ lane := by
  refine ⟨(List.range' lanes (group.groupSize - lanes)).filter fun lane => p (ctrl (start + lane)), ?_, ?_⟩
  · have hsplit := List.range'_append_1 (s := 0) (m := lanes) (n := group.groupSize - lanes)
    rw [Nat.zero_add, Nat.add_sub_cancel' h] at hsplit
    rw [groupLanes, List.range_eq_range', ← hsplit, List.filter_append]
  · intro lane hlane
    exact (List.mem_range'_1.mp (List.mem_filter.mp hlane).1).1

theorem find?_eq_head? {lanes : Nat} {ls ms : List Nat} (hls : ∀ l ∈ ls, l < lanes)
    (hms : ∀ m ∈ ms, lanes ≤ m) : (ls ++ ms).find? (· < lanes) = ls.head? := by
  cases ls with
  | nil =>
    rw [List.nil_append, List.head?_nil, List.find?_eq_none]
    intro m hm
    have := hms m hm
    simpa using this
  | cons l ls => simp [hls l (List.mem_cons_self ..)]

theorem scanCleanFunnelGroup_eq (hf : isOccupied fingerprint) (start logicalLanes : Nat)
    (h : logicalLanes ≤ group.groupSize) :
    scanCleanFunnelGroup group ctrl fingerprint inspect start logicalLanes =
      toClean <$> scan (blindKind ctrl fingerprint) inspect (List.range' start logicalLanes) none := by
  obtain ⟨later, hempty, hlater⟩ := groupLanes_eq group ctrl start logicalLanes (· == ctrlEmpty) h
  obtain ⟨later', hmatch, hlater'⟩ := groupLanes_eq group ctrl start logicalLanes (· == fingerprint) h
  have hlt : ∀ l ∈ (List.range' 0 logicalLanes).filter fun lane => ctrl (start + lane) == ctrlEmpty,
      l < logicalLanes := by
    intro l hl
    have := (List.mem_range'_1.mp (List.mem_filter.mp hl).1).2
    omega
  have hlanes := inspectLanes_eq ctrl fingerprint inspect hf start 0 logicalLanes
  rw [Nat.zero_add, Nat.add_zero] at hlanes
  rw [← hlanes, scanCleanFunnelGroup, hempty, hmatch, find?_eq_head? hlt hlater]
  dsimp only
  refine congrArg (· >>= _) (inspectLanes_append inspect _ _ fun m hm => ?_)
  refine Nat.le_trans ?_ (hlater' m hm)
  cases hhead : ((List.range' 0 logicalLanes).filter fun lane => ctrl (start + lane) == ctrlEmpty).head? with
  | none => exact Nat.le_refl _
  | some l => exact Nat.le_of_lt (hlt l (List.mem_of_mem_head? hhead))

theorem scan_blind_reuse (ls : List Nat) :
    scan (blindKind ctrl fingerprint) inspect ls none =
      (fun found => (found.1, none)) <$> scan (blindKind ctrl fingerprint) inspect ls none := by
  induction ls with
  | nil => rfl
  | cons l ls ih =>
    rw [scan]
    cases hk : blindKind ctrl fingerprint l with
    | empty => rfl
    | deleted => exact absurd hk (Kind.blind_ne_deleted _)
    | candidate =>
      simp only [map_bind]
      refine bind_congr fun answer => ?_
      cases answer with
      | true => rfl
      | false => exact ih
    | other => exact ih

theorem scanCleanFunnelGroups_eq (hf : isOccupied fingerprint) (stop fuel position : Nat)
    (h : stop - position ≤ fuel) :
    scanCleanFunnelGroups group ctrl fingerprint inspect stop fuel position =
      toClean <$> scan (blindKind ctrl fingerprint) inspect (List.range' position (stop - position)) none := by
  induction fuel generalizing position with
  | zero =>
    have hzero : stop - position = 0 := by omega
    rw [hzero]
    rfl
  | succ fuel ih =>
    rw [scanCleanFunnelGroups]
    split
    · rename_i hlt
      have hpos := group.groupSize_pos
      dsimp only
      generalize hlanes : min group.groupSize (stop - position) = lanes
      have hrest : stop - position = lanes + (stop - (position + lanes)) := by omega
      rw [hrest, ← List.range'_append_1, scan_append,
        scanCleanFunnelGroup_eq group ctrl fingerprint inspect hf position lanes (by omega), map_bind,
        scan_blind_reuse ctrl fingerprint inspect (List.range' position lanes)]
      simp only [bind_map_left]
      refine bind_congr fun found => ?_
      rcases found with ⟨_ | _ | _, reuse⟩
      · rfl
      · rfl
      · exact ih (position + lanes) (by omega)
    · have hzero : stop - position = 0 := by omega
      rw [hzero]
      rfl

theorem scanCleanFunnelBucket_eq (hf : isOccupied fingerprint) (start length : Nat) :
    scanCleanFunnelBucket group ctrl fingerprint inspect start length =
      toClean <$> scan (blindKind ctrl fingerprint) inspect (List.range' start length) none := by
  rw [scanCleanFunnelBucket]
  split
  · rename_i h
    exact scanCleanFunnelGroup_eq group ctrl fingerprint inspect hf start length h
  · rw [scanCleanFunnelGroups_eq _ _ _ _ hf _ _ _ (by omega), Nat.add_sub_cancel_left]

theorem find?_lanes (start lane count : Nat) (p : UInt8 → Bool) :
    (List.range' (start + lane) count).find? (fun slot => p (ctrl slot)) =
      (((List.range' lane count).filter fun lane => p (ctrl (start + lane))).head?).map (start + ·) := by
  induction count generalizing lane with
  | zero => rfl
  | succ count ih =>
    rw [List.range'_succ, List.range'_succ, List.find?_cons, List.filter_cons]
    split
    · rename_i h
      rw [if_pos h]
      rfl
    · rename_i h
      rw [if_neg (by simp [h])]
      exact ih (lane + 1)

theorem firstFreeGroups_eq (stop fuel position : Nat) (h : stop - position ≤ fuel) :
    firstFreeGroups group ctrl stop fuel position =
      (List.range' position (stop - position)).find? fun slot => isFree (ctrl slot) := by
  induction fuel generalizing position with
  | zero =>
    have hzero : stop - position = 0 := by omega
    rw [hzero]
    rfl
  | succ fuel ih =>
    rw [firstFreeGroups]
    split
    · rename_i hlt
      have hpos := group.groupSize_pos
      dsimp only
      generalize hlanes : min group.groupSize (stop - position) = lanes
      have hrest : stop - position = lanes + (stop - (position + lanes)) := by omega
      obtain ⟨later, hgroup, hlater⟩ := groupLanes_eq group ctrl position lanes isFree (by omega)
      have hfind := find?_lanes ctrl position 0 lanes isFree
      rw [Nat.add_zero] at hfind
      rw [hgroup, hrest, ← List.range'_append_1, List.find?_append, hfind]
      have ih := ih (position + lanes) (by omega)
      cases hls : (List.range' 0 lanes).filter fun lane => isFree (ctrl (position + lane)) with
      | nil =>
        cases later with
        | nil => exact ih
        | cons m later =>
          have := hlater m (List.mem_cons_self ..)
          simp only [List.nil_append, List.head?_cons, if_neg (Nat.not_lt.mpr this)]
          exact ih
      | cons l ls =>
        have hl : l ∈ (List.range' 0 lanes).filter fun lane => isFree (ctrl (position + lane)) := by
          rw [hls]
          exact List.mem_cons_self ..
        have := (List.mem_range'_1.mp (List.mem_filter.mp hl).1).2
        simp [show l < lanes by omega]
    · have hzero : stop - position = 0 := by omega
      rw [hzero]
      rfl

theorem firstFreeInBucket_eq (start length : Nat) :
    firstFreeInBucket group ctrl start length =
      (List.range' start length).find? fun slot => isFree (ctrl slot) := by
  rw [firstFreeInBucket, firstFreeGroups_eq _ _ _ _ _ (by omega), Nat.add_sub_cancel_left]

end Clean

end Opthash.Funnel
