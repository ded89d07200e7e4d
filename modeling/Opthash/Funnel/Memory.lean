import Opthash.Funnel.Regions
import Opthash.Funnel.Walk

namespace Opthash.Funnel

open Probe

namespace FunnelTable

variable {σ K V : Type} (t : FunnelTable K V) (group : GroupBackend) (inspect : Nat → Exec Panic σ Bool)
  (probe : PreparedFastFunnelProbe)

def draw : Draw
  | .ordinary level => (t.shape.levels[level]?).bind fun shape =>
    sample (probe.prepareCounterBase shape.ordinaryCounterBase) 0 shape.bucketRange
  | .primary logicalProbe => sample (probe.prepareCounterBase funnelSpecialPrimaryBase) logicalProbe t.shape.primaryRange
  | .fallbackA => sample (probe.prepareCounterBase funnelSpecialFallbackABase) 0 t.shape.fallbackBucketRange
  | .fallbackB => sample (probe.prepareCounterBase funnelSpecialFallbackBBase) 0 t.shape.fallbackBucketRange

/-- The control bytes of a table, read a group of `GROUP_SIZE` lanes or one at a time, and its entries. -/
def memory : Memory σ where
  load := fun start => pure fun lane => if lane < group.groupSize then t.storage.ctrl (start + lane) else 0
  control := fun slot => pure (t.storage.ctrl slot)
  inspect := inspect

variable {t probe}

theorem draw_below (h : t.shape.Laid) : t.shape.Below (t.draw probe) := by
  intro site index hdraw
  cases site with
  | ordinary level =>
    unfold draw at hdraw
    obtain ⟨shape, hshape, hindex⟩ := Option.bind_eq_some_iff.mp hdraw
    obtain ⟨before, later, hsplit⟩ := List.append_of_mem (List.mem_of_getElem? hshape)
    have hcons := h.levels
    rw [hsplit] at hcons
    rw [FunnelShape.upper, hshape]
    exact sample_lt hcons.split.2.1 hindex
  | primary logicalProbe => exact sample_lt h.primary hdraw
  | fallbackA => exact sample_lt h.fallback hdraw
  | fallbackB => exact sample_lt h.fallback hdraw

section Scans

variable {group inspect} {fingerprint : UInt8}

theorem loaded_lane (start lane : Nat) (hlane : lane < group.groupSize) :
    (if start + lane - start < group.groupSize then t.storage.ctrl (start + (start + lane - start)) else 0) =
      t.storage.ctrl (start + lane) := by
  rw [Nat.add_sub_cancel_left, if_pos hlane]

theorem memory_scanGroup (start logicalLanes : Nat) (reuse : Option Nat) :
    (t.memory group inspect).scanGroup group fingerprint start logicalLanes reuse =
      scanFunnelGroup group t.storage.ctrl fingerprint inspect start logicalLanes reuse :=
  scanFunnelGroup_congr fingerprint (loaded_lane start) (fun _ _ => rfl) reuse

theorem memory_scanGroups (stop fuel position : Nat) (reuse : Option Nat) :
    (t.memory group inspect).scanGroups group fingerprint stop fuel position reuse =
      scanFunnelGroups group t.storage.ctrl fingerprint inspect stop fuel position reuse := by
  induction fuel generalizing position reuse with
  | zero => rfl
  | succ fuel ih =>
    rw [Memory.scanGroups, scanFunnelGroups]
    split
    · dsimp only
      rw [memory_scanGroup]
      apply bind_congr
      intro found
      rcases found with ⟨_ | _ | _, reuse⟩
      · rfl
      · rfl
      · exact ih _ reuse
    · rfl

theorem memory_scanBucket (start length : Nat) (reuse : Option Nat) :
    (t.memory group inspect).scanBucket group fingerprint start length reuse =
      scanFunnelBucket group t.storage.ctrl fingerprint inspect start length reuse := by
  rw [Memory.scanBucket, scanFunnelBucket, memory_scanGroup, memory_scanGroups]

theorem memory_scanCleanGroup (start logicalLanes : Nat) :
    (t.memory group inspect).scanCleanGroup group fingerprint start logicalLanes =
      scanCleanFunnelGroup group t.storage.ctrl fingerprint inspect start logicalLanes :=
  scanCleanFunnelGroup_congr fingerprint (loaded_lane start) fun _ _ => rfl

theorem memory_scanCleanGroups (stop fuel position : Nat) :
    (t.memory group inspect).scanCleanGroups group fingerprint stop fuel position =
      scanCleanFunnelGroups group t.storage.ctrl fingerprint inspect stop fuel position := by
  induction fuel generalizing position with
  | zero => rfl
  | succ fuel ih =>
    rw [Memory.scanCleanGroups, scanCleanFunnelGroups]
    split
    · dsimp only
      rw [memory_scanCleanGroup]
      apply bind_congr
      intro found
      cases found with
      | hit slot => rfl
      | empty slot => rfl
      | full => exact ih _
    · rfl

theorem memory_scanCleanBucket (start length : Nat) :
    (t.memory group inspect).scanCleanBucket group fingerprint start length =
      scanCleanFunnelBucket group t.storage.ctrl fingerprint inspect start length := by
  rw [Memory.scanCleanBucket, scanCleanFunnelBucket, memory_scanCleanGroup, memory_scanCleanGroups]

theorem memory_scanBucketMode (cleanEpoch : Bool) (start : Nat) (reuse : Option Nat) :
    (t.memory group inspect).scanBucketMode group fingerprint cleanEpoch start t.shape.beta reuse =
      t.scanBucketMode group inspect cleanEpoch fingerprint start reuse := by
  rw [Memory.scanBucketMode, scanBucketMode, memory_scanCleanBucket, memory_scanBucket]

theorem memory_firstFreeGroups (stop fuel position : Nat) :
    (t.memory group inspect).firstFreeGroups group stop fuel position =
      pure (firstFreeGroups group t.storage.ctrl stop fuel position) := by
  induction fuel generalizing position with
  | zero => rfl
  | succ fuel ih =>
    rw [Memory.firstFreeGroups, firstFreeGroups]
    split
    · have hload : (t.memory group inspect).load position =
          pure fun lane => if lane < group.groupSize then t.storage.ctrl (position + lane) else 0 := rfl
      rw [hload]
      dsimp only
      rw [pure_bind, groupLanes_congr (loaded_lane position)]
      cases (groupLanes group t.storage.ctrl position isFree).head? with
      | none => exact ih _
      | some lane =>
        dsimp only
        split
        · rfl
        · exact ih _
    · rfl

theorem memory_inspectSlot (slot : Nat) :
    (t.memory group inspect).inspectSlot fingerprint slot = t.inspectSlot inspect fingerprint slot := by
  rw [Memory.inspectSlot, inspectSlot]
  rfl

theorem memory_searchSpecialSlot (slot : Nat) (reuse : Option Nat) :
    (t.memory group inspect).searchSpecialSlot fingerprint slot reuse =
      t.searchSpecialSlot inspect fingerprint slot reuse := by
  rw [Memory.searchSpecialSlot, searchSpecialSlot, memory_inspectSlot]
  rfl

end Scans

section Walks

variable {group inspect} {fingerprint : UInt8}

theorem searchFallback_memory (cleanEpoch : Bool) (slots : List Nat) (reuse : Option Nat) :
    t.searchFallback inspect fingerprint slots reuse =
      (t.memory group inspect).searchExact group fingerprint t.shape.beta cleanEpoch (slots.map .slot) reuse := by
  induction slots generalizing reuse with
  | nil => rfl
  | cons slot slots ih =>
    rw [searchFallback, List.map_cons, Memory.searchExact, memory_searchSpecialSlot]
    apply bind_congr
    intro found
    rcases found with ⟨_ | _, reuse⟩
    · exact ih reuse
    · rfl

theorem searchFallbackBuckets_memory (cleanEpoch : Bool) (reuse : Option Nat) :
    t.searchFallbackBuckets inspect probe fingerprint reuse =
      (t.memory group inspect).searchExact group fingerprint t.shape.beta cleanEpoch
        (t.shape.fallbackStops (t.draw probe)) reuse := by
  rw [searchFallbackBuckets, FunnelShape.fallbackStops]
  dsimp only [draw]
  cases sample (probe.prepareCounterBase funnelSpecialFallbackABase) 0 t.shape.fallbackBucketRange with
  | none => rfl
  | some first =>
    cases sample (probe.prepareCounterBase funnelSpecialFallbackBBase) 0 t.shape.fallbackBucketRange with
    | none => rfl
    | some second => exact searchFallback_memory cleanEpoch _ reuse

theorem searchPrimary_memory (cleanEpoch : Bool) (logicalProbes : List Nat) (reuse : Option Nat) :
    t.searchPrimary inspect probe fingerprint logicalProbes reuse =
      (t.memory group inspect).searchExact group fingerprint t.shape.beta cleanEpoch
        (t.shape.primaryStops (t.draw probe) logicalProbes ++ t.shape.fallbackStops (t.draw probe)) reuse := by
  induction logicalProbes generalizing reuse with
  | nil => exact searchFallbackBuckets_memory cleanEpoch reuse
  | cons logicalProbe logicalProbes ih =>
    rw [searchPrimary, FunnelShape.primaryStops, List.map_cons, List.cons_append, ← FunnelShape.primaryStops]
    dsimp only [draw]
    cases sample (probe.prepareCounterBase funnelSpecialPrimaryBase) logicalProbe t.shape.primaryRange with
    | none => rfl
    | some index =>
      dsimp only [Option.elim_some]
      rw [Memory.searchExact, memory_searchSpecialSlot]
      apply bind_congr
      intro found
      rcases found with ⟨_ | _, reuse⟩
      · exact ih reuse
      · rfl

theorem ordinaryStop_draw {level : LevelShape} {index : Nat} (h : t.shape.levels[index]? = some level) :
    t.shape.ordinaryStop (t.draw probe) (level, index) =
      (sample (probe.prepareCounterBase level.ordinaryCounterBase) 0 level.bucketRange).elim .failed
        fun bucket => .bucket (t.bucketStart level bucket) := by
  rw [FunnelShape.ordinaryStop]
  dsimp only [draw]
  rw [h]
  rfl

theorem searchLevels_memory (cleanEpoch : Bool) {levels : List LevelShape} {index : Nat}
    (hlevels : ∀ level ∈ levels.zipIdx index, t.shape.levels[level.2]? = some level.1) (reuse : Option Nat) :
    t.searchLevels group inspect cleanEpoch probe fingerprint levels reuse =
      (t.memory group inspect).searchExact group fingerprint t.shape.beta cleanEpoch
        ((levels.zipIdx index).map (t.shape.ordinaryStop (t.draw probe)) ++ t.shape.specialStops (t.draw probe))
        reuse := by
  induction levels generalizing index reuse with
  | nil => exact searchPrimary_memory cleanEpoch _ reuse
  | cons level levels ih =>
    rw [List.zipIdx_cons, List.forall_mem_cons] at hlevels
    rw [searchLevels, List.zipIdx_cons, List.map_cons, List.cons_append, ordinaryStop_draw hlevels.1]
    cases sample (probe.prepareCounterBase level.ordinaryCounterBase) 0 level.bucketRange with
    | none => rfl
    | some bucket =>
      dsimp only [Option.elim_some]
      rw [Memory.searchExact, memory_scanBucketMode]
      apply bind_congr
      intro found
      rcases found with ⟨_ | _ | _, reuse⟩
      · rfl
      · rfl
      · exact ih hlevels.2 reuse

theorem stops_snd : (t.shape.stops (t.draw probe)).map Prod.snd =
    t.shape.levels.zipIdx.map (t.shape.ordinaryStop (t.draw probe)) ++ t.shape.specialStops (t.draw probe) := by
  rw [FunnelShape.stops, List.map_append, List.map_map, List.map_map]
  exact congrArg (_ ++ ·) (List.map_id _)

theorem searchExactMode_memory (hn : t.shape.n ≠ 0) (cleanEpoch : Bool) :
    t.searchExactMode group inspect cleanEpoch probe fingerprint =
      (t.memory group inspect).searchExact group fingerprint t.shape.beta cleanEpoch
        ((t.shape.stops (t.draw probe)).map Prod.snd) none := by
  rw [searchExactMode, if_neg hn, stops_snd]
  exact searchLevels_memory cleanEpoch (fun _ h => List.mem_zipIdx_iff_getElem?.mp h) none

theorem lookupFallback_memory (slots : List Nat) :
    t.lookupFallback inspect fingerprint slots =
      (t.memory group inspect).lookup group fingerprint t.shape.beta (slots.map .slot) := by
  induction slots with
  | nil => rfl
  | cons slot slots ih =>
    rw [lookupFallback, List.map_cons, Memory.lookup, memory_inspectSlot]
    apply bind_congr
    intro found
    rcases found with _ | ⟨_ | _⟩
    · exact ih
    · rfl
    · rfl

theorem lookupFallbackBuckets_memory :
    t.lookupFallbackBuckets inspect probe fingerprint =
      (t.memory group inspect).lookup group fingerprint t.shape.beta (t.shape.fallbackStops (t.draw probe)) := by
  rw [lookupFallbackBuckets, FunnelShape.fallbackStops]
  dsimp only [draw]
  cases sample (probe.prepareCounterBase funnelSpecialFallbackABase) 0 t.shape.fallbackBucketRange with
  | none => rfl
  | some first =>
    cases sample (probe.prepareCounterBase funnelSpecialFallbackBBase) 0 t.shape.fallbackBucketRange with
    | none => rfl
    | some second => exact lookupFallback_memory _

theorem lookupPrimary_memory (logicalProbes : List Nat) :
    t.lookupPrimary inspect probe fingerprint logicalProbes =
      (t.memory group inspect).lookup group fingerprint t.shape.beta
        (t.shape.primaryStops (t.draw probe) logicalProbes ++ t.shape.fallbackStops (t.draw probe)) := by
  induction logicalProbes with
  | nil => exact lookupFallbackBuckets_memory
  | cons logicalProbe logicalProbes ih =>
    rw [lookupPrimary, FunnelShape.primaryStops, List.map_cons, List.cons_append, ← FunnelShape.primaryStops]
    dsimp only [draw]
    cases sample (probe.prepareCounterBase funnelSpecialPrimaryBase) logicalProbe t.shape.primaryRange with
    | none => rfl
    | some index =>
      dsimp only [Option.elim_some]
      rw [Memory.lookup, memory_inspectSlot]
      apply bind_congr
      intro found
      rcases found with _ | ⟨_ | _⟩
      · exact ih
      · rfl
      · rfl

theorem lookupLevel_memory {level : LevelShape} {index : Nat} (h : t.shape.levels[index]? = some level)
    {rest : Exec Panic σ (Option Nat)} {stops : List Stop}
    (hrest : rest = (t.memory group inspect).lookup group fingerprint t.shape.beta stops) :
    (do
      match ← t.lookupLevel group inspect probe level fingerprint with
      | none => pure none
      | some (.hit slot) => pure (some slot)
      | some (.empty _) => pure none
      | some .full => rest) =
      (t.memory group inspect).lookup group fingerprint t.shape.beta
        (t.shape.ordinaryStop (t.draw probe) (level, index) :: stops) := by
  rw [lookupLevel, ordinaryStop_draw h]
  cases sample (probe.prepareCounterBase level.ordinaryCounterBase) 0 level.bucketRange with
  | none => rfl
  | some bucket =>
    dsimp only [Option.elim_some]
    rw [Memory.lookup, memory_scanCleanBucket, bind_map_left, hrest]
    apply bind_congr
    intro found
    cases found <;> rfl

theorem lookupLevels_memory {levels : List LevelShape} {index : Nat}
    (hlevels : ∀ level ∈ levels.zipIdx index, t.shape.levels[level.2]? = some level.1)
    {rest : Exec Panic σ (Option Nat)} {stops : List Stop}
    (hrest : rest = (t.memory group inspect).lookup group fingerprint t.shape.beta stops) :
    t.lookupLevels group inspect probe fingerprint rest levels =
      (t.memory group inspect).lookup group fingerprint t.shape.beta
        ((levels.zipIdx index).map (t.shape.ordinaryStop (t.draw probe)) ++ stops) := by
  induction levels generalizing index with
  | nil => exact hrest
  | cons level levels ih =>
    rw [List.zipIdx_cons, List.forall_mem_cons] at hlevels
    rw [lookupLevels, List.zipIdx_cons, List.map_cons, List.cons_append]
    exact lookupLevel_memory hlevels.1 (ih hlevels.2)

theorem lookupOverflowLevels_memory (hn : t.shape.n ≠ 0) :
    t.lookupOverflowLevels group inspect probe fingerprint =
      (t.memory group inspect).lookup group fingerprint t.shape.beta
        ((t.shape.levels.zipIdx.drop overflowLevel).map (t.shape.ordinaryStop (t.draw probe)) ++
          t.shape.specialStops (t.draw probe)) := by
  have hdrop : t.shape.levels.zipIdx.drop overflowLevel = (t.shape.levels.drop overflowLevel).zipIdx overflowLevel := by
    apply List.ext_getElem?
    intro i
    rw [List.getElem?_drop, List.getElem?_zipIdx, List.getElem?_zipIdx, List.getElem?_drop, Nat.zero_add]
  rw [lookupOverflowLevels, if_neg hn, hdrop]
  apply lookupLevels_memory _ (lookupPrimary_memory _)
  intro level hlevel
  rw [← hdrop] at hlevel
  exact List.mem_zipIdx_iff_getElem?.mp (List.mem_of_mem_drop hlevel)

theorem lookupRecordedLevelsFrom_memory (hn : t.shape.n ≠ 0) (levels : UInt16) (indices : List Nat) :
    t.lookupRecordedLevelsFrom group inspect probe fingerprint levels indices =
      (t.memory group inspect).lookup group fingerprint t.shape.beta
        ((indices.map fun index =>
          (t.shape.levels[index]?).elim .missing fun level => t.shape.ordinaryStop (t.draw probe) (level, index)) ++
          if levels &&& overflowLevelBit = 0 then []
          else (t.shape.levels.zipIdx.drop overflowLevel).map (t.shape.ordinaryStop (t.draw probe)) ++
            t.shape.specialStops (t.draw probe)) := by
  induction indices with
  | nil =>
    rw [lookupRecordedLevelsFrom, List.map_nil, List.nil_append]
    split
    · rfl
    · exact lookupOverflowLevels_memory hn
  | cons index indices ih =>
    rw [lookupRecordedLevelsFrom, List.map_cons, List.cons_append, levelAt]
    cases hlevel : t.shape.levels[index]? with
    | none => rfl
    | some level => exact lookupLevel_memory hlevel ih

theorem lookupRecordedLevels_memory (hn : t.shape.n ≠ 0) (levels : UInt16) :
    t.lookupRecordedLevels group inspect probe fingerprint levels =
      (t.memory group inspect).lookup group fingerprint t.shape.beta
        (t.shape.recordedStops (t.draw probe) levels) :=
  lookupRecordedLevelsFrom_memory hn levels _

theorem searchVacancySlots_memory (slots : List Nat) :
    (t.memory group inspect).searchVacancy group t.shape.beta (slots.map fun slot => (overflowLevelBit, .slot slot)) =
      pure ((slots.find? fun slot => isFree (t.storage.ctrl slot)).map fun slot => ⟨slot, overflowLevelBit⟩) := by
  induction slots with
  | nil => rfl
  | cons slot slots ih =>
    have hcontrol : (t.memory group inspect).control slot = pure (t.storage.ctrl slot) := rfl
    rw [List.map_cons, Memory.searchVacancy, hcontrol, pure_bind, List.find?_cons, ih]
    cases isFree (t.storage.ctrl slot) <;> rfl

theorem searchVacancyFallback_memory :
    (t.memory group inspect).searchVacancy group t.shape.beta
        ((t.shape.fallbackStops (t.draw probe)).map fun stop => (overflowLevelBit, stop)) =
      pure ((t.searchVacancyFallback probe).map fun slot => ⟨slot, overflowLevelBit⟩) := by
  rw [searchVacancyFallback, FunnelShape.fallbackStops]
  dsimp only [draw]
  cases sample (probe.prepareCounterBase funnelSpecialFallbackABase) 0 t.shape.fallbackBucketRange with
  | none => rfl
  | some first =>
    cases sample (probe.prepareCounterBase funnelSpecialFallbackBBase) 0 t.shape.fallbackBucketRange with
    | none => rfl
    | some second =>
      dsimp only [Option.bind_eq_bind, Option.bind_some]
      rw [List.map_map]
      exact searchVacancySlots_memory _

theorem searchVacancyPrimary_memory (logicalProbes : List Nat) :
    (t.memory group inspect).searchVacancy group t.shape.beta
        ((t.shape.primaryStops (t.draw probe) logicalProbes ++ t.shape.fallbackStops (t.draw probe)).map
          fun stop => (overflowLevelBit, stop)) =
      pure ((t.searchVacancyPrimary probe logicalProbes).map fun slot => ⟨slot, overflowLevelBit⟩) := by
  induction logicalProbes with
  | nil => exact searchVacancyFallback_memory
  | cons logicalProbe logicalProbes ih =>
    rw [searchVacancyPrimary, FunnelShape.primaryStops, List.map_cons, List.cons_append, List.map_cons,
      ← FunnelShape.primaryStops]
    dsimp only [draw]
    cases sample (probe.prepareCounterBase funnelSpecialPrimaryBase) logicalProbe t.shape.primaryRange with
    | none => rfl
    | some index =>
      have hcontrol : (t.memory group inspect).control (t.shape.primaryOffset + index) =
        pure (t.storage.ctrl (t.shape.primaryOffset + index)) := rfl
      dsimp only [Option.elim_some, Option.bind_eq_bind, Option.bind_some]
      rw [Memory.searchVacancy, hcontrol, pure_bind, ih]
      split <;> rfl

theorem searchVacancyLevels_memory {levels : List LevelShape} {index : Nat}
    (hlevels : ∀ level ∈ levels.zipIdx index, t.shape.levels[level.2]? = some level.1) :
    (t.memory group inspect).searchVacancy group t.shape.beta
        (((levels.zipIdx index).map fun level => (levelBitOf level.2, t.shape.ordinaryStop (t.draw probe) level)) ++
          (t.shape.specialStops (t.draw probe)).map fun stop => (overflowLevelBit, stop)) =
      pure (t.searchVacancyLevels group probe levels index) := by
  induction levels generalizing index with
  | nil => exact searchVacancyPrimary_memory _
  | cons level levels ih =>
    rw [List.zipIdx_cons, List.forall_mem_cons] at hlevels
    rw [searchVacancyLevels, List.zipIdx_cons, List.map_cons, List.cons_append, ordinaryStop_draw hlevels.1]
    cases sample (probe.prepareCounterBase level.ordinaryCounterBase) 0 level.bucketRange with
    | none => rfl
    | some bucket =>
      dsimp only [Option.elim_some, Option.bind_eq_bind, Option.bind_some]
      rw [Memory.searchVacancy, memory_firstFreeGroups, pure_bind, firstFreeInBucket, ih hlevels.2]
      cases firstFreeGroups group t.storage.ctrl (t.bucketStart level bucket + t.shape.beta) t.shape.beta
        (t.bucketStart level bucket) <;> rfl

theorem searchVacancy_memory (hn : t.shape.n ≠ 0) :
    (t.memory group inspect).searchVacancy group t.shape.beta (t.shape.stops (t.draw probe)) =
      pure (t.searchVacancy group probe) := by
  rw [searchVacancy, if_neg hn]
  exact searchVacancyLevels_memory fun _ h => List.mem_zipIdx_iff_getElem?.mp h

end Walks

end FunnelTable

end Opthash.Funnel
