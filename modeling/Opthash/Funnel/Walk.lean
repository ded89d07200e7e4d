import Opthash.Funnel.Layout
import Opthash.Funnel.Scan

namespace Opthash.Funnel

open Probe Probing

theorem sample_lt {p : PreparedFastFunnelDomainProbe} {logicalProbe index : Nat}
    {range : PreparedProbeRange} (hpos : 0 < range.upper)
    (h : sample p logicalProbe range = some index) : index < range.upper := by
  unfold sample at h
  split at h
  · rename_i probe hprobe
    cases h
    exact funnelProbeIndex_lt hpos hprobe
  · cases h

def toResult : Outcome Nat → SearchResult
  | .hit slot => .hit slot
  | .vacant slot => .vacant slot
  | .failed => .rangeFailure
  | .exhausted => .full

theorem toResult_failed (reuse : Option Nat) :
    toResult (reuse.elim .failed .vacant) = FunnelTable.missOr .rangeFailure reuse := by
  cases reuse <;> rfl

theorem toResult_exhausted (reuse : Option Nat) :
    toResult (reuse.elim .exhausted .vacant) = FunnelTable.missOr .full reuse := by
  cases reuse <;> rfl

namespace FunnelTable

variable {σ K V : Type}

section Parts

variable (t : FunnelTable K V) (probe : PreparedFastFunnelProbe)

/-- The bucket of one ordinary level on a key's walk; `none` is a range failure. -/
def ordinaryPart (level : LevelShape) : List (Option Nat) :=
  match sample (probe.prepareCounterBase level.ordinaryCounterBase) 0 level.bucketRange with
  | none => [none]
  | some bucket => (List.range' (t.bucketStart level bucket) t.shape.beta).map some

def primaryPart (logicalProbes : List Nat) : List (Option Nat) :=
  logicalProbes.map fun logicalProbe =>
    (sample (probe.prepareCounterBase funnelSpecialPrimaryBase) logicalProbe t.shape.primaryRange).map
      (t.shape.primaryOffset + ·)

def fallbackPart : List (Option Nat) :=
  match sample (probe.prepareCounterBase funnelSpecialFallbackABase) 0 t.shape.fallbackBucketRange with
  | none => [none]
  | some firstBucket =>
    match sample (probe.prepareCounterBase funnelSpecialFallbackBBase) 0 t.shape.fallbackBucketRange with
    | none => [none]
    | some secondBucket => (t.fallbackSlots firstBucket secondBucket).map some

def specialPart : List (Option Nat) :=
  t.primaryPart probe (List.range t.shape.loglogCeiling) ++ t.fallbackPart probe

/-- A key's probe walk: one bucket per ordinary level, the primary probes, the fallback buckets. -/
def walk : List (Option Nat) := t.shape.levels.flatMap (t.ordinaryPart probe) ++ t.specialPart probe

/-- The walk by the level bits its parts are recorded under. -/
def walkSegments : List (UInt16 × List (Option Nat)) :=
  ((t.shape.levels.take overflowLevel).zipIdx.map fun level =>
      (levelBitOf level.2, t.ordinaryPart probe level.1)) ++
    [(overflowLevelBit,
      (t.shape.levels.drop overflowLevel).flatMap (t.ordinaryPart probe) ++ t.specialPart probe)]

def recordedWalk (levels : UInt16) : List (Option Nat) :=
  ((t.walkSegments probe).filter fun s => levels &&& s.1 != 0).flatMap Prod.snd

variable {t probe}

theorem walk_eq : t.walk probe = (t.walkSegments probe).flatMap Prod.snd := by
  have hzip : ∀ (ls : List LevelShape) (k : Nat),
      ((ls.zipIdx k).map fun level => (levelBitOf level.2, t.ordinaryPart probe level.1)).flatMap Prod.snd =
        ls.flatMap (t.ordinaryPart probe) := by
    intro ls
    induction ls with
    | nil => exact fun _ => rfl
    | cons l ls ih =>
      intro k
      rw [List.zipIdx_cons, List.map_cons, List.flatMap_cons, ih, List.flatMap_cons]
  rw [walk, walkSegments, List.flatMap_append, hzip, List.flatMap_singleton, ← List.append_assoc,
    ← List.flatMap_append, List.take_append_drop]

theorem ordinaryPart_range {level : LevelShape} (hpos : 0 < level.bucketRange.upper) {slot : Nat}
    (h : some slot ∈ t.ordinaryPart probe level) :
    level.offset ≤ slot ∧ slot < level.offset + level.bucketRange.upper * t.shape.beta := by
  unfold ordinaryPart at h
  split at h
  · simp at h
  · rename_i bucket hbucket
    have hlt := sample_lt hpos hbucket
    obtain ⟨s, hs, heq⟩ := List.mem_map.mp h
    cases heq
    rw [List.mem_range'_1, bucketStart] at hs
    have hmul : (bucket + 1) * t.shape.beta ≤ level.bucketRange.upper * t.shape.beta :=
      Nat.mul_le_mul_right _ hlt
    rw [Nat.add_one_mul] at hmul
    omega

theorem specialPart_range (h : t.shape.Laid) {slot : Nat} (hs : some slot ∈ t.specialPart probe) :
    t.shape.primaryOffset ≤ slot ∧ slot < t.shape.n := by
  have hoff := h.fallbackOffset
  have hstop := h.stop
  rcases List.mem_append.mp hs with hs | hs
  · obtain ⟨logicalProbe, -, hlogical⟩ := List.mem_map.mp hs
    obtain ⟨index, hindex, heq⟩ := Option.map_eq_some_iff.mp hlogical
    have := sample_lt h.primary hindex
    omega
  · unfold fallbackPart at hs
    split at hs
    · simp at hs
    · rename_i first hfirst
      split at hs
      · simp at hs
      · rename_i second hsecond
        have hlt₁ := sample_lt h.fallback hfirst
        have hlt₂ := sample_lt h.fallback hsecond
        have hbound : ∀ bucket < t.shape.fallbackBucketRange.upper, ∀ j < t.shape.fallbackBucketWidth,
            t.fallbackSlot bucket j < t.shape.n ∧ t.shape.primaryOffset ≤ t.fallbackSlot bucket j := by
          intro bucket hb j hj
          have hmul : (bucket + 1) * t.shape.fallbackBucketWidth ≤
              t.shape.fallbackBucketRange.upper * t.shape.fallbackBucketWidth := Nat.mul_le_mul_right _ hb
          rw [Nat.add_one_mul] at hmul
          simp only [fallbackSlot]
          omega
        obtain ⟨s, hs, heq⟩ := List.mem_map.mp hs
        cases heq
        obtain ⟨j, hj, hs⟩ := List.mem_flatMap.mp hs
        have hj := List.mem_range.mp hj
        simp only [List.mem_cons, List.not_mem_nil, or_false] at hs
        rcases hs with rfl | rfl
        · exact (hbound first hlt₁ j hj).symm
        · exact (hbound second hlt₂ j hj).symm

theorem segment_levelBit (h : t.shape.Laid) {segment : UInt16 × List (Option Nat)}
    (hseg : segment ∈ t.walkSegments probe) {slot : Nat} (hs : some slot ∈ segment.2) :
    t.levelBit slot = segment.1 := by
  rcases List.mem_append.mp hseg with hseg | hseg
  · obtain ⟨⟨level, i⟩, hlevel, rfl⟩ := List.mem_map.mp hseg
    have hget := List.mem_zipIdx_iff_getElem?.mp hlevel
    rw [List.getElem?_take] at hget
    split at hget
    · rename_i hi
      obtain ⟨hlen, hget⟩ := List.getElem?_eq_some_iff.mp hget
      dsimp only at hs hlen hget ⊢
      have hsplit : t.shape.levels = t.shape.levels.take i ++ level :: t.shape.levels.drop (i + 1) := by
        rw [← hget, List.getElem_cons_drop, List.take_append_drop]
      have hcons := h.levels
      rw [hsplit] at hcons
      obtain ⟨hfirst, hlast⟩ := ordinaryPart_range hcons.split.2.1 hs
      rw [levelBit_ordinary h hsplit hfirst hlast, List.length_take, Nat.min_eq_left (Nat.le_of_lt hlen)]
    · cases hget
  · rw [List.mem_singleton.mp hseg] at hs ⊢
    rcases List.mem_append.mp hs with hs | hs
    · obtain ⟨level, hlevel, hs⟩ := List.mem_flatMap.mp hs
      obtain ⟨before, later, hsplit⟩ := List.append_of_mem hlevel
      have hsplit' : t.shape.levels = (t.shape.levels.take overflowLevel ++ before) ++ level :: later := by
        rw [List.append_assoc, ← hsplit, List.take_append_drop]
      have hcons := h.levels
      rw [hsplit'] at hcons
      obtain ⟨hfirst, hlast⟩ := ordinaryPart_range hcons.split.2.1 hs
      rw [levelBit_ordinary h hsplit' hfirst hlast]
      have hlen : overflowLevel ≤ (t.shape.levels.take overflowLevel ++ before).length := by
        have hdrop : (t.shape.levels.drop overflowLevel).length = before.length + later.length + 1 := by
          rw [hsplit]
          simp
          omega
        rw [List.length_drop] at hdrop
        rw [List.length_append, List.length_take]
        omega
      rw [overflowLevelBit, levelBitOf, levelBitOf, Nat.min_eq_right hlen, Nat.min_self]
    · exact levelBit_special h (specialPart_range h hs).1

theorem reached_recordedWalk (h : t.shape.Laid) {stop : Nat → Prop} {slot : Nat}
    (hr : Reached stop (t.walk probe) slot) {levels : UInt16} (hl : levels &&& t.levelBit slot ≠ 0) :
    Reached stop (t.recordedWalk probe levels) slot := by
  rw [walk_eq] at hr
  obtain ⟨segment, hseg, hmem, hkeep⟩ := hr.segment
  rw [segment_levelBit h hseg hmem] at hl
  exact hkeep (fun s => levels &&& s.1 != 0) (by simpa using hl)

theorem walk_lt (h : t.shape.Laid) {slot : Nat} (hs : some slot ∈ t.walk probe) : slot < t.shape.n := by
  rcases List.mem_append.mp hs with hs | hs
  · obtain ⟨level, hlevel, hs⟩ := List.mem_flatMap.mp hs
    obtain ⟨before, later, hsplit⟩ := List.append_of_mem hlevel
    have hcons := h.levels
    rw [hsplit] at hcons
    obtain ⟨-, hlt⟩ := ordinaryPart_range hcons.split.2.1 hs
    have := hcons.split.2.2.le
    have := h.fallbackOffset
    have := h.stop
    omega
  · exact (specialPart_range h hs).2

end Parts

section Searches

variable {t : FunnelTable K V} {probe : PreparedFastFunnelProbe} {group : GroupBackend}
  {inspect : Nat → Exec Panic σ Bool} {fingerprint : UInt8}

theorem searchSpecialSlot_eq (slot : Nat) (reuse : Option Nat) :
    t.searchSpecialSlot inspect fingerprint slot reuse =
      (fun found => match found with
        | (.hit slot, reuse) => (some (.hit slot), reuse)
        | (.empty slot, reuse) => (some (.vacant (reuse.getD slot)), reuse)
        | (.passed, reuse) => (none, reuse)) <$>
        Probing.scan (slotKind t.storage.ctrl fingerprint) inspect [slot] reuse := by
  have hne : ctrlEmpty ≠ ctrlTombstone := ctrlTombstone_ne_ctrlEmpty.symm
  rw [searchSpecialSlot, Probing.scan, inspectSlot]
  unfold slotKind
  by_cases hempty : t.storage.ctrl slot = ctrlEmpty
  · simp [hempty, hne]
  · by_cases htomb : t.storage.ctrl slot = ctrlTombstone
    · simp [htomb, ctrlTombstone_ne_ctrlEmpty, Probing.scan]
    · by_cases hmatch : t.storage.ctrl slot = fingerprint
      · subst hmatch
        simp only [hempty, htomb, if_false, if_true, bind_assoc, map_bind]
        refine bind_congr fun answer => ?_
        cases answer <;> rfl
      · simp [hempty, htomb, hmatch, Probing.scan]

theorem searchFallback_eq (slots : List Nat) (reuse : Option Nat) :
    t.searchFallback inspect fingerprint slots reuse =
      toResult <$> search (slotKind t.storage.ctrl fingerprint) inspect (slots.map some) reuse := by
  induction slots generalizing reuse with
  | nil => exact congrArg pure (toResult_exhausted reuse).symm
  | cons slot slots ih =>
    rw [searchFallback, searchSpecialSlot_eq, List.map_cons, search_cons, map_bind, bind_map_left]
    refine bind_congr fun found => ?_
    rcases found with ⟨_ | _ | _, reuse⟩
    · rfl
    · rfl
    · exact ih reuse

theorem searchFallbackBuckets_eq (reuse : Option Nat) :
    t.searchFallbackBuckets inspect probe fingerprint reuse =
      toResult <$> search (slotKind t.storage.ctrl fingerprint) inspect (t.fallbackPart probe) reuse := by
  rw [searchFallbackBuckets, fallbackPart]
  cases sample (probe.prepareCounterBase funnelSpecialFallbackABase) 0 t.shape.fallbackBucketRange with
  | none => exact congrArg pure (toResult_failed reuse).symm
  | some first =>
    dsimp only
    cases sample (probe.prepareCounterBase funnelSpecialFallbackBBase) 0 t.shape.fallbackBucketRange with
    | none => exact congrArg pure (toResult_failed reuse).symm
    | some second => exact searchFallback_eq _ reuse

theorem searchPrimary_eq (logicalProbes : List Nat) (reuse : Option Nat) :
    t.searchPrimary inspect probe fingerprint logicalProbes reuse =
      toResult <$> search (slotKind t.storage.ctrl fingerprint) inspect
        (t.primaryPart probe logicalProbes ++ t.fallbackPart probe) reuse := by
  induction logicalProbes generalizing reuse with
  | nil => exact searchFallbackBuckets_eq reuse
  | cons logicalProbe logicalProbes ih =>
    rw [searchPrimary, primaryPart, List.map_cons, List.cons_append]
    cases sample (probe.prepareCounterBase funnelSpecialPrimaryBase) logicalProbe t.shape.primaryRange with
    | none => exact congrArg pure (toResult_failed reuse).symm
    | some index =>
      dsimp only
      rw [Option.map_some, ← primaryPart, search_cons, searchSpecialSlot_eq, map_bind, bind_map_left]
      refine bind_congr fun found => ?_
      rcases found with ⟨_ | _ | _, reuse⟩
      · rfl
      · rfl
      · exact ih reuse

/-- A search in a clean epoch sees no tombstones in the ordinary levels. -/
def modeKind (t : FunnelTable K V) (cleanEpoch : Bool) (fingerprint : UInt8) (slot : Nat) : Kind :=
  if cleanEpoch ∧ slot < t.shape.primaryOffset then blindKind t.storage.ctrl fingerprint slot
  else slotKind t.storage.ctrl fingerprint slot

theorem searchLevels_eq (hf : isOccupied fingerprint) (cleanEpoch : Bool) {levels : List LevelShape}
    (hspecial : ∀ slot, some slot ∈ t.specialPart probe → t.shape.primaryOffset ≤ slot)
    (hlevels : ∀ level ∈ levels, ∀ slot, some slot ∈ t.ordinaryPart probe level →
      slot < t.shape.primaryOffset)
    {reuse : Option Nat} (hclean : cleanEpoch = true → reuse = none) :
    t.searchLevels group inspect cleanEpoch probe fingerprint levels reuse =
      toResult <$> search (t.modeKind cleanEpoch fingerprint) inspect
        (levels.flatMap (t.ordinaryPart probe) ++ t.specialPart probe) reuse := by
  induction levels generalizing reuse with
  | nil =>
    rw [searchLevels, List.flatMap_nil, List.nil_append, searchPrimary_eq, specialPart]
    congr 1
    apply (search_congr _ reuse).symm
    intro slot hslot
    rw [modeKind, if_neg]
    have := hspecial slot hslot
    omega
  | cons level levels ih =>
    have ih := @ih fun l hl => hlevels l (List.mem_cons_of_mem _ hl)
    have hlevel := hlevels level (List.mem_cons_self ..)
    rw [searchLevels, List.flatMap_cons, List.append_assoc]
    unfold ordinaryPart at hlevel ⊢
    cases h : sample (probe.prepareCounterBase level.ordinaryCounterBase) 0 level.bucketRange with
    | none => exact congrArg pure (toResult_failed reuse).symm
    | some bucket =>
      rw [h] at hlevel
      dsimp only at hlevel ⊢
      have hslots : ∀ slot ∈ List.range' (t.bucketStart level bucket) t.shape.beta,
          slot < t.shape.primaryOffset := fun slot hslot => hlevel slot (List.mem_map_of_mem hslot)
      rw [search_append, map_bind, scanBucketMode]
      cases cleanEpoch with
      | true =>
        obtain rfl := hclean rfl
        have hkinds : ∀ slot ∈ List.range' (t.bucketStart level bucket) t.shape.beta,
            t.modeKind true fingerprint slot = blindKind t.storage.ctrl fingerprint slot :=
          fun slot hslot => if_pos ⟨rfl, hslots slot hslot⟩
        rw [scan_congr hkinds, if_pos rfl, scanCleanFunnelBucket_eq _ _ _ _ hf,
          scan_blind_reuse t.storage.ctrl fingerprint inspect]
        simp only [bind_map_left, bind_assoc, pure_bind]
        refine bind_congr fun found => ?_
        rcases found with ⟨_ | _ | _, reuse⟩
        · rfl
        · rfl
        · exact ih fun _ => rfl
      | false =>
        have hkinds : ∀ slot ∈ List.range' (t.bucketStart level bucket) t.shape.beta,
            t.modeKind false fingerprint slot = slotKind t.storage.ctrl fingerprint slot :=
          fun slot _ => if_neg fun h => Bool.false_ne_true h.1
        rw [scan_congr hkinds, if_neg Bool.false_ne_true, scanFunnelBucket_eq, bind_map_left]
        refine bind_congr fun found => ?_
        rcases found with ⟨_ | _ | _, reuse⟩
        · rfl
        · rfl
        · exact ih fun h => absurd h Bool.false_ne_true

theorem lookup_cons (hf : isOccupied fingerprint) (slot : Nat) (w : List (Option Nat))
    {rest : Exec Panic σ (Option Nat)}
    (hrest : rest = Outcome.hit? <$> search (blindKind t.storage.ctrl fingerprint) inspect w none) :
    (do
      match ← t.inspectSlot inspect fingerprint slot with
      | some true => pure (some slot)
      | some false => pure none
      | none => rest) =
    Outcome.hit? <$> search (blindKind t.storage.ctrl fingerprint) inspect (some slot :: w) none := by
  subst hrest
  rw [inspectSlot, search]
  by_cases hempty : t.storage.ctrl slot = ctrlEmpty
  · rw [blindKind_of_empty hempty, if_pos hempty]
    rfl
  · by_cases hmatch : t.storage.ctrl slot = fingerprint
    · rw [blindKind_of_match hf hmatch, if_neg hempty, if_pos hmatch, map_bind, bind_assoc]
      refine bind_congr fun answer => ?_
      cases answer <;> rfl
    · rw [blindKind_of_other hempty hmatch, if_neg hempty, if_neg hmatch]
      rfl

theorem lookupFallback_eq (hf : isOccupied fingerprint) (slots : List Nat) :
    t.lookupFallback inspect fingerprint slots =
      Outcome.hit? <$> search (blindKind t.storage.ctrl fingerprint) inspect (slots.map some) none := by
  induction slots with
  | nil => rfl
  | cons slot slots ih => exact lookup_cons hf slot (slots.map some) ih

theorem lookupFallbackBuckets_eq (hf : isOccupied fingerprint) :
    t.lookupFallbackBuckets inspect probe fingerprint =
      Outcome.hit? <$> search (blindKind t.storage.ctrl fingerprint) inspect (t.fallbackPart probe) none := by
  rw [lookupFallbackBuckets, fallbackPart]
  cases sample (probe.prepareCounterBase funnelSpecialFallbackABase) 0 t.shape.fallbackBucketRange with
  | none => rfl
  | some first =>
    dsimp only
    cases sample (probe.prepareCounterBase funnelSpecialFallbackBBase) 0 t.shape.fallbackBucketRange with
    | none => rfl
    | some second => exact lookupFallback_eq hf _

theorem lookupPrimary_eq (hf : isOccupied fingerprint) (logicalProbes : List Nat) :
    t.lookupPrimary inspect probe fingerprint logicalProbes =
      Outcome.hit? <$> search (blindKind t.storage.ctrl fingerprint) inspect
        (t.primaryPart probe logicalProbes ++ t.fallbackPart probe) none := by
  induction logicalProbes with
  | nil => exact lookupFallbackBuckets_eq hf
  | cons logicalProbe logicalProbes ih =>
    rw [lookupPrimary, primaryPart, List.map_cons, List.cons_append]
    cases sample (probe.prepareCounterBase funnelSpecialPrimaryBase) logicalProbe t.shape.primaryRange with
    | none => rfl
    | some index => exact lookup_cons hf _ _ ih

theorem lookup_level (hf : isOccupied fingerprint) (level : LevelShape) (w : List (Option Nat))
    {rest : Exec Panic σ (Option Nat)}
    (hrest : rest = Outcome.hit? <$> search (blindKind t.storage.ctrl fingerprint) inspect w none) :
    (do
      match ← t.lookupLevel group inspect probe level fingerprint with
      | none => pure none
      | some (.hit slot) => pure (some slot)
      | some (.empty _) => pure none
      | some .full => rest) =
    Outcome.hit? <$> search (blindKind t.storage.ctrl fingerprint) inspect
      (t.ordinaryPart probe level ++ w) none := by
  subst hrest
  rw [lookupLevel, ordinaryPart]
  cases sample (probe.prepareCounterBase level.ordinaryCounterBase) 0 level.bucketRange with
  | none => rfl
  | some bucket =>
    dsimp only
    rw [search_append, map_bind, scanCleanFunnelBucket_eq _ _ _ _ hf,
      scan_blind_reuse t.storage.ctrl fingerprint inspect]
    simp only [bind_map_left, Functor.map_map]
    refine bind_congr fun found => ?_
    rcases found with ⟨_ | _ | _, reuse⟩ <;> rfl

theorem lookupLevels_eq (hf : isOccupied fingerprint) (levels : List LevelShape) (w : List (Option Nat))
    {rest : Exec Panic σ (Option Nat)}
    (hrest : rest = Outcome.hit? <$> search (blindKind t.storage.ctrl fingerprint) inspect w none) :
    t.lookupLevels group inspect probe fingerprint rest levels =
      Outcome.hit? <$> search (blindKind t.storage.ctrl fingerprint) inspect
        (levels.flatMap (t.ordinaryPart probe) ++ w) none := by
  induction levels with
  | nil => exact hrest
  | cons level levels ih =>
    rw [lookupLevels, List.flatMap_cons, List.append_assoc]
    exact lookup_level hf level _ ih

def KnownLevels (t : FunnelTable K V) (levels : UInt16) : Prop :=
  ∀ level < overflowLevel, levels &&& levelBitOf level ≠ 0 → level < t.shape.levels.length

theorem recordedWalk_eq (probe : PreparedFastFunnelProbe) {levels : UInt16}
    (hk : t.KnownLevels levels) :
    t.recordedWalk probe levels =
      (setLevels levels).flatMap (fun i => (t.shape.levels[i]?).elim [] (t.ordinaryPart probe)) ++
        if levels &&& overflowLevelBit = 0 then []
        else (t.shape.levels.drop overflowLevel).flatMap (t.ordinaryPart probe) ++ t.specialPart probe := by
  have hzip : ∀ (ls : List LevelShape) (k : Nat), (∀ i < ls.length, t.shape.levels[k + i]? = ls[i]?) →
      (((ls.zipIdx k).map fun level => (levelBitOf level.2, t.ordinaryPart probe level.1)).filter
          fun s => levels &&& s.1 != 0).flatMap Prod.snd =
        ((List.range' k ls.length).filter fun level => levels &&& levelBitOf level != 0).flatMap
          fun i => (t.shape.levels[i]?).elim [] (t.ordinaryPart probe) := by
    intro ls
    induction ls with
    | nil => exact fun _ _ => rfl
    | cons l ls ih =>
      intro k hget
      have hl := hget 0 (Nat.zero_lt_succ _)
      have hrest := ih (k + 1) fun i hi => by
        have := hget (i + 1) (by simpa using hi)
        rwa [List.getElem?_cons_succ, Nat.add_comm i 1, ← Nat.add_assoc] at this
      rw [Nat.add_zero, List.getElem?_cons_zero] at hl
      rw [List.zipIdx_cons, List.map_cons, List.length_cons, List.range'_succ, List.filter_cons,
        List.filter_cons]
      split
      · rename_i hbit
        rw [List.flatMap_cons, List.flatMap_cons, hrest, hl]
        rfl
      · exact hrest
  have hfirst := hzip (t.shape.levels.take overflowLevel) 0 fun i hi => by
    rw [Nat.zero_add, List.getElem?_take, if_pos]
    rw [List.length_take] at hi
    omega
  have hset : (List.range' 0 (t.shape.levels.take overflowLevel).length).filter
      (fun level => levels &&& levelBitOf level != 0) = setLevels levels := by
    generalize hcount : (t.shape.levels.take overflowLevel).length = count
    rw [List.length_take] at hcount
    have hsplit := List.range'_append_1 (s := 0) (m := count) (n := overflowLevel - count)
    rw [Nat.zero_add, Nat.add_sub_cancel' (by omega)] at hsplit
    have hnone : (List.range' count (overflowLevel - count)).filter
        (fun level => levels &&& levelBitOf level != 0) = [] := by
      apply List.filter_eq_nil_iff.mpr
      intro level hlevel hbit
      have hrange := List.mem_range'_1.mp hlevel
      have := hk level (by omega) (by simpa using hbit)
      omega
    rw [setLevels, List.range_eq_range', ← hsplit, List.filter_append, hnone, List.append_nil]
  rw [recordedWalk, walkSegments, List.filter_append, List.flatMap_append, hfirst, hset]
  congr 1
  rw [List.filter_cons]
  by_cases h : levels &&& overflowLevelBit = 0 <;> simp [h]

theorem lookupRecordedLevelsFrom_eq (hf : isOccupied fingerprint) (hn : t.shape.n ≠ 0) (levels : UInt16)
    (indices : List Nat) (hi : ∀ i ∈ indices, i < t.shape.levels.length) :
    t.lookupRecordedLevelsFrom group inspect probe fingerprint levels indices =
      Outcome.hit? <$> search (blindKind t.storage.ctrl fingerprint) inspect
        (indices.flatMap (fun i => (t.shape.levels[i]?).elim [] (t.ordinaryPart probe)) ++
          if levels &&& overflowLevelBit = 0 then []
          else (t.shape.levels.drop overflowLevel).flatMap (t.ordinaryPart probe) ++ t.specialPart probe)
        none := by
  induction indices with
  | nil =>
    rw [lookupRecordedLevelsFrom, List.flatMap_nil, List.nil_append]
    split
    · rfl
    · rw [lookupOverflowLevels, if_neg hn]
      exact lookupLevels_eq hf _ _ (lookupPrimary_eq hf _)
  | cons i indices ih =>
    have hlevel := List.getElem?_eq_getElem (hi i (List.mem_cons_self ..))
    rw [lookupRecordedLevelsFrom, levelAt, hlevel, List.flatMap_cons, List.append_assoc, hlevel]
    exact lookup_level hf _ _ (ih fun j hj => hi j (List.mem_cons_of_mem _ hj))

theorem lookupRecordedLevels_eq (hf : isOccupied fingerprint) (hn : t.shape.n ≠ 0) {levels : UInt16}
    (hk : t.KnownLevels levels) :
    t.lookupRecordedLevels group inspect probe fingerprint levels =
      Outcome.hit? <$> search (blindKind t.storage.ctrl fingerprint) inspect
        (t.recordedWalk probe levels) none := by
  rw [lookupRecordedLevels, recordedWalk_eq probe hk]
  apply lookupRecordedLevelsFrom_eq hf hn
  intro i hi
  obtain ⟨hlt, hbit⟩ := List.mem_filter.mp hi
  exact hk i (List.mem_range.mp hlt) (by simpa using hbit)

theorem levels_lt (h : t.shape.Laid) {level : LevelShape} (hl : level ∈ t.shape.levels) {slot : Nat}
    (hs : some slot ∈ t.ordinaryPart probe level) : slot < t.shape.primaryOffset := by
  obtain ⟨before, later, hsplit⟩ := List.append_of_mem hl
  have hcons := h.levels
  rw [hsplit] at hcons
  exact Nat.lt_of_lt_of_le (ordinaryPart_range hcons.split.2.1 hs).2 hcons.split.2.2.le

theorem searchExactMode_eq (hf : isOccupied fingerprint) (h : t.shape.Laid) (hn : t.shape.n ≠ 0)
    (cleanEpoch : Bool) :
    t.searchExactMode group inspect cleanEpoch probe fingerprint =
      toResult <$> search (t.modeKind cleanEpoch fingerprint) inspect (t.walk probe) none := by
  rw [searchExactMode, if_neg hn]
  exact searchLevels_eq hf cleanEpoch (fun _ hs => (specialPart_range h hs).1)
    (fun _ hl _ hs => levels_lt h hl hs) fun _ => rfl

section Vacancy

theorem searchVacancyFallback_eq :
    t.searchVacancyFallback probe =
      firstFree (fun slot => isFree (t.storage.ctrl slot)) (t.fallbackPart probe) := by
  rw [searchVacancyFallback, fallbackPart]
  cases sample (probe.prepareCounterBase funnelSpecialFallbackABase) 0 t.shape.fallbackBucketRange with
  | none => rfl
  | some first =>
    dsimp only [Option.bind_eq_bind, Option.bind_some]
    cases sample (probe.prepareCounterBase funnelSpecialFallbackBBase) 0 t.shape.fallbackBucketRange with
    | none => rfl
    | some second =>
      have h : firstFree (fun slot => isFree (t.storage.ctrl slot))
          ((t.fallbackSlots first second).map some ++ []) = _ := firstFree_append _ []
      rw [List.append_nil, firstFree, Option.or_none] at h
      exact h.symm

theorem searchVacancyPrimary_eq (logicalProbes : List Nat) :
    t.searchVacancyPrimary probe logicalProbes =
      firstFree (fun slot => isFree (t.storage.ctrl slot))
        (t.primaryPart probe logicalProbes ++ t.fallbackPart probe) := by
  induction logicalProbes with
  | nil => exact searchVacancyFallback_eq
  | cons logicalProbe logicalProbes ih =>
    rw [searchVacancyPrimary, primaryPart, List.map_cons, List.cons_append]
    cases sample (probe.prepareCounterBase funnelSpecialPrimaryBase) logicalProbe t.shape.primaryRange with
    | none => rfl
    | some index =>
      dsimp only [Option.bind_eq_bind, Option.bind_some, Option.map_some, firstFree]
      rw [ih, primaryPart]

theorem searchVacancyLevels_eq (h : t.shape.Laid) {before levels : List LevelShape}
    (hlevels : t.shape.levels = before ++ levels) :
    t.searchVacancyLevels group probe levels before.length =
      (firstFree (fun slot => isFree (t.storage.ctrl slot))
        (levels.flatMap (t.ordinaryPart probe) ++ t.specialPart probe)).map t.vacancyAt := by
  induction levels generalizing before with
  | nil =>
    rw [searchVacancyLevels, List.flatMap_nil, List.nil_append, searchVacancySpecial,
      searchVacancyPrimary_eq, ← specialPart]
    cases hfree : firstFree (fun slot => isFree (t.storage.ctrl slot)) (t.specialPart probe) with
    | none => rfl
    | some slot =>
      have hreach : Reached (fun _ => False) (t.specialPart probe) slot :=
        reached_firstFree (fun _ h => h.elim) hfree
      simp only [Option.map_some, vacancyAt]
      rw [levelBit_special h (specialPart_range h hreach.mem).1]
  | cons level levels ih =>
    have ih := @ih (before ++ [level]) (by rw [hlevels]; simp)
    rw [List.length_append, List.length_singleton] at ih
    have hcons := h.levels
    rw [hlevels] at hcons
    have hrange : ∀ slot, some slot ∈ t.ordinaryPart probe level → _ :=
      fun slot => ordinaryPart_range hcons.split.2.1
    rw [searchVacancyLevels, List.flatMap_cons, List.append_assoc]
    unfold ordinaryPart at hrange ⊢
    cases hbucket : sample (probe.prepareCounterBase level.ordinaryCounterBase) 0 level.bucketRange with
    | none => rfl
    | some bucket =>
      rw [hbucket] at hrange
      dsimp only [Option.bind_eq_bind, Option.bind_some] at hrange ⊢
      rw [firstFree_append, firstFreeInBucket_eq]
      cases hfind : (List.range' (t.bucketStart level bucket) t.shape.beta).find?
          fun slot => isFree (t.storage.ctrl slot) with
      | none => exact ih
      | some slot =>
        obtain ⟨hfirst, hlast⟩ := hrange slot (List.mem_map_of_mem (List.mem_of_find?_eq_some hfind))
        simp only [Option.some_or, Option.map_some, vacancyAt, levelBit_ordinary h hlevels hfirst hlast]

theorem searchVacancy_eq (h : t.shape.Laid) (hn : t.shape.n ≠ 0) :
    t.searchVacancy group probe =
      (firstFree (fun slot => isFree (t.storage.ctrl slot)) (t.walk probe)).map t.vacancyAt := by
  rw [searchVacancy, if_neg hn]
  exact searchVacancyLevels_eq h (List.nil_append t.shape.levels).symm

end Vacancy

section FullScan

theorem findFrom_eq (slots : List Nat) :
    t.findFrom inspect fingerprint slots =
      Outcome.hit? <$> search (matchKind (t.storage.ctrl · = fingerprint)) inspect (slots.map some) none := by
  induction slots with
  | nil => rfl
  | cons slot slots ih =>
    rw [findFrom, List.map_cons, search, matchKind]
    split
    · rw [map_bind]
      refine bind_congr fun answer => ?_
      cases answer with
      | true => rfl
      | false => exact ih
    · exact ih

end FullScan

end Searches

end FunnelTable

end Opthash.Funnel
