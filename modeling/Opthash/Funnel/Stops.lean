import Opthash.Funnel.Scan
import Opthash.Funnel.Layout

namespace Opthash.Funnel

open Probe

/-- Where a walk samples an index. -/
inductive Site
  | ordinary (level : Nat)
  | primary (logicalProbe : Nat)
  | fallbackA
  | fallbackB
  deriving DecidableEq, Repr

/-- The indexes a walk samples; `none` is a range failure. -/
abbrev Draw : Type := Site → Option Nat

inductive Stop
  | failed
  | missing
  | bucket (start : Nat)
  | slot (slot : Nat)
  deriving DecidableEq, Repr

namespace FunnelShape

variable (s : FunnelShape) (draw : Draw)

def upper : Site → Nat
  | .ordinary level => (s.levels[level]?).elim 0 fun shape => shape.bucketRange.upper
  | .primary _ => s.primaryRange.upper
  | .fallbackA => s.fallbackBucketRange.upper
  | .fallbackB => s.fallbackBucketRange.upper

def Below : Prop := ∀ site index, draw site = some index → index < s.upper site

def ordinaryStop (level : LevelShape × Nat) : Stop :=
  (draw (.ordinary level.2)).elim .failed fun bucket => .bucket (level.1.offset + bucket * s.beta)

def primaryStops (logicalProbes : List Nat) : List Stop :=
  logicalProbes.map fun logicalProbe =>
    (draw (.primary logicalProbe)).elim .failed fun index => .slot (s.primaryOffset + index)

def fallbackSlot (bucket slotInBucket : Nat) : Nat := s.fallbackOffset + bucket * s.fallbackBucketWidth + slotInBucket

def fallbackStops : List Stop :=
  match draw .fallbackA, draw .fallbackB with
  | some first, some second => ((List.range s.fallbackBucketWidth).flatMap fun slotInBucket =>
      [s.fallbackSlot first slotInBucket, s.fallbackSlot second slotInBucket]).map .slot
  | _, _ => [.failed]

def specialStops : List Stop := s.primaryStops draw (List.range s.loglogCeiling) ++ s.fallbackStops draw

/-- A whole walk, with the level-bin bit of the region of each stop. -/
def stops : List (UInt16 × Stop) :=
  (s.levels.zipIdx.map fun level => (levelBitOf level.2, s.ordinaryStop draw level)) ++
    (s.specialStops draw).map fun stop => (overflowLevelBit, stop)

/-- The walk over the levels of the set bits; a bit of no level is `missing`. -/
def recordedStops (levels : UInt16) : List Stop :=
  ((FunnelTable.setLevels levels).map fun index =>
      (s.levels[index]?).elim .missing fun level => s.ordinaryStop draw (level, index)) ++
    if levels &&& overflowLevelBit = 0 then []
    else (s.levels.zipIdx.drop overflowLevel).map (s.ordinaryStop draw) ++ s.specialStops draw

end FunnelShape

/-- What a walk reaches: the bytes of a group by lane, single control bytes, and the entries it inspects. -/
structure Memory (σ : Type) where
  load : Nat → Exec Panic σ (Nat → UInt8)
  control : Nat → Exec Panic σ UInt8
  inspect : Nat → Exec Panic σ Bool

namespace Memory

variable {σ : Type} (M : Memory σ) (group : GroupBackend) (fingerprint : UInt8)

def scanGroup (start logicalLanes : Nat) (firstTombstone : Option Nat) :
    Exec Panic σ (BucketScanResult × Option Nat) := do
  let bytes ← M.load start
  scanFunnelGroup group (fun slot => bytes (slot - start)) fingerprint M.inspect start logicalLanes firstTombstone

def scanGroups (stop : Nat) : Nat → Nat → Option Nat → Exec Panic σ (BucketScanResult × Option Nat)
  | 0, _, firstTombstone => pure (.full, firstTombstone)
  | fuel + 1, position, firstTombstone =>
    if position < stop then do
      let logicalLanes := min group.groupSize (stop - position)
      match ← M.scanGroup group fingerprint position logicalLanes firstTombstone with
      | (.full, firstTombstone) => scanGroups stop fuel (position + logicalLanes) firstTombstone
      | result => pure result
    else pure (.full, firstTombstone)

def scanBucket (start length : Nat) (firstTombstone : Option Nat) : Exec Panic σ (BucketScanResult × Option Nat) :=
  if length ≤ group.groupSize then M.scanGroup group fingerprint start length firstTombstone
  else M.scanGroups group fingerprint (start + length) length start firstTombstone

def scanCleanGroup (start logicalLanes : Nat) : Exec Panic σ BucketScanResult := do
  let bytes ← M.load start
  scanCleanFunnelGroup group (fun slot => bytes (slot - start)) fingerprint M.inspect start logicalLanes

def scanCleanGroups (stop : Nat) : Nat → Nat → Exec Panic σ BucketScanResult
  | 0, _ => pure .full
  | fuel + 1, position =>
    if position < stop then do
      let logicalLanes := min group.groupSize (stop - position)
      match ← M.scanCleanGroup group fingerprint position logicalLanes with
      | .full => scanCleanGroups stop fuel (position + logicalLanes)
      | result => pure result
    else pure .full

def scanCleanBucket (start length : Nat) : Exec Panic σ BucketScanResult :=
  if length ≤ group.groupSize then M.scanCleanGroup group fingerprint start length
  else M.scanCleanGroups group fingerprint (start + length) length start

def firstFreeGroups (stop : Nat) : Nat → Nat → Exec Panic σ (Option Nat)
  | 0, _ => pure none
  | fuel + 1, position =>
    if position < stop then do
      let logicalLanes := min group.groupSize (stop - position)
      let bytes ← M.load position
      match (groupLanes group (fun slot => bytes (slot - position)) position isFree).head? with
      | some lane =>
        if lane < logicalLanes then pure (some (position + lane))
        else firstFreeGroups stop fuel (position + logicalLanes)
      | none => firstFreeGroups stop fuel (position + logicalLanes)
    else pure none

def scanBucketMode (cleanEpoch : Bool) (start length : Nat) (firstTombstone : Option Nat) :
    Exec Panic σ (BucketScanResult × Option Nat) :=
  if cleanEpoch then do
    let result ← M.scanCleanBucket group fingerprint start length
    pure (result, firstTombstone)
  else M.scanBucket group fingerprint start length firstTombstone

def inspectSlot (slot : Nat) : Exec Panic σ (Option Bool) := do
  let byte ← M.control slot
  if byte = ctrlEmpty then pure (some false)
  else if byte = fingerprint then do
    if ← M.inspect slot then pure (some true) else pure none
  else pure none

def searchSpecialSlot (slot : Nat) (firstTombstone : Option Nat) :
    Exec Panic σ (Option SearchResult × Option Nat) := do
  let byte ← M.control slot
  if byte = ctrlTombstone then pure (none, firstTombstone.or (some slot))
  else do
    match ← M.inspectSlot fingerprint slot with
    | some true => pure (some (.hit slot), firstTombstone)
    | some false => pure (some (.vacant (firstTombstone.getD slot)), firstTombstone)
    | none => pure (none, firstTombstone)

def outOfBounds : Panic := .internal "index out of bounds"

/-- `search_exact_mode` over the stops of a walk with buckets of `beta` slots. -/
def searchExact (beta : Nat) (cleanEpoch : Bool) : List Stop → Option Nat → Exec Panic σ SearchResult
  | [], firstTombstone => pure (FunnelTable.missOr .full firstTombstone)
  | .failed :: _, firstTombstone => pure (FunnelTable.missOr .rangeFailure firstTombstone)
  | .missing :: _, _ => Exec.raise outOfBounds
  | .bucket start :: stops, firstTombstone => do
    match ← M.scanBucketMode group fingerprint cleanEpoch start beta firstTombstone with
    | (.hit slot, _) => pure (.hit slot)
    | (.empty slot, _) => pure (.vacant slot)
    | (.full, firstTombstone) => searchExact beta cleanEpoch stops firstTombstone
  | .slot slot :: stops, firstTombstone => do
    match ← M.searchSpecialSlot fingerprint slot firstTombstone with
    | (some result, _) => pure result
    | (none, firstTombstone) => searchExact beta cleanEpoch stops firstTombstone

/-- `lookup_recorded_levels` over the stops of a masked walk. -/
def lookup (beta : Nat) : List Stop → Exec Panic σ (Option Nat)
  | [] => pure none
  | .failed :: _ => pure none
  | .missing :: _ => Exec.raise outOfBounds
  | .bucket start :: stops => do
    match ← M.scanCleanBucket group fingerprint start beta with
    | .hit slot => pure (some slot)
    | .empty _ => pure none
    | .full => lookup beta stops
  | .slot slot :: stops => do
    match ← M.inspectSlot fingerprint slot with
    | some true => pure (some slot)
    | some false => pure none
    | none => lookup beta stops

/-- `search_vacancy` over the stops of a walk. -/
def searchVacancy (beta : Nat) : List (UInt16 × Stop) → Exec Panic σ (Option Vacancy)
  | [] => pure none
  | (_, .failed) :: _ => pure none
  | (_, .missing) :: _ => Exec.raise outOfBounds
  | (bit, .bucket start) :: stops => do
    match ← M.firstFreeGroups group (start + beta) beta start with
    | some slot => pure (some ⟨slot, bit⟩)
    | none => searchVacancy beta stops
  | (bit, .slot slot) :: stops => do
    let byte ← M.control slot
    if isFree byte then pure (some ⟨slot, bit⟩) else searchVacancy beta stops

/-- The memory of a table of `n` slots, whose control array ends `GROUP_SIZE - 1` bytes past them: what is reached
beyond it panics. -/
def guarded (n : Nat) : Memory σ where
  load := fun start =>
    if start + group.groupSize ≤ n + (group.groupSize - 1) then M.load start else Exec.raise outOfBounds
  control := fun slot => if slot < n then M.control slot else Exec.raise outOfBounds
  inspect := fun slot => if slot < n then M.inspect slot else Exec.raise outOfBounds

end Memory

section Lanes

variable {σ : Type} {group : GroupBackend} {ctrl ctrl' : Nat → UInt8} {inspect inspect' : Nat → Exec Panic σ Bool}
  {start logicalLanes : Nat}

theorem groupLanes_congr (hc : ∀ lane < group.groupSize, ctrl (start + lane) = ctrl' (start + lane))
    (p : UInt8 → Bool) : groupLanes group ctrl start p = groupLanes group ctrl' start p := by
  apply List.filter_congr
  intro lane hlane
  rw [hc lane (List.mem_range.mp hlane)]

theorem scanLanes_congr (hi : ∀ lane < logicalLanes, inspect (start + lane) = inspect' (start + lane))
    {events : List Nat} (hc : ∀ lane ∈ events, ctrl (start + lane) = ctrl' (start + lane)) (reuse : Option Nat) :
    scanLanes ctrl inspect start logicalLanes events reuse =
      scanLanes ctrl' inspect' start logicalLanes events reuse := by
  induction events generalizing reuse with
  | nil => rfl
  | cons lane events ih =>
    rw [List.forall_mem_cons] at hc
    obtain ⟨hlane, hevents⟩ := hc
    have ih := ih hevents
    rw [scanLanes, scanLanes]
    split
    · rfl
    · rename_i hlt
      dsimp only
      rw [hlane, hi lane (Nat.not_le.mp hlt)]
      split
      · exact ih _
      · split
        · rfl
        · apply bind_congr
          intro answer
          cases answer with
          | true => rfl
          | false => exact ih reuse

theorem inspectLanes_congr (hi : ∀ lane < logicalLanes, inspect (start + lane) = inspect' (start + lane))
    {semanticLanes : Nat} (hle : semanticLanes ≤ logicalLanes) (lanes : List Nat) :
    inspectLanes inspect start semanticLanes lanes = inspectLanes inspect' start semanticLanes lanes := by
  induction lanes with
  | nil => rfl
  | cons lane lanes ih =>
    rw [inspectLanes, inspectLanes]
    split
    · rfl
    · rename_i hlt
      rw [hi lane (by omega)]
      apply bind_congr
      intro answer
      cases answer with
      | true => rfl
      | false => exact ih

variable (fingerprint : UInt8)

theorem scanFunnelGroup_congr (hc : ∀ lane < group.groupSize, ctrl (start + lane) = ctrl' (start + lane))
    (hi : ∀ lane < logicalLanes, inspect (start + lane) = inspect' (start + lane)) (reuse : Option Nat) :
    scanFunnelGroup group ctrl fingerprint inspect start logicalLanes reuse =
      scanFunnelGroup group ctrl' fingerprint inspect' start logicalLanes reuse := by
  rw [scanFunnelGroup, scanFunnelGroup, groupLanes_congr hc]
  apply scanLanes_congr hi
  intro lane hlane
  exact hc lane (List.mem_range.mp (List.mem_filter.mp hlane).1)

theorem scanCleanFunnelGroup_congr (hc : ∀ lane < group.groupSize, ctrl (start + lane) = ctrl' (start + lane))
    (hi : ∀ lane < logicalLanes, inspect (start + lane) = inspect' (start + lane)) :
    scanCleanFunnelGroup group ctrl fingerprint inspect start logicalLanes =
      scanCleanFunnelGroup group ctrl' fingerprint inspect' start logicalLanes := by
  rw [scanCleanFunnelGroup, scanCleanFunnelGroup, groupLanes_congr hc, groupLanes_congr hc]
  rw [inspectLanes_congr hi]
  cases hfirst : (groupLanes group ctrl' start (· == ctrlEmpty)).find? (· < logicalLanes) with
  | none => exact Nat.le_refl _
  | some lane =>
    have hlt := List.find?_some hfirst
    exact Nat.le_of_lt (of_decide_eq_true hlt)

end Lanes

namespace Stop

def Within (beta n : Nat) : Stop → Prop
  | .failed => True
  | .missing => False
  | .bucket start => start < n ∧ start + beta ≤ n
  | .slot place => place < n

end Stop

namespace Memory

variable {σ : Type}

structure Agree (n : Nat) (M M' : Memory σ) : Prop where
  load : ∀ start < n, M.load start = M'.load start
  control : ∀ slot < n, M.control slot = M'.control slot
  inspect : ∀ slot < n, M.inspect slot = M'.inspect slot

theorem guarded_agree (M : Memory σ) (group : GroupBackend) (n : Nat) : (M.guarded group n).Agree n M := by
  have hpos := group.groupSize_pos
  exact ⟨fun _ h => if_pos (by omega), fun _ h => if_pos h, fun _ h => if_pos h⟩

namespace Agree

variable {M M' : Memory σ} {n : Nat} {group : GroupBackend} {fingerprint : UInt8} {start logicalLanes stop : Nat}

theorem lanes (h : M.Agree n M') (hstop : start + logicalLanes ≤ n) :
    ∀ lane < logicalLanes, M.inspect (start + lane) = M'.inspect (start + lane) :=
  fun _ hlane => h.inspect _ (by omega)

theorem scanGroup (h : M.Agree n M') (hstart : start < n) (hstop : start + logicalLanes ≤ n) (reuse : Option Nat) :
    M.scanGroup group fingerprint start logicalLanes reuse =
      M'.scanGroup group fingerprint start logicalLanes reuse := by
  rw [Memory.scanGroup, Memory.scanGroup, h.load start hstart]
  apply bind_congr
  intro bytes
  exact scanFunnelGroup_congr fingerprint (fun _ _ => rfl) (h.lanes hstop) reuse

theorem scanGroups (h : M.Agree n M') (hstop : stop ≤ n) (fuel position : Nat) (reuse : Option Nat) :
    M.scanGroups group fingerprint stop fuel position reuse =
      M'.scanGroups group fingerprint stop fuel position reuse := by
  induction fuel generalizing position reuse with
  | zero => rfl
  | succ fuel ih =>
    rw [Memory.scanGroups, Memory.scanGroups]
    split
    · dsimp only
      rw [h.scanGroup (by omega) (by omega)]
      apply bind_congr
      intro found
      rcases found with ⟨_ | _ | _, reuse⟩
      · rfl
      · rfl
      · exact ih _ reuse
    · rfl

theorem scanBucket (h : M.Agree n M') (hstart : start < n) (hstop : start + logicalLanes ≤ n) (reuse : Option Nat) :
    M.scanBucket group fingerprint start logicalLanes reuse =
      M'.scanBucket group fingerprint start logicalLanes reuse := by
  rw [Memory.scanBucket, Memory.scanBucket, h.scanGroup hstart hstop, h.scanGroups hstop]

theorem scanCleanGroup (h : M.Agree n M') (hstart : start < n) (hstop : start + logicalLanes ≤ n) :
    M.scanCleanGroup group fingerprint start logicalLanes =
      M'.scanCleanGroup group fingerprint start logicalLanes := by
  rw [Memory.scanCleanGroup, Memory.scanCleanGroup, h.load start hstart]
  apply bind_congr
  intro bytes
  exact scanCleanFunnelGroup_congr fingerprint (fun _ _ => rfl) (h.lanes hstop)

theorem scanCleanGroups (h : M.Agree n M') (hstop : stop ≤ n) (fuel position : Nat) :
    M.scanCleanGroups group fingerprint stop fuel position =
      M'.scanCleanGroups group fingerprint stop fuel position := by
  induction fuel generalizing position with
  | zero => rfl
  | succ fuel ih =>
    rw [Memory.scanCleanGroups, Memory.scanCleanGroups]
    split
    · dsimp only
      rw [h.scanCleanGroup (by omega) (by omega)]
      apply bind_congr
      intro found
      cases found with
      | hit slot => rfl
      | empty slot => rfl
      | full => exact ih _
    · rfl

theorem scanCleanBucket (h : M.Agree n M') (hstart : start < n) (hstop : start + logicalLanes ≤ n) :
    M.scanCleanBucket group fingerprint start logicalLanes =
      M'.scanCleanBucket group fingerprint start logicalLanes := by
  rw [Memory.scanCleanBucket, Memory.scanCleanBucket, h.scanCleanGroup hstart hstop, h.scanCleanGroups hstop]

theorem firstFreeGroups (h : M.Agree n M') (hstop : stop ≤ n) (fuel position : Nat) :
    M.firstFreeGroups group stop fuel position = M'.firstFreeGroups group stop fuel position := by
  induction fuel generalizing position with
  | zero => rfl
  | succ fuel ih =>
    rw [Memory.firstFreeGroups, Memory.firstFreeGroups]
    split
    · dsimp only
      rw [h.load position (by omega)]
      apply bind_congr
      intro bytes
      split
      · split
        · rfl
        · exact ih _
      · exact ih _
    · rfl

theorem scanBucketMode (h : M.Agree n M') (hstart : start < n) (hstop : start + logicalLanes ≤ n)
    (cleanEpoch : Bool) (reuse : Option Nat) :
    M.scanBucketMode group fingerprint cleanEpoch start logicalLanes reuse =
      M'.scanBucketMode group fingerprint cleanEpoch start logicalLanes reuse := by
  rw [Memory.scanBucketMode, Memory.scanBucketMode, h.scanCleanBucket hstart hstop, h.scanBucket hstart hstop]

theorem inspectSlot (h : M.Agree n M') {slot : Nat} (hslot : slot < n) :
    M.inspectSlot fingerprint slot = M'.inspectSlot fingerprint slot := by
  rw [Memory.inspectSlot, Memory.inspectSlot, h.control slot hslot, h.inspect slot hslot]

theorem searchSpecialSlot (h : M.Agree n M') {slot : Nat} (hslot : slot < n) (reuse : Option Nat) :
    M.searchSpecialSlot fingerprint slot reuse = M'.searchSpecialSlot fingerprint slot reuse := by
  rw [Memory.searchSpecialSlot, Memory.searchSpecialSlot, h.control slot hslot, h.inspectSlot hslot]

variable {beta : Nat}

theorem searchExact (h : M.Agree n M') (cleanEpoch : Bool) {stops : List Stop}
    (hstops : ∀ stop ∈ stops, stop.Within beta n) (reuse : Option Nat) :
    M.searchExact group fingerprint beta cleanEpoch stops reuse =
      M'.searchExact group fingerprint beta cleanEpoch stops reuse := by
  induction stops generalizing reuse with
  | nil => rfl
  | cons stop stops ih =>
    rw [List.forall_mem_cons] at hstops
    obtain ⟨hstop, hstops⟩ := hstops
    cases stop with
    | failed => rfl
    | missing => rfl
    | bucket start =>
      rw [Memory.searchExact, Memory.searchExact, h.scanBucketMode hstop.1 hstop.2]
      apply bind_congr
      intro found
      rcases found with ⟨_ | _ | _, reuse⟩
      · rfl
      · rfl
      · exact ih hstops reuse
    | slot slot =>
      rw [Memory.searchExact, Memory.searchExact, h.searchSpecialSlot hstop]
      apply bind_congr
      intro found
      rcases found with ⟨_ | _, reuse⟩
      · exact ih hstops reuse
      · rfl

theorem lookup (h : M.Agree n M') {stops : List Stop} (hstops : ∀ stop ∈ stops, stop.Within beta n) :
    M.lookup group fingerprint beta stops = M'.lookup group fingerprint beta stops := by
  induction stops with
  | nil => rfl
  | cons stop stops ih =>
    rw [List.forall_mem_cons] at hstops
    obtain ⟨hstop, hstops⟩ := hstops
    cases stop with
    | failed => rfl
    | missing => rfl
    | bucket start =>
      rw [Memory.lookup, Memory.lookup, h.scanCleanBucket hstop.1 hstop.2, ih hstops]
    | slot slot => rw [Memory.lookup, Memory.lookup, h.inspectSlot hstop, ih hstops]

theorem searchVacancy (h : M.Agree n M') {stops : List (UInt16 × Stop)}
    (hstops : ∀ stop ∈ stops, stop.2.Within beta n) :
    M.searchVacancy group beta stops = M'.searchVacancy group beta stops := by
  induction stops with
  | nil => rfl
  | cons stop stops ih =>
    rw [List.forall_mem_cons] at hstops
    obtain ⟨hstop, hstops⟩ := hstops
    obtain ⟨bit, stop⟩ := stop
    cases stop with
    | failed => rfl
    | missing => rfl
    | bucket start =>
      rw [Memory.searchVacancy, Memory.searchVacancy, h.firstFreeGroups hstop.2, ih hstops]
    | slot slot => rw [Memory.searchVacancy, Memory.searchVacancy, h.control slot hstop, ih hstops]

end Agree

end Memory

end Opthash.Funnel
