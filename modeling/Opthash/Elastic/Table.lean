import Opthash.Elastic.Geometry
import Opthash.Epoch
import Opthash.Raw.Rebuild

namespace Opthash.Elastic

open Probe

structure ExactPlacement where
  level : Nat
  slot : Nat
  phi : Nat
  deriving DecidableEq, Repr

structure Level (K V : Type) where
  region : Region (K × V)
  len : Nat
  tombstones : Nat

namespace Level

variable {K V : Type}

def newAt (capacity : Nat) : Level K V := ⟨.empty capacity, 0, 0⟩

variable (l : Level K V)

def freeSlots : Nat := l.region.capacity - l.len

def needsCleanup (group : GroupBackend) : Bool :=
  l.tombstones > Capacity.tombstoneCleanupThreshold group l.region.capacity

def write (slot : Nat) (entry : K × V) (fingerprint : UInt8) : Level K V where
  region := l.region.writeWithControl slot entry fingerprint
  len := l.len + 1
  tombstones :=
    if l.region.ctrl slot = ctrlTombstone then wrappingDec u32Max l.tombstones else l.tombstones

def extractFinish (slot : Nat) : Level K V :=
  ⟨l.region.markTombstone slot, l.len - 1, wrappingInc u32Max l.tombstones⟩

def tombstoneSlot (slot : Nat) : Level K V := { l with region := l.region.markTombstone slot }

def emptySlot (slot : Nat) : Level K V :=
  { l with region := l.region.setControl slot ctrlEmpty, len := l.len - 1 }

def finishDrain : Level K V := { l with region := l.region.clearAllControls, tombstones := 0 }

def wipe : Level K V := ⟨l.region.clearAllControls, 0, 0⟩

end Level

structure ElasticTable (K V : Type) where
  levels : List (Level K V)
  len : Nat
  totalSlots : Nat
  maxInsertions : Nat
  reserveFraction : ReserveFraction
  scheduler : BatchScheduler
  epoch : EpochState
  probeHighWater : UInt32
  probeSchedule : List PhiRoute
  membership : MembershipRegion
  staleMembership : Nat

structure PreparedElasticKey where
  probe : PreparedElasticProbe
  membership : UInt64
  deriving DecidableEq, Repr

namespace PreparedElasticKey

def new (hash : UInt64) : PreparedElasticKey :=
  let probe := prepareElastic elasticProbeSeed hash
  ⟨probe, Membership.fromSignature membershipBits probe.routingSignature⟩

variable (p : PreparedElasticKey)

def signature : UInt64 := p.probe.routingSignature

def summaryBin : Nat := (p.signature &&& 3).toNat

end PreparedElasticKey

structure ElasticRouteFilter where
  maybePresent : Bool
  levelMask : UInt32
  deriving DecidableEq, Repr

/-- Widens the saturating last summary bit over every level index it stands for. -/
def ElasticRouteFilter.expandedLevelMask (f : ElasticRouteFilter) : UInt32 :=
  let saturated := (f.levelMask >>> 15) &&& 1
  f.levelMask ||| ((0 - saturated) <<< 15)

def summaryLevel (level : Nat) : Nat :=
  if level < routeSummaryLevels - 1 then level else routeSummaryLevels - 1

/-- `insertion sort` stands for the unstable sort: the keys of a suffix are distinct positions. -/
def insertRoute (r : PhiRoute) : List PhiRoute → List PhiRoute
  | [] => [r]
  | s :: routes => if r.rangeUpper ≤ s.rangeUpper then r :: s :: routes else s :: insertRoute r routes

def sortRoutes : List PhiRoute → List PhiRoute
  | [] => []
  | r :: routes => insertRoute r (sortRoutes routes)

def routePreparedCounterForUpper (probe : PreparedElasticProbe) (counterBase : UInt32) (upper : Nat) :
    Option Nat :=
  match unbiasedPreparedElasticProbeIndex probe counterBase upper rangeWordCap with
  | .ok probe => some probe.index
  | .error _ => none

namespace ElasticTable

variable {σ W K V : Type}

section Search

variable (t : ElasticTable K V)

def region (level : Nat) : Region (K × V) := (t.levels[level]?).elim (.empty 0) Level.region

def modifyLevel (level : Nat) (f : Level K V → Level K V) : ElasticTable K V :=
  { t with levels := t.levels.modify level f }

def routePrepared (level : Nat) (probe : PreparedElasticProbe) (logicalIndex : Nat) : Option Nat := do
  let l ← t.levels[level]?
  routePreparedCounterForUpper probe (elasticCounterBase level logicalIndex) l.region.capacity

def vacancy (level : Nat) (probe : PreparedElasticProbe) (logicalIndex : Nat) : Option Nat := do
  let slot ← t.routePrepared level probe logicalIndex
  if isFree ((t.region level).ctrl slot) then some slot else none

/-- The first of the probes `0..budget` with a vacancy, and its one-based number. -/
def firstVacancy (probe : PreparedElasticProbe) (level budget : Nat) : Option (Nat × Nat) :=
  (List.range budget).findSome? fun logicalIndex =>
    (t.vacancy level probe logicalIndex).map fun slot => (slot, logicalIndex + 1)

def uniformVacancy (probe : PreparedElasticProbe) (level : Nat) : Option (Nat × Nat) :=
  t.firstVacancy probe level (levelProbeLimit level)

def selectSlot (probe : PreparedElasticProbe) : BatchTarget → Option (Nat × Nat × Nat)
  | .bootstrap => (t.uniformVacancy probe 0).map fun found => (0, found)
  | .levelPair current => do
    let next := current + 1
    let currentLevel ← t.levels[current]?
    let nextLevel ← t.levels[next]?
    let freeCurrent := currentLevel.freeSlots
    let freeNext := nextLevel.freeSlots
    let currentLow := freeCurrent ≤ t.reserveFraction.floorHalfReserved currentLevel.region.capacity
    let nextLow := saturatingUsize (freeNext * 4) ≤ nextLevel.region.capacity
    if currentLow then (t.uniformVacancy probe next).map fun found => (next, found)
    else if nextLow then (t.uniformVacancy probe current).map fun found => (current, found)
    else
      let budget ← (elasticDyadicProbeBudget freeCurrent currentLevel.region.capacity
        t.reserveFraction.exponent elasticProbeBudgetC).toOption
      match t.firstVacancy probe current (min budget (levelProbeLimit current)) with
      | some found => some (current, found)
      | none => (t.uniformVacancy probe next).map fun found => (next, found)

def chooseSlotForNewKey (probe : PreparedElasticProbe) (target : BatchTarget) : Option ExactPlacement :=
  if t.levels = [] then none
  else do
    let (level, slot, paperProbe) ← t.selectSlot probe target
    let phi ← elasticPhiBounded (level + 1) paperProbe
    if phi > queryPositionCap then none else some ⟨level, slot, phi⟩

def hasRoom (level : Nat) : Bool := (t.levels[level]?).elim false (fun l => l.freeSlots > 0)

def chooseSlotOnOtherTargets (probe : PreparedElasticProbe) (target : BatchTarget) :
    Option ExactPlacement :=
  let candidates := .bootstrap :: (List.range (t.levels.length - 1)).map .levelPair
  let roomy := (candidates.filter (· != target)).filter fun candidate => match candidate with
    | .bootstrap => t.hasRoom 0
    | .levelPair current => t.hasRoom current || t.hasRoom (current + 1)
  roomy.findSome? (t.chooseSlotForNewKey probe)

def firstFreeSlot : Option (Nat × Nat) :=
  (List.range t.levels.length).findSome? fun level =>
    ((List.range (t.region level).capacity).find? fun slot =>
      isFree ((t.region level).ctrl slot)).map fun slot => (level, slot)

def routeFilter (prepared : PreparedElasticKey) : ElasticRouteFilter :=
  if t.membership.words = 0 then ⟨false, 0⟩
  else
    let metadata := t.membership.word (Membership.word prepared.signature t.membership.words)
    { maybePresent := metadata.membership &&& prepared.membership == prepared.membership
      levelMask := (metadata.levelBins prepared.summaryBin).toUInt32 }

variable (inspect : Nat × Nat → Exec Panic σ Bool)

def entryIfMatch (keyFingerprint : UInt8) (level slot : Nat) : Exec Panic σ Bool :=
  if (t.region level).ctrl slot = keyFingerprint then inspect (level, slot) else pure false

def locations : List (Nat × Nat) :=
  (List.range t.levels.length).flatMap fun level =>
    (List.range (t.region level).capacity).map fun slot => (level, slot)

def findFrom (keyFingerprint : UInt8) : List (Nat × Nat) → Exec Panic σ (Option (Nat × Nat))
  | [] => pure none
  | (level, slot) :: locations => do
    if ← t.entryIfMatch inspect keyFingerprint level slot then pure (some (level, slot))
    else findFrom keyFingerprint locations

def findByFullScan (keyFingerprint : UInt8) : Exec Panic σ (Option (Nat × Nat)) :=
  t.findFrom inspect keyFingerprint t.locations

def findInSchedule (prepared : PreparedElasticKey) (keyFingerprint : UInt8) (levelMask : UInt32) :
    List PhiRoute → Exec Panic σ (Option (Nat × Nat))
  | [] =>
    if t.probeHighWater &&& exceptionalPlacementFlag != 0 then t.findByFullScan inspect keyFingerprint
    else pure none
  | route :: routes =>
    if levelMask &&& ((1 : UInt32) <<< UInt32.ofNat route.level) = 0 then
      findInSchedule prepared keyFingerprint levelMask routes
    else match routePreparedCounterForUpper prepared.probe route.counterBase route.rangeUpper with
    | none => t.findByFullScan inspect keyFingerprint
    | some slot => do
      if ← t.entryIfMatch inspect keyFingerprint route.level slot then pure (some (route.level, slot))
      else findInSchedule prepared keyFingerprint levelMask routes

def findByExactSchedule (prepared : PreparedElasticKey) (keyFingerprint : UInt8) :
    Exec Panic σ (Option (Nat × Nat)) :=
  if t.len = 0 ∨ t.levels = [] then pure none
  else match routePreparedCounterForUpper prepared.probe h11CounterBase (t.region 0).capacity with
  | none => t.findByFullScan inspect keyFingerprint
  | some h11Slot => do
    let filter := t.routeFilter prepared
    if ← t.entryIfMatch inspect keyFingerprint 0 h11Slot then pure (some (0, h11Slot))
    else if !filter.maybePresent then pure none
    else t.findInSchedule inspect prepared keyFingerprint filter.expandedLevelMask t.probeSchedule

end Search

section Update

variable (t : ElasticTable K V)

def recordMembership (prepared : PreparedElasticKey) (level : Nat) : ElasticTable K V :=
  let word := Membership.word prepared.signature t.membership.words
  let levelBit := (1 : UInt16) <<< UInt16.ofNat (summaryLevel level)
  { t with membership := t.membership.record word prepared.membership prepared.summaryBin levelBit }

def clearMembership : ElasticTable K V :=
  { t with membership := t.membership.clear, staleMembership := 0 }

def resetAfterClear : ElasticTable K V :=
  let t := { t with scheduler := t.scheduler.reset, probeHighWater := 0, probeSchedule := [] }
  { t.clearMembership with epoch := t.epoch.start .clear }

def writeNewEntry (key : K) (value : V) (prepared : PreparedElasticKey) (keyFingerprint : UInt8)
    (level slot : Nat) : ElasticTable K V :=
  let t := t.modifyLevel level (fun l => l.write slot (key, value) keyFingerprint)
  let t := t.recordMembership prepared level
  { t with len := t.len + 1 }

def replaceValue (loc : Nat × Nat) (key : K) (value : V) : ElasticTable K V :=
  t.modifyLevel loc.1 fun l => { l with region := l.region.setSlot loc.2 (key, value) }

def extractFinish (loc : Nat × Nat) : ElasticTable K V :=
  let t := t.modifyLevel loc.1 fun l => l.extractFinish loc.2
  { t with
    len := t.len - 1
    staleMembership := t.staleMembership + 1
    epoch := t.epoch.noteDelete }

def tombstoneSlot (loc : Nat × Nat) : ElasticTable K V :=
  t.modifyLevel loc.1 fun l => l.tombstoneSlot loc.2

def wipeAll : ElasticTable K V :=
  { t with levels := t.levels.map Level.wipe, len := 0 }.resetAfterClear

def priorHighWater : UInt32 := t.probeHighWater &&& ~~~exceptionalPlacementFlag

/-- The counter of a visited probe, behind the limits the encoding promises. -/
def packRoute (level paperProbe phi : Nat) : Except Panic PhiRoute :=
  if paperProbe - 1 ≥ queryProbeLimit then
    .error (.internal "Elastic query-probe convention exhausted")
  else match tryPackElasticCounter level (paperProbe - 1) 0 with
  | none => .error (.internal "Elastic query tuple fits the production counter")
  | some counterBase =>
    if phi > u32Max then .error (.internal "Elastic query cap fits u32") else .ok ⟨phi, counterBase⟩

def newRoutes (priorHighWater highWater level : Nat) : Except Panic (List PhiRoute) := do
  let fromProbe ← firstPaperProbeAfter (level + 1) priorHighWater
  forEachPhiRoute level fromProbe highWater (packRoute level)

def extendProbeSchedule (highWater : Nat) : Except Panic (ElasticTable K V) :=
  if highWater > queryPositionCap then
    .error (.internal "Elastic query-position convention exhausted")
  else if highWater ≤ t.priorHighWater.toNat then .ok t
  else do
    let routes ← (List.range t.levels.length).mapM (newRoutes t.priorHighWater.toNat highWater)
    let suffix := (sortRoutes routes.flatten).map fun route =>
      { route with rangeUpper := (t.region route.level).capacity }
    .ok { t with
      probeSchedule := t.probeSchedule ++ suffix
      probeHighWater :=
        (t.probeHighWater &&& exceptionalPlacementFlag) ||| UInt32.ofNat highWater }

end Update

end ElasticTable

end Opthash.Elastic
