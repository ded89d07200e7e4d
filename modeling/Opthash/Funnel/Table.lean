import Opthash.Epoch
import Opthash.Funnel.Shape
import Opthash.Raw.Rebuild

namespace Opthash.Funnel

open Probe

def funnelProbeSeed : UInt64 := wyhashDefaultSecret.getD 3 0
def funnelReseedStep : UInt64 := wyhashDefaultSecret.getD 0 0
def membershipBits : Nat := 2
def overflowLevel : Nat := 15

def levelBitOf (level : Nat) : UInt16 := (1 : UInt16) <<< UInt16.ofNat (min level overflowLevel)

def overflowLevelBit : UInt16 := levelBitOf overflowLevel

def levelBin (keyHash : UInt64) : Nat := ((keyHash >>> 6) &&& 3).toNat

structure MembershipSlot where
  index : Nat
  bits : UInt64
  bin : Nat
  deriving DecidableEq, Repr

structure MembershipGate where
  word : UInt64
  bits : UInt64
  levels : UInt16
  deriving DecidableEq, Repr

def MembershipGate.passes (g : MembershipGate) : Bool := g.word &&& g.bits == g.bits

inductive SearchResult
  | hit (slot : Nat)
  | vacant (slot : Nat)
  | full
  | rangeFailure
  deriving DecidableEq, Repr

structure Vacancy where
  slot : Nat
  levelBit : UInt16
  deriving DecidableEq, Repr

structure FunnelVacant where
  hash : UInt64
  exact : Nat
  deriving DecidableEq, Repr

namespace FunnelVacant

def unsearched : Nat := usizeMax
def exhausted : Nat := usizeMax - 1

end FunnelVacant

inductive BucketScanResult
  | hit (slot : Nat)
  | empty (slot : Nat)
  | full
  deriving DecidableEq, Repr

section Scan

variable {σ : Type} (group : GroupBackend) (ctrl : Nat → UInt8) (fingerprint : UInt8)
  (inspect : Nat → Exec Panic σ Bool)

def scanLanes (start logicalLanes : Nat) :
    List Nat → Option Nat → Exec Panic σ (BucketScanResult × Option Nat)
  | [], firstTombstone => pure (.full, firstTombstone)
  | lane :: events, firstTombstone =>
    if lane ≥ logicalLanes then pure (.full, firstTombstone)
    else
      let slot := start + lane
      if ctrl slot = ctrlTombstone then
        scanLanes start logicalLanes events (firstTombstone.or (some slot))
      else if ctrl slot = ctrlEmpty then
        pure (.empty (firstTombstone.getD slot), firstTombstone)
      else do
        if ← inspect slot then pure (.hit slot, firstTombstone)
        else scanLanes start logicalLanes events firstTombstone

/-- Lanes of the group at `start` whose control byte satisfies `p`, lowest first. -/
def groupLanes (start : Nat) (p : UInt8 → Bool) : List Nat :=
  (List.range group.groupSize).filter (fun lane => p (ctrl (start + lane)))

def scanFunnelGroup (start logicalLanes : Nat) (firstTombstone : Option Nat) :
    Exec Panic σ (BucketScanResult × Option Nat) :=
  scanLanes ctrl inspect start logicalLanes
    (groupLanes group ctrl start (fun byte => isFree byte || byte == fingerprint)) firstTombstone

def scanFunnelGroups (stop : Nat) :
    Nat → Nat → Option Nat → Exec Panic σ (BucketScanResult × Option Nat)
  | 0, _, firstTombstone => pure (.full, firstTombstone)
  | fuel + 1, position, firstTombstone =>
    if position < stop then do
      let logicalLanes := min group.groupSize (stop - position)
      match ← scanFunnelGroup group ctrl fingerprint inspect position logicalLanes firstTombstone with
      | (.full, firstTombstone) => scanFunnelGroups stop fuel (position + logicalLanes) firstTombstone
      | result => pure result
    else pure (.full, firstTombstone)

def scanFunnelBucket (start length : Nat) (firstTombstone : Option Nat) :
    Exec Panic σ (BucketScanResult × Option Nat) :=
  if length ≤ group.groupSize then
    scanFunnelGroup group ctrl fingerprint inspect start length firstTombstone
  else scanFunnelGroups group ctrl fingerprint inspect (start + length) length start firstTombstone

def inspectLanes (start semanticLanes : Nat) : List Nat → Exec Panic σ (Option Nat)
  | [] => pure none
  | lane :: lanes =>
    if lane ≥ semanticLanes then pure none
    else do
      if ← inspect (start + lane) then pure (some (start + lane))
      else inspectLanes start semanticLanes lanes

def scanCleanFunnelGroup (start logicalLanes : Nat) : Exec Panic σ BucketScanResult := do
  let firstEmpty := (groupLanes group ctrl start (· == ctrlEmpty)).find? (· < logicalLanes)
  let semanticLanes := firstEmpty.getD logicalLanes
  match ← inspectLanes inspect start semanticLanes (groupLanes group ctrl start (· == fingerprint)) with
  | some slot => pure (.hit slot)
  | none =>
    match firstEmpty with
    | some emptyLane => pure (.empty (start + emptyLane))
    | none => pure .full

def scanCleanFunnelGroups (stop : Nat) : Nat → Nat → Exec Panic σ BucketScanResult
  | 0, _ => pure .full
  | fuel + 1, position =>
    if position < stop then do
      let logicalLanes := min group.groupSize (stop - position)
      match ← scanCleanFunnelGroup group ctrl fingerprint inspect position logicalLanes with
      | .full => scanCleanFunnelGroups stop fuel (position + logicalLanes)
      | result => pure result
    else pure .full

def scanCleanFunnelBucket (start length : Nat) : Exec Panic σ BucketScanResult :=
  if length ≤ group.groupSize then
    scanCleanFunnelGroup group ctrl fingerprint inspect start length
  else scanCleanFunnelGroups group ctrl fingerprint inspect (start + length) length start

def firstFreeGroups (stop : Nat) : Nat → Nat → Option Nat
  | 0, _ => none
  | fuel + 1, position =>
    if position < stop then
      let logicalLanes := min group.groupSize (stop - position)
      match (groupLanes group ctrl position isFree).head? with
      | some lane =>
        if lane < logicalLanes then some (position + lane)
        else firstFreeGroups stop fuel (position + logicalLanes)
      | none => firstFreeGroups stop fuel (position + logicalLanes)
    else none

def firstFreeInBucket (start length : Nat) : Option Nat :=
  firstFreeGroups group ctrl (start + length) length start

end Scan

structure FunnelTable (K V : Type) where
  shape : FunnelShape
  storage : Region (K × V)
  len : Nat
  tombstones : Nat
  reserveFraction : ReserveFraction
  epoch : EpochState
  exceptionalPlacement : Bool
  probeSeed : UInt64
  membership : MembershipRegion
  staleMembership : Nat

def sample (prepared : PreparedFastFunnelDomainProbe) (logicalProbe : Nat)
    (range : PreparedProbeRange) : Option Nat :=
  match unbiasedPreparedFunnelProbeIndexInRange prepared logicalProbe range rangeWordCap with
  | .ok probe => some probe.index
  | .error _ => none

/-- The control layout, the metadata words and the padding of a table of `n` slots. -/
def funnelLayout (group : GroupBackend) (slotSize slotAlign n : Nat) :
    Except TryReserveError (Layout × Nat) := do
  let controlBytes ← if n = 0 then .ok 0 else orOverflow (checkedUsize (n + (group.groupSize - 1)))
  let (base, _) ← Arena.layoutForExtents slotSize slotAlign controlBytes n
  Arena.extendMembership base n

namespace FunnelTable

variable {σ W K V : Type} (group : GroupBackend)

section Search

variable (t : FunnelTable K V) (inspect : Nat → Exec Panic σ Bool)

def fallbackSlot (bucket slotInBucket : Nat) : Nat :=
  t.shape.fallbackOffset + bucket * t.shape.fallbackBucketWidth + slotInBucket

def fallbackSlots (first second : Nat) : List Nat :=
  (List.range t.shape.fallbackBucketWidth).flatMap fun slotInBucket =>
    [t.fallbackSlot first slotInBucket, t.fallbackSlot second slotInBucket]

def inspectSlot (keyFingerprint : UInt8) (slot : Nat) : Exec Panic σ (Option Bool) :=
  if t.storage.ctrl slot = ctrlEmpty then pure (some false)
  else if t.storage.ctrl slot = keyFingerprint then do
    if ← inspect slot then pure (some true) else pure none
  else pure none

def searchSpecialSlot (keyFingerprint : UInt8) (slot : Nat) (firstTombstone : Option Nat) :
    Exec Panic σ (Option SearchResult × Option Nat) :=
  if t.storage.ctrl slot = ctrlTombstone then pure (none, firstTombstone.or (some slot))
  else do
    match ← t.inspectSlot inspect keyFingerprint slot with
    | some true => pure (some (.hit slot), firstTombstone)
    | some false => pure (some (.vacant (firstTombstone.getD slot)), firstTombstone)
    | none => pure (none, firstTombstone)

def missOr (miss : SearchResult) (firstTombstone : Option Nat) : SearchResult :=
  firstTombstone.elim miss .vacant

def searchFallback (keyFingerprint : UInt8) :
    List Nat → Option Nat → Exec Panic σ SearchResult
  | [], firstTombstone => pure (missOr .full firstTombstone)
  | slot :: slots, firstTombstone => do
    match ← t.searchSpecialSlot inspect keyFingerprint slot firstTombstone with
    | (some result, _) => pure result
    | (none, firstTombstone) => searchFallback keyFingerprint slots firstTombstone

def searchFallbackBuckets (probe : PreparedFastFunnelProbe) (keyFingerprint : UInt8)
    (firstTombstone : Option Nat) : Exec Panic σ SearchResult :=
  match sample (probe.prepareCounterBase funnelSpecialFallbackABase) 0 t.shape.fallbackBucketRange with
  | none => pure (missOr .rangeFailure firstTombstone)
  | some firstBucket =>
    match sample (probe.prepareCounterBase funnelSpecialFallbackBBase) 0
        t.shape.fallbackBucketRange with
    | none => pure (missOr .rangeFailure firstTombstone)
    | some secondBucket =>
      t.searchFallback inspect keyFingerprint (t.fallbackSlots firstBucket secondBucket) firstTombstone

def searchPrimary (probe : PreparedFastFunnelProbe) (keyFingerprint : UInt8) :
    List Nat → Option Nat → Exec Panic σ SearchResult
  | [], firstTombstone => t.searchFallbackBuckets inspect probe keyFingerprint firstTombstone
  | logicalProbe :: logicalProbes, firstTombstone =>
    match sample (probe.prepareCounterBase funnelSpecialPrimaryBase) logicalProbe
        t.shape.primaryRange with
    | none => pure (missOr .rangeFailure firstTombstone)
    | some index => do
      match ← t.searchSpecialSlot inspect keyFingerprint (t.shape.primaryOffset + index)
          firstTombstone with
      | (some result, _) => pure result
      | (none, firstTombstone) => searchPrimary probe keyFingerprint logicalProbes firstTombstone

def bucketStart (level : LevelShape) (bucket : Nat) : Nat := level.offset + bucket * t.shape.beta

def scanBucketMode (cleanEpoch : Bool) (keyFingerprint : UInt8) (start : Nat)
    (firstTombstone : Option Nat) : Exec Panic σ (BucketScanResult × Option Nat) :=
  if cleanEpoch then do
    let result ← scanCleanFunnelBucket group t.storage.ctrl keyFingerprint inspect start t.shape.beta
    pure (result, firstTombstone)
  else scanFunnelBucket group t.storage.ctrl keyFingerprint inspect start t.shape.beta firstTombstone

def searchLevels (cleanEpoch : Bool) (probe : PreparedFastFunnelProbe) (keyFingerprint : UInt8) :
    List LevelShape → Option Nat → Exec Panic σ SearchResult
  | [], firstTombstone =>
    t.searchPrimary inspect probe keyFingerprint (List.range t.shape.loglogCeiling) firstTombstone
  | level :: levels, firstTombstone =>
    match sample (probe.prepareCounterBase level.ordinaryCounterBase) 0 level.bucketRange with
    | none => pure (missOr .rangeFailure firstTombstone)
    | some bucket => do
      match ← t.scanBucketMode group inspect cleanEpoch keyFingerprint (t.bucketStart level bucket)
          firstTombstone with
      | (.hit slot, _) => pure (.hit slot)
      | (.empty slot, _) => pure (.vacant slot)
      | (.full, firstTombstone) => searchLevels cleanEpoch probe keyFingerprint levels firstTombstone

def searchExactMode (cleanEpoch : Bool) (probe : PreparedFastFunnelProbe) (keyFingerprint : UInt8) :
    Exec Panic σ SearchResult :=
  if t.shape.n = 0 then pure .full
  else t.searchLevels group inspect cleanEpoch probe keyFingerprint t.shape.levels none

def searchExactPrepared (probe : PreparedFastFunnelProbe) (keyFingerprint : UInt8) :
    Exec Panic σ SearchResult :=
  t.searchExactMode group inspect false probe keyFingerprint

def searchExactPreparedForInsert (probe : PreparedFastFunnelProbe) (keyFingerprint : UInt8) :
    Exec Panic σ SearchResult :=
  if t.tombstones = 0 then t.searchExactMode group inspect true probe keyFingerprint
  else t.searchExactMode group inspect false probe keyFingerprint

/-- Tombstone-blind scan of one ordinary level; `none` is a range failure. -/
def lookupLevel (probe : PreparedFastFunnelProbe) (level : LevelShape) (keyFingerprint : UInt8) :
    Exec Panic σ (Option BucketScanResult) :=
  match sample (probe.prepareCounterBase level.ordinaryCounterBase) 0 level.bucketRange with
  | none => pure none
  | some bucket =>
    some <$> scanCleanFunnelBucket group t.storage.ctrl keyFingerprint inspect
      (t.bucketStart level bucket) t.shape.beta

def lookupFallback (keyFingerprint : UInt8) : List Nat → Exec Panic σ (Option Nat)
  | [] => pure none
  | slot :: slots => do
    match ← t.inspectSlot inspect keyFingerprint slot with
    | some true => pure (some slot)
    | some false => pure none
    | none => lookupFallback keyFingerprint slots

def lookupFallbackBuckets (probe : PreparedFastFunnelProbe) (keyFingerprint : UInt8) :
    Exec Panic σ (Option Nat) :=
  match sample (probe.prepareCounterBase funnelSpecialFallbackABase) 0 t.shape.fallbackBucketRange with
  | none => pure none
  | some firstBucket =>
    match sample (probe.prepareCounterBase funnelSpecialFallbackBBase) 0
        t.shape.fallbackBucketRange with
    | none => pure none
    | some secondBucket =>
      t.lookupFallback inspect keyFingerprint (t.fallbackSlots firstBucket secondBucket)

def lookupPrimary (probe : PreparedFastFunnelProbe) (keyFingerprint : UInt8) :
    List Nat → Exec Panic σ (Option Nat)
  | [] => t.lookupFallbackBuckets inspect probe keyFingerprint
  | logicalProbe :: logicalProbes =>
    match sample (probe.prepareCounterBase funnelSpecialPrimaryBase) logicalProbe
        t.shape.primaryRange with
    | none => pure none
    | some index => do
      match ← t.inspectSlot inspect keyFingerprint (t.shape.primaryOffset + index) with
      | some true => pure (some (t.shape.primaryOffset + index))
      | some false => pure none
      | none => lookupPrimary probe keyFingerprint logicalProbes

def lookupLevels (probe : PreparedFastFunnelProbe) (keyFingerprint : UInt8)
    (rest : Exec Panic σ (Option Nat)) : List LevelShape → Exec Panic σ (Option Nat)
  | [] => rest
  | level :: levels => do
    match ← t.lookupLevel group inspect probe level keyFingerprint with
    | none => pure none
    | some (.hit slot) => pure (some slot)
    | some (.empty _) => pure none
    | some .full => lookupLevels probe keyFingerprint rest levels

def lookupOverflowLevels (probe : PreparedFastFunnelProbe) (keyFingerprint : UInt8) :
    Exec Panic σ (Option Nat) :=
  if t.shape.n = 0 then pure none
  else t.lookupLevels group inspect probe keyFingerprint
    (t.lookupPrimary inspect probe keyFingerprint (List.range t.shape.loglogCeiling))
    (t.shape.levels.drop overflowLevel)

def levelAt (index : Nat) : Exec Panic σ LevelShape :=
  Exec.expect (.internal "index out of bounds") t.shape.levels[index]?

/-- The levels of the set bits below the overflow bit, lowest first, then the overflow leg. -/
def lookupRecordedLevelsFrom (probe : PreparedFastFunnelProbe) (keyFingerprint : UInt8)
    (levels : UInt16) : List Nat → Exec Panic σ (Option Nat)
  | [] =>
    if levels &&& overflowLevelBit = 0 then pure none
    else t.lookupOverflowLevels group inspect probe keyFingerprint
  | index :: indices => do
    let level ← t.levelAt index
    match ← t.lookupLevel group inspect probe level keyFingerprint with
    | none => pure none
    | some (.hit slot) => pure (some slot)
    | some (.empty _) => pure none
    | some .full => lookupRecordedLevelsFrom probe keyFingerprint levels indices

def setLevels (levels : UInt16) : List Nat :=
  (List.range overflowLevel).filter (fun level => levels &&& levelBitOf level != 0)

def lookupRecordedLevels (probe : PreparedFastFunnelProbe) (keyFingerprint : UInt8)
    (levels : UInt16) : Exec Panic σ (Option Nat) :=
  t.lookupRecordedLevelsFrom group inspect probe keyFingerprint levels (setLevels levels)

def searchVacancyFallback (probe : PreparedFastFunnelProbe) : Option Nat := do
  let firstBucket ← sample (probe.prepareCounterBase funnelSpecialFallbackABase) 0
    t.shape.fallbackBucketRange
  let secondBucket ← sample (probe.prepareCounterBase funnelSpecialFallbackBBase) 0
    t.shape.fallbackBucketRange
  (t.fallbackSlots firstBucket secondBucket).find? (fun slot => isFree (t.storage.ctrl slot))

def searchVacancyPrimary (probe : PreparedFastFunnelProbe) : List Nat → Option Nat
  | [] => t.searchVacancyFallback probe
  | logicalProbe :: logicalProbes => do
    let index ← sample (probe.prepareCounterBase funnelSpecialPrimaryBase) logicalProbe
      t.shape.primaryRange
    if isFree (t.storage.ctrl (t.shape.primaryOffset + index)) then
      some (t.shape.primaryOffset + index)
    else searchVacancyPrimary probe logicalProbes

def searchVacancySpecial (probe : PreparedFastFunnelProbe) : Option Nat :=
  t.searchVacancyPrimary probe (List.range t.shape.loglogCeiling)

def searchVacancyLevels (probe : PreparedFastFunnelProbe) : List LevelShape → Nat → Option Vacancy
  | [], _ => (t.searchVacancySpecial probe).map fun slot => ⟨slot, overflowLevelBit⟩
  | level :: levels, index => do
    let bucket ← sample (probe.prepareCounterBase level.ordinaryCounterBase) 0 level.bucketRange
    match firstFreeInBucket group t.storage.ctrl (t.bucketStart level bucket) t.shape.beta with
    | some slot => some ⟨slot, levelBitOf index⟩
    | none => searchVacancyLevels probe levels (index + 1)

def searchVacancy (probe : PreparedFastFunnelProbe) : Option Vacancy :=
  if t.shape.n = 0 then none else t.searchVacancyLevels group probe t.shape.levels 0

def findFrom (keyFingerprint : UInt8) : List Nat → Exec Panic σ (Option Nat)
  | [] => pure none
  | slot :: slots =>
    if t.storage.ctrl slot = keyFingerprint then do
      if ← inspect slot then pure (some slot) else findFrom keyFingerprint slots
    else findFrom keyFingerprint slots

def findByFullScan (keyFingerprint : UInt8) : Exec Panic σ (Option Nat) :=
  t.findFrom inspect keyFingerprint (List.range t.shape.n)

end Search

section Membership

variable (t : FunnelTable K V)

def membershipSlot (keyHash : UInt64) : MembershipSlot where
  index := Membership.word keyHash t.membership.words
  bits := Membership.fromSignature membershipBits keyHash
  bin := levelBin keyHash

def membershipGateAt (slot : MembershipSlot) : MembershipGate :=
  if t.membership.words = 0 then ⟨0, UInt64.ofNat (2 ^ 64 - 1), 0⟩
  else
    let metadata := t.membership.word slot.index
    ⟨metadata.membership, slot.bits, metadata.levelBins slot.bin⟩

def membershipGate (keyHash : UInt64) : MembershipGate :=
  t.membershipGateAt (t.membershipSlot keyHash)

/-- Level-bin bit of an entry at `slot`: the later levels that start at or before it are counted. -/
def levelBit (slot : Nat) : UInt16 :=
  let overflowStart := (t.shape.levels[overflowLevel]?).elim t.shape.primaryOffset LevelShape.offset
  if slot ≥ overflowStart then overflowLevelBit
  else levelBitOf ((t.shape.levels.drop 1).takeWhile (fun level => level.offset ≤ slot)).length

def recordMembership (m : MembershipSlot) (levelBit : UInt16) : FunnelTable K V :=
  { t with membership := t.membership.record m.index m.bits m.bin levelBit }

def clearMembership : FunnelTable K V :=
  { t with membership := t.membership.clear, staleMembership := 0 }

def finishClear : FunnelTable K V :=
  { { t with exceptionalPlacement := false }.clearMembership with epoch := t.epoch.start .clear }

def vacancyAt (slot : Nat) : Vacancy := ⟨slot, t.levelBit slot⟩

def firstFreeGlobal : Option Nat :=
  (List.range t.shape.n).find? (fun slot => isFree (t.storage.ctrl slot))

def placeNewEntry (vacancy : Vacancy) (key : K) (value : V) (m : MembershipSlot)
    (keyFingerprint : UInt8) (exceptional : Bool) : FunnelTable K V :=
  let wasTombstone := t.storage.ctrl vacancy.slot = ctrlTombstone
  let t := { t with storage := t.storage.writeWithControl vacancy.slot (key, value) keyFingerprint }
  let t := t.recordMembership m vacancy.levelBit
  { t with
    len := t.len + 1
    tombstones := if wasTombstone then wrappingDec usizeMax t.tombstones else t.tombstones
    exceptionalPlacement := exceptional || t.exceptionalPlacement }

def replaceValue (slot : Nat) (key : K) (value : V) : FunnelTable K V :=
  { t with storage := t.storage.setSlot slot (key, value) }

def extractFinish (slot : Nat) : FunnelTable K V :=
  { t with
    storage := t.storage.markTombstone slot
    len := t.len - 1
    tombstones := wrappingInc usizeMax t.tombstones
    staleMembership := t.staleMembership + 1
    epoch := t.epoch.noteDelete }

def tombstoneSlot (slot : Nat) : FunnelTable K V :=
  { t with storage := t.storage.markTombstone slot }

def wipeAll : FunnelTable K V :=
  { t with storage := t.storage.clearAllControls, len := 0, tombstones := 0 }.finishClear

def nextGrowthSlots (needed : Nat) : Option Nat :=
  if needed ≥ isizeMax then none
  else
    let requested := max needed (saturatingUsize (t.shape.maxInsertions * 2))
    match FunnelShape.forInsertBudget requested t.reserveFraction with
    | .ok shape => some shape.n
    | .error _ => none

end Membership

end FunnelTable

end Opthash.Funnel
