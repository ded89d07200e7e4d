import Opthash.Elastic.Table

namespace Opthash.Elastic

open Probe

structure ElasticGeneration (K V : Type) where
  levels : List (Level K V)
  len : Nat
  totalSlots : Nat
  maxInsertions : Nat
  scheduler : BatchScheduler
  probeHighWater : UInt32
  probeSchedule : List PhiRoute
  membership : MembershipRegion
  staleMembership : Nat

namespace ElasticTable

variable {W K V : Type} (group : GroupBackend) (u : User W K V)

def liftPanic {σ α : Type} : Except Panic α → Exec Panic σ α
  | .ok a => pure a
  | .error p => Exec.raise p

def reserveLevels : List Nat → LayoutCursor → Except TryReserveError (List (Level K V))
  | [], _ => .ok []
  | cap :: caps, cursor => do
    let _ ← LayoutCursor.checkedU32 cap
    let cursor ← cursor.reserve cap
    let levels ← reserveLevels caps cursor
    return .newAt cap :: levels

def buildElasticLevels (slotSize dataBaseOff : Nat) (levelCapacities : List Nat) :
    Except TryReserveError (List (Level K V)) := do
  let cursor ← LayoutCursor.new slotSize dataBaseOff
  reserveLevels levelCapacities cursor

def totalCtrl (levelCapacities : List Nat) : Option Nat :=
  levelCapacities.foldlM (fun total capacity => checkedUsize (total + capacity)) 0

def elasticArenaLayout (slotSize slotAlign totalSlots : Nat) :
    Except TryReserveError (Layout × Nat × Nat) := do
  let (base, dataBaseOff) ← Arena.layoutFor slotSize slotAlign totalSlots
  let (layout, words) ← Arena.extendMembership base totalSlots
  return (layout, dataBaseOff, words)

def tryAllocElasticArena (levelCapacities : List Nat) :
    Exec Panic (World W K V) (Except TryReserveError (List (Level K V) × MembershipRegion)) :=
  match totalCtrl levelCapacities with
  | none => pure (.error .capacityOverflow)
  | some total =>
    match elasticArenaLayout u.slotSize u.slotAlign total with
    | .error e => pure (.error e)
    | .ok (layout, dataBaseOff, words) => do
      let allocated ← if layout.size = 0 then pure true else u.alloc layout
      if allocated then
        match buildElasticLevels u.slotSize dataBaseOff levelCapacities with
        | .error e => pure (.error e)
        | .ok levels => pure (.ok (levels, .zeroed words))
      else pure (.error .allocError)

/-- Reserves the schedule's routes, eight bytes each. -/
def tryProbeSchedule (levelCount : Nat) : Exec Panic (World W K V) (Except TryReserveError Unit) := do
  let allocated ← u.alloc ⟨8 * probeScheduleCapacity levelCount, 4⟩
  pure (if allocated then .ok () else .error .allocError)

def fresh (g : ElasticGeometry) (r : ReserveFraction) (levels : List (Level K V))
    (membership : MembershipRegion) : ElasticTable K V where
  levels
  len := 0
  totalSlots := g.totalSlots
  maxInsertions := g.maxInsertions
  reserveFraction := r
  scheduler := .new g.batchPlan
  epoch := .initial
  probeHighWater := 0
  probeSchedule := []
  membership
  staleMembership := 0

def tryFromGeometry (g : ElasticGeometry) (r : ReserveFraction) :
    Exec Panic (World W K V) (Except TryReserveError (ElasticTable K V)) := do
  match ← tryProbeSchedule u g.levelCapacities.length with
  | .error e => pure (.error e)
  | .ok _ =>
    match ← tryAllocElasticArena u g.levelCapacities with
    | .error e => pure (.error e)
    | .ok (levels, membership) => pure (.ok (fresh g r levels membership))

def withCapacityAndReserve (capacity : Nat) (r : ReserveFraction) :
    Exec Panic (World W K V) (ElasticTable K V) := do
  let geometry ← liftPanic (ElasticGeometry.forInsertBudget group capacity r)
  let g ← Exec.expect .capacityOverflow geometry
  match ← tryFromGeometry u g r with
  | .error _ => Exec.raise .alloc
  | .ok t => pure t

def swapGeneration (t : ElasticTable K V) (g : ElasticGeneration K V) :
    ElasticTable K V × ElasticGeneration K V :=
  ({ t with
      levels := g.levels
      len := g.len
      totalSlots := g.totalSlots
      maxInsertions := g.maxInsertions
      scheduler := g.scheduler
      probeHighWater := g.probeHighWater
      probeSchedule := g.probeSchedule
      membership := g.membership
      staleMembership := g.staleMembership },
    { levels := t.levels
      len := t.len
      totalSlots := t.totalSlots
      maxInsertions := t.maxInsertions
      scheduler := t.scheduler
      probeHighWater := t.probeHighWater
      probeSchedule := t.probeSchedule
      membership := t.membership
      staleMembership := t.staleMembership })

def currentTarget : Exec Panic (ElasticTable K V) BatchTarget := fun t =>
  (.ok (t.scheduler.target t.len).1, { t with scheduler := (t.scheduler.target t.len).2 })

/-- Extends the schedule to the placement's position and says where the entry goes. -/
def preparePlacement (placement : ExactPlacement) : Exec Panic (ElasticTable K V) (Nat × Nat) := do
  let t ← Exec.get
  let t ← liftPanic (t.extendProbeSchedule placement.phi)
  Exec.modify fun _ => t
  pure (placement.level, placement.slot)

def prepareExceptional : Exec Panic (ElasticTable K V) (Nat × Nat) := do
  let t ← Exec.get
  let loc ← Exec.expect (.internal "Elastic insertion limit must leave a free slot") t.firstFreeSlot
  Exec.modify fun t => { t with probeHighWater := t.probeHighWater ||| exceptionalPlacementFlag }
  pure loc

def placeUnique (entry : K × V) (keyHash : UInt64) : Exec Panic (ElasticTable K V) Bool := do
  let prepared := PreparedElasticKey.new keyHash
  let target ← currentTarget
  let t ← Exec.get
  let (loc, exceptional) ← match t.chooseSlotForNewKey prepared.probe target with
    | some placement => do
      let loc ← preparePlacement placement
      pure (loc, false)
    | none => do
      let loc ← prepareExceptional
      pure (loc, true)
  Exec.modify fun t =>
    t.writeNewEntry entry.1 entry.2 prepared (controlFingerprint keyHash) loc.1 loc.2
  pure exceptional

def rebuildable : Rebuildable (ElasticTable K V) (ElasticGeneration K V) K V where
  padded := false
  swapGeneration := swapGeneration
  regions := fun g => g.levels.map Level.region
  placeUnique := placeUnique

def generation (g : ElasticGeometry) (levels : List (Level K V)) (membership : MembershipRegion) :
    ElasticGeneration K V where
  levels
  len := 0
  totalSlots := g.totalSlots
  maxInsertions := g.maxInsertions
  scheduler := .new g.batchPlan
  probeHighWater := 0
  probeSchedule := []
  membership
  staleMembership := 0

def tryResizeTo (g : ElasticGeometry) (transition : EpochTransition) :
    Run (ElasticTable K V) W K V (Except TryReserveError Unit) := do
  match ← Exec.onSnd (tryProbeSchedule u g.levelCapacities.length) with
  | .error e => pure (.error e)
  | .ok _ =>
    match ← Exec.onSnd (tryAllocElasticArena u g.levelCapacities) with
    | .error e => pure (.error e)
    | .ok (levels, membership) => do
      let exceptional ← rebuildable.rebuild group u (generation g levels membership)
      let recovered := transition == .placementRecovery || exceptional
      Exec.modify fun s => ({ s.1 with epoch := s.1.epoch.startEpoch transition recovered }, s.2)
      pure (.ok ())

def resizeWithTransition (newCapacity : Nat) (transition : EpochTransition) :
    Run (ElasticTable K V) W K V Unit := do
  let (t, _) ← Exec.get
  let geometry ← liftPanic (ElasticGeometry.forSlots newCapacity t.reserveFraction)
  let g ← Exec.expect .capacityOverflow geometry
  match ← tryResizeTo group u g transition with
  | .ok _ => pure ()
  | .error _ => Exec.raise .alloc

def tryResize (newCapacity : Nat) : Run (ElasticTable K V) W K V (Except TryReserveError Unit) := do
  let (t, _) ← Exec.get
  match ← liftPanic (ElasticGeometry.forSlots newCapacity t.reserveFraction) with
  | none => pure (.error .capacityOverflow)
  | some g => tryResizeTo group u g .explicitResize

def inspectKey (key : K) (loc : Nat × Nat) : Run (ElasticTable K V) W K V Bool := do
  let (t, _) ← Exec.get
  let entry ← (t.region loc.1).getRef loc.2
  Exec.onSnd (u.eq key entry.1)

def find (key : K) (hash : UInt64) : Run (ElasticTable K V) W K V (Option (Nat × Nat)) := do
  let (t, _) ← Exec.get
  t.findByExactSchedule (inspectKey u key) (.new hash) (controlFingerprint hash)

def findForEntry (key : K) (hash : UInt64) : Run (ElasticTable K V) W K V ((Nat × Nat) ⊕ UInt64) := do
  match ← find u key hash with
  | some loc => pure (.inl loc)
  | none => pure (.inr hash)

/-- Another target, then a same-size rebuild, then exceptional placement. -/
def placeAfterTargetFailure (prepared : PreparedElasticKey) (target : BatchTarget) :
    Run (ElasticTable K V) W K V (Nat × Nat) := do
  let (t, _) ← Exec.get
  match t.chooseSlotOnOtherTargets prepared.probe target with
  | some placement => Exec.onFst (preparePlacement placement)
  | none =>
    if t.probeHighWater &&& exceptionalPlacementFlag != 0 then do
      Exec.modify fun s => ({ s.1 with epoch := s.1.epoch.notePlacementRecovery }, s.2)
      Exec.onFst prepareExceptional
    else do
      resizeWithTransition group u t.totalSlots .placementRecovery
      let target ← Exec.onFst currentTarget
      let (t, _) ← Exec.get
      match t.chooseSlotForNewKey prepared.probe target with
      | some placement => Exec.onFst (preparePlacement placement)
      | none => Exec.onFst prepareExceptional

def prepareInsert (prepared : PreparedElasticKey) : Run (ElasticTable K V) W K V (Nat × Nat) := do
  let (t, _) ← Exec.get
  if t.len ≥ t.maxInsertions then
    let newCap := if t.totalSlots = 0 then group.initialCapacity else saturatingUsize (t.totalSlots * 2)
    resizeWithTransition group u newCap .growth
  let target ← Exec.onFst currentTarget
  let (t, _) ← Exec.get
  match t.chooseSlotForNewKey prepared.probe target with
  | some placement => Exec.onFst (preparePlacement placement)
  | none => placeAfterTargetFailure group u prepared target

def insertForVacantEntryPrepared (key : K) (value : V) (prepared : PreparedElasticKey)
    (keyFingerprint : UInt8) : Run (ElasticTable K V) W K V (Nat × Nat) := do
  let loc ← u.owned key value (prepareInsert group u prepared)
  Exec.modify fun s => (s.1.writeNewEntry key value prepared keyFingerprint loc.1 loc.2, s.2)
  pure loc

def insertForVacant (key : K) (value : V) (hash : UInt64) : Run (ElasticTable K V) W K V (Nat × Nat) :=
  insertForVacantEntryPrepared group u key value (.new hash) (controlFingerprint hash)

def replaceAt (loc : Nat × Nat) (value : V) : Run (ElasticTable K V) W K V V := do
  let (t, _) ← Exec.get
  let entry ← (t.region loc.1).getRef loc.2
  Exec.modify fun s => (s.1.replaceValue loc entry.1 value, s.2)
  pure entry.2

def insert (key : K) (value : V) (hash : UInt64) : Run (ElasticTable K V) W K V (Option V) := do
  match ← u.owned key value (find u key hash) with
  | some loc => do
    let old ← replaceAt loc value
    Exec.onSnd (Exec.guarded .abort (u.dropK key) (u.dropV old))
    pure (some old)
  | none => do
    let _ ← insertForVacantEntryPrepared group u key value (.new hash) (controlFingerprint hash)
    pure none

def refreshLevel (level : Nat) : Run (ElasticTable K V) W K V Unit :=
  forOccupied group false (fun s => s.1.region level)
    (fun _ slot => do
      let (t, _) ← Exec.get
      let entry ← (t.region level).getRef slot
      let hash ← Exec.onSnd (u.hash entry.1)
      Exec.modify fun s => (s.1.recordMembership (.new hash) level, s.2))
    ()

def refreshMembership : Run (ElasticTable K V) W K V Unit := do
  Exec.modify fun s => (s.1.clearMembership, s.2)
  let (t, _) ← Exec.get
  (List.range t.levels.length).forM (refreshLevel group u)

def needsRefresh (t : ElasticTable K V) : Bool :=
  t.staleMembership > Membership.refreshDeletes t.maxInsertions

def settleAfterDeletes (needsCleanup : Bool) : Run (ElasticTable K V) W K V Unit := do
  let (t, _) ← Exec.get
  if needsCleanup then resizeWithTransition group u t.totalSlots .tombstoneCleanup
  else if t.needsRefresh then refreshMembership group u
  else pure ()

def levelNeedsCleanup (t : ElasticTable K V) (level : Nat) : Bool :=
  (t.levels[level]?).elim false (fun l => l.needsCleanup group)

def anyNeedsCleanup (t : ElasticTable K V) : Bool := t.levels.any (fun l => l.needsCleanup group)

def remove (loc : Nat × Nat) : Run (ElasticTable K V) W K V (K × V) := do
  let (t, _) ← Exec.get
  let entry ← (t.region loc.1).getRef loc.2
  Exec.modify fun s => (s.1.extractFinish loc, s.2)
  u.owned entry.1 entry.2 do
    let (t, _) ← Exec.get
    settleAfterDeletes group u (t.levelNeedsCleanup group loc.1)
  pure entry

def finishDeferredRemovals : Run (ElasticTable K V) W K V Unit := do
  let (t, _) ← Exec.get
  settleAfterDeletes group u (t.anyNeedsCleanup group)

structure ElasticScan where
  levelIdx : Nat
  slots : OccupiedIndices
  deriving DecidableEq, Repr

def scan : ElasticScan := ⟨0, .new group⟩

def scanNextFrom (t : ElasticTable K V) : Nat → ElasticScan → Option (Nat × Nat) × ElasticScan
  | 0, s => (none, s)
  | fuel + 1, s =>
    match t.levels[s.levelIdx]? with
    | none => (none, s)
    | some level =>
      match s.slots.step group false level.region with
      | (some slot, slots) => (some (s.levelIdx, slot), { s with slots })
      | (none, _) => scanNextFrom t fuel ⟨s.levelIdx + 1, .new group⟩

def scanNext (t : ElasticTable K V) (s : ElasticScan) : Option (Nat × Nat) × ElasticScan :=
  scanNextFrom group t (t.levels.length + 1) s

/-- Moves every entry of a level out to its destructor, then wipes the level. -/
def drainReset (level : Nat) : Run (ElasticTable K V) W K V Unit := do
  forOccupied group false (fun s => s.1.region level)
    (fun _ slot => do
      let (t, _) ← Exec.get
      let entry ← (t.region level).getRef slot
      Exec.modify fun s =>
        ({ s.1.modifyLevel level (fun l => l.emptySlot slot) with len := s.1.len - 1 }, s.2)
      Exec.onSnd (u.dropEntry entry))
    ()
  Exec.modify fun s => (s.1.modifyLevel level Level.finishDrain, s.2)

def clear : Run (ElasticTable K V) W K V Unit := do
  let (t, _) ← Exec.get
  (List.range t.levels.length).forM (drainReset group u)
  Exec.modify fun s => (s.1.resetAfterClear, s.2)

def dropTable (t : ElasticTable K V) : Exec Panic (World W K V) Unit :=
  dropValues group false u (t.levels.map Level.region)

def cloneLevel (src : Level K V) (level : Nat) : Run (List (Level K V)) W K V Unit := do
  Exec.zoom (fun s => ((s.1[level]?).elim (.empty 0) Level.region, s.2))
    (fun part s => (s.1.modify level fun l => { l with region := part.1 }, part.2))
    (cloneRegionFrom group false u src.region)
  Exec.modify fun s =>
    (s.1.modify level fun l => { l with len := src.len, tombstones := src.tombstones }, s.2)

def cloneLevels (src : List (Level K V)) : Run (List (Level K V)) W K V Unit :=
  src.zipIdx.forM fun (src, level) => cloneLevel group u src level

def cloneTable (t : ElasticTable K V) : Exec Panic (World W K V) (ElasticTable K V) := do
  World.call u.cloneBuilder
  match ← tryProbeSchedule u t.levels.length with
  | .error _ => Exec.raise .alloc
  | .ok _ => do
    let levelCapacities ← liftPanic (planBuffer (t.levels.map fun l => l.region.capacity))
    match ← tryAllocElasticArena u levelCapacities with
    | .error _ => Exec.raise .alloc
    | .ok (levels, membership) => do
      let (_, levels) ← Exec.withLocal levels <|
        Exec.guarded .abort (cloneLevels group u t.levels) do
          let (levels, _) ← Exec.get
          Exec.onSnd (dropValues group false u (levels.map Level.region))
      let membership ← copyMembershipFrom membership t.membership
      pure { t with levels, membership }

end ElasticTable

end Opthash.Elastic
