import Opthash.Funnel.Table

namespace Opthash.Funnel

open Probe

structure FunnelGeneration (K V : Type) where
  shape : FunnelShape
  storage : Region (K × V)
  len : Nat
  tombstones : Nat
  exceptionalPlacement : Bool
  probeSeed : UInt64
  membership : MembershipRegion
  staleMembership : Nat

namespace FunnelTable

variable {W K V : Type} (group : GroupBackend) (u : User W K V)

def tryAllocateStorage (n : Nat) :
    Exec Panic (World W K V) (Except TryReserveError (Region (K × V) × MembershipRegion)) :=
  match funnelLayout group u.slotSize u.slotAlign n with
  | .error e => pure (.error e)
  | .ok (layout, words) => do
    let allocated ← if layout.size = 0 then pure true else u.alloc layout
    if allocated then pure (.ok (.empty n, .zeroed words)) else pure (.error .allocError)

def fresh (shape : FunnelShape) (r : ReserveFraction) (storage : Region (K × V))
    (membership : MembershipRegion) : FunnelTable K V where
  shape
  storage
  len := 0
  tombstones := 0
  reserveFraction := r
  epoch := .initial
  exceptionalPlacement := false
  probeSeed := funnelProbeSeed
  membership
  staleMembership := 0

def tryFromShape (shape : FunnelShape) (r : ReserveFraction) :
    Exec Panic (World W K V) (Except TryReserveError (FunnelTable K V)) := do
  match ← tryAllocateStorage group u shape.n with
  | .error e => pure (.error e)
  | .ok (storage, membership) => pure (.ok (fresh shape r storage membership))

inductive BuildError
  | funnelExponentBelowMinimum (reserveExponent minimum : Nat)
  | reserve (error : TryReserveError)
  deriving DecidableEq, Repr

def tryWithInsertBudget (capacity : Nat) (r : ReserveFraction) :
    Exec Panic (World W K V) (Except BuildError (FunnelTable K V)) :=
  if r.exponent < 3 then pure (.error (.funnelExponentBelowMinimum r.exponent 3))
  else match FunnelShape.forInsertBudget capacity r with
  | .error e => pure (.error (.reserve e))
  | .ok shape => do
    match ← tryFromShape group u shape r with
    | .error e => pure (.error (.reserve e))
    | .ok t => pure (.ok t)

def swapGeneration (t : FunnelTable K V) (g : FunnelGeneration K V) :
    FunnelTable K V × FunnelGeneration K V :=
  ({ t with
      shape := g.shape
      storage := g.storage
      len := g.len
      tombstones := g.tombstones
      exceptionalPlacement := g.exceptionalPlacement
      probeSeed := g.probeSeed
      membership := g.membership
      staleMembership := g.staleMembership },
    { shape := t.shape
      storage := t.storage
      len := t.len
      tombstones := t.tombstones
      exceptionalPlacement := t.exceptionalPlacement
      probeSeed := t.probeSeed
      membership := t.membership
      staleMembership := t.staleMembership })

/-- `(vacancy, exceptional)`: the search's vacancy, or the first free slot anywhere. -/
def resolveVacancy {σ : Type} (t : FunnelTable K V) (vacancy : Option Vacancy) :
    Exec Panic σ (Vacancy × Bool) :=
  match vacancy with
  | some vacancy => pure (vacancy, false)
  | none => do
    let slot ← Exec.expect (.internal "Funnel insertion limit reserves a free slot") t.firstFreeGlobal
    pure (t.vacancyAt slot, true)

def placeUnique (entry : K × V) (keyHash : UInt64) : Exec Panic (FunnelTable K V) Bool := do
  let t ← Exec.get
  let probe := prepareFunnel t.probeSeed keyHash
  let (vacancy, exceptional) ← t.resolveVacancy (t.searchVacancy group probe)
  Exec.modify fun t => t.placeNewEntry vacancy entry.1 entry.2 (t.membershipSlot keyHash)
    (controlFingerprint keyHash) exceptional
  pure exceptional

def rebuildable : Rebuildable (FunnelTable K V) (FunnelGeneration K V) K V where
  padded := true
  swapGeneration := swapGeneration
  regions := fun g => [g.storage]
  placeUnique := placeUnique group

def generation (t : FunnelTable K V) (shape : FunnelShape) (transition : EpochTransition)
    (storage : Region (K × V)) (membership : MembershipRegion) : FunnelGeneration K V where
  shape
  storage
  len := 0
  tombstones := 0
  exceptionalPlacement := false
  probeSeed := if transition = .placementRecovery then t.probeSeed + funnelReseedStep else t.probeSeed
  membership
  staleMembership := 0

def tryResizeTo (shape : FunnelShape) (transition : EpochTransition) :
    Run (FunnelTable K V) W K V (Except TryReserveError Unit) := do
  match ← Exec.onSnd (tryAllocateStorage group u shape.n) with
  | .error e => pure (.error e)
  | .ok (storage, membership) => do
    let (t, _) ← Exec.get
    let recovered ← (rebuildable group).rebuild group u
      (t.generation shape transition storage membership)
    Exec.modify fun s => ({ s.1 with epoch := s.1.epoch.startEpoch transition recovered }, s.2)
    pure (.ok ())

def orPanic {σ α β : Type} (p : Panic) : Except β α → Exec Panic σ α
  | .ok a => pure a
  | .error _ => Exec.raise p

def resizeWithTransition (slots : Nat) (transition : EpochTransition) :
    Run (FunnelTable K V) W K V Unit := do
  let (t, _) ← Exec.get
  let shape ← orPanic (.internal "compatible Funnel resize geometry")
    (FunnelShape.fromSlots slots t.reserveFraction)
  match ← tryResizeTo group u shape transition with
  | .ok _ => pure ()
  | .error _ => do
    let _ ← orPanic .constructedLayout (funnelLayout group u.slotSize u.slotAlign shape.n)
    Exec.raise .alloc

def inspectKey (key : K) (slot : Nat) : Run (FunnelTable K V) W K V Bool := do
  let (t, _) ← Exec.get
  let entry ← t.storage.getRef slot
  Exec.onSnd (u.eq key entry.1)

def findLocationAfterGate (key : K) (keyHash : UInt64) (keyFingerprint : UInt8) (levels : UInt16) :
    Run (FunnelTable K V) W K V (Option Nat) := do
  let (t, _) ← Exec.get
  let probe := prepareFunnel t.probeSeed keyHash
  match ← t.lookupRecordedLevels group (inspectKey u key) probe keyFingerprint levels with
  | some slot => pure (some slot)
  | none =>
    if t.exceptionalPlacement then t.findByFullScan (inspectKey u key) keyFingerprint
    else pure none

def findLocation (key : K) (keyHash : UInt64) (keyFingerprint : UInt8) :
    Run (FunnelTable K V) W K V (Option Nat) := do
  let (t, _) ← Exec.get
  let gate := t.membershipGate keyHash
  if gate.passes then findLocationAfterGate group u key keyHash keyFingerprint gate.levels
  else pure none

/-- Entry-side lookup. `inr none` is a key the filter rejected, `inr (some miss)` the walk's miss. -/
def locate (key : K) (keyHash : UInt64) (keyFingerprint : UInt8) :
    Run (FunnelTable K V) W K V (Nat ⊕ Option SearchResult) := do
  let (t, _) ← Exec.get
  let gate := t.membershipGate keyHash
  let probe := prepareFunnel t.probeSeed keyHash
  if !gate.passes then pure (.inr none)
  else
    match ← t.searchExactPrepared group (inspectKey u key) probe keyFingerprint with
    | .hit slot => pure (.inl slot)
    | miss =>
      if t.exceptionalPlacement then
        match ← t.findByFullScan (inspectKey u key) keyFingerprint with
        | some slot => pure (.inl slot)
        | none => pure (.inr (some miss))
      else pure (.inr (some miss))

def find (key : K) (hash : UInt64) : Run (FunnelTable K V) W K V (Option Nat) :=
  findLocation group u key hash (controlFingerprint hash)

def findForEntry (key : K) (hash : UInt64) : Run (FunnelTable K V) W K V (Nat ⊕ FunnelVacant) := do
  match ← locate group u key hash (controlFingerprint hash) with
  | .inl slot => pure (.inl slot)
  | .inr none => pure (.inr ⟨hash, FunnelVacant.unsearched⟩)
  | .inr (some (.vacant slot)) => pure (.inr ⟨hash, slot⟩)
  | .inr (some _) => pure (.inr ⟨hash, FunnelVacant.exhausted⟩)

def growForNextInsert : Run (FunnelTable K V) W K V Unit := do
  let (t, _) ← Exec.get
  let slots ← Exec.expect .capacityOverflow (t.nextGrowthSlots (saturatingUsize (t.len + 1)))
  resizeWithTransition group u slots .growth

def prepareVacantInsert : Run (FunnelTable K V) W K V Bool := do
  let (t, _) ← Exec.get
  if t.len ≥ t.shape.maxInsertions then do
    growForNextInsert group u
    pure true
  else pure false

def rebuildForPlacement (keyHash : UInt64) :
    Run (FunnelTable K V) W K V (Option Vacancy × MembershipSlot) := do
  let (t, _) ← Exec.get
  resizeWithTransition group u t.shape.n .placementRecovery
  let (t, _) ← Exec.get
  pure (t.searchVacancy group (prepareFunnel t.probeSeed keyHash), t.membershipSlot keyHash)

/-- The epoch after a placement: an exceptional one counts as a recovery. -/
def notePlacement (exceptional rebuilt : Bool) (t : FunnelTable K V) : FunnelTable K V :=
  if exceptional && rebuilt then { t with epoch := t.epoch.notePlacementRecovery }
  else if exceptional then
    { t with epoch := t.epoch.startWithPlacementRecovery .placementRecovery }
  else t

def placeAbsentAfterSearch (key : K) (value : V) (keyHash : UInt64) (membership : MembershipSlot)
    (vacancy : Option Vacancy) : Run (FunnelTable K V) W K V Nat := do
  let (membership, rebuilt, vacancy, exceptional) ← u.owned key value do
    let (t, _) ← Exec.get
    let rebuilt := vacancy.isNone && !t.exceptionalPlacement
    let (vacancy, membership) ←
      if rebuilt then rebuildForPlacement group u keyHash else pure (vacancy, membership)
    let (t, _) ← Exec.get
    let (vacancy, exceptional) ← t.resolveVacancy vacancy
    pure (membership, rebuilt, vacancy, exceptional)
  Exec.modify fun s =>
    (notePlacement exceptional rebuilt
      (s.1.placeNewEntry vacancy key value membership (controlFingerprint keyHash) exceptional), s.2)
  pure vacancy.slot

def insertForVacant (key : K) (value : V) (vacant : FunnelVacant) :
    Run (FunnelTable K V) W K V Nat := do
  let (vacancy, membership) ← u.owned key value do
    let grown ← prepareVacantInsert group u
    let (t, _) ← Exec.get
    let vacancy :=
      if grown || vacant.exact == FunnelVacant.unsearched then
        t.searchVacancy group (prepareFunnel t.probeSeed vacant.hash)
      else if vacant.exact = FunnelVacant.exhausted then none
      else some (t.vacancyAt vacant.exact)
    pure (vacancy, t.membershipSlot vacant.hash)
  placeAbsentAfterSearch group u key value vacant.hash membership vacancy

def vacancyOf {σ : Type} (t : FunnelTable K V) : SearchResult → Exec Panic σ (Option Vacancy)
  | .vacant slot => pure (some (t.vacancyAt slot))
  | .hit _ => Exec.raise (.internal "known-absent Funnel search found a key")
  | .full => pure none
  | .rangeFailure => pure none

inductive InsertSearch
  | hit (slot : Nat)
  | absent (exact : Option SearchResult)
  deriving DecidableEq, Repr

def searchForInsert (key : K) (hash : UInt64) : Run (FunnelTable K V) W K V InsertSearch := do
  let (t, _) ← Exec.get
  let gate := t.membershipGate hash
  let probe := prepareFunnel t.probeSeed hash
  let fingerprint := controlFingerprint hash
  if gate.passes then
    match ← t.searchExactPreparedForInsert group (inspectKey u key) probe fingerprint with
    | .hit slot => pure (.hit slot)
    | search =>
      if t.exceptionalPlacement then
        match ← t.findByFullScan (inspectKey u key) fingerprint with
        | some slot => pure (.hit slot)
        | none => pure (.absent (some search))
      else pure (.absent (some search))
  else pure (.absent none)

/-- The probe is prepared before growth, under the seed growth keeps. -/
def vacancyForInsert (hash : UInt64) (exact : Option SearchResult) :
    Run (FunnelTable K V) W K V (Option Vacancy × MembershipSlot) := do
  let (t, _) ← Exec.get
  let probe := prepareFunnel t.probeSeed hash
  let membership := t.membershipSlot hash
  if ← prepareVacantInsert group u then
    let (t, _) ← Exec.get
    pure (t.searchVacancy group probe, t.membershipSlot hash)
  else
    let (t, _) ← Exec.get
    match exact with
    | some exact => do
      let vacancy ← t.vacancyOf exact
      pure (vacancy, membership)
    | none => pure (t.searchVacancy group probe, membership)

def replaceAt (slot : Nat) (value : V) : Run (FunnelTable K V) W K V V := do
  let (t, _) ← Exec.get
  let entry ← t.storage.getRef slot
  Exec.modify fun s => (s.1.replaceValue slot entry.1 value, s.2)
  pure entry.2

def insert (key : K) (value : V) (hash : UInt64) : Run (FunnelTable K V) W K V (Option V) := do
  match ← u.owned key value (searchForInsert group u key hash) with
  | .hit slot => do
    let old ← replaceAt slot value
    Exec.onSnd (Exec.guarded .abort (u.dropK key) (u.dropV old))
    pure (some old)
  | .absent exact => do
    let (vacancy, membership) ← u.owned key value (vacancyForInsert group u hash exact)
    let _ ← placeAbsentAfterSearch group u key value hash membership vacancy
    pure none

def refreshMembership : Run (FunnelTable K V) W K V Unit := do
  Exec.modify fun s => (s.1.clearMembership, s.2)
  forOccupied group true (fun s => s.1.storage)
    (fun _ slot => do
      let (t, _) ← Exec.get
      let entry ← t.storage.getRef slot
      let hash ← Exec.onSnd (u.hash entry.1)
      Exec.modify fun s => (s.1.recordMembership (s.1.membershipSlot hash) (s.1.levelBit slot), s.2))
    ()

def needsCleanup (t : FunnelTable K V) : Bool :=
  t.tombstones > Capacity.tombstoneCleanupThreshold group t.shape.n

def needsRefresh (t : FunnelTable K V) : Bool :=
  t.staleMembership > Membership.refreshDeletes t.shape.maxInsertions

def settleAfterDeletes : Run (FunnelTable K V) W K V Unit := do
  let (t, _) ← Exec.get
  if t.needsCleanup group then resizeWithTransition group u t.shape.n .tombstoneCleanup
  else if t.needsRefresh then refreshMembership group u
  else pure ()

def remove (slot : Nat) : Run (FunnelTable K V) W K V (K × V) := do
  let (t, _) ← Exec.get
  let entry ← t.storage.getRef slot
  Exec.modify fun s => (s.1.extractFinish slot, s.2)
  u.owned entry.1 entry.2 (settleAfterDeletes group u)
  pure entry

inductive FunnelScan
  | dense (next : Nat)
  | sparse (cursor : OccupiedIndices)
  deriving DecidableEq, Repr

def scan (t : FunnelTable K V) : FunnelScan :=
  if t.len ≤ t.shape.n / 4 then .sparse (.new group) else .dense 0

def scanNext (t : FunnelTable K V) : FunnelScan → Option Nat × FunnelScan
  | .dense next =>
    match (List.range' next (t.shape.n - next)).find? (fun slot => isOccupied (t.storage.ctrl slot)) with
    | some slot => (some slot, .dense (slot + 1))
    | none => (none, .dense (max next t.shape.n))
  | .sparse cursor =>
    let (slot, cursor) := cursor.step group true t.storage
    (slot, .sparse cursor)

def clear : Run (FunnelTable K V) W K V Unit := do
  if u.needsDrop then
    forOccupied group true (fun s => s.1.storage)
      (fun _ slot => do
        let (t, _) ← Exec.get
        let entry ← t.storage.getRef slot
        Exec.modify fun s =>
          ({ s.1 with
              storage := s.1.storage.setControl slot ctrlTombstone
              len := s.1.len - 1
              tombstones := wrappingInc usizeMax s.1.tombstones }, s.2)
        Exec.onSnd (u.dropEntry entry))
      ()
  Exec.modify fun s => (s.1.wipeAll, s.2)

def tryResize (newCapacity : Nat) : Run (FunnelTable K V) W K V (Except TryReserveError Unit) := do
  let (t, _) ← Exec.get
  match FunnelShape.fromSlots newCapacity t.reserveFraction with
  | .error e => pure (.error e)
  | .ok shape => tryResizeTo group u shape .explicitResize

def shrinkTo (minCapacity : Nat) : Run (FunnelTable K V) W K V Unit := do
  let (t, _) ← Exec.get
  if t.len = 0 ∧ minCapacity = 0 then
    if t.shape.n ≠ 0 then resizeWithTransition group u 0 .explicitResize else pure ()
  else
    let requested := max t.len minCapacity
    let shape ← orPanic .capacityOverflow (FunnelShape.forInsertBudget requested t.reserveFraction)
    if shape.n < t.shape.n then resizeWithTransition group u shape.n .explicitResize else pure ()

def dropTable (t : FunnelTable K V) : Exec Panic (World W K V) Unit := dropValues group true u [t.storage]

def cloneTable (t : FunnelTable K V) : Exec Panic (World W K V) (FunnelTable K V) := do
  World.call u.cloneBuilder
  match ← tryFromShape group u t.shape t.reserveFraction with
  | .error e => Exec.raise (.cloneAllocation e.message)
  | .ok cloned => do
    let (_, storage) ← Exec.withLocal cloned.storage <|
      Exec.guarded .abort (cloneRegionFrom group true u t.storage) do
        let (storage, _) ← Exec.get
        Exec.onSnd (dropValues group true u [storage])
    let membership ← copyMembershipFrom cloned.membership t.membership
    pure { cloned with
      storage
      membership
      len := t.len
      tombstones := t.tombstones
      epoch := t.epoch
      exceptionalPlacement := t.exceptionalPlacement
      probeSeed := t.probeSeed
      staleMembership := t.staleMembership }

end FunnelTable

end Opthash.Funnel
