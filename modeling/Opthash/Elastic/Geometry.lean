import Opthash.Exact.Geometry
import Opthash.Exact.Phi
import Opthash.Raw.Arena

namespace Opthash.Elastic

open Probe Opthash.Geometry

def elasticProbeSeed : UInt64 := wyhashDefaultSecret.getD 0 0
def elasticProbeBudgetC : Nat := 8
def uniformSearchCap : Nat := 4096
def queryPositionCap : Nat := 1000000
def exceptionalPlacementFlag : UInt32 := 0x80000000
def queryProbeLimit : Nat := 384
def maxElasticSlots : Nat := 2 ^ 32
def routeSummaryLevels : Nat := 16
def membershipBits : Nat := 3
def h11CounterBase : UInt32 := elasticCounterBase 0 0
def maxLevels : Nat := 32

def boundedCoordinate : Panic := .internal "bounded Elastic query coordinate"

/-- `elastic_phi` of coordinates the code takes to be in range. -/
def phiAt (paperLevel paperProbe : Nat) : Except Panic Nat :=
  match elasticPhi paperLevel paperProbe with
  | .ok phi => .ok phi
  | .error _ => .error boundedCoordinate

structure PhiRoute where
  rangeUpper : Nat
  counterBase : UInt32
  deriving DecidableEq, Repr

def PhiRoute.level (r : PhiRoute) : Nat := elasticCounterLevel r.counterBase

/-- Visits of a level's probes from `paperProbe` on, up to the position cap and the search cap. -/
def forEachPhiRouteFrom {α : Type} (paperLevel positionCap : Nat) (visit : Nat → Nat → Except Panic α) :
    Nat → Nat → Except Panic (List α)
  | 0, _ => .ok []
  | fuel + 1, paperProbe =>
    if paperProbe ≤ uniformSearchCap then do
      let phi ← phiAt paperLevel paperProbe
      if phi > positionCap then .ok []
      else
        let visited ← visit paperProbe phi
        let rest ← forEachPhiRouteFrom paperLevel positionCap visit fuel (paperProbe + 1)
        .ok (visited :: rest)
    else .ok []

/-- Level 0's first probe is skipped: the direct-slot fast path covers it. -/
def forEachPhiRoute {α : Type} (level fromProbe positionCap : Nat)
    (visit : Nat → Nat → Except Panic α) : Except Panic (List α) :=
  let paperProbe := if level = 0 ∧ fromProbe = 1 then 2 else fromProbe
  forEachPhiRouteFrom (level + 1) positionCap visit uniformSearchCap paperProbe

def levelRouteCountFrom (paperLevel : Nat) : Nat → Nat → Nat
  | 0, _ => 0
  | fuel + 1, paperProbe =>
    if paperProbe ≤ uniformSearchCap then
      match elasticPhi paperLevel paperProbe with
      | .ok phi =>
        if phi > queryPositionCap then 0 else levelRouteCountFrom paperLevel fuel (paperProbe + 1) + 1
      | .error _ => 0
    else 0

def levelRouteCount (level : Nat) : Nat :=
  levelRouteCountFrom (level + 1) uniformSearchCap (if level = 0 then 2 else 1)

def levelProbeLimit (level : Nat) : Nat := levelRouteCount level + if level = 0 then 1 else 0

def probeScheduleCapacity (levelCount : Nat) : Nat := ((List.range levelCount).map levelRouteCount).sum

def firstPaperProbeAfterFrom (paperLevel position : Nat) : Nat → Nat → Nat → Except Panic Nat
  | 0, lower, _ => .ok lower
  | fuel + 1, lower, upper =>
    if lower < upper then do
      let middle := lower + (upper - lower) / 2
      let phi ← phiAt paperLevel middle
      if phi ≤ position then firstPaperProbeAfterFrom paperLevel position fuel (middle + 1) upper
      else firstPaperProbeAfterFrom paperLevel position fuel lower middle
    else .ok lower

def firstPaperProbeAfter (paperLevel position : Nat) : Except Panic Nat :=
  firstPaperProbeAfterFrom paperLevel position uniformSearchCap 1 (uniformSearchCap + 1)

inductive BatchTarget
  | bootstrap
  | levelPair (current : Nat)
  deriving DecidableEq, Repr

structure BatchScheduler where
  batchEnds : List Nat
  currentBatchIndex : Nat
  batchStart : Nat
  batchEnd : Nat
  deriving DecidableEq, Repr

namespace BatchScheduler

/-- The batch covering `len`; beyond the last end the last batch stays active. -/
def sync (s : BatchScheduler) (len : Nat) : BatchScheduler :=
  if s.batchEnds = [] then s
  else
    let index := min (s.batchEnds.takeWhile (· ≤ len)).length (s.batchEnds.length - 1)
    { s with
      currentBatchIndex := index
      batchStart := if index = 0 then 0 else s.batchEnds.getD (index - 1) 0
      batchEnd := s.batchEnds.getD index 0 }

def reset (s : BatchScheduler) : BatchScheduler := s.sync 0

def batchEndsFrom : Nat → List Nat → List Nat
  | _, [] => []
  | total, quota :: quotas =>
    saturatingUsize (total + quota) :: batchEndsFrom (saturatingUsize (total + quota)) quotas

def new (batchPlan : List Nat) : BatchScheduler := (⟨batchEndsFrom 0 batchPlan, 0, 0, usizeMax⟩ : BatchScheduler).reset

def target (s : BatchScheduler) (len : Nat) : BatchTarget × BatchScheduler :=
  let s := if len ≥ s.batchEnd ∨ len < s.batchStart then s.sync len else s
  (if s.currentBatchIndex = 0 then .bootstrap else .levelPair (s.currentBatchIndex - 1), s)

end BatchScheduler

structure ElasticGeometry where
  totalSlots : Nat
  maxInsertions : Nat
  levelCapacities : List Nat
  batchPlan : List Nat
  deriving DecidableEq, Repr

/-- A plan kept on the stack holds at most `MAX_LEVELS` items. -/
def planBuffer (items : List Nat) : Except Panic (List Nat) :=
  if items.length ≤ maxLevels then .ok items else .error (.internal "Elastic plan exceeds 32 levels")

namespace ElasticGeometry

def forSlots (totalSlots : Nat) (r : ReserveFraction) : Except Panic (Option ElasticGeometry) :=
  if totalSlots > maxElasticSlots then .ok none
  else if totalSlots = 0 then .ok (some ⟨0, 0, [], []⟩)
  else if totalSlots = 1 then .ok (some ⟨1, 1, [1], [1]⟩)
  else match PaperConfig.new totalSlots r.exponent with
  | .error _ => .error (.internal "validated Elastic library geometry")
  | .ok config => do
    let levelCapacities ← planBuffer config.levelLengths
    let batchPlan ← planBuffer config.batchQuotas
    .ok (some ⟨totalSlots, config.maxInsertions, levelCapacities, batchPlan⟩)

def forInsertBudget (group : GroupBackend) (requested : Nat) (r : ReserveFraction) :
    Except Panic (Option ElasticGeometry) :=
  if requested = 0 then forSlots 0 r
  else match Capacity.capacityFor group.initialCapacity requested r with
  | none => .ok none
  | some totalSlots => forSlots totalSlots r

end ElasticGeometry

end Opthash.Elastic
