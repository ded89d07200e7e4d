import Opthash.Exact.Geometry
import Opthash.Exact.Reduction

namespace Opthash.Reference

open Probe Opthash.Geometry

inductive ScalarFunnelLocation
  | ordinary (level bucket slotInBucket globalSlot : Nat)
  | specialPrimary (slot globalSlot : Nat)
  | specialFallback (bucket slotInBucket globalSlot : Nat)
  deriving DecidableEq, Repr

def ScalarFunnelLocation.globalSlot : ScalarFunnelLocation → Nat
  | .ordinary _ _ _ globalSlot => globalSlot
  | .specialPrimary _ globalSlot => globalSlot
  | .specialFallback _ _ globalSlot => globalSlot

inductive ScalarFunnelSearch
  | hit (location : ScalarFunnelLocation)
  | vacant (location : ScalarFunnelLocation)
  | full
  deriving DecidableEq, Repr

inductive ScalarFunnelInsert
  | inserted (location : ScalarFunnelLocation)
  | duplicate (location : ScalarFunnelLocation)
  | targetExhausted
  | fallbackFull
  deriving DecidableEq, Repr

/-- The oracle's slots hold identities; a level is its offset and its bucket count. -/
structure ScalarFunnel where
  plan : FunnelPlan
  oracle : ProbeOracle
  rangeWordCap : Nat
  slots : List (Option UInt64)
  levels : List (Nat × Nat)
  primaryOffset : Nat
  fallbackOffset : Nat
  len : Nat

/-- An answer of the oracle or the error of a range reduction; the `none` below them is a panic. -/
abbrev ScalarAnswer (α : Type) : Type := ExceptT RangeReductionError Option α

namespace ScalarFunnel

def levelsFrom (beta : Nat) : Nat → List Nat → List (Nat × Nat) × Nat
  | offset, [] => ([], offset)
  | offset, bucketCount :: bucketCounts =>
    let (levels, stop) := levelsFrom beta (offset + bucketCount * beta) bucketCounts
    ((offset, bucketCount) :: levels, stop)

def new (config : PaperConfig) (oracle : ProbeOracle) (rangeWordCap : Nat) : Option ScalarFunnel := do
  let plan ← config.funnelPlan.toOption
  let (levels, primaryOffset) := levelsFrom plan.beta 0 plan.ordinaryBucketCounts
  some {
    plan, oracle, rangeWordCap, levels, primaryOffset
    slots := List.replicate config.n none
    fallbackOffset := primaryOffset + plan.specialPrimaryLen
    len := 0 }

variable (s : ScalarFunnel)

def sample (identity : UInt64) (domain : ProbeDomain) (logicalIndex upper : Nat) : ScalarAnswer Nat :=
  ProbeIndex.index <$> ExceptT.mk (unbiasedProbeIndex s.oracle identity domain logicalIndex upper s.rangeWordCap)

/-- The locations in turn, each a probe, up to the first that is vacant or holds the identity. -/
def inspectAll (identity : UInt64) :
    List ScalarFunnelLocation → Nat → Option (Option ScalarFunnelSearch × Nat)
  | [], logicalProbes => some (none, logicalProbes)
  | location :: locations, logicalProbes => do
    match ← s.slots[location.globalSlot]? with
    | some stored =>
      if stored = identity then some (some (.hit location), logicalProbes + 1)
      else inspectAll identity locations (logicalProbes + 1)
    | none => some (some (.vacant location), logicalProbes + 1)

def ordinaryLocations (level offset bucket : Nat) : List ScalarFunnelLocation :=
  (List.range s.plan.beta).map fun slotInBucket =>
    .ordinary level bucket slotInBucket (offset + bucket * s.plan.beta + slotInBucket)

def fallbackLocations (bucketA bucketB : Nat) : List ScalarFunnelLocation :=
  (List.range s.plan.fallbackBucketWidth).flatMap fun slotInBucket =>
    [bucketA, bucketB].map fun bucket =>
      .specialFallback bucket slotInBucket
        (s.fallbackOffset + bucket * s.plan.fallbackBucketWidth + slotInBucket)

def searchFallback (identity : UInt64) (logicalProbes : Nat) : ScalarAnswer (ScalarFunnelSearch × Nat) := do
  let bucketA ← s.sample identity .funnelSpecialFallbackChoiceA 0 s.plan.fallbackBucketCount
  let bucketB ← s.sample identity .funnelSpecialFallbackChoiceB 0 s.plan.fallbackBucketCount
  let (found, logicalProbes) ← s.inspectAll identity (s.fallbackLocations bucketA bucketB) logicalProbes
  pure (found.getD .full, logicalProbes)

def searchPrimary (identity : UInt64) : List Nat → Nat → ScalarAnswer (ScalarFunnelSearch × Nat)
  | [], logicalProbes => s.searchFallback identity logicalProbes
  | logicalIndex :: logicalIndices, logicalProbes => do
    let slot ← s.sample identity .funnelSpecialPrimary logicalIndex s.plan.specialPrimaryLen
    match ← s.inspectAll identity [.specialPrimary slot (s.primaryOffset + slot)] logicalProbes with
    | (some found, logicalProbes) => pure (found, logicalProbes)
    | (none, logicalProbes) => searchPrimary identity logicalIndices logicalProbes

def searchLevels (identity : UInt64) : List ((Nat × Nat) × Nat) → Nat → ScalarAnswer (ScalarFunnelSearch × Nat)
  | [], logicalProbes => s.searchPrimary identity (List.range s.plan.loglogCeiling) logicalProbes
  | ((offset, bucketCount), level) :: levels, logicalProbes => do
    let bucket ← s.sample identity (.funnelOrdinary level) 0 bucketCount
    match ← s.inspectAll identity (s.ordinaryLocations level offset bucket) logicalProbes with
    | (some found, logicalProbes) => pure (found, logicalProbes)
    | (none, logicalProbes) => searchLevels identity levels logicalProbes

def search (identity : UInt64) : ScalarAnswer (ScalarFunnelSearch × Nat) :=
  s.searchLevels identity s.levels.zipIdx 0

def insert (identity : UInt64) : ScalarAnswer ((ScalarFunnelInsert × Nat) × ScalarFunnel) := do
  let (search, probes) ← s.search identity
  match search with
  | .hit location => pure ((.duplicate location, probes), s)
  | search =>
    if s.len ≥ s.plan.config.maxInsertions then pure ((.targetExhausted, probes), s)
    else match search with
    | .vacant location =>
      pure ((.inserted location, probes),
        { s with slots := s.slots.set location.globalSlot (some identity), len := s.len + 1 })
    | _ => pure ((.fallbackFull, probes), s)

/-- The level of an ordinary slot. `None` is the source's unreachable end. -/
def ordinaryAt (globalSlot : Nat) : List ((Nat × Nat) × Nat) → Option ScalarFunnelLocation
  | [] => none
  | ((offset, bucketCount), level) :: levels =>
    let levelLen := bucketCount * s.plan.beta
    if globalSlot < offset + levelLen then
      let slotInLevel := globalSlot - offset
      some (.ordinary level (slotInLevel / s.plan.beta) (slotInLevel % s.plan.beta) globalSlot)
    else ordinaryAt globalSlot levels

def locationAtGlobalSlot (globalSlot : Nat) : Option ScalarFunnelLocation :=
  if ¬globalSlot < s.slots.length then none
  else if globalSlot < s.primaryOffset then s.ordinaryAt globalSlot s.levels.zipIdx
  else if globalSlot < s.fallbackOffset then some (.specialPrimary (globalSlot - s.primaryOffset) globalSlot)
  else
    let slotInFallback := globalSlot - s.fallbackOffset
    some (.specialFallback (slotInFallback / s.plan.fallbackBucketWidth)
      (slotInFallback % s.plan.fallbackBucketWidth) globalSlot)

/-- The stored identities with their locations. `None` stands for a panic. -/
def locations : Option (List (ScalarFunnelLocation × UInt64)) :=
  (s.slots.zipIdx.filterMap fun slot => slot.1.map fun identity => (slot.2, identity)).mapM fun slot =>
    (s.locationAtGlobalSlot slot.1).map fun location => (location, slot.2)

end ScalarFunnel

end Opthash.Reference
