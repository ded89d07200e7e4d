import Opthash.Exact.Geometry
import Opthash.Raw.Arena

namespace Opthash.Funnel

open Probe Opthash.Geometry

structure LevelShape where
  offset : Nat
  bucketRange : PreparedProbeRange
  ordinaryCounterBase : UInt64
  deriving DecidableEq, Repr

structure FunnelShape where
  n : Nat
  maxInsertions : Nat
  levels : List LevelShape
  beta : Nat
  loglogCeiling : Nat
  primaryOffset : Nat
  primaryRange : PreparedProbeRange
  fallbackOffset : Nat
  fallbackBucketWidth : Nat
  fallbackBucketRange : PreparedProbeRange
  deriving DecidableEq, Repr

def orOverflow {α : Type} : Option α → Except TryReserveError α
  | some a => .ok a
  | none => .error .capacityOverflow

def rangeOrOverflow (upper : Nat) : Except TryReserveError PreparedProbeRange :=
  match PreparedProbeRange.new upper with
  | .ok range => .ok range
  | .error _ => .error .capacityOverflow

/-- The ordinary levels from `levelIndex` and `offset` on, and the offset after them. -/
def ordinaryLevels (beta : Nat) :
    List Nat → Nat → Nat → Except TryReserveError (List LevelShape × Nat)
  | [], _, offset => .ok ([], offset)
  | bucketCount :: bucketCounts, levelIndex, offset => do
    let bucketRange ← rangeOrOverflow bucketCount
    let base ← orOverflow (ordinaryCounterBase levelIndex)
    let slots ← orOverflow (checkedUsize (bucketCount * beta))
    let next ← orOverflow (checkedUsize (offset + slots))
    let (levels, stop) ← ordinaryLevels beta bucketCounts (levelIndex + 1) next
    return (⟨offset, bucketRange, base⟩ :: levels, stop)

namespace FunnelShape

def empty : FunnelShape := ⟨0, 0, [], 0, 0, 0, .empty, 0, 0, .empty⟩

def fromPlan (n maxInsertions : Nat) (plan : FunnelPlan) : Except TryReserveError FunnelShape := do
  let (levels, primaryOffset) ← ordinaryLevels plan.beta plan.ordinaryBucketCounts 0 0
  let primaryRange ← rangeOrOverflow plan.specialPrimaryLen
  let fallbackOffset ← orOverflow (checkedUsize (primaryOffset + plan.specialPrimaryLen))
  let stop ← orOverflow (checkedUsize (fallbackOffset + plan.specialFallbackLen))
  if stop ≠ n then .error .capacityOverflow
  if plan.loglogCeiling > 255 then .error .capacityOverflow
  let fallbackBucketRange ← rangeOrOverflow plan.fallbackBucketCount
  return {
    n, maxInsertions, levels, primaryOffset, primaryRange, fallbackOffset, fallbackBucketRange
    beta := plan.beta
    loglogCeiling := plan.loglogCeiling
    fallbackBucketWidth := plan.fallbackBucketWidth }

def fromSlots (n : Nat) (r : ReserveFraction) : Except TryReserveError FunnelShape :=
  if n = 0 then .ok empty
  else match PaperConfig.new n r.exponent with
  | .error _ => .error .capacityOverflow
  | .ok config =>
    match config.funnelPlan with
    | .error _ => .error .capacityOverflow
    | .ok plan => fromPlan n config.maxInsertions plan

/-- `loop`, until a slot count has a plan that holds `requested`, or `usize` ends. -/
def searchBudget (requested : Nat) (r : ReserveFraction) : Nat → Nat → Except TryReserveError FunnelShape
  | 0, _ => .error .capacityOverflow
  | fuel + 1, n =>
    match fromSlots n r with
    | .ok shape =>
      if shape.maxInsertions ≥ requested then .ok shape else searchBudget requested r fuel (n + 1)
    | .error _ => searchBudget requested r fuel (n + 1)

def forInsertBudget (requested : Nat) (r : ReserveFraction) : Except TryReserveError FunnelShape :=
  if requested = 0 then .ok empty
  else if ¬(3 ≤ r.exponent ∧ r.exponent < 64) then .error .capacityOverflow
  else do
    let exact ← orOverflow (Capacity.exactCapacityFor requested r)
    let alpha := r.exponent * 4 + 10
    let beta := r.exponent * 2
    let least ← orOverflow (checkedUsize (alpha * beta + 2))
    let n ← orOverflow (funnelMinimumSlots r.exponent (max (max exact 2) least))
    searchBudget requested r (usizeMax + 1 - n) n

end FunnelShape

end Opthash.Funnel
