import Opthash.Reserve
import Opthash.Exact.Probe

namespace Opthash.Geometry

open Probe (bitLength)

inductive ConfigError
  | nTooSmall (n : Nat)
  | exponentZero
  deriving DecidableEq, Repr

structure PaperConfig where
  n : Nat
  reserveExponent : Nat
  deriving DecidableEq, Repr

inductive FunnelPlanParameter
  | alpha
  | beta
  deriving DecidableEq, Repr

inductive FunnelPlanError
  | exponentBelowMinimum (reserveExponent minimum : Nat)
  | derivedParameterOverflow (parameter : FunnelPlanParameter) (reserveExponent : Nat)
  | noCompatibleSpecialLayout (lower upper beta loglogCeiling fallbackBucketWidth : Nat)
  deriving DecidableEq, Repr

structure FunnelPlan where
  config : PaperConfig
  alpha : Nat
  beta : Nat
  loglogCeiling : Nat
  fallbackBucketWidth : Nat
  specialLen : Nat
  firstBucketCount : Nat
  deriving DecidableEq, Repr

def ceilLog2 (value : Nat) : Nat := if value ≤ 1 then 0 else bitLength (value - 1)

def baseTwoLoglogCeiling (n : Nat) : Nat :=
  let loglogCeiling := ceilLog2 (ceilLog2 n)
  if loglogCeiling = 0 then 1 else loglogCeiling

def ceilThreeQuarters (value : Nat) : Nat := value - value / 4

def ceilDivPow2 (value exponent : Nat) : Nat :=
  if value = 0 then 0
  else if exponent ≥ 128 then 1
  else value / 2 ^ exponent + if value % 2 ^ exponent = 0 then 0 else 1

def floorThreeDivPow2 (value exponent : Nat) : Nat :=
  if exponent ≥ 128 then 0 else (value * 3) >>> exponent

def minimumNextBucketCount (current : Nat) : Nat :=
  let minimum := ceilThreeQuarters current - 1
  if minimum = 0 then 1 else minimum

def maximumNextBucketCount (current : Nat) : Nat :=
  let remainder := if current % 4 = 0 then 0 else 1
  let ceilQuarter := current / 4 + remainder
  let maximum := current - ceilQuarter + 1
  if maximum > current then current else maximum

def minimumPathSumAtMost (target : Nat) : Nat → Nat → Nat → Bool
  | 0, _, _ => true
  | levelCount + 1, current, sum =>
    match checkedUsize (sum + current) with
    | none => false
    | some nextSum =>
      if nextSum > target then false
      else minimumPathSumAtMost target levelCount (minimumNextBucketCount current) nextSum

def maximumPathSumAtLeast (target : Nat) : Nat → Nat → Nat → Bool
  | 0, _, _ => false
  | levelCount + 1, current, sum =>
    match checkedUsize (sum + current) with
    | none => true
    | some sum =>
      if sum ≥ target then true
      else maximumPathSumAtLeast target levelCount (maximumNextBucketCount current) sum

def selectLargestFeasibleNext (current remainingSum remainingLevels : Nat) : Option Nat :=
  let minimum := minimumNextBucketCount current
  let maximum := maximumNextBucketCount current
  (List.range' minimum (maximum + 1 - minimum)).reverse.find? fun candidate =>
    minimumPathSumAtMost remainingSum remainingLevels candidate 0 &&
      maximumPathSumAtLeast remainingSum remainingLevels candidate 0

structure FunnelBucketCounts where
  nextCount : Option Nat
  remainingSum : Nat
  remainingLevels : Nat
  deriving DecidableEq, Repr

namespace FunnelBucketCounts

def next (c : FunnelBucketCounts) : Option Nat × FunnelBucketCounts :=
  match c.nextCount with
  | none => (none, c)
  | some count =>
    let taken := { c with nextCount := none }
    if c.remainingSum < count ∨ c.remainingLevels = 0 then (none, taken)
    else
      let remainingSum := c.remainingSum - count
      let remainingLevels := c.remainingLevels - 1
      let nextCount := if remainingLevels = 0 then none
        else selectLargestFeasibleNext count remainingSum remainingLevels
      (some count, ⟨nextCount, remainingSum, remainingLevels⟩)

def take : Nat → FunnelBucketCounts → List Nat × FunnelBucketCounts
  | 0, c => ([], c)
  | steps + 1, c =>
    match c.next with
    | (none, c) => ([], c)
    | (some count, c) =>
      let (counts, c) := take steps c
      (count :: counts, c)

/-- All items: `next` yields at most `remainingLevels` of them. -/
def items (c : FunnelBucketCounts) : List Nat := (c.take c.remainingLevels).1

end FunnelBucketCounts

/-- `while left < right`, on a predicate that holds from some point on. -/
def lowerBoundFrom (p : Nat → Bool) : Nat → Nat → Nat → Nat
  | 0, left, _ => left
  | fuel + 1, left, right =>
    if left < right then
      let middle := left + (right - left) / 2
      if p middle then lowerBoundFrom p fuel left middle
      else lowerBoundFrom p fuel (middle + 1) right
    else left

def upperBoundFrom (p : Nat → Bool) : Nat → Nat → Nat → Nat
  | 0, left, _ => left
  | fuel + 1, left, right =>
    if left < right then
      let middle := left + (right - left) / 2 + 1
      if p middle then upperBoundFrom p fuel middle right
      else upperBoundFrom p fuel left (middle - 1)
    else left

/-- Runs the bucket counts from `first` and keeps it when they use up every bucket. -/
def validatedFirstCount (totalBuckets levelCount first : Nat) : Option Nat :=
  let (counts, rest) := FunnelBucketCounts.take levelCount ⟨some first, totalBuckets, levelCount⟩
  if counts.length = levelCount ∧ rest.next.1 = none ∧ rest.next.2.remainingSum = 0 then some first
  else none

def nearestFeasibleFirstCount (totalBuckets levelCount : Nat) : Option Nat :=
  if levelCount = 0 ∨ totalBuckets < levelCount - 1 then none
  else
    let maximumFirst := totalBuckets - (levelCount - 1)
    if !maximumPathSumAtLeast totalBuckets levelCount maximumFirst 0 then none
    else
      let firstLower :=
        lowerBoundFrom (maximumPathSumAtLeast totalBuckets levelCount · 0) 64 1 maximumFirst
      if !minimumPathSumAtMost totalBuckets levelCount 1 0 then none
      else
        let firstUpper :=
          upperBoundFrom (minimumPathSumAtMost totalBuckets levelCount · 0) 64 1 maximumFirst
        if firstLower > firstUpper then none
        else
          let quotient := totalBuckets / 4
          let nearestEstimate := if totalBuckets % 4 ≤ 2 then quotient else quotient + 1
          let first := min (max nearestEstimate firstLower) firstUpper
          validatedFirstCount totalBuckets levelCount first

def compatibleMainLen (n beta fallbackBucketWidth alpha maximumMainCandidate : Nat) :
    Nat → Nat → Option (Nat × Nat)
  | 0, _ => none
  | steps + 1, mainLen =>
    if mainLen > maximumMainCandidate then none
    else
      let specialLen := n - mainLen
      let fallbackLen := specialLen / 2
      if fallbackLen ≥ fallbackBucketWidth ∧ fallbackLen % fallbackBucketWidth = 0 then
        (nearestFeasibleFirstCount (mainLen / beta) alpha).map fun first => (specialLen, first)
      else
        match checkedUsize (mainLen + beta) with
        | none => none
        | some mainLen =>
          compatibleMainLen n beta fallbackBucketWidth alpha maximumMainCandidate steps mainLen

def largestCompatibleSpecialLayout (n lower upper alpha beta fallbackBucketWidth : Nat) :
    Option (Nat × Nat) := do
  let minimumMainLen ← checkedUsize (alpha * beta)
  if minimumMainLen > n then none
  let minimumSpecialLen := max lower (← checkedUsize (fallbackBucketWidth * 2))
  let maximumSpecialLen := min upper (n - minimumMainLen)
  if minimumSpecialLen > maximumSpecialLen then none
  let minimumMainCandidate := n - maximumSpecialLen
  let maximumMainCandidate := n - minimumSpecialLen
  let minimumMainMultiple :=
    minimumMainCandidate / beta + if minimumMainCandidate % beta = 0 then 0 else 1
  if minimumMainMultiple > maximumMainCandidate / beta then none
  let mainLen ← checkedUsize (minimumMainMultiple * beta)
  let fallbackPeriod ← checkedUsize (fallbackBucketWidth * 2)
  let residueCycleLen := fallbackPeriod / Nat.gcd beta fallbackPeriod
  compatibleMainLen n beta fallbackBucketWidth alpha maximumMainCandidate residueCycleLen mainLen

namespace PaperConfig

def new (n reserveExponent : Nat) : Except ConfigError PaperConfig :=
  if n < 2 then .error (.nTooSmall n)
  else if reserveExponent = 0 then .error .exponentZero
  else .ok ⟨n, reserveExponent⟩

variable (c : PaperConfig)

def floorDeltaN : Nat := floorDivPow2 c.n c.reserveExponent

def maxInsertions : Nat := c.n - c.floorDeltaN

def funnelPlan : Except FunnelPlanError FunnelPlan :=
  if c.reserveExponent < 3 then .error (.exponentBelowMinimum c.reserveExponent 3)
  else match checkedUsize (c.reserveExponent * 4 + 10) with
  | none => .error (.derivedParameterOverflow .alpha c.reserveExponent)
  | some alpha =>
    match checkedUsize (c.reserveExponent * 2) with
    | none => .error (.derivedParameterOverflow .beta c.reserveExponent)
    | some beta =>
      let lower := ceilDivPow2 c.n (c.reserveExponent + 1)
      let upper := floorThreeDivPow2 c.n (c.reserveExponent + 2)
      let loglogCeiling := baseTwoLoglogCeiling c.n
      let fallbackBucketWidth := 2 * loglogCeiling
      match largestCompatibleSpecialLayout c.n lower upper alpha beta fallbackBucketWidth with
      | none =>
        .error (.noCompatibleSpecialLayout lower upper beta loglogCeiling fallbackBucketWidth)
      | some (specialLen, firstBucketCount) =>
        .ok ⟨c, alpha, beta, loglogCeiling, fallbackBucketWidth, specialLen, firstBucketCount⟩

end PaperConfig

namespace FunnelPlan

variable (p : FunnelPlan)

def specialPrimaryLen : Nat := p.specialLen / 2 + p.specialLen % 2

def specialFallbackLen : Nat := p.specialLen / 2

def fallbackBucketCount : Nat := p.specialFallbackLen / p.fallbackBucketWidth

def ordinaryBucketCounts : List Nat :=
  FunnelBucketCounts.items ⟨some p.firstBucketCount, (p.config.n - p.specialLen) / p.beta, p.alpha⟩

end FunnelPlan

/-- `LevelLengths` run to its end: half of what remains, rounded up, and the rest last. -/
def levelLengthsFrom : Nat → Nat → List Nat
  | _, 0 => []
  | remainingSlots, remainingLevels + 1 =>
    let length := if remainingLevels + 1 = 1 then remainingSlots
      else remainingSlots / 2 + remainingSlots % 2
    length :: levelLengthsFrom (remainingSlots - length) remainingLevels

def batchQuotasFrom (reserveExponent : Nat) : Option Nat → Nat → List Nat → List Nat
  | _, _, [] => []
  | previousLevel, remainingInsertions, level :: levels =>
    let rawQuota := match previousLevel with
      | some previous =>
        previous - floorDivPow2 previous (reserveExponent + 1) - ceilThreeQuarters previous +
          ceilThreeQuarters level
      | none => ceilThreeQuarters level
    let quota := min rawQuota remainingInsertions
    quota :: batchQuotasFrom reserveExponent (some level) (remainingInsertions - quota) levels

namespace PaperConfig

variable (c : PaperConfig)

def levelCount : Nat := ceilLog2 c.n

def levelLengths : List Nat := levelLengthsFrom c.n c.levelCount

def batchQuotas : List Nat := batchQuotasFrom c.reserveExponent none c.maxInsertions c.levelLengths

end PaperConfig

def funnelMinimumSlotsFrom (reserveExponent : Nat) : Nat → Nat → Option Nat
  | 0, _ => none
  | fuel + 1, n =>
    let minimumSpecialLen := 4 * baseTwoLoglogCeiling n
    if reserveExponent + 2 ≥ 128 ∨ minimumSpecialLen * 2 ^ (reserveExponent + 2) ≥ 2 ^ 128 then none
    else
      let required := (minimumSpecialLen * 2 ^ (reserveExponent + 2) + 2) / 3
      if required > usizeMax then none
      else if required ≤ n then some n
      else funnelMinimumSlotsFrom reserveExponent fuel required

/-- The required length depends on `n` only through one of six values of its log-log. -/
def funnelMinimumSlots (reserveExponent start : Nat) : Option Nat :=
  funnelMinimumSlotsFrom reserveExponent 8 start

theorem levelLengthsFrom_length (slots levels : Nat) : (levelLengthsFrom slots levels).length = levels := by
  induction levels generalizing slots with
  | zero => rfl
  | succ levels ih => simp [levelLengthsFrom, ih]

theorem levelLengthsFrom_sum {slots levels : Nat} (h : 0 < levels) :
    (levelLengthsFrom slots levels).sum = slots := by
  induction levels generalizing slots with
  | zero => omega
  | succ levels ih =>
    rcases Nat.eq_zero_or_pos levels with rfl | hpos
    · simp [levelLengthsFrom]
    · have hne : levels + 1 ≠ 1 := by omega
      simp only [levelLengthsFrom, hne, if_false, List.sum_cons, ih hpos]
      omega

theorem ceilLog2_pos {n : Nat} (h : 2 ≤ n) : 0 < ceilLog2 n := by
  simp only [ceilLog2, bitLength]
  split
  · omega
  · split <;> omega

theorem ceilLog2_le {n b : Nat} (h : n ≤ 2 ^ b) : ceilLog2 n ≤ b := by
  simp only [ceilLog2]
  split
  · omega
  · exact Probe.bitLength_le (by omega)

theorem levelLengths_sum {c : PaperConfig} (h : 2 ≤ c.n) : c.levelLengths.sum = c.n :=
  levelLengthsFrom_sum (ceilLog2_pos h)

theorem batchQuotasFrom_length (d : Nat) (previous : Option Nat) (remaining : Nat) (levels : List Nat) :
    (batchQuotasFrom d previous remaining levels).length = levels.length := by
  induction levels generalizing previous remaining with
  | nil => rfl
  | cons level levels ih => simp [batchQuotasFrom, ih]

end Opthash.Geometry
