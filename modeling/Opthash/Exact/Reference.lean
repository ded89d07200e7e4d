import Opthash.Exact.Geometry
import Opthash.Exact.Pairing

namespace Opthash.Reference

open Probe Opthash.Geometry

structure ScalarElasticLimits where
  probeBudgetC : Nat
  rangeWordCap : Nat
  uniformSearchProbeCap : Nat
  hitQueryPositionCap : Nat
  deriving DecidableEq, Repr

structure ScalarElasticLocation where
  level : Nat
  slotInLevel : Nat
  globalSlot : Nat
  deriving DecidableEq, Repr

inductive ElasticCase
  | batch0 (level : Nat)
  | case1 (batch currentLevel nextLevel freeCurrent freeNext budget : Nat)
  | case2 (batch currentLevel nextLevel freeCurrent freeNext : Nat)
  | case3 (batch currentLevel nextLevel freeCurrent freeNext : Nat)
  deriving DecidableEq, Repr

structure ScalarElasticInsertion where
  case : ElasticCase
  location : ScalarElasticLocation
  paperProbe : Nat
  phi : Nat
  deriving DecidableEq, Repr

/-- Where a lookup of the oracle found its identity and how many positions it took. -/
structure ScalarElasticQuery where
  foundPosition : Nat
  globalSlot : Nat
  logicalPositions : Nat
  mappedPositions : Nat
  gapPositions : Nat
  scalarInspections : Nat
  deriving DecidableEq, Repr

/-- The oracle's slots hold identities; `seed` is the seed of its counter permutation. -/
structure ScalarElastic where
  config : PaperConfig
  seed : UInt64
  limits : ScalarElasticLimits
  levels : List Nat
  offsets : List Nat
  quotas : List Nat
  occupancy : List Nat
  slots : List (Option UInt64)
  len : Nat

namespace ScalarElastic

def offsetsFrom : Nat → List Nat → List Nat
  | _, [] => []
  | offset, length :: lengths => offset :: offsetsFrom (offset + length) lengths

/-- `None` stands for a panic of the oracle. -/
def new (config : PaperConfig) (seed : UInt64) (limits : ScalarElasticLimits) : Option ScalarElastic :=
  let levels := config.levelLengths
  if levels.sum = config.n then
    some {
      config, seed, limits, levels
      offsets := offsetsFrom 0 levels
      quotas := config.batchQuotas
      occupancy := List.replicate levels.length 0
      slots := List.replicate config.n none
      len := 0 }
  else none

variable (s : ScalarElastic)

def activeBatchFrom : Nat → Nat → List Nat → Option Nat
  | _, _, [] => none
  | batch, total, quota :: quotas =>
    if s.len < total + quota then some batch else activeBatchFrom (batch + 1) (total + quota) quotas

def activeBatch : Option Nat := s.activeBatchFrom 0 0 s.quotas

/-- One range reduction over the oracle's words, `none` when a word or the reduction fails. -/
def routeFrom (level : Nat) (identity : UInt64) (logicalIndex upper : Nat) : Nat → Nat → Option Nat
  | 0, _ => none
  | remaining + 1, rejectionIndex => do
    let word ← elasticOracleWord s.seed identity level logicalIndex rejectionIndex
    match acceptWord word upper (rejectionThresholdOf upper) with
    | some index => some index
    | none => routeFrom level identity logicalIndex upper remaining (rejectionIndex + 1)

def route (level : Nat) (identity : UInt64) (logicalIndex : Nat) : Option Nat := do
  let upper ← s.levels[level]?
  let offset ← s.offsets[level]?
  if upper = 0 then none
  else
    let index ← s.routeFrom level identity logicalIndex upper s.limits.rangeWordCap 0
    some (offset + index)

/-- The slot in the level when it is free. The outer `none` is a panic. -/
def vacancy (level : Nat) (identity : UInt64) (logicalIndex : Nat) : Option (Option Nat) := do
  let globalSlot ← s.route level identity logicalIndex
  let offset ← s.offsets[level]?
  let slot ← s.slots[globalSlot]?
  some (if slot.isNone then some (globalSlot - offset) else none)

def firstVacancyFrom (level : Nat) (identity : UInt64) : Nat → Nat → Option (Option (Nat × Nat))
  | 0, _ => some none
  | remaining + 1, logicalIndex => do
    match ← s.vacancy level identity logicalIndex with
    | some slot => some (some (slot, logicalIndex + 1))
    | none => firstVacancyFrom level identity remaining (logicalIndex + 1)

def uniformVacancy (level : Nat) (identity : UInt64) : Option (Nat × Nat) := do
  let found ← s.firstVacancyFrom level identity s.limits.uniformSearchProbeCap 0
  found

/-- The rule, level, slot in the level and paper probe that place an identity. -/
def choose (identity : UInt64) (batch : Nat) : Option (ElasticCase × Nat × Nat × Nat) :=
  if batch = 0 then do
    let (slot, probe) ← s.uniformVacancy 0 identity
    some (.batch0 0, 0, slot, probe)
  else do
    let current := batch - 1
    let next := batch
    let levelCurrent ← s.levels[current]?
    let levelNext ← s.levels[next]?
    let freeCurrent := levelCurrent - (← s.occupancy[current]?)
    let freeNext := levelNext - (← s.occupancy[next]?)
    let currentThreshold := floorDivPow2 levelCurrent (s.config.reserveExponent + 1)
    let nextThreshold := levelNext / 4
    let currentLow := freeCurrent ≤ currentThreshold
    let nextLow := freeNext ≤ nextThreshold
    if currentLow ∧ nextLow then none
    else if currentLow then
      let (slot, probe) ← s.uniformVacancy next identity
      some (.case2 batch current next freeCurrent freeNext, next, slot, probe)
    else if nextLow then
      let (slot, probe) ← s.uniformVacancy current identity
      some (.case3 batch current next freeCurrent freeNext, current, slot, probe)
    else
      let budget ← (elasticDyadicProbeBudget freeCurrent levelCurrent s.config.reserveExponent
        s.limits.probeBudgetC).toOption
      let case := ElasticCase.case1 batch current next freeCurrent freeNext budget
      match ← s.firstVacancyFrom current identity budget 0 with
      | some (slot, probe) => some (case, current, slot, probe)
      | none =>
        let (slot, probe) ← s.uniformVacancy next identity
        some (case, next, slot, probe)

def insert (identity : UInt64) : Option (ScalarElasticInsertion × ScalarElastic) :=
  if s.slots.contains (some identity) then none
  else do
    let batch ← s.activeBatch
    let (case, level, slotInLevel, paperProbe) ← s.choose identity batch
    let offset ← s.offsets[level]?
    let globalSlot := offset + slotInLevel
    if s.slots[globalSlot]? ≠ some none then none
    else
      let phi ← (elasticPhi (level + 1) paperProbe).toOption
      if phi > s.limits.hitQueryPositionCap then none
      else some (⟨case, ⟨level, slotInLevel, globalSlot⟩, paperProbe, phi⟩,
        { s with
          slots := s.slots.set globalSlot (some identity)
          occupancy := s.occupancy.modify level (· + 1)
          len := s.len + 1 })

def mapped (position : Nat) : Option (Nat × Nat) :=
  match elasticPhiInverse position with
  | some (paperI, paperJ) => if paperI ≤ s.levels.length then some (paperI - 1, paperJ - 1) else none
  | none => none

/-- The positions from `position` on, in lookup order. A position that stands for no probe repeats the first probe of
level 0, whose slot is kept once it is known. -/
def queryFrom (identity : UInt64) : Nat → Nat → Option Nat → Nat → Nat → Option ScalarElasticQuery
  | 0, _, _, _, _ => none
  | remaining + 1, position, h11, mappedPositions, gapPositions => do
    let probe := s.mapped position
    let (level, logicalIndex) := probe.getD (0, 0)
    let mappedPositions := if probe.isSome then mappedPositions + 1 else mappedPositions
    let gapPositions := if probe.isSome then gapPositions else gapPositions + 1
    let isH11 : Bool := level = 0 ∧ logicalIndex = 0
    let globalSlot ← if isH11 then h11.or (s.route level identity logicalIndex) else s.route level identity logicalIndex
    let stored ← s.slots[globalSlot]?
    if stored = some identity then
      some ⟨position, globalSlot, position, mappedPositions, gapPositions, position⟩
    else
      queryFrom identity remaining (position + 1) (if isH11 then some globalSlot else h11) mappedPositions gapPositions

/-- `None` stands for a panic: no position finds the identity, or a range reduction fails before one does. -/
def query (identity : UInt64) : Option ScalarElasticQuery :=
  s.queryFrom identity s.limits.hitQueryPositionCap 1 none 0 0

end ScalarElastic

end Opthash.Reference
