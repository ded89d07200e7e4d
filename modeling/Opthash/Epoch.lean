import Opthash.Machine

namespace Opthash

def generationMask : UInt64 := 0xffffffff
def recoveryShift : UInt64 := 32
def recoveryMask : UInt64 := 0x0fffffff00000000
def transitionShift : UInt64 := 60
def transitionMask : UInt64 := 0x7000000000000000
def hadDeleteMask : UInt64 := 0x8000000000000000

inductive EpochTransition
  | initial
  | growth
  | tombstoneCleanup
  | explicitResize
  | clear
  | placementRecovery
  deriving DecidableEq, Repr

namespace EpochTransition

def bits : EpochTransition → UInt64
  | initial => 0
  | growth => 1
  | tombstoneCleanup => 2
  | explicitResize => 3
  | clear => 4
  | placementRecovery => 5

end EpochTransition

/-- `transition_from_bits`: the transition whose discriminant the field holds. -/
def transitionFromBits (bits : UInt64) : EpochTransition :=
  if bits = 1 then .growth
  else if bits = 2 then .tombstoneCleanup
  else if bits = 3 then .explicitResize
  else if bits = 4 then .clear
  else if bits = 5 then .placementRecovery
  else .initial

structure EpochSnapshot where
  generation : Nat
  distinctInsertions : Nat
  hadDelete : Bool
  placementRecoveries : Nat
  transition : EpochTransition
  deriving DecidableEq, Repr

structure EpochState where
  deletions : Nat
  lifecycle : UInt64
  deriving DecidableEq, Repr

namespace EpochState

def initial : EpochState := ⟨0, 0⟩

variable (e : EpochState)

def generation : UInt64 := e.lifecycle &&& generationMask

def placementRecoveries : UInt64 := (e.lifecycle &&& recoveryMask) >>> recoveryShift

def noteDelete : EpochState :=
  ⟨saturatingUsize (e.deletions + 1), e.lifecycle ||| hadDeleteMask⟩

def start (transition : EpochTransition) : EpochState :=
  let generation := if e.generation = generationMask then generationMask else e.generation + 1
  ⟨0, (e.lifecycle &&& recoveryMask) ||| generation ||| (transition.bits <<< transitionShift)⟩

def notePlacementRecovery : EpochState :=
  let recoveries := min (e.placementRecoveries + 1) (recoveryMask >>> recoveryShift)
  { e with lifecycle := (e.lifecycle &&& ~~~recoveryMask) ||| (recoveries <<< recoveryShift) }

def startWithPlacementRecovery (transition : EpochTransition) : EpochState :=
  e.notePlacementRecovery.start transition

def startEpoch (transition : EpochTransition) (recovered : Bool) : EpochState :=
  if recovered then e.startWithPlacementRecovery transition else e.start transition

def snapshot (liveEntries : Nat) : EpochSnapshot where
  generation := e.generation.toNat
  distinctInsertions := saturatingUsize (liveEntries + e.deletions)
  hadDelete := e.lifecycle &&& hadDeleteMask != 0
  placementRecoveries := e.placementRecoveries.toNat
  transition := transitionFromBits ((e.lifecycle &&& transitionMask) >>> transitionShift)

end EpochState

end Opthash
