import Opthash.Epoch
import Opthash.Lib.Fields

namespace Opthash

open Fields

/-- What the packed word stands for, a field each. -/
structure EpochRecord where
  generation : Nat
  recoveries : Nat
  hadDelete : Bool
  transition : EpochTransition
  deletions : Nat
  deriving DecidableEq, Repr

inductive EpochOp
  | noteDelete
  | start (transition : EpochTransition)
  | startWithPlacementRecovery (transition : EpochTransition)
  | notePlacementRecovery
  | startEpoch (transition : EpochTransition) (recovered : Bool)
  deriving DecidableEq, Repr

namespace EpochRecord

def initial : EpochRecord := ⟨0, 0, false, .initial, 0⟩

variable (r : EpochRecord)

def noteDelete : EpochRecord := { r with hadDelete := true, deletions := min (r.deletions + 1) usizeMax }

def start (transition : EpochTransition) : EpochRecord :=
  { r with generation := min (r.generation + 1) u32Max, hadDelete := false, transition, deletions := 0 }

def notePlacementRecovery : EpochRecord := { r with recoveries := min (r.recoveries + 1) (2 ^ 28 - 1) }

def run : EpochOp → EpochRecord
  | .noteDelete => r.noteDelete
  | .start transition => r.start transition
  | .startWithPlacementRecovery transition => r.notePlacementRecovery.start transition
  | .notePlacementRecovery => r.notePlacementRecovery
  | .startEpoch transition recovered =>
    if recovered then r.notePlacementRecovery.start transition else r.start transition

end EpochRecord

namespace EpochState

variable (e : EpochState)

def run : EpochOp → EpochState
  | .noteDelete => e.noteDelete
  | .start transition => e.start transition
  | .startWithPlacementRecovery transition => e.startWithPlacementRecovery transition
  | .notePlacementRecovery => e.notePlacementRecovery
  | .startEpoch transition recovered => e.startEpoch transition recovered

/-- The fields as the packed word's readers see them. -/
def decode : EpochRecord where
  generation := e.generation.toNat
  recoveries := e.placementRecoveries.toNat
  hadDelete := e.lifecycle &&& hadDeleteMask != 0
  transition := transitionFromBits ((e.lifecycle &&& transitionMask) >>> transitionShift)
  deletions := e.deletions

theorem generation_lt : e.generation.toNat < 2 ^ 32 := toNat_lt_of_and rfl

theorem placementRecoveries_lt : e.placementRecoveries.toNat < 2 ^ 28 := by
  have hle : (e.lifecycle &&& recoveryMask).toNat ≤ recoveryMask.toNat := by
    rw [UInt64.toNat_and]
    exact Nat.and_le_right
  have hmask : recoveryMask.toNat = 0x0fffffff00000000 := rfl
  have hshift : recoveryShift.toNat % 64 = 32 := rfl
  rw [placementRecoveries, UInt64.toNat_shiftRight, hshift, Nat.shiftRight_eq_div_pow]
  omega

theorem transitionFromBits_bits (transition : EpochTransition) : transitionFromBits transition.bits = transition := by
  cases transition <;> rfl

theorem within_transition (transition : EpochTransition) :
    Within transitionMask (transition.bits <<< transitionShift) := by cases transition <;> rfl

theorem decode_noteDelete : e.noteDelete.decode = e.decode.noteDelete := by
  have hkeep : ∀ m : UInt64, hadDeleteMask &&& m = 0 → (e.lifecycle ||| hadDeleteMask) &&& m = e.lifecycle &&& m := by
    intro m hm
    rw [or_and, hm, UInt64.or_zero]
  have hset : (e.lifecycle ||| hadDeleteMask) &&& hadDeleteMask ≠ 0 := by
    rw [or_and, UInt64.and_self, Ne, UInt64.or_eq_zero_iff]
    exact fun h => absurd h.2 (by decide)
  simp only [decode, noteDelete, EpochRecord.noteDelete, generation, placementRecoveries, hkeep generationMask rfl,
    hkeep recoveryMask rfl, hkeep transitionMask rfl, bne_iff_ne.mpr hset, saturatingUsize]

theorem fields_started {generation : UInt64} (hgeneration : Within generationMask generation)
    (transition : EpochTransition) :
    let word := (e.lifecycle &&& recoveryMask) ||| generation ||| (transition.bits <<< transitionShift)
    word &&& generationMask = generation ∧ word &&& recoveryMask = e.lifecycle &&& recoveryMask ∧
      word &&& hadDeleteMask = 0 ∧ word &&& transitionMask = transition.bits <<< transitionShift := by
  have hrecovery := within_and e.lifecycle recoveryMask
  have htransition := within_transition transition
  refine ⟨?_, ?_, ?_, ?_⟩
  · rw [or_and, or_and, hrecovery.and_disjoint rfl, htransition.and_disjoint rfl, hgeneration, UInt64.zero_or,
      UInt64.or_zero]
  · rw [or_and, or_and, hrecovery, hgeneration.and_disjoint rfl, htransition.and_disjoint rfl, UInt64.or_zero,
      UInt64.or_zero]
  · rw [or_and, or_and, hrecovery.and_disjoint rfl, hgeneration.and_disjoint rfl, htransition.and_disjoint rfl]
    rfl
  · rw [or_and, or_and, hrecovery.and_disjoint rfl, hgeneration.and_disjoint rfl, htransition, UInt64.or_self,
      UInt64.zero_or]

theorem decode_start (transition : EpochTransition) : (e.start transition).decode = e.decode.start transition := by
  have hlt := e.generation_lt
  -- The generation saturates, so the sum does not carry into the recoveries.
  obtain ⟨generation, hstart, hvalue⟩ : ∃ generation : UInt64,
      e.start transition =
        ⟨0, (e.lifecycle &&& recoveryMask) ||| generation ||| (transition.bits <<< transitionShift)⟩ ∧
      generation.toNat = min (e.generation.toNat + 1) u32Max := by
    refine ⟨_, rfl, ?_⟩
    have hmask : generationMask.toNat = u32Max := rfl
    have hmax : u32Max = 2 ^ 32 - 1 := rfl
    by_cases hfull : e.generation = generationMask
    · rw [if_pos hfull, hfull, hmask]
      omega
    · have hne : e.generation.toNat ≠ u32Max := fun h => hfull (UInt64.toNat_inj.mp (h.trans hmask.symm))
      have hone : (1 : UInt64).toNat = 1 := rfl
      rw [if_neg hfull, UInt64.toNat_add, hone]
      omega
  have hwithin : Within generationMask generation := by
    have hmax : u32Max = 2 ^ 32 - 1 := rfl
    have hsmall : generation.toNat < 2 ^ 32 := by omega
    exact within_of_lt hsmall rfl
  obtain ⟨hgeneration, hrecovery, hdelete, htransition⟩ := e.fields_started hwithin transition
  have hshift : transition.bits <<< transitionShift >>> transitionShift = transition.bits := by cases transition <;> rfl
  rw [hstart]
  simp only [decode, EpochRecord.start, EpochState.generation, placementRecoveries, hgeneration, hrecovery, hdelete,
    htransition, hshift, transitionFromBits_bits, hvalue, bne_self_eq_false]

theorem decode_notePlacementRecovery : e.notePlacementRecovery.decode = e.decode.notePlacementRecovery := by
  have hlt := e.placementRecoveries_lt
  obtain ⟨recoveries, hnote, hvalue⟩ : ∃ recoveries : UInt64,
      e.notePlacementRecovery =
        { e with lifecycle := (e.lifecycle &&& ~~~recoveryMask) ||| (recoveries <<< recoveryShift) } ∧
      recoveries.toNat = min (e.placementRecoveries.toNat + 1) (2 ^ 28 - 1) := by
    refine ⟨_, rfl, ?_⟩
    have hmax : (recoveryMask >>> recoveryShift).toNat = 2 ^ 28 - 1 := rfl
    have hone : (1 : UInt64).toNat = 1 := rfl
    have hsum : (e.placementRecoveries + 1).toNat = e.placementRecoveries.toNat + 1 := by
      rw [UInt64.toNat_add, hone]
      omega
    rw [← hsum, ← hmax]
    change (if e.placementRecoveries + 1 ≤ recoveryMask >>> recoveryShift then _ else _ : UInt64).toNat = _
    by_cases hle : e.placementRecoveries + 1 ≤ recoveryMask >>> recoveryShift
    · rw [if_pos hle, Nat.min_eq_left (UInt64.le_iff_toNat_le.mp hle)]
    · rw [if_neg hle, Nat.min_eq_right (Nat.le_of_not_le fun h => hle (UInt64.le_iff_toNat_le.mpr h))]
  have hsmall : recoveries.toNat < 2 ^ 28 := by omega
  have hwithin : Within recoveryMask (recoveries <<< recoveryShift) :=
    (within_of_lt (m := 0x0fffffff) hsmall rfl).shiftLeft recoveryShift
  have hback : recoveries <<< recoveryShift >>> recoveryShift = recoveries := by
    have hshift : recoveryShift.toNat = 32 := rfl
    apply shiftLeft_shiftRight
    · omega
    · rw [hshift]
      omega
  have hkeep : ∀ m : UInt64, ~~~recoveryMask &&& m = m → recoveryMask &&& m = 0 →
      ((e.lifecycle &&& ~~~recoveryMask) ||| (recoveries <<< recoveryShift)) &&& m = e.lifecycle &&& m := by
    intro m hm hapart
    rw [or_and, UInt64.and_assoc, hm, hwithin.and_disjoint hapart, UInt64.or_zero]
  have hfield : ((e.lifecycle &&& ~~~recoveryMask) ||| (recoveries <<< recoveryShift)) &&& recoveryMask =
      recoveries <<< recoveryShift := by
    rw [or_and, UInt64.and_assoc, UInt64.not_and_self, UInt64.and_zero, UInt64.zero_or]
    exact hwithin
  rw [hnote]
  simp only [decode, EpochRecord.notePlacementRecovery, generation, placementRecoveries, hkeep generationMask rfl rfl,
    hkeep hadDeleteMask rfl rfl, hkeep transitionMask rfl rfl, hfield, hback, hvalue]

theorem decode_run (op : EpochOp) : (e.run op).decode = e.decode.run op := by
  cases op with
  | noteDelete => exact e.decode_noteDelete
  | start transition => exact e.decode_start transition
  | startWithPlacementRecovery transition =>
    exact (e.notePlacementRecovery.decode_start transition).trans
      (congrArg (EpochRecord.start · transition) e.decode_notePlacementRecovery)
  | notePlacementRecovery => exact e.decode_notePlacementRecovery
  | startEpoch transition recovered =>
    cases recovered with
    | false => exact e.decode_start transition
    | true =>
      exact (e.notePlacementRecovery.decode_start transition).trans
        (congrArg (EpochRecord.start · transition) e.decode_notePlacementRecovery)

/-- However many operations came before, the packed word stands for the record they made. -/
theorem decode_foldl (ops : List EpochOp) (e : EpochState) :
    (ops.foldl run e).decode = ops.foldl EpochRecord.run e.decode := by
  induction ops generalizing e with
  | nil => rfl
  | cons op ops ih => rw [List.foldl_cons, List.foldl_cons, ih, decode_run]

theorem decode_initial : initial.decode = .initial := rfl

end EpochState

end Opthash
