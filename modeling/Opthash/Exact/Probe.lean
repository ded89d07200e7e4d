import Opthash.Machine

namespace Opthash.Probe

inductive ProbeDomain
  | elasticOrdinary (level : Nat)
  | funnelOrdinary (level : Nat)
  | funnelSpecialPrimary
  | funnelSpecialFallbackChoiceA
  | funnelSpecialFallbackChoiceB
  deriving DecidableEq, Repr

def wyhashDefaultSecret : List UInt64 :=
  [0x2D358DCCAA6C78A5, 0x8BB84B93962EACC9, 0x4B33A62ED433D4A3, 0x4D5A2DA51DE1AA47]

def initialLane : UInt64 := 0x9e3779b97f4a7c15
def keyLane : UInt64 := wyhashDefaultSecret.getD 0 0
def domainKindLane : UInt64 := wyhashDefaultSecret.getD 1 0
def elasticLogicalShift : Nat := 3
def elasticLevelLimit : Nat := 2 ^ 5
def elasticLogicalLimit : Nat := 2 ^ 13
def elasticRejectionLimit : Nat := 2 ^ elasticLogicalShift
def rangeWordCap : Nat := 8
def funnelLevelLimit : Nat := 2 ^ 46
def funnelLogicalLimit : Nat := 2 ^ 8
def funnelRejectionLimit : Nat := 2 ^ 8

def mix64 (value : UInt64) : UInt64 :=
  let value := (value ^^^ (value >>> 30)) * 0xbf58476d1ce4e5b9
  let value := (value ^^^ (value >>> 27)) * 0x94d049bb133111eb
  value ^^^ (value >>> 31)

structure PreparedElasticProbe where
  key : UInt64
  deriving DecidableEq, Repr

structure PreparedFastFunnelProbe where
  keyIn : UInt64
  keyOut : UInt64
  deriving DecidableEq, Repr

structure PreparedFastFunnelDomainProbe where
  keyIn : UInt64
  keyOut : UInt64
  counterBase : UInt64
  deriving DecidableEq, Repr

structure PreparedProbeRange where
  upper : Nat
  rejectionThreshold : UInt64
  deriving DecidableEq, Repr

structure ProbeIndex where
  index : Nat
  randomWordCount : Nat
  deriving DecidableEq, Repr

inductive RangeReductionError
  | zeroUpperBound
  | rejectionLimitExceeded (randomWordCount : Nat)
  deriving DecidableEq, Repr

/-- `upper.wrapping_neg() % upper` on 64-bit words. -/
def rejectionThresholdOf (upper : Nat) : UInt64 := (0 - UInt64.ofNat upper) % UInt64.ofNat upper

namespace PreparedProbeRange

def empty : PreparedProbeRange := ⟨0, 0⟩

def new (upper : Nat) : Except RangeReductionError PreparedProbeRange :=
  if upper = 0 then .error .zeroUpperBound else .ok ⟨upper, rejectionThresholdOf upper⟩

end PreparedProbeRange

def prepareElastic (seed keyHash : UInt64) : PreparedElasticProbe := ⟨keyHash + seed + initialLane⟩

def prepareFunnel (seed keyHash : UInt64) : PreparedFastFunnelProbe :=
  let keyed := keyHash + seed
  ⟨keyed + keyLane, mix64 (keyed + domainKindLane)⟩

def elasticCounterBase (level logicalProbeIndex : Nat) : UInt32 :=
  (UInt32.ofNat level <<< 16) ||| (UInt32.ofNat logicalProbeIndex <<< 3)

def tryPackElasticCounter (level logicalProbeIndex rejectionIndex : Nat) : Option UInt32 :=
  if level ≥ elasticLevelLimit ∨ logicalProbeIndex ≥ elasticLogicalLimit ∨
      rejectionIndex ≥ elasticRejectionLimit then
    none
  else some (elasticCounterBase level logicalProbeIndex ||| UInt32.ofNat rejectionIndex)

def elasticCounterLevel (counter : UInt32) : Nat := ((counter >>> 16) &&& 0x1f).toNat

def tryPackFunnelCounter (domain : ProbeDomain) (logicalProbeIndex rejectionIndex : Nat) :
    Option UInt64 :=
  if logicalProbeIndex ≥ funnelLogicalLimit ∨ rejectionIndex ≥ funnelRejectionLimit then none
  else
    let pack (tag : UInt64) (level : Nat) : UInt64 :=
      (tag <<< 62) ||| (UInt64.ofNat level <<< 16) ||| (UInt64.ofNat logicalProbeIndex <<< 8) |||
        UInt64.ofNat rejectionIndex
    match domain with
    | .funnelOrdinary level => if level < funnelLevelLimit then some (pack 0 level) else none
    | .funnelSpecialPrimary => some (pack 1 0)
    | .funnelSpecialFallbackChoiceA => some (pack 2 0)
    | .funnelSpecialFallbackChoiceB => some (pack 3 0)
    | .elasticOrdinary _ => none

def ordinaryCounterBase (level : Nat) : Option UInt64 := tryPackFunnelCounter (.funnelOrdinary level) 0 0

def funnelSpecialPrimaryBase : UInt64 := (1 : UInt64) <<< 62
def funnelSpecialFallbackABase : UInt64 := (2 : UInt64) <<< 62
def funnelSpecialFallbackBBase : UInt64 := (3 : UInt64) <<< 62

namespace PreparedElasticProbe

variable (p : PreparedElasticProbe)

def routingSignature : UInt64 := p.key

def wordFromPacked (counter : UInt32) : UInt64 := mix64 (counter.toUInt64 ^^^ p.key) ^^^ p.key

def wordFromCounterBase (counterBase : UInt32) (rejectionIndex : Nat) : UInt64 :=
  p.wordFromPacked (counterBase ||| UInt32.ofNat rejectionIndex)

end PreparedElasticProbe

def PreparedFastFunnelProbe.prepareCounterBase (p : PreparedFastFunnelProbe) (counterBase : UInt64) :
    PreparedFastFunnelDomainProbe :=
  ⟨p.keyIn, p.keyOut, counterBase⟩

def PreparedFastFunnelDomainProbe.wordFromIndices (p : PreparedFastFunnelDomainProbe)
    (logicalProbeIndex rejectionIndex : Nat) : UInt64 :=
  let counter := p.counterBase ||| (UInt64.ofNat logicalProbeIndex <<< 8) ||| UInt64.ofNat rejectionIndex
  mix64 (counter ^^^ p.keyIn) ^^^ p.keyOut

/-- One rejection step: the low half decides, the high half is the index. -/
def acceptWord (word : UInt64) (upper : Nat) (threshold : UInt64) : Option Nat :=
  let product := word.toNat * upper
  if threshold.toNat ≤ product % 2 ^ 64 then some (product / 2 ^ 64) else none

def reduceProbeWordsFrom (upper : Nat) (threshold : UInt64) (word : Nat → UInt64) :
    Nat → Nat → Option ProbeIndex
  | 0, _ => none
  | remaining + 1, rejectionIndex =>
    match acceptWord (word rejectionIndex) upper threshold with
    | some index => some ⟨index, rejectionIndex + 1⟩
    | none => reduceProbeWordsFrom upper threshold word remaining (rejectionIndex + 1)

def reduceProbeWords (upper maxRandomWords : Nat) (word : Nat → UInt64) :
    Except RangeReductionError ProbeIndex :=
  if upper = 0 then .error .zeroUpperBound
  else match reduceProbeWordsFrom upper (rejectionThresholdOf upper) word maxRandomWords 0 with
    | some probe => .ok probe
    | none => .error (.rejectionLimitExceeded maxRandomWords)

def isPowerOfTwo (upper : Nat) : Bool := upper != 0 && 2 ^ Nat.log2 upper == upper

def unbiasedPreparedElasticProbeIndex (probe : PreparedElasticProbe) (counterBase : UInt32)
    (upper maxRandomWords : Nat) : Except RangeReductionError ProbeIndex :=
  if maxRandomWords > elasticRejectionLimit then .error (.rejectionLimitExceeded 0)
  else if isPowerOfTwo upper then
    if maxRandomWords = 0 then .error (.rejectionLimitExceeded 0)
    else
      let word := probe.wordFromCounterBase counterBase 0
      .ok ⟨if upper = 1 then 0 else word.toNat >>> (64 - Nat.log2 upper), 1⟩
  else reduceProbeWords upper maxRandomWords (probe.wordFromCounterBase counterBase)

def reducePreparedFunnelRetries (probe : PreparedFastFunnelDomainProbe) (logicalProbeIndex : Nat)
    (range : PreparedProbeRange) (lastRejectionIndex : Nat) : Except RangeReductionError ProbeIndex :=
  match reduceProbeWordsFrom range.upper range.rejectionThreshold
      (probe.wordFromIndices logicalProbeIndex) lastRejectionIndex 1 with
  | some probe => .ok probe
  | none => .error (.rejectionLimitExceeded (lastRejectionIndex + 1))

def unbiasedPreparedFunnelProbeIndexInRange (probe : PreparedFastFunnelDomainProbe)
    (logicalProbeIndex : Nat) (range : PreparedProbeRange) (maxRandomWords : Nat) :
    Except RangeReductionError ProbeIndex :=
  if maxRandomWords = 0 then .error (.rejectionLimitExceeded 0)
  else if maxRandomWords - 1 ≥ 256 then .error (.rejectionLimitExceeded 0)
  else match acceptWord (probe.wordFromIndices logicalProbeIndex 0) range.upper
      range.rejectionThreshold with
    | some index => .ok ⟨index, 1⟩
    | none => reducePreparedFunnelRetries probe logicalProbeIndex range (maxRandomWords - 1)

/-- The scalar oracle's words: production's counter permutation on a checked tuple. -/
def elasticOracleWord (seed keyHash : UInt64) (level logicalProbeIndex rejectionIndex : Nat) :
    Option UInt64 :=
  (tryPackElasticCounter level logicalProbeIndex rejectionIndex).map
    (prepareElastic seed keyHash).wordFromPacked

inductive ElasticProbeBudgetError
  | invalidFreeSlots (freeSlots levelSlots : Nat)
  | zeroConstant
  | overflow
  deriving DecidableEq, Repr

def bitLength (value : Nat) : Nat := if value = 0 then 0 else Nat.log2 value + 1

def elasticDyadicProbeBudget (freeSlots levelSlots reserveExponent c : Nat) :
    Except ElasticProbeBudgetError Nat :=
  if freeSlots = 0 ∨ freeSlots > levelSlots then .error (.invalidFreeSlots freeSlots levelSlots)
  else if c = 0 then .error .zeroConstant
  else
    let quotient := levelSlots / freeSlots
    let ratio := if levelSlots % freeSlots = 0 then some quotient else checkedUsize (quotient + 1)
    match ratio with
    | none => .error .overflow
    | some ratioCeiling =>
      let logCeiling := bitLength (ratioCeiling - 1)
      match checkedUsize (logCeiling * logCeiling) with
      | none => .error .overflow
      | some logSquared =>
        match checkedUsize (c * min logSquared reserveExponent) with
        | none => .error .overflow
        | some budget => .ok budget

theorem bitLength_le {n b : Nat} (h : n < 2 ^ b) : bitLength n ≤ b := by
  unfold bitLength
  split
  · exact Nat.zero_le _
  · exact (Nat.log2_lt (by assumption)).mpr h

theorem acceptWord_lt {word threshold : UInt64} {upper index : Nat} (hpos : 0 < upper)
    (h : acceptWord word upper threshold = some index) : index < upper := by
  simp only [acceptWord] at h
  split at h
  · obtain rfl := Option.some.inj h
    exact Nat.div_lt_of_lt_mul (Nat.mul_lt_mul_of_pos_right word.toNat_lt hpos)
  · cases h

theorem reduceProbeWordsFrom_lt {upper n i : Nat} {threshold : UInt64} {word : Nat → UInt64}
    {p : ProbeIndex} (hpos : 0 < upper)
    (h : reduceProbeWordsFrom upper threshold word n i = some p) : p.index < upper := by
  induction n generalizing i with
  | zero => cases h
  | succ n ih =>
    simp only [reduceProbeWordsFrom] at h
    split at h
    · rename_i index hindex
      obtain rfl := Option.some.inj h
      exact acceptWord_lt hpos hindex
    · exact ih h

theorem reduceProbeWords_lt {upper cap : Nat} {word : Nat → UInt64} {p : ProbeIndex}
    (h : reduceProbeWords upper cap word = .ok p) : p.index < upper := by
  simp only [reduceProbeWords] at h
  split at h
  · cases h
  · split at h
    · rename_i hpos q hq
      obtain rfl := Except.ok.inj h
      exact reduceProbeWordsFrom_lt (by omega) hq
    · cases h

theorem isPowerOfTwo_iff {upper : Nat} : isPowerOfTwo upper ↔ 0 < upper ∧ 2 ^ Nat.log2 upper = upper := by
  simp [isPowerOfTwo, Nat.pos_iff_ne_zero]

theorem shiftRight_lt_of_powerOfTwo {word : UInt64} {upper : Nat} (h : isPowerOfTwo upper)
    (hlt : upper < 2 ^ 64) : word.toNat >>> (64 - Nat.log2 upper) < upper := by
  obtain ⟨hpos, hpow⟩ := isPowerOfTwo_iff.mp h
  have hlog : Nat.log2 upper < 64 := (Nat.log2_lt (by omega)).mpr hlt
  rw [Nat.shiftRight_eq_div_pow]
  apply Nat.div_lt_of_lt_mul
  calc word.toNat < 2 ^ 64 := word.toNat_lt
    _ = 2 ^ (64 - Nat.log2 upper) * 2 ^ Nat.log2 upper := by
      rw [← Nat.pow_add]
      congr 1
      omega
    _ = 2 ^ (64 - Nat.log2 upper) * upper := by rw [hpow]

theorem elasticProbeIndex_lt {probe : PreparedElasticProbe} {base : UInt32} {upper cap : Nat}
    {p : ProbeIndex} (hlt : upper < 2 ^ 64)
    (h : unbiasedPreparedElasticProbeIndex probe base upper cap = .ok p) : p.index < upper := by
  simp only [unbiasedPreparedElasticProbeIndex] at h
  split at h
  · cases h
  · split at h
    · rename_i hpow
      split at h
      · cases h
      · obtain rfl := Except.ok.inj h
        dsimp only
        split
        · omega
        · exact shiftRight_lt_of_powerOfTwo hpow hlt
    · exact reduceProbeWords_lt h

theorem funnelProbeIndex_lt {probe : PreparedFastFunnelDomainProbe} {logical cap : Nat}
    {range : PreparedProbeRange} {p : ProbeIndex} (hpos : 0 < range.upper)
    (h : unbiasedPreparedFunnelProbeIndexInRange probe logical range cap = .ok p) :
    p.index < range.upper := by
  simp only [unbiasedPreparedFunnelProbeIndexInRange] at h
  split at h
  · cases h
  · split at h
    · cases h
    · split at h
      · rename_i index hindex
        obtain rfl := Except.ok.inj h
        exact acceptWord_lt hpos hindex
      · simp only [reducePreparedFunnelRetries] at h
        split at h
        · rename_i q hq
          obtain rfl := Except.ok.inj h
          exact reduceProbeWordsFrom_lt hpos hq
        · cases h

end Opthash.Probe
