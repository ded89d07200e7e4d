import Opthash.Exact.Probe
import Opthash.Lib.Words

namespace Opthash.Probe

/-- A word for every request an oracle supports. `none` stands for its panic. -/
def ProbeOracle : Type := UInt64 → ProbeDomain → Nat → Nat → Option UInt64

structure CounterPrf where
  seed : UInt64
  deriving DecidableEq, Repr

structure FunnelPrf where
  seed : UInt64
  deriving DecidableEq, Repr

def CounterPrf.word (prf : CounterPrf) : ProbeOracle := fun keyHash domain logicalProbeIndex rejectionIndex =>
  match domain with
  | .elasticOrdinary level => elasticOracleWord prf.seed keyHash level logicalProbeIndex rejectionIndex
  | _ => none

def PreparedFastFunnelProbe.wordFromCounter (p : PreparedFastFunnelProbe) (counter : UInt64) : UInt64 :=
  mix64 (counter ^^^ p.keyIn) ^^^ p.keyOut

def FunnelPrf.word (prf : FunnelPrf) : ProbeOracle := fun keyHash domain logicalProbeIndex rejectionIndex =>
  (tryPackFunnelCounter domain logicalProbeIndex rejectionIndex).map
    (prepareFunnel prf.seed keyHash).wordFromCounter

def reduceOracleWordsFrom (upper : Nat) (threshold : UInt64) (word : Nat → Option UInt64) :
    Nat → Nat → Option (Option ProbeIndex)
  | 0, _ => some none
  | remaining + 1, rejectionIndex => do
    let answer ← word rejectionIndex
    match acceptWord answer upper threshold with
    | some index => some (some ⟨index, rejectionIndex + 1⟩)
    | none => reduceOracleWordsFrom upper threshold word remaining (rejectionIndex + 1)

def unbiasedProbeIndex (oracle : ProbeOracle) (keyHash : UInt64) (domain : ProbeDomain)
    (logicalProbeIndex upper maxRandomWords : Nat) : Option (Except RangeReductionError ProbeIndex) :=
  if upper = 0 then some (.error .zeroUpperBound)
  else do
    match ← reduceOracleWordsFrom upper (rejectionThresholdOf upper)
        (oracle keyHash domain logicalProbeIndex) maxRandomWords 0 with
    | some probe => some (.ok probe)
    | none => some (.error (.rejectionLimitExceeded maxRandomWords))

section Unbiased

variable {upper index : Nat}

theorem rejectionThresholdOf_toNat (hpos : 0 < upper) (hlt : upper < 2 ^ 64) :
    (rejectionThresholdOf upper).toNat = 2 ^ 64 % upper := by
  have hupper := Words.toNat_ofNat_of_lt hlt
  have hneg : (0 - UInt64.ofNat upper).toNat = 2 ^ 64 - upper := by
    rw [UInt64.toNat_sub, hupper]
    change (2 ^ 64 - upper + 0) % 2 ^ 64 = _
    omega
  rw [rejectionThresholdOf, UInt64.toNat_mod, hneg, hupper]
  exact (Nat.mod_eq_sub_mod (Nat.le_of_lt hlt)).symm

theorem acceptWord_iff {word : UInt64} (hpos : 0 < upper) (hlt : upper < 2 ^ 64) :
    acceptWord word upper (rejectionThresholdOf upper) = some index ↔
      word.toNat ∈ Finset.Ico ((index * 2 ^ 64 + 2 ^ 64 % upper) ⌈/⌉ upper)
        ((index * 2 ^ 64 + 2 ^ 64 % upper) ⌈/⌉ upper + 2 ^ 64 / upper) := by
  rw [← Words.mem_scaled_iff hpos (Nat.le_of_lt hlt), acceptWord, rejectionThresholdOf_toNat hpos hlt]
  split
  · rename_i hlow
    simp only [hlow, true_and, Option.some.injEq]
  · rename_i hlow
    simp only [hlow, false_and, reduceCtorEq]

theorem acceptWord_ncard (hpos : 0 < upper) (hlt : upper < 2 ^ 64) (hindex : index < upper) :
    {word : UInt64 | acceptWord word upper (rejectionThresholdOf upper) = some index}.ncard = 2 ^ 64 / upper := by
  have himage : UInt64.toNat '' {word : UInt64 | acceptWord word upper (rejectionThresholdOf upper) = some index} =
      ↑(Finset.Ico ((index * 2 ^ 64 + 2 ^ 64 % upper) ⌈/⌉ upper)
        ((index * 2 ^ 64 + 2 ^ 64 % upper) ⌈/⌉ upper + 2 ^ 64 / upper)) := by
    ext w
    simp only [Set.mem_image, Set.mem_ofPred_eq, Finset.mem_coe]
    constructor
    · rintro ⟨word, hword, rfl⟩
      exact (acceptWord_iff hpos hlt).mp hword
    · intro hw
      have hrange := ((Words.mem_scaled_iff hpos (Nat.le_of_lt hlt)).mpr hw).2
      -- an index below the bound needs a factor below the word limit
      have hword : w < 2 ^ 64 := by
        by_contra hge
        have hmul : 2 ^ 64 * upper ≤ w * upper := Nat.mul_le_mul_right upper (by omega)
        have : upper ≤ w * upper / 2 ^ 64 := (Nat.le_div_iff_mul_le (by decide)).mpr (by omega)
        omega
      have hback := Words.toNat_ofNat_of_lt hword
      exact ⟨UInt64.ofNat w, (acceptWord_iff hpos hlt).mpr (hback.symm ▸ hw), hback⟩
  rw [← Set.ncard_image_of_injective _ (fun a b => UInt64.toNat_inj.mp), himage, Set.ncard_coe_finset,
    Nat.card_Ico, Nat.add_sub_cancel_left]

theorem reduceProbeWords_one (hpos : 0 < upper) (word : UInt64) :
    reduceProbeWords upper 1 (fun _ => word) =
      match acceptWord word upper (rejectionThresholdOf upper) with
      | some index => .ok ⟨index, 1⟩
      | none => .error (.rejectionLimitExceeded 1) := by
  rw [reduceProbeWords, if_neg (Nat.ne_of_gt hpos)]
  simp only [reduceProbeWordsFrom]
  cases acceptWord word upper (rejectionThresholdOf upper) <;> rfl

/-- One reduction step accepts the same number of words for every index below the bound. -/
theorem reduction_unbiased (hpos : 0 < upper) (hlt : upper < 2 ^ 64) :
    (∀ index < upper,
      {word : UInt64 | reduceProbeWords upper 1 (fun _ => word) = .ok ⟨index, 1⟩}.ncard = 2 ^ 64 / upper) ∧
    (∀ word probe, reduceProbeWords upper 1 (fun _ => word) = .ok probe → probe.index < upper) ∧
    ∃ range, PreparedProbeRange.new upper = .ok range ∧ range.upper = upper ∧
      range.rejectionThreshold.toNat = 2 ^ 64 % upper ∧
      ∀ word, reduceProbeWords upper 1 (fun _ => word) =
        match acceptWord word range.upper range.rejectionThreshold with
        | some index => .ok ⟨index, 1⟩
        | none => .error (.rejectionLimitExceeded 1) := by
  constructor
  · intro index hindex
    rw [← acceptWord_ncard hpos hlt hindex]
    congr 1
    ext word
    rw [Set.mem_ofPred_eq, Set.mem_ofPred_eq, reduceProbeWords_one hpos]
    cases acceptWord word upper (rejectionThresholdOf upper) <;> simp
  constructor
  · intro word probe h
    exact reduceProbeWords_lt h
  · have hnew : PreparedProbeRange.new upper = .ok ⟨upper, rejectionThresholdOf upper⟩ :=
      if_neg (Nat.ne_of_gt hpos)
    exact ⟨_, hnew, rfl, rejectionThresholdOf_toNat hpos hlt, reduceProbeWords_one hpos⟩

theorem reduction_unbiased_three :
    {word : UInt64 | reduceProbeWords 3 1 (fun _ => word) = .ok ⟨2, 1⟩}.ncard = 6148914691236517205 :=
  (reduction_unbiased (by decide) (by decide)).1 2 (by decide)

end Unbiased

section Fast

variable {seed keyHash : UInt64} {level logical upper cap : Nat}

theorem reduceOracleWordsFrom_eq {threshold : UInt64} {oracle : Nat → Option UInt64} {word : Nat → UInt64}
    {limit n i : Nat} (h : ∀ r < limit, oracle r = some (word r)) (hn : i + n ≤ limit) :
    reduceOracleWordsFrom upper threshold oracle n i = some (reduceProbeWordsFrom upper threshold word n i) := by
  induction n generalizing i with
  | zero => rfl
  | succ n ih =>
    rw [reduceOracleWordsFrom, reduceProbeWordsFrom, h i (by omega), Option.bind_eq_bind, Option.bind_some]
    cases acceptWord (word i) upper threshold with
    | some index => rfl
    | none => exact ih (by omega)

theorem unbiasedProbeIndex_eq {oracle : ProbeOracle} {domain : ProbeDomain} {word : Nat → UInt64}
    (h : ∀ r < cap, oracle keyHash domain logical r = some (word r)) :
    unbiasedProbeIndex oracle keyHash domain logical upper cap = some (reduceProbeWords upper cap word) := by
  rw [unbiasedProbeIndex, reduceProbeWords]
  by_cases hzero : upper = 0
  · rw [if_pos hzero, if_pos hzero]
  · rw [if_neg hzero, if_neg hzero, reduceOracleWordsFrom_eq h (Nat.le_of_eq (Nat.zero_add cap))]
    cases reduceProbeWordsFrom upper (rejectionThresholdOf upper) word cap 0 <;> rfl

theorem acceptWord_powerOfTwo {word : UInt64} (hpow : isPowerOfTwo upper) (hlt : upper < 2 ^ 64) :
    acceptWord word upper (rejectionThresholdOf upper) =
      some (if upper = 1 then 0 else word.toNat >>> (64 - Nat.log2 upper)) := by
  obtain ⟨hpos, hlog⟩ := isPowerOfTwo_iff.mp hpow
  have hbits : Nat.log2 upper < 64 := (Nat.log2_lt (Nat.ne_of_gt hpos)).mpr hlt
  have hwhole : 2 ^ 64 = 2 ^ (64 - Nat.log2 upper) * upper := by
    calc 2 ^ 64 = 2 ^ (64 - Nat.log2 upper) * 2 ^ Nat.log2 upper := by
          rw [← Nat.pow_add]
          congr 1
          omega
      _ = 2 ^ (64 - Nat.log2 upper) * upper := by rw [hlog]
  have hthreshold : (rejectionThresholdOf upper).toNat = 0 := by
    rw [rejectionThresholdOf_toNat hpos hlt, hwhole, Nat.mul_mod_left]
  have hshift : word.toNat * upper / 2 ^ 64 = word.toNat >>> (64 - Nat.log2 upper) := by
    rw [Nat.shiftRight_eq_div_pow, hwhole, Nat.mul_div_mul_right _ _ hpos]
  rw [acceptWord, hthreshold, if_pos (Nat.zero_le _), hshift]
  by_cases hone : upper = 1
  · rw [if_pos hone, hone, Nat.shiftRight_eq_div_pow]
    exact congrArg some (Nat.div_eq_of_lt word.toNat_lt)
  · rw [if_neg hone]

theorem elasticReducer_eq {probe : PreparedElasticProbe} {counterBase : UInt32} (hlt : upper < 2 ^ 64)
    (hcap : cap ≤ elasticRejectionLimit) :
    unbiasedPreparedElasticProbeIndex probe counterBase upper cap =
      reduceProbeWords upper cap (probe.wordFromCounterBase counterBase) := by
  rw [unbiasedPreparedElasticProbeIndex, if_neg (Nat.not_lt.mpr hcap)]
  by_cases hpow : isPowerOfTwo upper
  · have hpos := (isPowerOfTwo_iff.mp hpow).1
    rw [if_pos hpow, reduceProbeWords, if_neg (Nat.ne_of_gt hpos)]
    cases cap with
    | zero => rfl
    | succ cap =>
      rw [if_neg (Nat.succ_ne_zero cap), reduceProbeWordsFrom, acceptWord_powerOfTwo hpow hlt]
  · rw [if_neg hpow]

theorem funnelReducer_eq {probe : PreparedFastFunnelDomainProbe} {range : PreparedProbeRange}
    (hrange : PreparedProbeRange.new upper = .ok range) (hpos : 0 < upper) (hcap : cap ≤ 256) :
    unbiasedPreparedFunnelProbeIndexInRange probe logical range cap =
      reduceProbeWords upper cap (probe.wordFromIndices logical) := by
  have hnew : PreparedProbeRange.new upper = .ok ⟨upper, rejectionThresholdOf upper⟩ :=
    if_neg (Nat.ne_of_gt hpos)
  obtain rfl : _ = range := Except.ok.inj (hnew.symm.trans hrange)
  rw [unbiasedPreparedFunnelProbeIndexInRange, reduceProbeWords, if_neg (Nat.ne_of_gt hpos)]
  cases cap with
  | zero => rfl
  | succ cap =>
    rw [if_neg (Nat.succ_ne_zero cap), if_neg (by omega), reduceProbeWordsFrom, Nat.add_sub_cancel]
    dsimp only
    cases acceptWord (probe.wordFromIndices logical 0) upper (rejectionThresholdOf upper) with
    | some index => rfl
    | none => rfl

theorem counterPrf_word (hlevel : level < elasticLevelLimit) (hlogical : logical < elasticLogicalLimit)
    {r : Nat} (hr : r < elasticRejectionLimit) :
    (CounterPrf.mk seed).word keyHash (.elasticOrdinary level) logical r =
      some ((prepareElastic seed keyHash).wordFromCounterBase (elasticCounterBase level logical) r) := by
  have hfits : ¬(level ≥ elasticLevelLimit ∨ logical ≥ elasticLogicalLimit ∨ r ≥ elasticRejectionLimit) := by
    omega
  change Option.map _ (tryPackElasticCounter level logical r) = _
  rw [tryPackElasticCounter, if_neg hfits]
  rfl

theorem tryPackFunnelCounter_or {domain : ProbeDomain} {base : UInt64} {r : Nat}
    (hbase : tryPackFunnelCounter domain 0 0 = some base) (hlogical : logical < funnelLogicalLimit)
    (hr : r < funnelRejectionLimit) :
    tryPackFunnelCounter domain logical r = some (base ||| (UInt64.ofNat logical <<< 8) ||| UInt64.ofNat r) := by
  have hfits : ¬(logical ≥ funnelLogicalLimit ∨ r ≥ funnelRejectionLimit) := by omega
  have hzero : ∀ x : UInt64, x ||| (UInt64.ofNat 0 <<< 8) ||| UInt64.ofNat 0 = x := by
    intro x
    have hshift : UInt64.ofNat 0 <<< 8 = 0 := by decide
    rw [hshift, UInt64.or_zero]
    exact UInt64.or_zero
  rw [tryPackFunnelCounter, if_neg (by decide)] at hbase
  rw [tryPackFunnelCounter, if_neg hfits]
  dsimp only at hbase ⊢
  cases domain with
  | elasticOrdinary level => cases hbase
  | funnelOrdinary level =>
    dsimp only at hbase ⊢
    by_cases hlevel : level < funnelLevelLimit
    · rw [if_pos hlevel, hzero] at hbase
      rw [if_pos hlevel, Option.some.inj hbase]
    · rw [if_neg hlevel] at hbase
      cases hbase
  | funnelSpecialPrimary => rw [← Option.some.inj hbase, hzero]
  | funnelSpecialFallbackChoiceA => rw [← Option.some.inj hbase, hzero]
  | funnelSpecialFallbackChoiceB => rw [← Option.some.inj hbase, hzero]

theorem funnelPrf_word {domain : ProbeDomain} {base : UInt64} {r : Nat}
    (hbase : tryPackFunnelCounter domain 0 0 = some base) (hlogical : logical < funnelLogicalLimit)
    (hr : r < funnelRejectionLimit) :
    (FunnelPrf.mk seed).word keyHash domain logical r =
      some (((prepareFunnel seed keyHash).prepareCounterBase base).wordFromIndices logical r) := by
  change Option.map _ (tryPackFunnelCounter domain logical r) = _
  rw [tryPackFunnelCounter_or hbase hlogical hr]
  rfl

theorem specialBases_pack :
    tryPackFunnelCounter .funnelSpecialPrimary 0 0 = some funnelSpecialPrimaryBase ∧
    tryPackFunnelCounter .funnelSpecialFallbackChoiceA 0 0 = some funnelSpecialFallbackABase ∧
    tryPackFunnelCounter .funnelSpecialFallbackChoiceB 0 0 = some funnelSpecialFallbackBBase := by
  decide

/-- The reducers of both backends answer as the generic one does over the checked oracles. -/
theorem fast_reducers_exact (seed keyHash : UInt64) {logical upper cap : Nat} (hpos : 0 < upper)
    (hlt : upper < 2 ^ 64) :
    (∀ level < elasticLevelLimit, logical < elasticLogicalLimit → cap ≤ elasticRejectionLimit →
      unbiasedProbeIndex (CounterPrf.mk seed).word keyHash (.elasticOrdinary level) logical upper cap =
        some (unbiasedPreparedElasticProbeIndex (prepareElastic seed keyHash)
          (elasticCounterBase level logical) upper cap)) ∧
    (∀ domain base range, tryPackFunnelCounter domain 0 0 = some base →
      PreparedProbeRange.new upper = .ok range → logical < funnelLogicalLimit → cap ≤ funnelRejectionLimit →
      unbiasedProbeIndex (FunnelPrf.mk seed).word keyHash domain logical upper cap =
        some (unbiasedPreparedFunnelProbeIndexInRange
          ((prepareFunnel seed keyHash).prepareCounterBase base) logical range cap)) := by
  constructor
  · intro level hlevel hlogical hcap
    rw [elasticReducer_eq hlt hcap]
    apply unbiasedProbeIndex_eq
    intro r hr
    exact counterPrf_word hlevel hlogical (Nat.lt_of_lt_of_le hr hcap)
  · intro domain base range hbase hrange hlogical hcap
    rw [funnelReducer_eq hrange hpos hcap]
    apply unbiasedProbeIndex_eq
    intro r hr
    exact funnelPrf_word hbase hlogical (Nat.lt_of_lt_of_le hr hcap)

theorem fast_reducers_exact_three :
    unbiasedProbeIndex (CounterPrf.mk 7).word 9 (.elasticOrdinary 31) 8191 3 8 =
        some (unbiasedPreparedElasticProbeIndex (prepareElastic 7 9) (elasticCounterBase 31 8191) 3 8) ∧
      unbiasedProbeIndex (FunnelPrf.mk 7).word 9 .funnelSpecialPrimary 255 3 256 =
        some (unbiasedPreparedFunnelProbeIndexInRange
          ((prepareFunnel 7 9).prepareCounterBase funnelSpecialPrimaryBase) 255
            ⟨3, rejectionThresholdOf 3⟩ 256) :=
  ⟨(fast_reducers_exact 7 9 (by decide) (by decide)).1 31 (by decide) (by decide) (by decide),
    (fast_reducers_exact 7 9 (by decide) (by decide)).2 _ _ _ specialBases_pack.1 rfl (by decide) (by decide)⟩

end Fast

end Opthash.Probe
